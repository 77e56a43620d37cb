import MessageQueue.Base.Bytes

/-! The Adler-32 checksum: the sum of the bytes, and the sum of these sums, both modulo the largest
prime below 2^16. The first one alone notices that a byte has changed. -/
namespace MessageQueue.Base.Adler

def base : ℕ := 65521

def step (s : ℕ × ℕ) (b : UInt8) : ℕ × ℕ :=
  let low := (s.1+b.toNat)%base
  (low,(s.2+low)%base)

/-- The checksum of bytes that come after others, whose checksum is known. -/
def adler32 (start : BitVec 32) (bs : Bytes) : BitVec 32 :=
  let s := bs.foldl step (start.toNat%65536,start.toNat/65536)
  .ofNat 32 (65536*s.2+s.1)

variable {bs front back : Bytes} {b b' : UInt8} {s t : ℕ × ℕ}

theorem foldl_lt (bs : Bytes) (s : ℕ × ℕ) (h : bs ≠ []) :
    (bs.foldl step s).1 < base ∧ (bs.foldl step s).2 < base := by
  have hbase : 0 < base := by decide
  obtain ⟨init,last,rfl⟩ := List.eq_nil_or_concat bs |>.resolve_left h
  rw [List.concat_eq_append,List.foldl_concat]
  exact ⟨Nat.mod_lt _ hbase,Nat.mod_lt _ hbase⟩

/-- A difference of the first sums is never lost. -/
theorem foldl_ne (h : s.1%base ≠ t.1%base) :
    (bs.foldl step s).1%base ≠ (bs.foldl step t).1%base := by
  induction bs generalizing s t with
  | nil => exact h
  | cons b bs ih =>
    refine ih ?_
    simp only [step,base] at h ⊢
    omega

theorem step_ne (h : b ≠ b') (s : ℕ × ℕ) : (step s b).1%base ≠ (step s b').1%base := by
  have hb := b.toNat_lt
  have hb' := b'.toNat_lt
  have hne : b.toNat ≠ b'.toNat := fun heq => h (UInt8.toNat_inj.mp heq)
  simp only [step,base]
  omega

/-- One byte in place of another changes the checksum. -/
theorem adler32_ne (h : b ≠ b') (start : BitVec 32) :
    adler32 start (front ++ b::back) ≠ adler32 start (front ++ b'::back) := by
  set s := (start.toNat%65536,start.toNat/65536) with hs
  intro heq
  have hlt := foldl_lt (front ++ b::back) s (by simp)
  have hlt' := foldl_lt (front ++ b'::back) s (by simp)
  have hnat := congrArg BitVec.toNat heq
  simp only [adler32,← hs,BitVec.toNat_ofNat] at hnat
  have hsum : ((front ++ b::back).foldl step s).1%base ≠
      ((front ++ b'::back).foldl step s).1%base := by
    rw [List.foldl_append,List.foldl_append,List.foldl_cons,List.foldl_cons]
    exact foldl_ne (step_ne h _)
  simp only [base] at hlt hlt' hsum
  omega

end MessageQueue.Base.Adler

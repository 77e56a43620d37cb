import Mathlib.Data.List.Basic
import Mathlib.Tactic.Ring
import Mathlib.Tactic.NormNum

/-! Byte strings: words in either byte order and the two ways a file is written, at its end and over
bytes that it already holds. -/
namespace MessageQueue.Base

abbrev Bytes := List UInt8

namespace Bytes

/-- The `w` low bytes of `n`, the lowest one first. -/
def leBytes : ℕ → ℕ → Bytes
  | 0,_ => []
  | w+1,n => UInt8.ofNat n :: leBytes w (n/256)

/-- The number whose little-endian bytes are given. -/
def leNat : Bytes → ℕ
  | [] => 0
  | b::bs => b.toNat+256*leNat bs

@[simp] theorem leBytes_length (w n : ℕ) : (leBytes w n).length = w := by
  induction w generalizing n with
  | zero => rfl
  | succ w ih => simp [leBytes,ih]

theorem leNat_leBytes (w n : ℕ) (h : n < 256^w) : leNat (leBytes w n) = n := by
  induction w generalizing n with
  | zero => simp only [pow_zero] at h; simp [leBytes,leNat]; omega
  | succ w ih =>
    have hd : n/256 < 256^w := Nat.div_lt_of_lt_mul (by rwa [pow_succ'] at h)
    have hb : (UInt8.ofNat n).toNat = n%256 := by simp
    rw [leBytes,leNat,ih _ hd,hb]
    omega

/-- The bytes by their places. -/
theorem leBytes_eq_map (w n : ℕ) :
    leBytes w n = (List.range w).map fun i => UInt8.ofNat (n/256^i) := by
  induction w generalizing n with
  | zero => rfl
  | succ w ih =>
    rw [leBytes,ih,List.range_succ_eq_map,List.map_cons,List.map_map,pow_zero,Nat.div_one]
    congr 1
    refine List.map_congr_left fun i _ => ?_
    rw [Nat.div_div_eq_div_mul,← pow_succ']
    rfl

theorem leNat_lt (bs : Bytes) : leNat bs < 256^bs.length := by
  induction bs with
  | nil => exact Nat.one_pos
  | cons b bs ih =>
    have hb := b.toNat_lt
    rw [leNat,List.length_cons,pow_succ]
    omega

/-- A word of a known width is determined by its number. -/
theorem leBytes_leNat (bs : Bytes) : leBytes bs.length (leNat bs) = bs := by
  induction bs with
  | nil => rfl
  | cons b bs ih =>
    have hb := b.toNat_lt
    have hmod : UInt8.ofNat (b.toNat+256*leNat bs) = b := by
      apply UInt8.toNat_inj.mp
      rw [UInt8.toNat_ofNat']
      omega
    have hdiv : (b.toNat+256*leNat bs)/256 = leNat bs := by omega
    rw [List.length_cons,leNat,leBytes,hmod,hdiv,ih]

theorem leBytes_take {w j : ℕ} (h : j ≤ w) (n : ℕ) : (leBytes w n).take j = leBytes j n := by
  induction j generalizing w n with
  | zero => rfl
  | succ j ih =>
    obtain ⟨w,rfl⟩ : ∃ v, w = v+1 := ⟨w-1,by omega⟩
    rw [leBytes,leBytes,List.take_succ_cons,ih (by omega)]

theorem leNat_zeros (bs : Bytes) (k : ℕ) : leNat (bs ++ List.replicate k 0) = leNat bs := by
  induction bs with
  | nil =>
    induction k with
    | zero => rfl
    | succ k ih =>
      change 0+256*leNat ([] ++ List.replicate k 0) = _
      rw [ih]
      rfl
  | cons b bs ih => rw [List.cons_append,leNat,ih,leNat]

/-- Zeros may stand for the high bytes of a number that the others hold. -/
theorem leBytes_zeros_iff {w n : ℕ} (h : n < 256^w) (j : ℕ) :
    (leBytes w n).take j ++ List.replicate (w-j) 0 = leBytes w n ↔ n < 256^j := by
  by_cases hj : w ≤ j
  · rw [List.take_of_length_le (by simpa using hj),Nat.sub_eq_zero_of_le hj]
    simpa using h.trans_le (Nat.pow_le_pow_right (by norm_num) hj)
  · rw [leBytes_take (by omega)]
    constructor
    · intro heq
      have hnat := congrArg leNat heq
      rw [leNat_zeros,leNat_leBytes w n h] at hnat
      have hlt := leNat_lt (leBytes j n)
      rwa [hnat,leBytes_length] at hlt
    · intro hn
      have hlen : (leBytes j n ++ List.replicate (w-j) 0).length = w := by
        simp
        omega
      have hword := leBytes_leNat (leBytes j n ++ List.replicate (w-j) 0)
      rwa [hlen,leNat_zeros,leNat_leBytes j n hn,eq_comm] at hword

/-- The `w` low bytes of `n`, the highest one first. -/
def beBytes (w n : ℕ) : Bytes := (leBytes w n).reverse

/-- The number whose big-endian bytes are given. -/
def beNat (bs : Bytes) : ℕ := leNat bs.reverse

@[simp] theorem beBytes_length (w n : ℕ) : (beBytes w n).length = w := by simp [beBytes]

theorem beNat_beBytes (w n : ℕ) (h : n < 256^w) : beNat (beBytes w n) = n := by
  rw [beNat,beBytes,List.reverse_reverse,leNat_leBytes w n h]

theorem beBytes_beNat (bs : Bytes) : beBytes bs.length (beNat bs) = bs := by
  have h := leBytes_leNat bs.reverse
  rw [List.length_reverse] at h
  rw [beBytes,beNat,h,List.reverse_reverse]

theorem beNat_lt (bs : Bytes) : beNat bs < 256^bs.length := by
  simpa [beNat] using leNat_lt bs.reverse

/-- Overwriting from `offset`: a gap before `offset` is filled with zero bytes, and the file
grows when the new bytes reach past its end. Writing nothing changes nothing. -/
def splice (file : Bytes) (offset : ℕ) (body : Bytes) : Bytes :=
  if body = [] then file
  else file.take offset ++ List.replicate (offset-file.length) 0 ++ body ++
    file.drop (offset+body.length)

@[simp] theorem splice_end (file body : Bytes) :
    splice file file.length body = file ++ body := by
  by_cases h : body = [] <;> simp [splice,h]

/-- Behind the end there is a gap. -/
theorem splice_behind {file body : Bytes} {offset : ℕ} (hb : body ≠ [])
    (h : file.length ≤ offset) : splice file offset body =
      file ++ List.replicate (offset-file.length) 0 ++ body := by
  rw [splice,if_neg hb,List.take_of_length_le h,List.drop_of_length_le (by omega),List.append_nil]

theorem splice_inside (front old back body : Bytes) (h : body.length = old.length) :
    splice (front ++ old ++ back) front.length body = front ++ body ++ back := by
  by_cases hb : body = []
  · have ho : old = [] := List.length_eq_zero_iff.mp (by simp [← h,hb])
    simp [splice,hb,ho]
  · have hd : front.length+body.length = (front ++ old).length := by simp [h]
    simp only [splice,hb,↓reduceIte]
    rw [hd,List.drop_left,List.append_assoc front old back,List.take_left]
    simp

/-- Overwriting takes no byte away. -/
theorem length_splice (file body : Bytes) (offset : ℕ) : (splice file offset body).length =
    if body = [] then file.length else max file.length (offset+body.length) := by
  unfold splice
  split_ifs with h
  · rfl
  · simp
    omega

end Bytes
end MessageQueue.Base

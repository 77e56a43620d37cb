import MessageQueue.Base.Hex

/-! `UUIDHelper::uuid`: eight random bytes and a number that is counted up from call to call, in
base 16 with dashes. Ids of one process differ as long as the number does not come round. -/
namespace MessageQueue
open Base Base.Bytes

namespace UUIDHelper

/-- Two digits, and the dash where the condition of the loop holds. -/
def field (n : ℕ) (dash : Bool) : List Char := hexByte n ++ if dash then ['-'] else []

/-- The id, and the counter behind the call. `random i` is the `i`-th byte drawn. -/
def uuid (random : ℕ → UInt8) (seq : UInt64) : String × UInt64 :=
  let ss := (List.range 8).foldl
    (fun ss i => ss ++ field (random i).toNat (i = 3 ∨ i = 5 ∨ i = 7)) []
  let num := seq
  let ss := (List.range 8).reverse.foldl
    (fun ss i => ss ++ field ((num >>> (UInt64.ofNat (i*8))) &&& 0xff).toNat (i = 6)) ss
  (.ofList ss,seq+1)

example : (uuid (fun i => UInt8.ofNat (i+9)) 0x1f2).1 = "090a0b0c-0d0e-0f10-0000-0000000001f2" := by
  decide

/-- The ids of a process, in the order in which its calls count: each with its own random bytes. -/
def uuids (seq : UInt64) : List (ℕ → UInt8) → List String
  | [] => []
  | random::rest => (uuid random seq).1 :: uuids (uuid random seq).2 rest

/-- The static counter starts at one. -/
def process (draws : List (ℕ → UInt8)) : List String := uuids 1 draws

/-- The bytes of the counter, the highest one first. -/
def seqBytes (seq : UInt64) : Bytes := (leBytes 8 seq.toNat).reverse

theorem seqBytes_injective {m n : UInt64} (h : seqBytes m = seqBytes n) : m = n := by
  have hle : leBytes 8 m.toNat = leBytes 8 n.toNat := List.reverse_injective h
  have hm := leNat_leBytes 8 m.toNat m.toNat_lt
  have hn := leNat_leBytes 8 n.toNat n.toNat_lt
  rw [hle,hn] at hm
  exact UInt64.toNat_inj.mp hm.symm

/-- What is shifted and masked out of the counter is one of its bytes. -/
theorem shifted (seq : UInt64) {i : ℕ} (hi : i < 8) :
    ((seq >>> UInt64.ofNat (i*8)) &&& 0xff).toNat = (UInt8.ofNat (seq.toNat/256^i)).toNat := by
  have hshift : (UInt64.ofNat (i*8)).toNat = i*8 := UInt64.toNat_ofNat_of_lt' (by
    change i*8 < 2^64
    omega)
  have hpow : 2^(i*8) = 256^i := by
    rw [Nat.mul_comm,pow_mul]
    rfl
  have hmask : (0xff : UInt64).toNat = 2^8-1 := rfl
  rw [UInt64.toNat_and,UInt64.toNat_shiftRight,hshift,hmask,Nat.and_two_pow_sub_one_eq_mod,
    Nat.mod_eq_of_lt (by omega : i*8 < 64),Nat.shiftRight_eq_div_pow,hpow,UInt8.toNat_ofNat']

theorem uuid_text (random : ℕ → UInt8) (seq : UInt64) : (uuid random seq).1.toList =
    hexText [random 0,random 1,random 2,random 3] ++ '-'::(hexText [random 4,random 5] ++
      '-'::(hexText [random 6,random 7] ++ '-'::(hexText ((seqBytes seq).take 2) ++
        '-'::hexText ((seqBytes seq).drop 2)))) := by
  have hrange : List.range 8 = [0,1,2,3,4,5,6,7] := rfl
  have hbytes : seqBytes seq = [7,6,5,4,3,2,1,0].map fun i => UInt8.ofNat (seq.toNat/256^i) := by
    rw [seqBytes,leBytes_eq_map,← List.map_reverse]
    rfl
  simp only [uuid,hrange,hbytes,field,hexText,List.reverse_cons,List.reverse_nil,List.nil_append,
    List.cons_append,List.foldl_cons,List.foldl_nil,List.map_cons,List.map_nil,List.flatMap_cons,
    List.flatMap_nil,List.take_succ_cons,List.take_zero,List.drop_succ_cons,List.drop_zero]
  simp (disch := decide) only [shifted]
  simp

theorem length_seqBytes (seq : UInt64) : (seqBytes seq).length = 8 := by
  rw [seqBytes,List.length_reverse,leBytes_length]

variable {random random' : ℕ → UInt8} {m n seq : UInt64} {draws : List (ℕ → UInt8)} {i j : ℕ}
  {a b : String}

theorem uuid_length (random : ℕ → UInt8) (seq : UInt64) : (uuid random seq).1.length = 36 := by
  rw [← String.length_toList,uuid_text]
  simp [length_seqBytes]

/-- The dashes stand at the same places in every id. -/
theorem uuid_dashes (random : ℕ → UInt8) (seq : UInt64) (k : ℕ) :
    (uuid random seq).1.toList[k]? = some '-' ↔ k = 8 ∨ k = 13 ∨ k = 18 ∨ k = 23 := by
  have hno : ∀ k, (hexText ((seqBytes seq).drop 2))[k]? ≠ some '-' := fun k e =>
    dash_not_mem_hexText _ (List.mem_of_getElem? e)
  rw [uuid_text]
  simp only [getElem?_append_cons_iff (dash_not_mem_hexText _),length_hexText,List.length_cons,
    List.length_nil,List.length_take,length_seqBytes,hno,and_false,or_false]
  omega

/-- The last two groups of an id are the counter. -/
theorem seq_of_uuid_eq (h : (uuid random m).1 = (uuid random' n).1) : m = n := by
  have htext := congrArg String.toList h
  rw [uuid_text,uuid_text] at htext
  obtain ⟨-,htext⟩ := List.append_inj htext (by simp)
  obtain ⟨-,htext⟩ := List.append_inj (List.cons.inj htext).2 (by simp)
  obtain ⟨-,htext⟩ := List.append_inj (List.cons.inj htext).2 (by simp)
  obtain ⟨hfront,hback⟩ := List.append_inj (List.cons.inj htext).2 (by simp [length_seqBytes])
  refine seqBytes_injective ?_
  rw [← List.take_append_drop 2 (seqBytes m),hexText_injective hfront,
    hexText_injective (List.cons.inj hback).2,List.take_append_drop]

/-- Each call has its own number. -/
theorem uuids_getElem (h : (uuids seq draws)[i]? = some a) :
    ∃ random, a = (uuid random (seq+UInt64.ofNat i)).1 := by
  induction draws generalizing seq i with
  | nil => simp [uuids] at h
  | cons random rest ih =>
    cases i with
    | zero =>
      rw [uuids,List.getElem?_cons_zero,Option.some.injEq] at h
      exact ⟨random,by rw [← h,show UInt64.ofNat 0 = 0 from rfl,UInt64.add_zero]⟩
    | succ i =>
      have hnext : seq+1+UInt64.ofNat i = seq+UInt64.ofNat (i+1) := by
        rw [UInt64.add_assoc,UInt64.ofNat_add,UInt64.add_comm 1]
        rfl
      rw [uuids,List.getElem?_cons_succ] at h
      exact hnext ▸ ih h

/-- The ids of two calls of a process differ when fewer than 2^64 calls lie between them, and all
ids have the same length and their dashes at the same places. -/
theorem ids_never_repeat (draws : List (ℕ → UInt8)) :
    (∀ i j a b, (process draws)[i]? = some a → (process draws)[j]? = some b → i < j →
      j-i < 2^64 → a ≠ b) ∧
    ∀ a ∈ process draws, a.length = 36 ∧
      ∀ k, a.toList[k]? = some '-' ↔ k = 8 ∨ k = 13 ∨ k = 18 ∨ k = 23 := by
  constructor
  · rintro i j a b ha hb hij hwrap rfl
    obtain ⟨random,hi⟩ := uuids_getElem ha
    obtain ⟨random',hj⟩ := uuids_getElem hb
    have hseq : UInt64.ofNat i = UInt64.ofNat j :=
      (UInt64.add_right_inj 1).mp (seq_of_uuid_eq (hi.symm.trans hj))
    have hmod := congrArg UInt64.toNat hseq
    rw [UInt64.toNat_ofNat',UInt64.toNat_ofNat'] at hmod
    omega
  · intro a ha
    obtain ⟨i,hi⟩ := List.mem_iff_getElem?.mp ha
    obtain ⟨random,rfl⟩ := uuids_getElem hi
    exact ⟨uuid_length _ _,uuid_dashes _ _⟩

theorem ids_never_repeat_two : ∃ a b, process [fun _ => 0,fun _ => 0] = [a,b] ∧ a ≠ b :=
  ⟨_,_,rfl,(ids_never_repeat [fun _ => 0,fun _ => 0]).1 0 1 _ _ rfl rfl (by decide) (by decide)⟩

end UUIDHelper
end MessageQueue

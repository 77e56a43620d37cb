import MessageQueue.Base.Bytes
import Mathlib.Data.Nat.Basic
import Mathlib.Tactic.Linarith

/-! The tag-length-value wire format of protocol buffers: base-128 numbers, number fields,
length-delimited and fixed-width fields, and a reader that folds the fields of a message into a value.
Groups, which no message of proto3 has, are refused; numbers and lengths are unbounded. -/
namespace MessageQueue.Base.Wire
open Bytes

/-- Groups of seven bits, the low group first; every byte but the last has its high bit set. -/
def varintFrom : ℕ → ℕ → Bytes
  | 0,n => [UInt8.ofNat n]
  | fuel+1,n =>
    if n < 128 then [UInt8.ofNat n] else UInt8.ofNat (n%128+128) :: varintFrom fuel (n/128)

def varint (n : ℕ) : Bytes := varintFrom n n

def readVarint : Bytes → Option (ℕ × Bytes)
  | [] => none
  | b::bs =>
    if b.toNat < 128 then some (b.toNat,bs)
    else (readVarint bs).map fun r => (b.toNat-128+128*r.1,r.2)

lemma readVarint_varintFrom (fuel n : ℕ) (rest : Bytes) (h : n < 128^(fuel+1)) :
    readVarint (varintFrom fuel n ++ rest) = some (n,rest) := by
  induction fuel generalizing n with
  | zero =>
    have hb : (UInt8.ofNat n).toNat = n := by simp; omega
    simp only [zero_add,pow_one] at h
    simp [varintFrom,readVarint,hb,h]
  | succ fuel ih =>
    by_cases hn : n < 128
    · have hb : (UInt8.ofNat n).toNat = n := by simp; omega
      simp [varintFrom,readVarint,hb,hn]
    · have hb : (UInt8.ofNat (n%128+128)).toNat = n%128+128 := by simp; omega
      have hd : n/128 < 128^(fuel+1) := Nat.div_lt_of_lt_mul (by rwa [pow_succ'] at h)
      simp only [varintFrom,hn,↓reduceIte,List.cons_append,readVarint,hb,ih _ hd,Option.map_some]
      rw [if_neg (by omega)]
      congr 2
      omega

theorem readVarint_varint (n : ℕ) (rest : Bytes) :
    readVarint (varint n ++ rest) = some (n,rest) := by
  apply readVarint_varintFrom
  have h : n < 128^n := Nat.lt_pow_self (by norm_num)
  exact h.trans (Nat.pow_lt_pow_right (by norm_num) (Nat.lt_succ_self n))

lemma varint_ne_nil (n : ℕ) : varint n ≠ [] := by
  unfold varint
  cases n with
  | zero => simp [varintFrom]
  | succ n => rw [varintFrom]; split <;> simp

inductive Value
  | number (n : ℕ)
  | fixed64 (x : BitVec 64)
  | bytes (bs : Bytes)
  | fixed32 (x : BitVec 32)
  deriving DecidableEq

structure Field where
  number : ℕ
  value : Value
  deriving DecidableEq

namespace Value

/-- The kind of a value on the wire. -/
def wireType : Value → ℕ
  | number _ => 0
  | fixed64 _ => 1
  | bytes _ => 2
  | fixed32 _ => 5

def encode : Value → Bytes
  | number n => varint n
  | fixed64 x => leBytes 8 x.toNat
  | bytes bs => varint bs.length ++ bs
  | fixed32 x => leBytes 4 x.toNat

theorem wireType_lt (v : Value) : v.wireType < 8 := by
  cases v <;> simp [wireType]

end Value

/-- The numbers that a field may have. -/
def Field.Valid (f : Field) : Prop := 0 < f.number ∧ f.number < 2^29

instance (f : Field) : Decidable f.Valid := inferInstanceAs (Decidable (_ ∧ _))

/-- The tag carries the field number and, in its low three bits, the kind of the value. -/
def Field.encode (f : Field) : Bytes := varint (f.number*8+f.value.wireType) ++ f.value.encode

def readValue : ℕ → Bytes → Option (Value × Bytes)
  | 0,bs => (readVarint bs).map fun r => (.number r.1,r.2)
  | 1,bs =>
    if 8 ≤ bs.length then some (.fixed64 (.ofNat 64 (leNat (bs.take 8))),bs.drop 8) else none
  | 2,bs => (readVarint bs).bind fun r =>
    if r.1 ≤ r.2.length then some (.bytes (r.2.take r.1),r.2.drop r.1) else none
  | 5,bs =>
    if 4 ≤ bs.length then some (.fixed32 (.ofNat 32 (leNat (bs.take 4))),bs.drop 4) else none
  | _,_ => none

def readField (bs : Bytes) : Option (Field × Bytes) :=
  (readVarint bs).bind fun r =>
    if 0 < r.1/8 ∧ r.1/8 < 2^29 then
      (readValue (r.1%8) r.2).map fun v => (⟨r.1/8,v.1⟩,v.2)
    else none

theorem readValue_encode (v : Value) (rest : Bytes) :
    readValue v.wireType (v.encode ++ rest) = some (v,rest) := by
  cases v with
  | number n => simp only [Value.wireType,Value.encode,readValue,readVarint_varint,Option.map_some]
  | fixed64 x =>
    have hlen : (leBytes 8 x.toNat).length = 8 := leBytes_length _ _
    have hx : leNat (leBytes 8 x.toNat) = x.toNat := leNat_leBytes 8 _ x.isLt
    simp only [Value.wireType,Value.encode,readValue]
    rw [if_pos (by simp),List.take_left' hlen,List.drop_left' hlen,hx,BitVec.ofNat_toNat,
      BitVec.setWidth_eq]
  | bytes bs =>
    have hle : bs.length ≤ (bs ++ rest).length := by simp
    simp only [Value.wireType,Value.encode,readValue,List.append_assoc,readVarint_varint,
      Option.bind_some,if_pos hle,List.take_left,List.drop_left]
  | fixed32 x =>
    have hlen : (leBytes 4 x.toNat).length = 4 := leBytes_length _ _
    have hx : leNat (leBytes 4 x.toNat) = x.toNat := leNat_leBytes 4 _ x.isLt
    simp only [Value.wireType,Value.encode,readValue]
    rw [if_pos (by simp),List.take_left' hlen,List.drop_left' hlen,hx,BitVec.ofNat_toNat,
      BitVec.setWidth_eq]

theorem readField_encode (f : Field) (rest : Bytes) (h : f.Valid) :
    readField (f.encode ++ rest) = some (f,rest) := by
  have hlt := f.value.wireType_lt
  have hnum : (f.number*8+f.value.wireType)/8 = f.number := by omega
  have htype : (f.number*8+f.value.wireType)%8 = f.value.wireType := by omega
  rw [readField,Field.encode,List.append_assoc,readVarint_varint,Option.bind_some,hnum,htype,
    if_pos ⟨h.1,h.2⟩,readValue_encode,Option.map_some]

lemma Field.encode_ne_nil (f : Field) : f.encode ≠ [] := by
  simp [Field.encode,varint_ne_nil]

def encodeFields (fs : List Field) : Bytes := fs.flatMap Field.encode

section Reader
variable {α : Type*} (f : α → Field → α × Bool)

/-- Fold the fields into `a` until the bytes end. The flag says whether every field was well
formed and accepted; what was read before a bad field stays. -/
def readFields : ℕ → α → Bytes → α × Bool
  | 0,a,bs => (a,bs.isEmpty)
  | _+1,a,[] => (a,true)
  | fuel+1,a,b::bs =>
    match readField (b::bs) with
    | none => (a,false)
    | some (fld,rest) =>
      match f a fld with
      | (a',true) => readFields fuel a' rest
      | (a',false) => (a',false)

/-- A message is read with as much fuel as it has bytes. -/
def readMessage (a : α) (bs : Bytes) : α × Bool := readFields f bs.length a bs

lemma readFields_encode (g : α → Field → α) (fs : List Field) (fuel : ℕ) (a : α)
    (hf : ∀ a, ∀ fld ∈ fs, f a fld = (g a fld,true)) (hn : ∀ fld ∈ fs, fld.Valid)
    (h : (encodeFields fs).length ≤ fuel) :
    readFields f fuel a (encodeFields fs) = (fs.foldl g a,true) := by
  induction fs generalizing fuel a with
  | nil => cases fuel <;> rfl
  | cons fld fs ih =>
    have hne := Field.encode_ne_nil fld
    have hpos : 0 < fld.encode.length := List.length_pos_iff.mpr hne
    simp only [encodeFields,List.flatMap_cons,List.length_append] at h
    obtain ⟨fuel,rfl⟩ : ∃ k, fuel = k+1 := ⟨fuel-1,by omega⟩
    obtain ⟨b,bs,hb⟩ := List.exists_cons_of_ne_nil hne
    have hr := readField_encode fld (encodeFields fs) (hn fld (by simp))
    change readFields f (fuel+1) a (fld.encode ++ encodeFields fs) = _
    rw [hb,List.cons_append] at hr ⊢
    simp only [readFields,hr,hf a fld (by simp)]
    exact ih fuel _ (fun a x hx => hf a x (by simp [hx])) (fun x hx => hn x (by simp [hx]))
      (by simp only [encodeFields]; omega)

/-- Reading what was written gives the fold of the written fields. -/
theorem readMessage_encode (g : α → Field → α) (fs : List Field) (a : α)
    (hf : ∀ a, ∀ fld ∈ fs, f a fld = (g a fld,true)) (hn : ∀ fld ∈ fs, fld.Valid) :
    readMessage f a (encodeFields fs) = (fs.foldl g a,true) :=
  readFields_encode f g fs _ a hf hn le_rfl

end Reader

/-- Text travels as its UTF-8 bytes. -/
def text (s : String) : Bytes := s.toByteArray.data.toList

/-- Bytes that are not UTF-8 are no text. -/
def readText (bs : Bytes) : Option String := String.fromUTF8? ⟨bs.toArray⟩

@[simp] theorem readText_text (s : String) : readText (text s) = some s := by
  have hb : (⟨(text s).toArray⟩ : ByteArray) = s.toByteArray := by simp [text]
  rw [readText,hb,String.fromUTF8?,dif_pos s.isValidUTF8]
  rfl

end MessageQueue.Base.Wire

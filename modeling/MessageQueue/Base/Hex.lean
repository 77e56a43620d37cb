import MessageQueue.Base.Bytes

/-! Bytes as text: two digits of base 16 each. The text of a byte string has its bytes in it, and
nothing but digits. -/
namespace MessageQueue.Base

/-- A number in base 16, with zeros in front of it up to two digits. -/
def hexByte (n : ℕ) : List Char := (Nat.toDigits 16 n).leftpad 2 '0'

theorem digitChar_inj {a b : ℕ} (ha : a < 16) (hb : b < 16) (h : a.digitChar = b.digitChar) :
    a = b := by
  have hall : ∀ a < 16, ∀ b < 16, a.digitChar = b.digitChar → a = b := by decide
  exact hall a ha b hb h

theorem digitChar_ne_dash {a : ℕ} (ha : a < 16) : a.digitChar ≠ '-' := by
  have hall : ∀ a < 16, a.digitChar ≠ '-' := by decide
  exact hall a ha

theorem hexByte_eq {n : ℕ} (h : n < 256) : hexByte n = [(n/16).digitChar,(n%16).digitChar] := by
  unfold hexByte
  by_cases hn : n < 16
  · rw [Nat.toDigits_of_lt_base hn,Nat.div_eq_of_lt hn,Nat.mod_eq_of_lt hn]
    rfl
  · rw [Nat.toDigits_of_base_le (by decide) (by omega),Nat.toDigits_of_lt_base (by omega)]
    rfl

/-- The digits of the bytes, one after the other. -/
def hexText (bs : Bytes) : List Char := bs.flatMap fun b => hexByte b.toNat

theorem hexText_cons (b : UInt8) (bs : Bytes) :
    hexText (b::bs) = (b.toNat/16).digitChar :: (b.toNat%16).digitChar :: hexText bs := by
  rw [hexText,List.flatMap_cons,hexByte_eq b.toNat_lt]
  rfl

@[simp] theorem length_hexText (bs : Bytes) : (hexText bs).length = 2*bs.length := by
  induction bs with
  | nil => rfl
  | cons b bs ih =>
    rw [hexText_cons]
    simp only [List.length_cons,ih]
    omega

theorem hexText_injective {bs cs : Bytes} (h : hexText bs = hexText cs) : bs = cs := by
  induction bs generalizing cs with
  | nil =>
    cases cs with
    | nil => rfl
    | cons c cs =>
      rw [hexText_cons] at h
      cases h
  | cons b bs ih =>
    cases cs with
    | nil =>
      rw [hexText_cons] at h
      cases h
    | cons c cs =>
      rw [hexText_cons,hexText_cons] at h
      obtain ⟨hhigh,hrest⟩ := List.cons.inj h
      obtain ⟨hlow,hrest⟩ := List.cons.inj hrest
      have hb := b.toNat_lt
      have hc := c.toNat_lt
      have hhigh := digitChar_inj (by omega) (by omega) hhigh
      have hlow := digitChar_inj (by omega) (by omega) hlow
      have hbc : b = c := UInt8.toNat_inj.mp (by omega)
      rw [hbc,ih hrest]

theorem dash_not_mem_hexText (bs : Bytes) : '-' ∉ hexText bs := by
  induction bs with
  | nil => exact List.not_mem_nil
  | cons b bs ih =>
    have hb := b.toNat_lt
    rw [hexText_cons,List.mem_cons,List.mem_cons,not_or,not_or]
    exact ⟨(digitChar_ne_dash (by omega)).symm,(digitChar_ne_dash (by omega)).symm,ih⟩

/-- An element that is not in the first part of a list stands behind it. -/
theorem getElem?_append_cons_iff {α : Type*} {a : α} {front back : List α} (h : a ∉ front) (k : ℕ) :
    (front ++ a::back)[k]? = some a ↔
      k = front.length ∨ front.length < k ∧ back[k-front.length-1]? = some a := by
  rcases Nat.lt_trichotomy k front.length with hk | rfl | hk
  · rw [List.getElem?_append_left hk]
    refine iff_of_false (fun e => h (List.mem_of_getElem? e)) ?_
    omega
  · simp
  · obtain ⟨j,rfl⟩ := Nat.exists_eq_add_of_lt hk
    rw [List.getElem?_append_right (by omega)]
    have hj : front.length+j+1-front.length = j+1 := by omega
    rw [hj,List.getElem?_cons_succ,Nat.add_sub_cancel]
    constructor
    · exact fun e => .inr ⟨hk,e⟩
    · exact fun e => e.elim (fun e => by omega) (fun e => e.2)

end MessageQueue.Base

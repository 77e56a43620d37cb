import MessageQueue.Common.Helper

/-! What `StrHelper::split` finds when the separator is one character: the pieces between the
separators, without the empty ones. -/
namespace MessageQueue
open Base

theorem mem_of_mem_splitOn {α : Type} [BEq α] [LawfulBEq α] {a c : α} {l u : List α}
    (hu : u ∈ l.splitOn a) (hc : c ∈ u) : c ∈ l := by
  obtain ⟨k,hk⟩ := List.mem_iff_getElem?.mp hu
  have hsep : ((l.splitOn a).intersperse [a])[2*k]? = some u :=
    List.getElem?_intersperse_two_mul.trans hk
  have hl : [a].intercalate (l.splitOn a) = l := List.intercalate_splitOn a
  rw [← hl]
  exact List.mem_flatten.mpr ⟨u,List.mem_of_getElem? hsep,hc⟩

theorem not_mem_of_mem_splitOn {α : Type} [BEq α] [LawfulBEq α] {a : α} {l u : List α}
    (hu : u ∈ l.splitOn a) : a ∉ u := by
  induction l generalizing u with
  | nil =>
    rw [List.splitOn_eq_singleton List.not_mem_nil,List.mem_singleton] at hu
    rw [hu]
    exact List.not_mem_nil
  | cons b l ih =>
    rw [List.splitOn_cons_eq_if_modifyHead] at hu
    split_ifs at hu with hb
    · cases List.mem_cons.mp hu with
      | inl h => rw [h]; exact List.not_mem_nil
      | inr h => exact ih h
    · cases hs : l.splitOn a with
      | nil => simp [hs] at hu
      | cons v vs =>
        rw [hs,List.modifyHead_cons] at hu
        rw [hs] at ih
        cases List.mem_cons.mp hu with
        | inl h =>
          rw [h,List.mem_cons,not_or]
          exact ⟨fun e => hb (by simp [e]),ih List.mem_cons_self⟩
        | inr h => exact ih (List.mem_cons_of_mem _ h)

/-- Every element is a separator or in a piece. -/
theorem mem_splitOn_or {α : Type} [BEq α] [LawfulBEq α] {a c : α} {l : List α} (hc : c ∈ l) :
    c = a ∨ ∃ u ∈ l.splitOn a, c ∈ u := by
  induction l with
  | nil => simp at hc
  | cons b l ih =>
    rw [List.splitOn_cons_eq_if_modifyHead]
    split_ifs with hb
    · cases List.mem_cons.mp hc with
      | inl h => rw [h]; exact .inl (by simpa using hb)
      | inr h =>
        refine (ih h).imp_right fun ⟨u,hu,hcu⟩ => ?_
        exact ⟨u,List.mem_cons_of_mem _ hu,hcu⟩
    · obtain ⟨v,vs,hs⟩ := List.exists_cons_of_ne_nil (List.splitOn_ne_nil a l)
      rw [hs] at ih
      rw [hs,List.modifyHead_cons]
      cases List.mem_cons.mp hc with
      | inl h => exact .inr ⟨b::v,List.mem_cons_self,by simp [h]⟩
      | inr h =>
        refine (ih h).imp_right fun ⟨u,hu,hcu⟩ => ?_
        cases List.mem_cons.mp hu with
        | inl hv => exact ⟨b::v,List.mem_cons_self,List.mem_cons_of_mem _ (hv ▸ hcu)⟩
        | inr hv => exact ⟨u,List.mem_cons_of_mem _ hv,hcu⟩

namespace StrHelper
variable {str : List Char} {c : Char} {idx pos : ℕ}

/-- The pieces of a text between the separators, without the empty ones. -/
def pieces (c : Char) (text : String) : List String :=
  ((text.toList.splitOn c).filter fun u => !u.isEmpty).map String.ofList

/-- The text that the pieces make with separators between them. -/
def joined (c : Char) (us : List String) : String := .ofList ([c].intercalate (us.map String.toList))

def IsPiece (c : Char) (u : String) : Prop := u ≠ "" ∧ c ∉ u.toList

theorem isPiece_of_mem {text u : String} (hu : u ∈ pieces c text) : IsPiece c u := by
  obtain ⟨v,hv,rfl⟩ := List.mem_map.mp hu
  obtain ⟨hmem,hne⟩ := List.mem_filter.mp hv
  constructor
  · intro e
    have hnil : v = [] := by simpa using congrArg String.toList e
    simp [hnil] at hne
  · rw [String.toList_ofList]
    exact not_mem_of_mem_splitOn hmem

/-- Splitting the pieces that were joined gives the same pieces again. -/
theorem pieces_joined {us : List String} (hus : ∀ u ∈ us, IsPiece c u) :
    pieces c (joined c us) = us := by
  unfold pieces joined
  rw [String.toList_ofList]
  cases us with
  | nil => simp [List.splitOn_eq_singleton]
  | cons u us =>
    have hsep : ∀ l ∈ (u::us).map String.toList, c ∉ l := by
      intro l hl
      obtain ⟨v,hv,rfl⟩ := List.mem_map.mp hl
      exact (hus v hv).2
    have hne : ∀ l ∈ (u::us).map String.toList, (!l.isEmpty) = true := by
      intro l hl
      obtain ⟨v,hv,rfl⟩ := List.mem_map.mp hl
      simpa using (hus v hv).1
    rw [List.splitOn_intercalate c hsep (by simp),List.filter_eq_self.mpr hne,List.map_map]
    simp [Function.comp_def]

/-- A text is joined from the pieces it has, unless a piece between the separators is empty. -/
theorem joined_iff {text : String} {P : List String → Prop} :
    (∃ us, us ≠ [] ∧ (∀ u ∈ us, IsPiece c u) ∧ P us ∧ text = joined c us) ↔
      [] ∉ text.toList.splitOn c ∧ P (pieces c text) := by
  constructor
  · rintro ⟨us,hne,hus,hP,rfl⟩
    rw [pieces_joined hus]
    refine ⟨fun hmem => ?_,hP⟩
    have hsep : ∀ l ∈ us.map String.toList, c ∉ l := by
      intro l hl
      obtain ⟨v,hv,rfl⟩ := List.mem_map.mp hl
      exact (hus v hv).2
    rw [joined,String.toList_ofList,List.splitOn_intercalate c hsep (by simpa using hne)] at hmem
    obtain ⟨v,hv,hnil⟩ := List.mem_map.mp hmem
    exact (hus v hv).1 (String.toList_eq_nil_iff.mp hnil)
  · rintro ⟨hmem,hP⟩
    have hall : (text.toList.splitOn c).filter (fun u => !u.isEmpty) = text.toList.splitOn c := by
      rw [List.filter_eq_self]
      intro u hu
      cases u with
      | nil => exact absurd hu hmem
      | cons a u => rfl
    refine ⟨pieces c text,?_,fun u hu => isPiece_of_mem hu,hP,?_⟩
    · rw [pieces,hall]
      simp
    · rw [joined,pieces,hall,List.map_map]
      have hid : String.toList ∘ String.ofList = id := by
        funext u
        exact String.toList_ofList
      rw [hid,List.map_id,List.intercalate_splitOn,String.ofList_toList]

theorem find_eq : find str [c] idx =
    (List.range' idx (str.length+1-idx)).find? fun pos => decide (str[pos]? = some c) := by
  have e : ∀ pos, [c].isPrefixOf (str.drop pos) = decide (str[pos]? = some c) := by
    intro pos
    rw [← List.head?_drop]
    cases str.drop pos with
    | nil => simp
    | cons a rest => simp [List.isPrefixOf,eq_comm,beq_eq_decide]
  simp only [find,e,List.range_eq_range',List.drop_range']
  simp

theorem find_none (h : find str [c] idx = none) : c ∉ str.drop idx := by
  intro hc
  rw [find_eq,List.find?_range'_eq_none] at h
  obtain ⟨k,hk⟩ := List.mem_iff_getElem?.mp hc
  rw [List.getElem?_drop] at hk
  have hlt := (List.getElem?_eq_some_iff.mp hk).1
  have := h (idx+k) (by omega) (by omega)
  simp [hk] at this

/-- The separator stands at the place that is found, and at no place before it. -/
theorem find_at (h : find str [c] idx = some pos) :
    idx ≤ pos ∧ str[pos]? = some c ∧ ∀ k, idx ≤ k → k < pos → str[k]? ≠ some c := by
  rw [find_eq,List.find?_range'_eq_some] at h
  obtain ⟨hpos,hmem,hbefore⟩ := h
  exact ⟨(List.mem_range'_1.mp hmem).1,of_decide_eq_true hpos,by simpa using hbefore⟩

/-- What is found starts with the separator, and no separator lies before it. -/
theorem find_some (h : find str [c] idx = some pos) : idx ≤ pos ∧
    c ∉ (str.drop idx).take (pos-idx) ∧
      str.drop idx = (str.drop idx).take (pos-idx) ++ c :: str.drop (pos+1) := by
  obtain ⟨hidx,hpos,hbefore⟩ := find_at h
  obtain ⟨hlt,hc⟩ := List.getElem?_eq_some_iff.mp hpos
  refine ⟨hidx,?_,?_⟩
  · intro h
    obtain ⟨k,hk⟩ := List.mem_iff_getElem?.mp h
    rw [List.getElem?_take] at hk
    split_ifs at hk with hkp
    rw [List.getElem?_drop] at hk
    exact hbefore (idx+k) (by omega) (by omega) hk
  · calc str.drop idx
        = (str.drop idx).take (pos-idx) ++ (str.drop idx).drop (pos-idx) :=
          (List.take_append_drop ..).symm
      _ = (str.drop idx).take (pos-idx) ++ c :: str.drop (pos+1) := by
          rw [List.drop_drop,show idx+(pos-idx) = pos by omega,List.drop_eq_getElem_cons hlt,hc]

/-- The first place of a character is behind what has none. -/
theorem find_first {p rest : List Char} (hp : c ∉ p) : find (p ++ c::rest) [c] 0 = some p.length := by
  cases h : find (p ++ c::rest) [c] 0 with
  | none => exact absurd (find_none h) (by simp)
  | some pos =>
    obtain ⟨-,hbefore,hsplit⟩ := find_some h
    rw [List.drop_zero,Nat.sub_zero] at hbefore hsplit
    have hlen := congrArg List.length hsplit
    have hfirst := List.splitOn_append_cons_self_of_not_mem hbefore ((p ++ c::rest).drop (pos+1))
    rw [← hsplit,List.splitOn_append_cons_self_of_not_mem hp] at hfirst
    have htake : p = (p ++ c::rest).take pos := (List.cons.inj hfirst).1
    have hpos : p.length = min pos (p ++ c::rest).length := by
      rw [← List.length_take,← htake]
    simp only [List.length_append,List.length_cons,List.length_take,List.length_drop] at hlen hpos
    rw [Option.some.injEq]
    omega

theorem find_isSome : (find str [c] idx).isSome ↔ c ∈ str.drop idx := by
  cases h : find str [c] idx with
  | none => simpa using find_none h
  | some pos =>
    refine iff_of_true rfl ?_
    rw [(find_some h).2.2]
    simp

/-- The loop stands at the start of a piece and has the pieces before it. -/
theorem splitLoop_pieces (fuel : ℕ) (hfuel : str.length < idx+fuel) (result : List String) :
    splitLoop str [c] fuel idx result =
      result ++ (((str.drop idx).splitOn c).filter fun u => !u.isEmpty).map String.ofList := by
  induction fuel generalizing idx result with
  | zero =>
    rw [List.drop_eq_nil_of_le (by omega)]
    simp [splitLoop,List.splitOn]
  | succ fuel ih =>
    rw [splitLoop]
    split_ifs with hidx
    · cases h : find str [c] idx with
      | none =>
        have hne : str.drop idx ≠ [] := by
          rw [ne_eq,List.drop_eq_nil_iff]
          omega
        rw [List.splitOn_eq_singleton (find_none h)]
        simp [hne]
      | some pos =>
        obtain ⟨hle,hnot,e⟩ := find_some h
        have hsplit : (str.drop idx).splitOn c =
            (str.drop idx).take (pos-idx) :: (str.drop (pos+1)).splitOn c := by
          rw [← List.splitOn_append_cons_self_of_not_mem hnot,← e]
        rw [hsplit]
        dsimp only
        split_ifs with hpos
        · rw [ih (by simp; omega)]
          simp [hpos]
        · have hne : (str.drop idx).take (pos-idx) ≠ [] := by
            rw [ne_eq,List.take_eq_nil_iff,List.drop_eq_nil_iff]
            omega
          rw [ih (by simp; omega),List.filter_cons_of_pos (by simpa using hne)]
          simp
    · rw [List.drop_eq_nil_of_le (by omega)]
      simp [List.splitOn]

/-- Pieces with a separator after each. -/
theorem pieces_flatMap {us : List String} (hus : ∀ u ∈ us, IsPiece c u) :
    pieces c (.ofList (us.flatMap fun u => u.toList ++ [c])) = us := by
  unfold pieces
  rw [String.toList_ofList]
  induction us with
  | nil => simp [List.splitOn_eq_singleton]
  | cons u us ih =>
    obtain ⟨hu,hus⟩ := List.forall_mem_cons.mp hus
    have hne : u.toList ≠ [] := fun e => hu.1 (String.toList_eq_nil_iff.mp e)
    rw [List.flatMap_cons,List.append_assoc,List.singleton_append,
      List.splitOn_append_cons_self_of_not_mem hu.2,List.filter_cons_of_pos (by simpa using hne),
      List.map_cons,ih hus,String.ofList_toList]

theorem split_pieces {sep : String} (hsep : sep.toList = [c]) (text : String) :
    split text sep = pieces c text := by
  rw [split,hsep,splitLoop_pieces _ (by omega)]
  simp [pieces]

end StrHelper
end MessageQueue

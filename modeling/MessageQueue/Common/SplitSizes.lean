import Mathlib.Algebra.Ring.Int.Defs
import Mathlib.Algebra.Ring.Nat
import MessageQueue.Base.Separated
import MessageQueue.Common.Split

/-! `StrHelper::split` with the integer types of the code, for strings and separators of any
elements: `find` gives a `size_t`, which is kept as an `int` and used as a `size_t` again. Below
2^31 elements it cuts where the separator stands and leaves empty pieces out. -/
namespace MessageQueue
open Base

namespace StrHelper

/-- An `int` is given the low 32 bits of a `size_t`, the highest of them as the sign. -/
def toInt (n : ℕ) : ℤ := ((n : ℤ)+2^31)%2^32-2^31

/-- A `size_t` is given an `int` modulo 2^64. -/
def toSize (i : ℤ) : ℕ := (i%2^64).toNat

def npos : ℕ := 2^64-1

theorem toInt_eq {n : ℕ} (h : n < 2^31) : toInt n = n := by
  unfold toInt
  omega

theorem toSize_natCast {n : ℕ} (h : n < 2^31) : toSize n = n := by
  unfold toSize
  omega

theorem natCast_add_sub (m n : ℕ) : ((m+n : ℕ) : ℤ)-m = n := by omega

theorem toInt_mod {n : ℕ} (h : n < 2^31) : toInt (n%2^64) = n := by
  rw [Nat.mod_eq_of_lt (Nat.lt_trans h (by decide)),toInt_eq h]

theorem ne_npos {n : ℕ} (h : n < 2^31) : n ≠ npos := by
  unfold npos
  omega

theorem toSize_toInt_npos : toSize (toInt npos) = npos := by decide

namespace Sized
variable {α : Type*} [DecidableEq α]

/-- `std::string::find`: the leftmost place of `sep` from `idx` on, or `npos`. -/
def find (str sep : List α) (idx : ℕ) : ℕ :=
  (((List.range (str.length+1)).drop idx).find? fun pos => sep.isPrefixOf (str.drop pos)).getD npos

/-- The loop of `split`; `none` when so many rounds are not enough. -/
def splitLoop (str sep : List α) : ℕ → ℤ → List (List α) → Option (List (List α))
  | 0,_,_ => none
  | fuel+1,idx,result =>
    if toSize idx < str.length then
      let pos := toInt (find str sep (toSize idx))
      let next := toInt ((toSize pos+sep.length)%2^64)
      if toSize pos = npos then some (result ++ [str.drop (toSize idx)])
      else if pos = idx then splitLoop str sep fuel next result
      else splitLoop str sep fuel next
        (result ++ [(str.drop (toSize idx)).take (toSize (pos-idx))])
    else some result

/-- The vector behind the loop and its size. -/
def split (fuel : ℕ) (str sep : List α) (result : List (List α)) : Option (List (List α) × ℕ) :=
  (splitLoop str sep fuel 0 result).map fun result => (result,result.length)

variable {str sep p rest : List α} {idx fuel : ℕ} {ps result : List (List α)}

theorem find_eq : find str sep idx = ((List.range' idx (str.length+1-idx)).find? fun pos =>
    decide (sep <+: str.drop pos)).getD npos := by
  have e : ∀ pos, sep.isPrefixOf (str.drop pos) = decide (sep <+: str.drop pos) := by
    intro pos
    rw [Bool.eq_iff_iff,List.isPrefixOf_iff_prefix,decide_eq_true_eq]
  simp only [find,e,List.range_eq_range',List.drop_range']
  simp

omit [DecidableEq α] in
/-- Where the separator stands, seen from `idx` on. -/
theorem stands_iff {pos : ℕ} (hidx : idx ≤ pos) (hpos : pos ≤ str.length) : sep <+: str.drop pos ↔
    ∃ q r, str.drop idx = q ++ sep ++ r ∧ q.length = pos-idx := by
  have hdrop : str.drop pos = (str.drop idx).drop (pos-idx) := by
    rw [List.drop_drop,Nat.add_sub_cancel' hidx]
  rw [hdrop,prefix_drop_iff (by simp; omega)]

theorem find_npos (h : ¬ sep <:+: str.drop idx) : find str sep idx = npos := by
  have hnone : ((List.range' idx (str.length+1-idx)).find? fun pos =>
      decide (sep <+: str.drop pos)) = none := by
    rw [List.find?_range'_eq_none]
    intro pos hidx hpos
    rw [Bool.not_eq_true',decide_eq_false_iff_not,stands_iff hidx (by omega)]
    rintro ⟨q,r,e,-⟩
    exact h ⟨q,r,e.symm⟩
  rw [find_eq,hnone]
  rfl

/-- The first place of the separator is behind the first piece. -/
theorem find_leftmost (hidx : idx ≤ str.length) (h : str.drop idx = p ++ sep ++ rest)
    (leftmost : ∀ q r, p ++ sep ++ rest = q ++ sep ++ r → p.length ≤ q.length) :
    find str sep idx = idx+p.length := by
  have hlen : p.length ≤ str.length-idx := by
    rw [← List.length_drop,h]
    simp only [List.length_append]
    omega
  have hsome : ((List.range' idx (str.length+1-idx)).find? fun pos =>
      decide (sep <+: str.drop pos)) = some (idx+p.length) := by
    rw [List.find?_range'_eq_some]
    refine ⟨?_,List.mem_range'_1.mpr (by omega),?_⟩
    · rw [decide_eq_true_eq,stands_iff (Nat.le_add_right ..) (by omega)]
      exact ⟨p,rest,h,by omega⟩
    · intro pos hpos hbefore
      rw [Bool.not_eq_true',decide_eq_false_iff_not,stands_iff hpos (by omega)]
      rintro ⟨q,r,e,hq⟩
      have hle := leftmost q r (h.symm.trans e)
      omega
  rw [find_eq,hsome]
  rfl

/-- The loop stands at the start of a piece, and the pieces from there on come to the result. -/
theorem splitLoop_cutAt (hsize : str.length < 2^31) (hsep : sep ≠ []) {l : List α}
    (h : CutAt sep l ps) (hl : str.drop idx = l) (hidx : idx ≤ str.length)
    (hfuel : str.length < idx+fuel) (result : List (List α)) :
    splitLoop str sep fuel idx result = some (result ++ ps.filter fun u => !u.isEmpty) := by
  induction h generalizing idx fuel result with
  | @last l none =>
    obtain ⟨fuel,rfl⟩ : ∃ n, fuel = n+1 := ⟨fuel-1,by omega⟩
    have hat : toSize (idx : ℤ) = idx := toSize_natCast (by omega)
    subst hl
    simp only [splitLoop,hat,find_npos none,toSize_toInt_npos,if_true]
    split_ifs with hlt
    · have hne : str.drop idx ≠ [] := by
        rw [ne_eq,List.drop_eq_nil_iff]
        omega
      simp [hne]
    · have hnil : str.drop idx = [] := List.drop_eq_nil_of_le (by omega)
      simp [hnil]
  | @cut p rest ps leftmost cuts ih =>
    obtain ⟨fuel,rfl⟩ : ∃ n, fuel = n+1 := ⟨fuel-1,by omega⟩
    have hat : toSize (idx : ℤ) = idx := toSize_natCast (by omega)
    have hpos : 0 < sep.length := List.length_pos_iff.mpr hsep
    have hlen := congrArg List.length hl
    simp only [List.length_drop,List.length_append] at hlen
    have hle : idx+p.length+sep.length ≤ str.length := by omega
    have hround : str.length < idx+p.length+sep.length+fuel := by omega
    have hfind := find_leftmost hidx hl leftmost
    have hrest : str.drop (idx+p.length+sep.length) = rest := by
      rw [Nat.add_assoc,← List.drop_drop,hl,← List.length_append,List.drop_left]
    have hrec := ih hrest hle hround
    have hend : idx+p.length+sep.length < 2^31 := Nat.lt_of_le_of_lt hle hsize
    have hplace : idx+p.length < 2^31 := Nat.lt_of_le_of_lt (Nat.le_add_right ..) hend
    have hlt : idx < str.length := by omega
    have hlength : p.length < 2^31 := Nat.lt_of_le_of_lt (Nat.le_add_left ..) hplace
    have hpiece : (str.drop idx).take p.length = p := by
      rw [hl,List.append_assoc,List.take_left]
    simp only [splitLoop,hat,if_pos hlt,hfind,toInt_eq hplace,toSize_natCast hplace,toInt_mod hend,
      if_neg (ne_npos hplace),hrec,natCast_add_sub,toSize_natCast hlength,hpiece]
    split_ifs with hp
    · have hnil : p = [] := List.length_eq_zero_iff.mp (by omega)
      simp [hnil]
    · have hne : p ≠ [] := by
        rintro rfl
        simp at hp
      rw [List.filter_cons_of_pos (by simpa using hne),List.append_assoc,List.singleton_append]

/-- Whatever the vector holds at first, `split` ends, brings `us` to it and gives its size. -/
def Appends (str sep : List α) (us : List (List α)) : Prop := ∀ result fuel, str.length < fuel →
  split fuel str sep result = some (result ++ us,(result ++ us).length)

theorem appends_of_cutAt (h : CutAt sep str ps) (hsize : str.length < 2^31) (hsep : sep ≠ []) :
    Appends str sep (ps.filter fun u => !u.isEmpty) := by
  intro result fuel hfuel
  have hloop := splitLoop_cutAt hsize hsep h (List.drop_zero ..) (Nat.zero_le _)
    (by rwa [Nat.zero_add]) result
  exact congrArg (Option.map _) hloop

/-- `split` appends the pieces between the separators that are not empty. None has the separator in
it, and with a separator of one element the pieces joined by it are split into the same again. -/
theorem split_pieces_exact (str sep : List α) (hsize : str.length < 2^31) (hsep : sep ≠ []) :
    ∃ ps us, (∀ qs, CutAt sep str qs ↔ qs = ps) ∧ us = ps.filter (fun u => !u.isEmpty) ∧
      Appends str sep us ∧ (∀ u ∈ us, ¬ sep <:+: u) ∧
        (sep.length = 1 → Appends (sep.intercalate us) sep us) := by
  obtain ⟨ps,h⟩ := CutAt.exists_cutAt hsep str
  have hclean : ∀ u ∈ ps.filter (fun u => !u.isEmpty), ¬ sep <:+: u := fun u hu =>
    h.not_infix hsep u (List.mem_filter.mp hu).1
  refine ⟨ps,_,fun qs => ⟨fun k => k.unique h,fun e => e ▸ h⟩,rfl,appends_of_cutAt h hsize hsep,
    hclean,?_⟩
  intro hone
  obtain ⟨c,rfl⟩ := List.length_eq_one_iff.mp hone
  have hle := length_intercalate_filter_le [c] (fun u => !u.isEmpty) ps
  rw [h.intercalate] at hle
  have hjoined : ([c].intercalate (ps.filter fun u => !u.isEmpty)).length < 2^31 :=
    Nat.lt_of_le_of_lt hle hsize
  by_cases hus : ps.filter (fun u => !u.isEmpty) = []
  · rw [hus] at hjoined ⊢
    exact appends_of_cutAt (.last (by simp)) hjoined hsep
  · have hc : ∀ u ∈ ps.filter (fun u => !u.isEmpty), c ∉ u := fun u hu hmem =>
      hclean u hu ((List.singleton_infix_iff c u).mpr hmem)
    have hkept : (ps.filter fun u => !u.isEmpty).filter (fun u => !u.isEmpty) =
        ps.filter fun u => !u.isEmpty :=
      List.filter_eq_self.mpr fun u hu => (List.mem_filter.mp hu).2
    have hagain := appends_of_cutAt (.joined hus hc) hjoined hsep
    rwa [hkept] at hagain

theorem split_pieces_exact_dots :
    ∃ ps us, (∀ qs, CutAt ['.','.'] ['n','.','.','.','m','.','.'] qs ↔ qs = ps) ∧
      us = ps.filter (fun u => !u.isEmpty) ∧
        Appends ['n','.','.','.','m','.','.'] ['.','.'] us ∧ (∀ u ∈ us, ¬ ['.','.'] <:+: u) ∧
          (['.','.'].length = 1 → Appends (['.','.'].intercalate us) ['.','.'] us) :=
  split_pieces_exact ['n','.','.','.','m','.','.'] ['.','.'] (by decide) (by decide)

/-- An empty separator stands at every place, and the loop does not get past the first. -/
theorem split_empty_separator (hne : str ≠ []) (fuel : ℕ) : split fuel str [] result = none := by
  have hfind : find str [] 0 = 0 :=
    find_leftmost (p := []) (Nat.zero_le _) rfl fun _ _ _ => Nat.zero_le _
  have hstay : splitLoop str [] fuel 0 result = none := by
    induction fuel with
    | zero => rfl
    | succ fuel ih =>
      have hlt : 0 < str.length := List.length_pos_iff.mpr hne
      have hat : toSize 0 = 0 := rfl
      have hpos : toInt 0 = 0 := rfl
      have hnext : toInt ((0+([] : List α).length)%2^64) = 0 :=
        toInt_mod (n := 0) (by decide)
      have hnpos : (0 : ℕ) ≠ npos := by decide
      simp only [splitLoop,hat,if_pos hlt,hfind,hpos,if_neg hnpos,if_true,hnext,ih]
  rw [split,hstay]
  rfl

end Sized

section Text
variable {str sep : List Char} {idx pos fuel : ℕ}

theorem find_place (h : find str sep idx = some pos) : idx ≤ pos ∧ pos+sep.length ≤ str.length := by
  rw [find,List.range_eq_range',List.drop_range',List.find?_range'_eq_some] at h
  obtain ⟨hstands,hmem,-⟩ := h
  obtain ⟨hidx,hpos⟩ := List.mem_range'_1.mp hmem
  have hle := (List.isPrefixOf_iff_prefix.mp hstands).length_le
  rw [List.length_drop] at hle
  omega

/-- Texts are split as the strings of the code are. -/
theorem splitLoop_text (hsize : str.length < 2^31) (hsep : sep ≠ []) (hidx : idx ≤ str.length)
    (hfuel : str.length < idx+fuel) (result : List String) :
    Sized.splitLoop str sep fuel idx (result.map String.toList) =
      some ((splitLoop str sep fuel idx result).map String.toList) := by
  have hpos : 0 < sep.length := List.length_pos_iff.mpr hsep
  induction fuel generalizing idx result with
  | zero => omega
  | succ fuel ih =>
    have hat : toSize (idx : ℤ) = idx := toSize_natCast (by omega)
    by_cases hlt : idx < str.length
    · cases h : find str sep idx with
      | none =>
        have hfind : Sized.find str sep idx = npos := congrArg (Option.getD · npos) h
        simp only [Sized.splitLoop,splitLoop,hat,if_pos hlt,h,hfind,toSize_toInt_npos,if_true]
        simp
      | some pos =>
        have hfind : Sized.find str sep idx = pos := congrArg (Option.getD · npos) h
        obtain ⟨hle,hend⟩ := find_place h
        have hlast : pos+sep.length < 2^31 := Nat.lt_of_le_of_lt hend hsize
        have hplace : pos < 2^31 := Nat.lt_of_le_of_lt (Nat.le_add_right ..) hlast
        have hdiff : toSize ((pos : ℤ)-idx) = pos-idx := by
          rw [← Int.ofNat_sub hle,toSize_natCast (Nat.lt_of_le_of_lt (Nat.sub_le ..) hplace)]
        have hrec := ih hend (by omega : str.length < pos+sep.length+fuel)
        simp only [Sized.splitLoop,splitLoop,hat,if_pos hlt,h,hfind,toInt_eq hplace,
          toSize_natCast hplace,if_neg (ne_npos hplace),toInt_mod hlast,Int.ofNat_inj,hdiff]
        split_ifs with heq
        · exact hrec result
        · rw [← hrec]
          simp
    · simp only [Sized.splitLoop,splitLoop,hat,if_neg hlt]

theorem split_text {str sep : String} (hsize : str.toList.length < 2^31) (hsep : sep ≠ "") :
    Sized.split (str.toList.length+1) str.toList sep.toList [] =
      some ((split str sep).map String.toList,(split str sep).length) := by
  have hloop := splitLoop_text hsize (fun e => hsep (String.toList_eq_nil_iff.mp e))
    (Nat.zero_le _) (Nat.lt_of_lt_of_le (Nat.lt_succ_self _) (Nat.le_add_left ..)) []
  have hsplit := congrArg (Option.map fun us => (us,us.length)) hloop
  rw [Option.map_some,List.length_map] at hsplit
  exact hsplit

end Text
end StrHelper
end MessageQueue

import Mathlib.Data.List.Infix
import Mathlib.Data.Nat.Find

/-! Lists cut at a separator of any length: at the leftmost place where it stands, and the rest
again. A list is cut in one way; what is between the cuts has no separator in it. -/
namespace MessageQueue.Base

/-- `ps` is what is left of a list when it is cut at `sep`. -/
inductive CutAt {α : Type*} (sep : List α) : List α → List (List α) → Prop
  | last {l : List α} (none : ¬ sep <:+: l) : CutAt sep l [l]
  | cut {p rest : List α} {ps : List (List α)}
      (leftmost : ∀ q r, p ++ sep ++ rest = q ++ sep ++ r → p.length ≤ q.length)
      (cuts : CutAt sep rest ps) : CutAt sep (p ++ sep ++ rest) (p::ps)

namespace CutAt
variable {α : Type*} {sep l p rest : List α} {ps qs : List (List α)}

theorem ne_nil (h : CutAt sep l ps) : ps ≠ [] := by
  cases h <;> exact List.cons_ne_nil _ _

/-- The separators put back between them, the pieces make the list. -/
theorem intercalate (h : CutAt sep l ps) : sep.intercalate ps = l := by
  induction h with
  | last => simp
  | cut _ cuts ih => rw [List.intercalate_cons_of_ne_nil cuts.ne_nil,ih]

/-- There is a leftmost place. -/
theorem exists_leftmost (h : sep <:+: l) : ∃ p rest, l = p ++ sep ++ rest ∧
    ∀ q r, p ++ sep ++ rest = q ++ sep ++ r → p.length ≤ q.length := by
  have hex : ∃ n, ∃ p rest, p.length = n ∧ p ++ sep ++ rest = l := by
    obtain ⟨p,rest,e⟩ := h
    exact ⟨p.length,p,rest,rfl,e⟩
  classical
  obtain ⟨p,rest,hp,e⟩ := Nat.find_spec hex
  refine ⟨p,rest,e.symm,fun q r hq => ?_⟩
  rw [hp]
  exact Nat.find_min' hex ⟨q,r,rfl,hq.symm.trans e⟩

theorem exists_cutAt (hsep : sep ≠ []) (l : List α) : ∃ ps, CutAt sep l ps := by
  induction hn : l.length using Nat.strongRecOn generalizing l with
  | ind n ih =>
    by_cases h : sep <:+: l
    · obtain ⟨p,rest,rfl,leftmost⟩ := exists_leftmost h
      have hpos : 0 < sep.length := List.length_pos_iff.mpr hsep
      have hlt : rest.length < n := by
        rw [← hn]
        simp only [List.length_append]
        omega
      obtain ⟨ps,hps⟩ := ih _ hlt rest rfl
      exact ⟨p::ps,.cut leftmost hps⟩
    · exact ⟨[l],.last h⟩

theorem unique (h : CutAt sep l ps) (k : CutAt sep l qs) : ps = qs := by
  induction h generalizing qs with
  | last none =>
    cases k with
    | last => rfl
    | cut => exact absurd ⟨_,_,rfl⟩ none
  | @cut p rest ps leftmost _ ih =>
    generalize e : p ++ sep ++ rest = l at k
    cases k with
    | last none => exact absurd ⟨p,rest,e⟩ none
    | @cut q rest' qs leftmost' cuts' =>
      have hlen : p.length = q.length :=
        Nat.le_antisymm (leftmost q rest' e) (leftmost' p rest e.symm)
      have happ : (p ++ sep).length = (q ++ sep).length := by simp [hlen]
      obtain ⟨hfront,rfl⟩ := List.append_inj e happ
      obtain ⟨rfl,-⟩ := List.append_inj hfront hlen
      rw [ih cuts']

/-- No piece has the separator in it. -/
theorem not_infix (hsep : sep ≠ []) (h : CutAt sep l ps) : ∀ p ∈ ps, ¬ sep <:+: p := by
  induction h with
  | last none => simpa using none
  | @cut p rest ps leftmost _ ih =>
    intro u hu
    cases List.mem_cons.mp hu with
    | inr hu => exact ih u hu
    | inl e =>
      subst e
      rintro ⟨q,r,rfl⟩
      -- the separator in the piece would be further to the left
      have hle := leftmost q (r ++ sep ++ rest) (by simp)
      have hpos : 0 < sep.length := List.length_pos_iff.mpr hsep
      simp only [List.length_append] at hle
      omega

/-- A separator of one element cuts where `splitOn` does. -/
theorem splitOn [DecidableEq α] (c : α) (l : List α) : CutAt [c] l (l.splitOn c) := by
  induction hn : l.length using Nat.strongRecOn generalizing l with
  | ind n ih =>
    by_cases h : [c] <:+: l
    · obtain ⟨p,rest,rfl,leftmost⟩ := exists_leftmost h
      have hp : c ∉ p := by
        intro hc
        obtain ⟨q,r,rfl⟩ := List.append_of_mem hc
        have hle := leftmost q (r ++ [c] ++ rest) (by simp)
        rw [List.length_append,List.length_cons] at hle
        omega
      have hsplit : (p ++ [c] ++ rest).splitOn c = p :: rest.splitOn c := by
        rw [List.append_assoc,List.singleton_append]
        exact List.splitOn_append_cons_self_of_not_mem hp rest
      rw [hsplit]
      have hlt : rest.length < n := by
        rw [← hn]
        simp only [List.length_append,List.length_singleton]
        omega
      exact .cut leftmost (ih _ hlt rest rfl)
    · have hc : c ∉ l := fun hc => h ((List.singleton_infix_iff c l).mpr hc)
      rw [List.splitOn_eq_singleton hc]
      exact .last h

/-- Pieces without the separator, joined by it, are cut into themselves. -/
theorem joined {c : α} {us : List (List α)} (hne : us ≠ []) (hus : ∀ u ∈ us, c ∉ u) :
    CutAt [c] ([c].intercalate us) us := by
  classical
  have h := splitOn c ([c].intercalate us)
  rwa [List.splitOn_intercalate c hus hne] at h

end CutAt

/-- What stands at a place of a list cuts it in two there. -/
theorem prefix_drop_iff {α : Type*} {sep l : List α} {k : ℕ} (hk : k ≤ l.length) :
    sep <+: l.drop k ↔ ∃ q r, l = q ++ sep ++ r ∧ q.length = k := by
  constructor
  · rintro ⟨r,e⟩
    refine ⟨l.take k,r,?_,by simp [hk]⟩
    rw [List.append_assoc,e,List.take_append_drop]
  · rintro ⟨q,r,rfl,rfl⟩
    rw [List.append_assoc,List.drop_left]
    exact List.prefix_append sep r

/-- Without the pieces that are empty the list gets no longer. -/
theorem length_intercalate_filter_le {α : Type*} (sep : List α) (keep : List α → Bool)
    (ps : List (List α)) :
    (sep.intercalate (ps.filter keep)).length ≤ (sep.intercalate ps).length := by
  induction ps with
  | nil => simp
  | cons p ps ih =>
    by_cases hps : ps = []
    · subst hps
      rw [List.filter_singleton]
      cases keep p with
      | true => exact Nat.le_refl _
      | false => exact Nat.zero_le _
    · rw [List.intercalate_cons_of_ne_nil hps,List.length_append,List.length_append]
      by_cases hp : keep p = true
      · rw [List.filter_cons_of_pos hp]
        by_cases hkept : ps.filter keep = []
        · rw [hkept,List.intercalate_singleton]
          omega
        · rw [List.intercalate_cons_of_ne_nil hkept,List.length_append,List.length_append]
          omega
      · rw [List.filter_cons_of_neg hp]
        omega

end MessageQueue.Base

import Mathlib.Data.List.Dedup

/-! Labels that act on a state in any order: each takes out the entry under its own name, and
nothing when there is none. -/
namespace MessageQueue.Base
variable {σ α β : Type*} {f : σ → α → σ} {get : σ → α → Option β}

/-- Acting again with a label that comes anyway makes no difference. -/
lemma foldl_absorb (comm : ∀ s a b, f (f s a) b = f (f s b) a)
    (idem : ∀ s a, f (f s a) a = f s a) {as : List α} {a : α} (h : a ∈ as) (s : σ) :
    as.foldl f (f s a) = as.foldl f s := by
  induction as generalizing s with
  | nil => simp at h
  | cons b as ih =>
    rw [List.foldl_cons,List.foldl_cons]
    cases List.mem_cons.mp h with
    | inl hab => rw [hab,idem]
    | inr ha => rw [comm,ih ha]

/-- Where labels commute and repeating one has no effect, it only matters which ones act. -/
theorem foldl_eq_of_mem_iff [DecidableEq α] (comm : ∀ s a b, f (f s a) b = f (f s b) a)
    (idem : ∀ s a, f (f s a) a = f s a) {as bs : List α} (h : ∀ a, a ∈ as ↔ a ∈ bs) (s : σ) :
    as.foldl f s = bs.foldl f s := by
  have hdedup : ∀ (l : List α) (s : σ), l.dedup.foldl f s = l.foldl f s := by
    intro l
    induction l with
    | nil => exact fun _ => rfl
    | cons a l ih =>
      intro s
      by_cases ha : a ∈ l
      · rw [List.dedup_cons_of_mem ha,ih,List.foldl_cons,foldl_absorb comm idem ha]
      · rw [List.dedup_cons_of_notMem ha,List.foldl_cons,List.foldl_cons,ih]
  have hperm : as.dedup.Perm bs.dedup :=
    (List.perm_ext_iff_of_nodup as.nodup_dedup bs.nodup_dedup).mpr (by simpa using h)
  rw [← hdedup as,← hdedup bs]
  exact hperm.foldl_eq' (fun x _ y _ z => comm z x y) s

/-- Every label takes its own entry, and no two get in each other's way. -/
structure Takes (get : σ → α → Option β) (f : σ → α → σ) : Prop where
  absent : ∀ {s a}, get s a = none → f s a = s
  own : ∀ s a, get (f s a) a = none
  others : ∀ s {a b}, a ≠ b → get (f s b) a = get s a
  swap : ∀ {s a b x y}, a ≠ b → get s a = some x → get s b = some y →
    f (f s a) b = f (f s b) a

namespace Takes

theorem idem (h : Takes get f) (s : σ) (a : α) : f (f s a) a = f s a := h.absent (h.own s a)

theorem comm (h : Takes get f) (s : σ) (a b : α) : f (f s a) b = f (f s b) a := by
  classical
  by_cases hab : a = b
  · rw [hab]
  have ha := h.others s hab
  have hb := h.others s (Ne.symm hab)
  cases hx : get s a with
  | none => rw [h.absent hx,h.absent (ha.trans hx)]
  | some x =>
    cases hy : get s b with
    | none => rw [h.absent hy,h.absent (hb.trans hy)]
    | some y => exact h.swap hab hx hy

/-- No label puts an entry in. -/
theorem get_foldl_none (h : Takes get f) {s : σ} {a : α} (hs : get s a = none) (as : List α) :
    get (as.foldl f s) a = none := by
  classical
  induction as generalizing s with
  | nil => exact hs
  | cons b as ih =>
    refine ih ?_
    by_cases hab : a = b
    · rw [hab]
      exact h.own s b
    · rw [h.others s hab]
      exact hs

/-- An entry that was taken is gone. -/
theorem get_foldl_mem (h : Takes get f) {as : List α} {a : α} (ha : a ∈ as) (s : σ) :
    get (as.foldl f s) a = none := by
  rw [← foldl_absorb h.comm h.idem ha]
  exact h.get_foldl_none (h.own s a) as

/-- It only matters which labels act. -/
theorem foldl_eq [DecidableEq α] (h : Takes get f) {as bs : List α}
    (hmem : ∀ a, a ∈ as ↔ a ∈ bs) (s : σ) : as.foldl f s = bs.foldl f s :=
  foldl_eq_of_mem_iff h.comm h.idem hmem s

end Takes
end MessageQueue.Base

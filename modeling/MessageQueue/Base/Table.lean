import Mathlib.Data.List.AList

/-! Hash tables with unique keys. Insertion never overwrites: a key that is present keeps its
value, as the standard library's `insert` has it. -/
namespace MessageQueue.Base

abbrev Table (κ ν : Type*) := AList fun _ : κ => ν

namespace Table
variable {κ ν : Type*} [DecidableEq κ]

/-- Insert unless the key is present. -/
def emplace (m : Table κ ν) (k : κ) (v : ν) : Table κ ν :=
  match m.lookup k with
  | none => m.insert k v
  | some _ => m

variable {m : Table κ ν} {k j : κ} {v w : ν}

@[simp] theorem lookup_emplace_ne (h : j ≠ k) : (m.emplace k v).lookup j = m.lookup j := by
  unfold emplace
  split
  · exact AList.lookup_insert_ne h
  · rfl

theorem lookup_emplace_none (h : m.lookup k = none) : (m.emplace k v).lookup k = some v := by
  simp only [emplace,h]
  exact AList.lookup_insert m

theorem emplace_some (h : m.lookup k = some w) : m.emplace k v = m := by
  simp only [emplace,h]

/-- What a table answers after an insertion. -/
theorem lookup_emplace_eq_some :
    (m.emplace k v).lookup j = some w ↔ m.lookup j = some w ∨ (j = k ∧ m.lookup k = none ∧ w = v) := by
  by_cases hj : j = k
  · subst hj
    cases hm : m.lookup j with
    | none => simp [lookup_emplace_none hm,eq_comm]
    | some x => simp [emplace_some hm,hm]
  · simp [lookup_emplace_ne hj,hj]

/-- The same, about the key that is looked up. -/
theorem lookup_emplace_iff : (m.emplace k v).lookup j = some w ↔
    m.lookup j = some w ∨ j = k ∧ m.lookup j = none ∧ w = v := by
  rw [lookup_emplace_eq_some]
  refine or_congr_right ⟨?_,?_⟩
  · rintro ⟨rfl,hn,rfl⟩; exact ⟨rfl,hn,rfl⟩
  · rintro ⟨rfl,hn,rfl⟩; exact ⟨rfl,hn,rfl⟩

/-- What a table answers after an insertion that overwrites. -/
theorem lookup_insert_eq_some : AList.lookup j (AList.insert k v m) = some w ↔
    (j = k ∧ w = v) ∨ (j ≠ k ∧ m.lookup j = some w) := by
  by_cases hj : j = k
  · subst hj; simp [eq_comm]
  · simp [AList.lookup_insert_ne hj,hj]

/-- An insertion keeps what holds of every entry, when the new one has it. -/
theorem forall_insert {P : κ → ν → Prop} (hv : P k v) (h : ∀ j w, m.lookup j = some w → P j w) :
    ∀ j w, AList.lookup j (AList.insert k v m) = some w → P j w := by
  intro j w hj
  rcases lookup_insert_eq_some.mp hj with ⟨rfl,rfl⟩ | ⟨-,hj⟩
  · exact hv
  · exact h j w hj

/-- What a table answers after an erasure. -/
theorem lookup_erase_eq_some :
    AList.lookup j (m.erase k) = some w ↔ j ≠ k ∧ m.lookup j = some w := by
  by_cases hj : j = k
  · subst hj; simp
  · simp [AList.lookup_erase_ne hj,hj]

section Fold
variable {ρ : Type*} (key : ρ → κ) (val : ρ → ν)

/-- What a table holds that was filled row by row. -/
theorem lookup_foldl_emplace {rows : List ρ} {m : Table κ ν}
    (h : (rows.foldl (fun m r => m.emplace (key r) (val r)) m).lookup k = some v) :
    m.lookup k = some v ∨ ∃ r ∈ rows, key r = k ∧ val r = v := by
  induction rows generalizing m with
  | nil => exact .inl h
  | cons r rows ih =>
    rcases ih h with h | ⟨x,hx,hk⟩
    · rcases lookup_emplace_eq_some.mp h with h | ⟨rfl,-,rfl⟩
      · exact .inl h
      · exact .inr ⟨r,by simp,rfl,rfl⟩
    · exact .inr ⟨x,by simp [hx],hk⟩

/-- Every row leaves an entry under its key. -/
theorem isSome_foldl_emplace {rows : List ρ} {m : Table κ ν}
    (h : (m.lookup k).isSome ∨ ∃ r ∈ rows, key r = k) :
    ((rows.foldl (fun m r => m.emplace (key r) (val r)) m).lookup k).isSome := by
  induction rows generalizing m with
  | nil => simpa using h
  | cons r rows ih =>
    refine ih ?_
    rcases h with h | ⟨x,hx,hk⟩
    · obtain ⟨w,hw⟩ := Option.isSome_iff_exists.mp h
      exact .inl (Option.isSome_iff_exists.mpr ⟨w,lookup_emplace_eq_some.mpr (.inl hw)⟩)
    · rcases List.mem_cons.mp hx with rfl | hx
      · subst hk
        change ((m.emplace (key x) (val x)).lookup (key x)).isSome ∨ _
        cases hm : m.lookup (key x) with
        | none => exact .inl (by rw [lookup_emplace_none hm]; rfl)
        | some w => exact .inl (by rw [emplace_some hm,hm]; rfl)
      · exact .inr ⟨x,hx,hk⟩

end Fold

/-- A table answers for its keys. -/
theorem isSome_lookup {m : Table κ ν} : (m.lookup k).isSome ↔ k ∈ m.keys := by
  rw [AList.lookup_isSome]
  rfl

/-- Overwriting a value adds no key. -/
theorem isSome_lookup_insert {m : Table κ ν} (h : (m.lookup k).isSome) :
    ((m.insert k v).lookup j).isSome = (m.lookup j).isSome := by
  by_cases hj : j = k
  · subst hj; simp [h]
  · rw [AList.lookup_insert_ne hj]

/-- The only entry is taken out again. -/
theorem erase_emplace_empty : ((∅ : Table κ ν).emplace k v).erase k = ∅ := by
  refine AList.ext ?_
  change List.kerase k [(⟨k,v⟩ : Sigma fun _ : κ => ν)] = []
  simp

/-- An entry and the others. -/
theorem perm_erase (h : m.lookup k = some v) : m.entries.Perm (⟨k,v⟩::(m.erase k).entries) := by
  obtain ⟨w,front,back,hfront,he,hk⟩ :=
    List.exists_of_kerase (AList.mem_keys.mp (AList.lookup_isSome.mp (Option.isSome_of_eq_some h)))
  have hw : m.lookup k = some w := AList.mem_lookup_iff.mpr (by rw [he]; simp)
  obtain rfl : w = v := Option.some.inj (hw.symm.trans h)
  have herase : (m.erase k).entries = front ++ back := hk
  rw [herase,he]
  exact List.perm_middle

end Table
end MessageQueue.Base

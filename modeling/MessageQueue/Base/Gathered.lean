import MessageQueue.Base.Table
import Mathlib.Algebra.BigOperators.Group.List.Basic
import Mathlib.Algebra.GroupWithZero.Nat

/-! Tables whose values have lists. All lists together have what those of an earlier table had and
what has been added to them since, as long as lists only grow. -/
namespace MessageQueue.Base
namespace Table
variable {κ ν β : Type*} [DecidableEq κ] (f : ν → List β)

/-- The lists of all values, one after the other. -/
def gathered (m : Table κ ν) : List β := m.entries.flatMap fun e => f e.2

/-- The list under a key. -/
def listAt (m : Table κ ν) (k : κ) : List β := ((m.lookup k).map f).getD []

/-- What the lists of the second table have behind those of the first. -/
def added (m m' : Table κ ν) : List β :=
  m'.entries.flatMap fun e => (f e.2).drop (m.listAt f e.1).length

variable {f} {m m' : Table κ ν} {k : κ} {v : ν}

theorem listAt_some (h : m.lookup k = some v) : m.listAt f k = f v := by simp [listAt,h]

theorem listAt_none (h : m.lookup k = none) : m.listAt f k = [] := by simp [listAt,h]

theorem perm_gathered (h : m.lookup k = some v) :
    (m.gathered f).Perm (f v ++ gathered f (m.erase k)) := (perm_erase h).flatMap_right _

theorem gathered_insert : gathered f (AList.insert k v m) = f v ++ gathered f (m.erase k) := by
  rw [gathered,AList.entries_insert]
  rfl

theorem gathered_erase_none (h : m.lookup k = none) : gathered f (m.erase k) = m.gathered f := by
  rw [gathered,gathered]
  exact congrArg _ (List.kerase_of_notMem_keys (AList.lookup_eq_none.mp h))

/-- What has been added, was added to some list. -/
theorem mem_added {b : β} (h : b ∈ added f m m') : ∃ k v, m'.lookup k = some v ∧
    b ∈ (f v).drop (m.listAt f k).length := by
  obtain ⟨e,he,hb⟩ := List.mem_flatMap.mp h
  exact ⟨e.1,e.2,AList.mem_lookup_iff.mpr he,hb⟩

variable [BEq β] {b : β}

/-- A value and the others. -/
theorem count_gathered (h : m.lookup k = some v) :
    (m.gathered f).count b = (f v).count b+(gathered f (m.erase k)).count b := by
  rw [(perm_gathered h).count_eq,List.count_append]

theorem count_gathered_insert : (gathered f (AList.insert k v m)).count b =
    (f v).count b+(gathered f (m.erase k)).count b := by
  rw [gathered_insert,List.count_append]

theorem count_erase_le : (gathered f (m.erase k)).count b ≤ (m.gathered f).count b := by
  cases h : m.lookup k with
  | none => rw [gathered_erase_none h]
  | some v =>
    rw [count_gathered h]
    exact Nat.le_add_left _ _

/-- Where a list is replaced, what counts is how many more it has. -/
theorem count_insert_le {a c : ℕ} (h : (f v).count b+a ≤ (m.listAt f k).count b+c) :
    (gathered f (AList.insert k v m)).count b+a ≤ (m.gathered f).count b+c := by
  rw [count_gathered_insert]
  cases hk : m.lookup k with
  | none =>
    rw [listAt_none hk,List.count_nil] at h
    rw [gathered_erase_none hk]
    omega
  | some w =>
    rw [listAt_some hk] at h
    rw [count_gathered hk]
    omega

/-- A part of a table has less than all of it. -/
theorem sum_listAt_le {es : List (Sigma fun _ : κ => ν)} (nodup : es.NodupKeys) :
    (es.map fun e => (m.listAt f e.1).count b).sum ≤ (m.gathered f).count b := by
  induction es generalizing m with
  | nil => exact Nat.zero_le _
  | cons e es ih =>
    obtain ⟨hnew,hrest⟩ := List.nodupKeys_cons.mp nodup
    have hsame : (es.map fun e => (m.listAt f e.1).count b) =
        es.map fun e' => (listAt f (m.erase e.1) e'.1).count b := by
      refine List.map_congr_left fun e' he' => ?_
      have hne : e'.1 ≠ e.1 := fun heq => hnew (heq ▸ List.mem_keys_of_mem he')
      rw [listAt,listAt,AList.lookup_erase_ne hne]
    rw [List.map_cons,List.sum_cons,hsame]
    have hle := @ih (m.erase e.1) hrest
    cases hk : m.lookup e.1 with
    | none =>
      rw [listAt_none hk,List.count_nil,Nat.zero_add]
      exact hle.trans count_erase_le
    | some v =>
      rw [listAt_some hk,count_gathered hk]
      omega

/-- Lists that only grow have what they had and what has been added. -/
theorem count_gathered_le (h : ∀ k v, m'.lookup k = some v → m.listAt f k <+: f v) :
    (m'.gathered f).count b ≤ (m.gathered f).count b+(added f m m').count b := by
  have heach : ∀ e ∈ m'.entries, (f e.2).count b = (m.listAt f e.1).count b+
      ((f e.2).drop (m.listAt f e.1).length).count b := by
    intro e he
    have hpre := h e.1 e.2 (AList.mem_lookup_iff.mpr he)
    rw [← List.count_append,List.prefix_iff_eq_append.mp hpre]
  have hsum : (m'.entries.map fun e => (f e.2).count b).sum =
      (m'.entries.map fun e => (m.listAt f e.1).count b).sum+
        (m'.entries.map fun e => ((f e.2).drop (m.listAt f e.1).length).count b).sum := by
    rw [← List.sum_map_add]
    exact congrArg List.sum (List.map_congr_left heach)
  rw [gathered,added,List.count_flatMap,List.count_flatMap]
  exact (Nat.le_of_eq hsum).trans (Nat.add_le_add_right (sum_listAt_le m'.nodupKeys) _)

end Table
end MessageQueue.Base

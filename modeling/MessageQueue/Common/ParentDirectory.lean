import MessageQueue.Common.WholePath

/-! `FileHelper::parentDirectory`, and what the mappers do with it before they open their database:
they make the directory that the file is to be in, and do not look whether that succeeded. -/
namespace MessageQueue
open Base MessageQueue.Tree

namespace FileHelper

/-- `std::string::find_last_of` for one character, among the first `n`. -/
def findLastOf (s : List Char) (c : Char) : ℕ → Option ℕ
  | 0 => none
  | n+1 => if s[n]? = some c then some n else findLastOf s c n

def parentDirectory (filename : String) : String :=
  match findLastOf filename.toList '/' filename.toList.length with
  | none => "./"
  | some pos => .ofList (filename.toList.take pos)

variable {s : List Char} {c : Char} {n pos : ℕ} {t u : Tree} {path q : List Char}

theorem findLastOf_some (h : findLastOf s c n = some pos) :
    s[pos]? = some c ∧ ∀ i < n, s[i]? = some c → i ≤ pos := by
  induction n with
  | zero => cases h
  | succ n ih =>
    rw [findLastOf] at h
    split_ifs at h with hat
    · cases h
      exact ⟨hat,fun i hi _ => Nat.le_of_lt_succ hi⟩
    · obtain ⟨hpos,hlast⟩ := ih h
      refine ⟨hpos,fun i hi hc => hlast i ?_ hc⟩
      have hne : i ≠ n := by
        rintro rfl
        exact hat hc
      omega

theorem findLastOf_none (h : findLastOf s c n = none) : ∀ i < n, s[i]? ≠ some c := by
  induction n with
  | zero => exact fun i hi => absurd hi (Nat.not_lt_zero i)
  | succ n ih =>
    rw [findLastOf] at h
    split_ifs at h with hat
    intro i hi
    by_cases hne : i = n
    · exact hne ▸ hat
    · exact ih h i (by omega)

/-- The directories on the way to the file are those on the path of its parent. -/
theorem onPath_of_before (hlast : findLastOf path '/' path.length = some pos)
    (h : Before path q) : OnPath (path.take pos) q := by
  have hle := (findLastOf_some hlast).2 q.length h.length_lt h.getElem
  rcases Nat.lt_or_eq_of_le hle with hlt | heq
  · refine .inl ⟨h.1,List.prefix_take_iff.mpr ⟨h.2,?_⟩⟩
    rw [List.length_append]
    exact hlt
  · exact .inr ⟨heq ▸ h.eq_take,h.1⟩

/-- A path without a leading slash is made as a whole, whether the call says so or not. -/
theorem createDirectory_made {dir : String} {ok : Bool} (hopen : t.Open dir.toList)
    (hrel : dir.toList.head? ≠ some '/') (h : createDirectory t dir = some (ok,u)) :
    ∀ q, OnPath dir.toList q → u.entry q = some .directory := by
  by_cases hne : dir = ""
  · subst hne
    rintro q (hq | ⟨rfl,hq⟩)
    · exact absurd hq.length_lt (Nat.not_lt_zero _)
    · exact absurd rfl hq
  obtain ⟨v,hv,hcall⟩ := createDirectory_relative hne hopen hrel
  have hmade : ∀ q, Before dir.toList q → v.entry q = some .directory := fun q hq =>
    hv.made q hq hq.length_lt
  rw [hcall] at h
  split_ifs at h with hlast
  · cases h
    rintro q (hq | ⟨rfl,-⟩)
    · exact hmade q hq
    · -- the slash at the end names nothing more
      obtain ⟨front,hfront⟩ := List.getLast?_eq_some_iff.mp hlast
      have hbefore : Before dir.toList front := by
        refine ⟨?_,hfront ▸ List.prefix_refl _⟩
        rintro rfl
        simp [hfront] at hrel
      have hsame : u.entry dir.toList = u.entry front := by
        rw [hfront,entry,entry,resolve_slash hbefore.1]
      rw [hsame]
      exact hmade front hbefore
  · have hname : dir.toList ≠ [] := fun hnil => hne (String.toList_eq_nil_iff.mp hnil)
    have hmkdir := mkdir_open hname (fun q hq => hmade q (mem_lookedUp hq).1)
      (hv.open hopen _ (.inr ⟨rfl,hname⟩))
    rw [hmkdir] at h
    cases h
    rintro q (hq | ⟨rfl,-⟩)
    · rw [entry,make_entries]
      split_ifs
      · rfl
      · exact hmade q hq
    · rw [entry,make_entries,if_pos rfl]

/-- After the constructor of a mapper has asked for the parent directory, everything on the way to
the database file is there, unless the file name begins with a slash; then nothing has been made. -/
theorem parent_made {filename : String} {ok : Bool}
    (hopen : t.Open (parentDirectory filename).toList)
    (call : createDirectory t (parentDirectory filename) = some (ok,u)) :
    (∀ q ∈ lookedUp filename.toList, u.entry q = some .directory) ↔
      filename.toList.head? ≠ some '/' ∨
        ∀ q ∈ lookedUp filename.toList, t.entry q = some .directory := by
  cases hlast : findLastOf filename.toList '/' filename.toList.length with
  | none =>
    have hno : ∀ q, q ∉ lookedUp filename.toList := fun q hq =>
      findLastOf_none hlast _ (mem_lookedUp hq).1.length_lt (mem_lookedUp hq).1.getElem
    exact iff_of_true (fun q hq => absurd hq (hno q)) (.inr fun q hq => absurd hq (hno q))
  | some pos =>
    have hparent : (parentDirectory filename).toList = filename.toList.take pos := by
      simp only [parentDirectory,hlast,String.toList_ofList]
    obtain ⟨hslash,-⟩ := findLastOf_some hlast
    by_cases habs : filename.toList.head? = some '/'
    · -- nothing is made
      have hsame : u = t := by
        by_cases hpos : pos = 0
        · have hempty : parentDirectory filename = "" := by
            rw [← String.toList_eq_nil_iff,hparent,hpos,List.take_zero]
          rw [hempty] at call
          cases call
          rfl
        · have hhead : (parentDirectory filename).toList.head? = some '/' := by
            rw [hparent,List.head?_take,if_neg hpos,habs]
          rw [createDirectory_absolute hhead] at call
          cases call
          rfl
      rw [hsame]
      exact ⟨.inr,fun h => h.resolve_left fun hrel => hrel habs⟩
    · have hrel : (parentDirectory filename).toList.head? ≠ some '/' := by
        rw [hparent,List.head?_take]
        split_ifs
        · simp
        · exact habs
      refine iff_of_true (fun q hq => ?_) (.inl habs)
      refine createDirectory_made hopen hrel call q ?_
      rw [hparent]
      exact onPath_of_before hlast (mem_lookedUp hq).1

/-- The database of the server, whose base directory is `./data/`. -/
theorem parent_made_server : ∃ ok u,
    createDirectory bareTree (parentDirectory "./data//meta.db") = some (ok,u) ∧
      ∀ q ∈ lookedUp "./data//meta.db".toList, u.entry q = some .directory := by
  obtain ⟨⟨ok,u⟩,hcall⟩ := Option.isSome_iff_exists.mp (by decide :
    (createDirectory bareTree (parentDirectory "./data//meta.db")).isSome = true)
  exact ⟨ok,u,hcall,(parent_made (bareTree_open _) hcall).mpr (.inl (by decide))⟩

end FileHelper
end MessageQueue

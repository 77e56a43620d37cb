import MessageQueue.Common.File
import MessageQueue.Common.Split

/-! `FileHelper::createDirectory` on a tree of directories and files. The loop makes what stands
before each slash and lets an `EEXIST` pass; an empty name before a leading slash stops it, and what
stands behind the last slash must not be there yet. -/
namespace MessageQueue
open Base StrHelper

/-- What stands before a slash of a path. -/
def Before (path q : List Char) : Prop := q ≠ [] ∧ q ++ ['/'] <+: path

namespace Before
variable {path q : List Char}

theorem take {pos : ℕ} (hpos : 0 < pos) (h : path[pos]? = some '/') :
    Before path (path.take pos) := by
  have hlt := (List.getElem?_eq_some_iff.mp h).1
  have htake : path.take pos ++ ['/'] = path.take (pos+1) := by
    rw [List.take_add_one,h]
    rfl
  refine ⟨?_,htake ▸ List.take_prefix (pos+1) path⟩
  rw [ne_eq,List.take_eq_nil_iff,not_or]
  exact ⟨by omega,List.length_pos_iff.mp (by omega)⟩

theorem getElem (h : Before path q) : path[q.length]? = some '/' := by
  obtain ⟨r,rfl⟩ := h.2
  simp

theorem length_lt (h : Before path q) : q.length < path.length :=
  (List.getElem?_eq_some_iff.mp h.getElem).1

theorem eq_take (h : Before path q) : q = path.take q.length := by
  obtain ⟨r,rfl⟩ := h.2
  simp

end Before

inductive FileKind
  | directory
  | file
  deriving DecidableEq

inductive Errno
  | ENOENT
  | EEXIST
  | ENOTDIR
  | other (code : ℕ)
  deriving DecidableEq

/-- What there is under each resolved path, and what stands against making a directory where
nothing is. The root and the working directory are there. -/
@[ext] structure Tree where
  entries : Path → Option FileKind
  refused : Path → Option ℕ
  root : entries [['/']] = some .directory
  here : entries [] = some .directory

namespace Tree

/-- What a name stands for. -/
def entry (t : Tree) (name : List Char) : Option FileKind := t.entries (resolve (.ofList name))

def make (t : Tree) (p : Path) : Tree where
  entries := Function.update t.entries p (some .directory)
  refused := t.refused
  root := by
    by_cases h : [['/']] = p
    · rw [h,Function.update_self]
    · rw [Function.update_of_ne h,t.root]
  here := by
    by_cases h : [] = p
    · rw [h,Function.update_self]
    · rw [Function.update_of_ne h,t.here]

/-- The directories through which a name is looked up: what stands before a slash behind which
something else than slashes follows. -/
def lookedUp (name : List Char) : List (List Char) :=
  ((List.range name.length).filter fun pos =>
    pos ≠ 0 ∧ name[pos]? = some '/' ∧ (name.drop pos).any (· ≠ '/')).map name.take

/-- `none` is success. -/
def mkdir (t : Tree) (name : List Char) : Option Errno × Tree :=
  if name = [] then (some .ENOENT,t)
  else
    match (lookedUp name).find? fun q => t.entry q ≠ some .directory with
    | some q => (some (if t.entry q = none then .ENOENT else .ENOTDIR),t)
    | none =>
      match t.entry name,t.refused (resolve (.ofList name)) with
      | some _,_ => (some .EEXIST,t)
      | none,some code => (some (.other code),t)
      | none,none => (none,t.make (resolve (.ofList name)))

variable {t u : Tree} {name q : List Char} {p p' : Path}

theorem make_entries (t : Tree) (p p' : Path) :
    (t.make p).entries p' = if p' = p then some .directory else t.entries p' :=
  Function.update_apply ..

/-- To make what is there changes nothing. -/
theorem make_eq_self (h : t.entries p = some .directory) : t.make p = t :=
  Tree.ext (Function.update_eq_self_iff.mpr h.symm) rfl

theorem mem_lookedUp (h : q ∈ lookedUp name) : Before name q ∧ q.length < name.length := by
  obtain ⟨pos,hpos,rfl⟩ := List.mem_map.mp h
  obtain ⟨hrange,hcond⟩ := List.mem_filter.mp hpos
  obtain ⟨hne,hslash,-⟩ := of_decide_eq_true hcond
  have hlt := List.mem_range.mp hrange
  exact ⟨.take (Nat.pos_of_ne_zero hne) hslash,by rw [List.length_take]; omega⟩

/-- Nothing is made under a name that stands for something. -/
theorem mkdir_of_entry {e : FileKind} (h : t.entry name = some e) : (t.mkdir name).1 ≠ none := by
  unfold mkdir
  split_ifs
  · simp
  · split
    · simp
    · simp [h]

/-- Where the directories on the way are there, and the last one is or can be made, it is there
behind the call; an error says that it was there before. -/
theorem mkdir_open (hname : name ≠ []) (hway : ∀ q ∈ lookedUp name, t.entry q = some .directory)
    (hopen : t.entry name = some .directory ∨
      t.entry name = none ∧ t.refused (resolve (.ofList name)) = none) :
    t.mkdir name = (if t.entry name = none then none else some .EEXIST,
      t.make (resolve (.ofList name))) := by
  have hnone : ((lookedUp name).find? fun q => t.entry q ≠ some .directory) = none := by
    rw [List.find?_eq_none]
    intro q hq
    simp [hway q hq]
  rw [mkdir,if_neg hname,hnone]
  cases hopen with
  | inl hdir => simp only [hdir,make_eq_self hdir,reduceCtorEq,if_false]
  | inr hfree => simp only [hfree.1,hfree.2,if_true]

end Tree

namespace FileHelper
open MessageQueue.Tree

/-- The loop of `createDirectory`; every round moves `idx`, so as many rounds as the path has
characters are enough. `none` when so many rounds are not. -/
def createDirectoryLoop (path : List Char) : ℕ → ℕ → Tree → Option (Bool × Tree)
  | 0,_,_ => none
  | fuel+1,idx,t =>
    if idx < path.length then
      match find path ['/'] idx with
      | none =>
        let r := t.mkdir path
        some (r.1 = none,r.2)
      | some pos =>
        let r := t.mkdir (path.take pos)
        if r.1 ≠ none ∧ r.1 ≠ some .EEXIST then some (false,r.2)
        else createDirectoryLoop path fuel (pos+1) r.2
    else some (true,t)

def createDirectory (t : Tree) (path : String) : Option (Bool × Tree) :=
  createDirectoryLoop path.toList (path.toList.length+1) 0 t

end FileHelper
end MessageQueue

import MessageQueue.Base.Bytes
import Mathlib.Logic.Function.Basic

/-! The file operations of `Helper.hpp` on a disk whose environment decides, operation by
operation, whether the call succeeds, fails, or is the point at which the process stops. The
environment also knows the directories: a name that goes through something else leads nowhere. -/
namespace MessageQueue
open Base Base.Bytes

/-- A file is named by the segments of its path; a leading `/` is a segment of its own. -/
abbrev Path := List (List Char)

/-- One segment of a path name: empty and `.` segments stay, `..` goes up. -/
def resolveSegment (p : Path) (seg : List Char) : Path :=
  if seg = [] ∨ seg = ['.'] then p
  else if seg = ['.','.'] then
    if p = [] ∨ p.getLast? = some ['.','.'] then p ++ [seg]
    else if p = [['/']] then p
    else p.dropLast
  else p ++ [seg]

/-- Where a path name starts. -/
def origin (name : String) : Path := if name.toList.head? = some '/' then [['/']] else []

/-- The file that a path name stands for, if everything before its last segment is a directory. -/
def resolve (name : String) : Path :=
  (name.toList.splitOn '/').foldl resolveSegment (origin name)

/-- What a path name goes through before its last segment. -/
def way (name : String) : List Path :=
  (name.toList.splitOn '/').dropLast.scanl resolveSegment (origin name)

lemma splitOn_append_suffix (s : List Char) :
    ∃ front last, ∀ t, '/' ∉ t → (s ++ t).splitOn '/' = front ++ [last ++ t] := by
  induction s with
  | nil =>
    refine ⟨[],[],fun t ht => ?_⟩
    rw [List.nil_append,List.splitOn,List.splitOnP_eq_singleton]
    · simp
    · intro x hx
      simpa using fun h : x = '/' => ht (h ▸ hx)
  | cons c s ih =>
    obtain ⟨front,last,h⟩ := ih
    by_cases hc : c = '/'
    · refine ⟨[]::front,last,fun t ht => ?_⟩
      rw [List.cons_append,List.splitOn,List.splitOnP_cons_eq_if_modifyHead,← List.splitOn,h t ht]
      simp [hc]
    · cases front with
      | nil =>
        refine ⟨[],c::last,fun t ht => ?_⟩
        rw [List.cons_append,List.splitOn,List.splitOnP_cons_eq_if_modifyHead,← List.splitOn,h t ht]
        simp [hc]
      | cons f front =>
        refine ⟨(c::f)::front,last,fun t ht => ?_⟩
        rw [List.cons_append,List.splitOn,List.splitOnP_cons_eq_if_modifyHead,← List.splitOn,h t ht]
        simp [hc]

/-- A suffix without `/` leaves it where the name starts. -/
lemma origin_append_suffix (name t : String) (ht : '/' ∉ t.toList) :
    origin (name ++ t) = origin name := by
  have hhead : (name.toList ++ t.toList).head? = some '/' ↔ name.toList.head? = some '/' := by
    cases hn : name.toList with
    | nil =>
      cases htl : t.toList with
      | nil => simp
      | cons c cs => simpa using fun h : c = '/' => ht (by simp [htl,h])
    | cons c cs => simp
  simp only [origin,String.toList_append,hhead]

/-- It does not change the way. -/
lemma way_append_suffix (name : String) :
    ∃ ps : List Path, ∀ t : String, '/' ∉ t.toList → way (name ++ t) = ps := by
  obtain ⟨front,last,h⟩ := splitOn_append_suffix name.toList
  refine ⟨front.scanl resolveSegment (origin name),fun t ht => ?_⟩
  rw [way,origin_append_suffix name t ht,String.toList_append,h t.toList ht,List.dropLast_concat]

/-- A long enough one stays the end of the last segment. -/
lemma resolve_append_suffix (name : String) :
    ∃ (p : Path) (last : List Char), ∀ t : String, '/' ∉ t.toList → 2 < t.toList.length →
      resolve (name ++ t) = p ++ [last ++ t.toList] := by
  obtain ⟨front,last,h⟩ := splitOn_append_suffix name.toList
  refine ⟨front.foldl resolveSegment (origin name),last,fun t ht hl => ?_⟩
  have hlen : 2 < (last ++ t.toList).length := by simp; omega
  have hseg : ∀ p, resolveSegment p (last ++ t.toList) = p ++ [last ++ t.toList] := by
    intro p
    have h0 : last ++ t.toList ≠ [] := fun e => by simp [e] at hlen
    have h1 : last ++ t.toList ≠ ['.'] := fun e => by simp [e] at hlen
    have h2 : last ++ t.toList ≠ ['.','.'] := fun e => by simp [e] at hlen
    simp only [resolveSegment,h0,h1,h2,or_self,↓reduceIte]
  rw [resolve,origin_append_suffix name t ht,String.toList_append,h t.toList ht,List.foldl_append]
  exact hseg _

/-- Two different suffixes name two different files. -/
theorem resolve_append_ne (name s t : String) (hs : '/' ∉ s.toList) (ht : '/' ∉ t.toList)
    (ls : 2 < s.toList.length) (lt : 2 < t.toList.length) (h : s ≠ t) :
    resolve (name ++ s) ≠ resolve (name ++ t) := by
  obtain ⟨p,last,hp⟩ := resolve_append_suffix name
  rw [hp s hs ls,hp t ht lt]
  simpa [String.toList_inj] using h

/-- What the environment makes of one operation: it succeeds; it fails at once, or, a write, after
some bytes reached the file; or the process stops before it, and so before every later one. -/
inductive Outcome
  | done
  | fails (written : Option ℕ)
  | stops
  deriving DecidableEq

namespace Outcome

/-- What of a body gets on file. -/
def written (body : Bytes) : Outcome → Bytes
  | .done => body
  | .fails none => []
  | .fails (some n) => body.take n
  | .stops => []

/-- Whether a write of so many bytes answers true. A file that is not opened is noticed. A short
write is noticed if the stream hands the body to the file at once, which it does from `direct`
bytes on; a smaller body is flushed in `close`, and nobody looks at that. -/
def answers (direct length : ℕ) : Outcome → Bool
  | .done => true
  | .fails none => false
  | .fails (some n) => length < direct ∨ length ≤ n
  | .stops => false

/-- A failing write that is noticed came short. -/
theorem lt_of_noticed {direct length : ℕ} {w : Option ℕ}
    (h : (fails w).answers direct length = false) (hpos : 0 < length) : w.getD 0 < length := by
  cases w with
  | none => exact hpos
  | some n =>
    simp only [answers,decide_eq_false_iff_not,not_or,not_le] at h
    exact h.2

end Outcome

/-- What the environment has in store: the outcomes of the operations to come, and the directories
there are. The empty plan lets every operation succeed: every directory that a name goes through
is there. -/
structure Plan where
  outcomes : List Outcome := []
  dirs : Option (List Path) := none
  deriving DecidableEq

namespace Plan

instance : EmptyCollection Plan := ⟨{}⟩

/-- The name can be looked up. -/
def Reaches (plan : Plan) (name : String) : Prop := ∀ ds ∈ plan.dirs, ∀ p ∈ way name, p ∈ ds

instance (plan : Plan) (name : String) : Decidable (plan.Reaches name) :=
  inferInstanceAs (Decidable (∀ ds ∈ plan.dirs, _))

@[simp] theorem reaches_empty (name : String) : Plan.Reaches ∅ name := by
  intro ds hds
  cases hds

@[simp] theorem reaches_free (outcomes : List Outcome) (name : String) :
    Plan.Reaches {outcomes} name := by
  intro ds hds
  cases hds

end Plan

/-- The files, and what the environment has in store for the operations to come. -/
structure Disk where
  files : Path → Option Bytes
  plan : Plan := ∅
  /-- The stream hands so many bytes to the file at once. -/
  direct : ℕ := 1024

def blankDisk : Disk := {files := fun _ => none}

namespace Disk

/-- The outcome of an operation on the files of these names. -/
def next (d : Disk) (names : List String) : Outcome × Disk :=
  if ∀ name ∈ names, d.plan.Reaches name then
    match d.plan.outcomes with
    | [] => (.done,d)
    | .stops::_ => (.stops,d)
    | o::rest => (o,{d with plan := {d.plan with outcomes := rest}})
  else (.fails none,d)

/-- What a reader finds under a name. -/
def file (d : Disk) (name : String) : Option Bytes :=
  if d.plan.Reaches name then d.files (resolve name) else none

def put (d : Disk) (p : Path) (c : Option Bytes) : Disk :=
  {d with files := Function.update d.files p c}

/-- The process is started again on what is left; from here on nothing goes wrong. -/
def reboot (d : Disk) : Disk := {d with plan := ∅}

variable {d : Disk} {p q : Path} {c : Option Bytes} {names : List String} {name : String}

@[simp] theorem put_self : (d.put p c).files p = c := by simp [put]
@[simp] theorem put_ne (h : q ≠ p) : (d.put p c).files q = d.files q := by simp [put,h]
@[simp] theorem put_plan : (d.put p c).plan = d.plan := rfl
@[simp] theorem put_direct : (d.put p c).direct = d.direct := rfl
@[simp] theorem reboot_files : d.reboot.files = d.files := rfl
@[simp] theorem reboot_plan : d.reboot.plan = ∅ := rfl
@[simp] theorem reboot_put : (d.put p c).reboot = d.reboot.put p c := rfl

theorem put_eq_self (h : d.files p = c) : d.put p c = d := by
  simp [put,← h]

theorem next_done (h : d.plan = ∅) : d.next names = (.done,d) := by
  simp only [next,h,Plan.reaches_empty,implies_true,if_true]
  rfl

/-- The environment does not look at the files. -/
theorem next_put : (d.put p c).next names = ((d.next names).1,(d.next names).2.put p c) := by
  by_cases hr : ∀ name ∈ names, d.plan.Reaches name
  · rw [next,next,if_pos hr,if_pos (show ∀ name ∈ names, (d.put p c).plan.Reaches name from hr)]
    simp only [put_plan]
    split <;> rfl
  · rw [next,next,if_neg hr,
      if_neg (show ¬ ∀ name ∈ names, (d.put p c).plan.Reaches name from hr)]

@[simp] theorem next_files : (d.next names).2.files = d.files := by
  unfold next
  split_ifs
  · split <;> rfl
  · rfl

@[simp] theorem next_direct : (d.next names).2.direct = d.direct := by
  unfold next
  split_ifs
  · split <;> rfl
  · rfl

theorem next_dirs : (d.next names).2.plan.dirs = d.plan.dirs := by
  unfold next
  split_ifs
  · split <;> rfl
  · rfl

/-- Names that lead nowhere end in a failure. -/
theorem next_reaches {o : Outcome} {e : Disk} (h : d.next names = (o,e)) (ho : o ≠ .fails none) :
    ∀ name ∈ names, d.plan.Reaches name := by
  by_contra hr
  rw [next,if_neg hr] at h
  cases h
  exact ho rfl

theorem file_eq (h : d.plan.Reaches name) : d.file name = d.files (resolve name) := if_pos h

theorem file_done (h : d.plan = ∅) : d.file name = d.files (resolve name) :=
  file_eq (by simp [h])

/-- The next `k` operations will succeed, and then the environment does what is planned. -/
def after (d : Disk) (k : ℕ) (plan : List Outcome) : Disk :=
  {d with plan := {outcomes := List.replicate k .done ++ plan}}

@[simp] theorem after_files (k : ℕ) (plan : List Outcome) : (d.after k plan).files = d.files := rfl
@[simp] theorem after_direct (k : ℕ) (plan : List Outcome) :
    (d.after k plan).direct = d.direct := rfl
@[simp] theorem after_put (k : ℕ) (plan : List Outcome) :
    (d.after k plan).put p c = (d.put p c).after k plan := rfl
theorem after_reaches (k : ℕ) (plan : List Outcome) : (d.after k plan).plan.Reaches name :=
  Plan.reaches_free _ _
theorem next_after (k : ℕ) (plan : List Outcome) :
    (d.after (k+1) plan).next names = (.done,d.after k plan) :=
  if_pos fun _ _ => after_reaches _ _
theorem next_fails (w : Option ℕ) :
    (d.after 0 [.fails w]).next names = (.fails w,d.reboot) :=
  if_pos fun _ _ => after_reaches _ _

/-- The process will stop when `k` more operations have succeeded. -/
def crashAfter (d : Disk) (k : ℕ) : Disk :=
  {d with plan := {outcomes := List.replicate k .done ++ [.stops]}}

@[simp] theorem crashAfter_files (k : ℕ) : (d.crashAfter k).files = d.files := rfl
@[simp] theorem crashAfter_put (k : ℕ) : (d.crashAfter k).put p c = (d.put p c).crashAfter k := rfl
theorem crashAfter_reaches (k : ℕ) : (d.crashAfter k).plan.Reaches name := Plan.reaches_free _ _
theorem next_crashAfter (k : ℕ) : (d.crashAfter (k+1)).next names = (.done,d.crashAfter k) :=
  if_pos fun _ _ => crashAfter_reaches _
theorem next_stops : (d.crashAfter 0).next names = (.stops,d.crashAfter 0) :=
  if_pos fun _ _ => crashAfter_reaches _

end Disk

namespace FileHelper

def exists' (d : Disk) (filename : String) : Bool := (d.file filename).isSome

/-- A file that is not there is as good as empty to a reader. -/
def contents (d : Disk) (filename : String) : Bytes := (d.file filename).getD []

def size (d : Disk) (filename : String) : ℕ := (contents d filename).length

/-- Fill the buffer `body` from `offset` on; past the end of the file it keeps its bytes. -/
def read (d : Disk) (filename : String) (body : Bytes) (offset : ℕ) : Bytes :=
  let got := ((contents d filename).drop offset).take body.length
  got ++ body.drop got.length

/-- Opened for reading and writing, a file that is not there is an error. -/
def write (d : Disk) (filename : String) (body : Bytes) (offset : ℕ) : Bool × Disk :=
  let (o,d) := d.next [filename]
  match d.files (resolve filename) with
  | none => (false,d)
  | some f =>
    (o.answers d.direct body.length,
      d.put (resolve filename) (some (splice f offset (o.written body))))

/-- Opened for writing only, a file is created or emptied. -/
def createFile (d : Disk) (filename : String) : Bool × Disk :=
  let (o,d) := d.next [filename]
  match o with
  | .done => (true,d.put (resolve filename) (some []))
  | _ => (false,d)

def removeFile (d : Disk) (filename : String) : Bool × Disk :=
  let (o,d) := d.next [filename]
  match d.files (resolve filename),o with
  | some _,.done => (true,d.put (resolve filename) none)
  | _,_ => (false,d)

def rename (d : Disk) (filename newfilename : String) : Bool × Disk :=
  let (o,d) := d.next [filename,newfilename]
  match d.files (resolve filename),o with
  | some f,.done => (true,(d.put (resolve filename) none).put (resolve newfilename) (some f))
  | _,_ => (false,d)

section Frame
variable {d : Disk} {name : String} {p : Path}

theorem contents_at {f : Bytes} (hr : d.plan.Reaches name)
    (h : d.files (resolve name) = some f) : contents d name = f := by
  simp [contents,Disk.file_eq hr,h]

theorem contents_eq {f : Bytes} (hp : d.plan = ∅) (h : d.files (resolve name) = some f) :
    contents d name = f :=
  contents_at (by simp [hp]) h

theorem size_at {f : Bytes} (hr : d.plan.Reaches name) (h : d.files (resolve name) = some f) :
    size d name = f.length :=
  congrArg List.length (contents_at hr h)

theorem size_eq {f : Bytes} (hp : d.plan = ∅) (h : d.files (resolve name) = some f) :
    size d name = f.length :=
  size_at (by simp [hp]) h

/-- A write touches its own file only. -/
theorem write_frame (body : Bytes) (offset : ℕ) (h : p ≠ resolve name) :
    (write d name body offset).2.files p = d.files p := by
  have hn : (d.next [name]).2.files = d.files := d.next_files
  unfold write
  generalize d.next [name] = r at hn ⊢
  obtain ⟨o,e⟩ := r
  simp only at hn ⊢
  split <;> simp [h,hn]

end Frame

section Success
variable {d e : Disk} {name new : String} {f body : Bytes} {offset : ℕ}

lemma files_of_next {names : List String} {o : Outcome} (hn : d.next names = (o,e)) :
    e.files = d.files := by
  have hfiles : (d.next names).2.files = d.files := d.next_files
  rw [← hfiles,hn]

/-- A write to a file that is there. -/
theorem write_outcome {o : Outcome} (hn : d.next [name] = (o,e))
    (h : d.files (resolve name) = some f) : write d name body offset =
      (o.answers d.direct body.length,
        e.put (resolve name) (some (splice f offset (o.written body)))) := by
  have hdirect : e.direct = d.direct := by
    have hnext : (d.next [name]).2.direct = d.direct := d.next_direct
    rwa [hn] at hnext
  simp only [write,hn,files_of_next hn,h,hdirect]

theorem write_next (hn : d.next [name] = (.done,e)) (h : d.files (resolve name) = some f) :
    write d name body offset = (true,e.put (resolve name) (some (splice f offset body))) :=
  write_outcome hn h

theorem createFile_next (hn : d.next [name] = (.done,e)) :
    createFile d name = (true,e.put (resolve name) (some [])) := by
  simp [createFile,hn]

theorem removeFile_next (hn : d.next [name] = (.done,e)) (h : d.files (resolve name) = some f) :
    removeFile d name = (true,e.put (resolve name) none) := by
  simp [removeFile,hn,files_of_next hn,h]

theorem rename_next (hn : d.next [name,new] = (.done,e)) (h : d.files (resolve name) = some f) :
    rename d name new = (true,(e.put (resolve name) none).put (resolve new) (some f)) := by
  simp [rename,hn,files_of_next hn,h]

theorem write_stops (hn : d.next [name] = (.stops,e)) :
    write d name body offset = (false,e) := by
  simp only [write,hn]
  split
  · rfl
  · next f hf => exact congrArg (Prod.mk false) (Disk.put_eq_self hf)

theorem createFile_stops (hn : d.next [name] = (.stops,e)) : createFile d name = (false,e) := by
  simp [createFile,hn]

theorem removeFile_stops (hn : d.next [name] = (.stops,e)) : removeFile d name = (false,e) := by
  simp [removeFile,hn]

theorem rename_stops (hn : d.next [name,new] = (.stops,e)) : rename d name new = (false,e) := by
  simp [rename,hn]

theorem write_done (hp : d.plan = ∅) (h : d.files (resolve name) = some f) :
    write d name body offset = (true,d.put (resolve name) (some (splice f offset body))) :=
  write_next (Disk.next_done hp) h

theorem createFile_done (hp : d.plan = ∅) :
    createFile d name = (true,d.put (resolve name) (some [])) :=
  createFile_next (Disk.next_done hp)

theorem removeFile_done (hp : d.plan = ∅) (h : d.files (resolve name) = some f) :
    removeFile d name = (true,d.put (resolve name) none) :=
  removeFile_next (Disk.next_done hp) h

theorem rename_done (hp : d.plan = ∅) (h : d.files (resolve name) = some f) :
    rename d name new = (true,(d.put (resolve name) none).put (resolve new) (some f)) :=
  rename_next (Disk.next_done hp) h

end Success
end FileHelper
end MessageQueue

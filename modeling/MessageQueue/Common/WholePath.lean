import MessageQueue.Common.Directories

/-! When `createDirectory` makes the whole path, and does so again: a path without a leading slash
and with a last one. What is in front of the last slash is made for every path without a leading
one. -/
namespace MessageQueue
open Base StrHelper MessageQueue.Tree

/-- The directories that a path names: what stands before its slashes, and the whole. -/
def OnPath (path q : List Char) : Prop := Before path q ∨ q = path ∧ q ≠ []

/-- A slash at the end names nothing more. -/
theorem resolve_slash {q : List Char} (hq : q ≠ []) :
    resolve (.ofList (q ++ ['/'])) = resolve (.ofList q) := by
  obtain ⟨c,cs,rfl⟩ := List.exists_cons_of_ne_nil hq
  simp only [resolve,origin,String.toList_ofList]
  rw [List.splitOn_append_cons_self,List.foldl_append]
  simp [resolveSegment]

namespace Tree

/-- Each directory that the path names is there, or nothing is and it can be made. -/
def Open (t : Tree) (path : List Char) : Prop := ∀ q, OnPath path q →
  t.entry q = some .directory ∨ t.entry q = none ∧ t.refused (resolve (.ofList q)) = none

/-- The loop has come to `idx` from the tree `t`. -/
structure Walked (t : Tree) (path : List Char) (idx : ℕ) (u : Tree) : Prop where
  made : ∀ q, Before path q → q.length < idx → u.entry q = some .directory
  kept : ∀ p, u.entries p = t.entries p ∨
    ∃ q, Before path q ∧ resolve (.ofList q) = p ∧ u.entries p = some .directory
  refused : u.refused = t.refused

variable {t u : Tree} {path q : List Char} {idx pos : ℕ}

theorem Walked.start (t : Tree) (path : List Char) : Walked t path 0 t :=
  ⟨fun _ _ h => absurd h (Nat.not_lt_zero _),fun _ => .inl rfl,rfl⟩

/-- What could be made still can. -/
theorem Walked.open (h : Walked t path idx u) (hopen : t.Open path) : u.Open path := by
  intro q hq
  rw [h.refused]
  cases h.kept (resolve (.ofList q)) with
  | inl hsame =>
    have hentry : u.entry q = t.entry q := hsame
    rw [hentry]
    exact hopen q hq
  | inr hmade => exact .inl hmade.choose_spec.2.2

/-- Where everything was there, nothing has changed. -/
theorem Walked.eq (h : Walked t path idx u)
    (hall : ∀ q, OnPath path q → t.entry q = some .directory) : u = t := by
  refine Tree.ext (funext fun p => ?_) h.refused
  cases h.kept p with
  | inl hsame => exact hsame
  | inr hmade =>
    obtain ⟨q,hq,rfl,hu⟩ := hmade
    exact hu.trans (hall q (.inl hq)).symm

/-- One round makes what stands before the next slash. -/
theorem Walked.step (h : Walked t path idx u) (hopen : t.Open path)
    (hfind : find path ['/'] idx = some pos) (hpos : 0 < pos) :
    (u.mkdir (path.take pos)).1 ∈ [none,some .EEXIST] ∧
      Walked t path (pos+1) (u.mkdir (path.take pos)).2 := by
  obtain ⟨-,hslash,hbetween⟩ := find_at hfind
  have hfirst : ∀ q, Before path q → q.length < pos → q.length < idx := by
    intro q hq hlt
    by_contra hge
    exact hbetween q.length (Nat.le_of_not_lt hge) hlt hq.getElem
  have hq : Before path (path.take pos) := .take hpos hslash
  have hway : ∀ q ∈ lookedUp (path.take pos), u.entry q = some .directory := by
    intro q hmem
    obtain ⟨hbefore,hlt⟩ := mem_lookedUp hmem
    have hpath : Before path q := ⟨hbefore.1,hbefore.2.trans (List.take_prefix pos path)⟩
    exact h.made q hpath (hfirst q hpath (Nat.lt_of_lt_of_le hlt (List.length_take_le pos path)))
  rw [mkdir_open hq.1 hway (h.open hopen _ (.inl hq))]
  refine ⟨?_,?_,?_,h.refused⟩
  · split_ifs <;> simp
  · intro q hbefore hlt
    simp only [entry,make_entries]
    split_ifs with hsame
    · rfl
    · refine h.made q hbefore (hfirst q hbefore ?_)
      have hne : q.length ≠ pos := fun e => hsame (by rw [hbefore.eq_take,e])
      omega
  · intro p
    rw [make_entries]
    split_ifs with hsame
    · exact .inr ⟨_,hq,hsame.symm,rfl⟩
    · exact h.kept p

end Tree

namespace FileHelper
variable {t u : Tree} {path : List Char} {idx fuel : ℕ}

/-- The rounds of a path without a leading slash: all that stands before a slash is there, and only
the whole path may be left to make. -/
theorem loop_relative (hopen : t.Open path) (hrel : path.head? ≠ some '/')
    (h : Walked t path idx u) (hidx : idx ≤ path.length) (hfuel : path.length < idx+fuel)
    (hat : idx = path.length → path.getLast? = some '/') :
    ∃ v, Walked t path path.length v ∧ createDirectoryLoop path fuel idx u =
      if path.getLast? = some '/' then some (true,v)
      else some ((v.mkdir path).1 = none,(v.mkdir path).2) := by
  induction fuel generalizing idx u with
  | zero => omega
  | succ fuel ih =>
    by_cases hlt : idx < path.length
    · cases hfind : find path ['/'] idx with
      | none =>
        have hno := find_none hfind
        have hlast : path.getLast? ≠ some '/' := by
          rw [List.getLast?_eq_getElem?]
          intro hslash
          refine hno (List.mem_of_getElem? (i := path.length-1-idx) ?_)
          rw [List.getElem?_drop,Nat.add_sub_cancel' (by omega),hslash]
        have hall : ∀ q, Before path q → q.length < idx := by
          intro q hq
          by_contra hge
          refine hno (List.mem_of_getElem? (i := q.length-idx) ?_)
          rw [List.getElem?_drop,Nat.add_sub_cancel' (by omega),hq.getElem]
        refine ⟨u,⟨fun q hq _ => h.made q hq (hall q hq),h.kept,h.refused⟩,?_⟩
        rw [createDirectoryLoop,if_pos hlt,if_neg hlast,hfind]
      | some pos =>
        obtain ⟨hge,hslash,-⟩ := find_at hfind
        have hpos : 0 < pos := by
          rw [Nat.pos_iff_ne_zero]
          rintro rfl
          exact hrel (List.head?_eq_getElem? ▸ hslash)
        have hlen := (List.getElem?_eq_some_iff.mp hslash).1
        obtain ⟨hpass,hnext⟩ := h.step hopen hfind hpos
        have hgo : ¬ ((u.mkdir (path.take pos)).1 ≠ none ∧
            (u.mkdir (path.take pos)).1 ≠ some .EEXIST) := by
          simpa [or_iff_not_imp_left] using hpass
        obtain ⟨v,hv,hloop⟩ := ih hnext hlen (by omega) fun hend => by
          rw [List.getLast?_eq_getElem?,← hend,Nat.add_sub_cancel,hslash]
        refine ⟨v,hv,?_⟩
        rw [createDirectoryLoop,if_pos hlt,hfind]
        simp only [if_neg hgo,hloop]
    · have hend : idx = path.length := by omega
      subst hend
      refine ⟨u,h,?_⟩
      rw [createDirectoryLoop,if_neg hlt,if_pos (hat rfl)]

/-- A leading slash has a name without characters before it, which cannot be made. -/
theorem createDirectory_absolute {path : String} (habs : path.toList.head? = some '/') :
    createDirectory t path = some (false,t) := by
  obtain ⟨cs,hcs⟩ := List.head?_eq_some_iff.mp habs
  have hfind : find ('/'::cs) ['/'] 0 = some 0 := find_first (p := []) List.not_mem_nil
  have hlt : 0 < ('/'::cs).length := Nat.succ_pos _
  rw [createDirectory,hcs,createDirectoryLoop,if_pos hlt,hfind]
  rfl

/-- The call on a path without a leading slash. -/
theorem createDirectory_relative {path : String} (hne : path ≠ "") (hopen : t.Open path.toList)
    (hrel : path.toList.head? ≠ some '/') :
    ∃ v, Walked t path.toList path.toList.length v ∧ createDirectory t path =
      if path.toList.getLast? = some '/' then some (true,v)
      else some ((v.mkdir path.toList).1 = none,(v.mkdir path.toList).2) := by
  refine loop_relative hopen hrel (.start t _) (Nat.zero_le _) (by omega) fun hnil => ?_
  exact absurd (String.toList_eq_nil_iff.mp (List.length_eq_zero_iff.mp hnil.symm)) hne

/-- The call makes the whole path, and a second one finds it and changes nothing. -/
def Created (t : Tree) (path : String) : Prop :=
  ∃ u, createDirectory t path = some (true,u) ∧
    (∀ q, OnPath path.toList q → u.entry q = some .directory) ∧
      createDirectory u path = some (true,u)

/-- It is so for the paths without a leading slash and with a last one. -/
theorem created_iff {path : String} (hne : path ≠ "") (hopen : t.Open path.toList) :
    Created t path ↔ path.toList.head? ≠ some '/' ∧ path.toList.getLast? = some '/' := by
  constructor
  · rintro ⟨u,hfirst,hall,hagain⟩
    have hrel : path.toList.head? ≠ some '/' := by
      intro habs
      rw [createDirectory_absolute habs] at hfirst
      simp at hfirst
    refine ⟨hrel,?_⟩
    by_contra hlast
    obtain ⟨v,hv,hcall⟩ := createDirectory_relative hne (fun q hq => .inl (hall q hq)) hrel
    have hthere : v.entry path.toList = some .directory := by
      rw [hv.eq hall]
      refine hall _ (.inr ⟨rfl,?_⟩)
      exact fun hnil => hne (String.toList_eq_nil_iff.mp hnil)
    rw [hagain,if_neg hlast,Option.some.injEq,Prod.mk.injEq] at hcall
    exact mkdir_of_entry hthere (of_decide_eq_true hcall.1.symm)
  · rintro ⟨hrel,hlast⟩
    obtain ⟨u,hu,hcall⟩ := createDirectory_relative hne hopen hrel
    rw [if_pos hlast] at hcall
    have hmade : ∀ q, Before path.toList q → u.entry q = some .directory := fun q hq =>
      hu.made q hq hq.length_lt
    have hall : ∀ q, OnPath path.toList q → u.entry q = some .directory := by
      rintro q (hq | ⟨rfl,-⟩)
      · exact hmade q hq
      · obtain ⟨front,hfront⟩ := List.getLast?_eq_some_iff.mp hlast
        have hbefore : Before path.toList front := by
          refine ⟨?_,hfront ▸ List.prefix_refl _⟩
          rintro rfl
          simp [hfront] at hrel
        have hsame : u.entry path.toList = u.entry front := by
          rw [hfront,entry,entry,resolve_slash hbefore.1]
        rw [hsame]
        exact hmade front hbefore
    refine ⟨u,hcall,hall,?_⟩
    obtain ⟨v,hv,hagain⟩ := createDirectory_relative hne (fun q hq => .inl (hall q hq)) hrel
    rw [hagain,if_pos hlast,hv.eq hall]

/-- Nothing but the root and the working directory. -/
def bareTree : Tree where
  entries p := if p = [] ∨ p = [['/']] then some .directory else none
  refused _ := none
  root := by decide
  here := by decide

theorem bareTree_open (path : List Char) : bareTree.Open path := by
  intro q _
  by_cases h : resolve (.ofList q) = [] ∨ resolve (.ofList q) = [['/']]
  · exact .inl (if_pos h)
  · exact .inr ⟨if_neg h,rfl⟩

theorem created_iff_messages : Created bareTree "data/messages/" ↔
    "data/messages/".toList.head? ≠ some '/' ∧ "data/messages/".toList.getLast? = some '/' :=
  created_iff (by decide) (bareTree_open _)

theorem absolute_path_refused : ¬ ∀ (t : Tree) (path : String), path ≠ "" → t.Open path.toList →
    Created t path := by
  intro h
  obtain ⟨u,hcall,-⟩ := h bareTree "/data/messages/" (by decide) (bareTree_open _)
  rw [createDirectory_absolute (by decide)] at hcall
  cases hcall

/-- The first call alone: without a last slash the whole path must not be there yet, nor come to be
there on the way. -/
theorem createDirectory_true_iff {path : String} (hne : path ≠ "") (hopen : t.Open path.toList) :
    (∃ u, createDirectory t path = some (true,u)) ↔ path.toList.head? ≠ some '/' ∧
      (path.toList.getLast? = some '/' ∨ t.entry path.toList = none ∧
        ∀ q, Before path.toList q → resolve (.ofList q) ≠ resolve path) := by
  by_cases hrel : path.toList.head? = some '/'
  · rw [createDirectory_absolute hrel]
    simp [hrel]
  rw [and_iff_right hrel]
  obtain ⟨v,hv,hcall⟩ := createDirectory_relative hne hopen hrel
  rw [hcall]
  split_ifs with hlast
  · exact iff_of_true ⟨v,rfl⟩ (.inl hlast)
  have hname : path.toList ≠ [] := fun hnil => hne (String.toList_eq_nil_iff.mp hnil)
  have hway : ∀ q ∈ lookedUp path.toList, v.entry q = some .directory := fun q hq =>
    hv.made q (mem_lookedUp hq).1 (mem_lookedUp hq).2
  have hfree : v.entry path.toList = none ↔ t.entry path.toList = none ∧
      ∀ q, Before path.toList q → resolve (.ofList q) ≠ resolve path := by
    have hwhole : resolve (.ofList path.toList) = resolve path := by rw [String.ofList_toList]
    constructor
    · intro hnone
      have hno : ∀ q, Before path.toList q → resolve (.ofList q) ≠ resolve path := by
        intro q hq hsame
        have hmade := hv.made q hq hq.length_lt
        rw [entry,hwhole] at hnone
        rw [entry,hsame,hnone] at hmade
        cases hmade
      refine ⟨?_,hno⟩
      cases hv.kept (resolve (.ofList path.toList)) with
      | inl hsame => exact hsame.symm.trans hnone
      | inr hmade =>
        obtain ⟨q,hq,hsame,-⟩ := hmade
        exact absurd (hsame.trans hwhole) (hno q hq)
    · rintro ⟨hnone,hno⟩
      cases hv.kept (resolve (.ofList path.toList)) with
      | inl hsame => exact hsame.trans hnone
      | inr hmade =>
        obtain ⟨q,hq,hsame,-⟩ := hmade
        exact absurd (hsame.trans hwhole) (hno q hq)
  rw [mkdir_open hname hway (hv.open hopen _ (.inr ⟨rfl,hname⟩)),or_iff_right hlast,← hfree]
  split_ifs with hnone
  · simp [hnone]
  · simp [hnone]

end FileHelper
end MessageQueue

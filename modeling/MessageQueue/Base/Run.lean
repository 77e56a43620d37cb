import Mathlib.Logic.Relation
import Mathlib.Data.List.Induction

/-! Labelled transition systems and their finite runs, with the induction rules every model of
the development is proved by: a property that one step preserves holds at the end of a run, and
a relation that one step preserves relates the ends of two runs with the same labels. -/
namespace MessageQueue.Base

/-- A labelled transition system is its step relation. -/
structure Lts (σ α : Type*) where
  step : σ → α → σ → Prop

namespace Lts
variable {σ τ α : Type*}

/-- Every label acts as a total function. -/
def ofFun (f : σ → α → σ) : Lts σ α := ⟨fun s a t => t = f s a⟩

/-- Every label acts as a partial function. -/
def ofPartial (f : σ → α → Option σ) : Lts σ α := ⟨fun s a t => f s a = some t⟩

/-- The steps whose source and label satisfy a guard. -/
def guarded (L : Lts σ α) (guard : σ → α → Prop) : Lts σ α :=
  ⟨fun s a t => guard s a ∧ L.step s a t⟩

/-- A run performs its labels in order, the last one last. -/
inductive Run (L : Lts σ α) : σ → List α → σ → Prop
  | nil (s : σ) : Run L s [] s
  | snoc {s t u : σ} {as : List α} {a : α} (run : Run L s as t) (last : L.step t a u) :
      Run L s (as ++ [a]) u

namespace Run
variable {L : Lts σ α} {M : Lts τ α} {s t u : σ} {as bs : List α} {a : α}

theorem single (h : L.step s a t) : L.Run s [a] t := snoc (nil s) h

theorem append (h : L.Run s as t) (k : L.Run t bs u) : L.Run s (as ++ bs) u := by
  induction k with
  | nil => simpa using h
  | snoc _ last ih => simpa [← List.append_assoc] using snoc ih last

/-- The invariant rule. -/
theorem invariant {P : σ → Prop} (h : L.Run s as t) (start : P s)
    (keep : ∀ {s a t}, P s → L.step s a t → P t) : P t := by
  induction h with
  | nil => exact start
  | snoc _ last ih => exact keep ih last

/-- The invariant rule, for what only the labels of this run keep. -/
theorem invariant_mem {P : σ → Prop} (h : L.Run s as t) (start : P s)
    (keep : ∀ {s a t}, a ∈ as → P s → L.step s a t → P t) : P t := by
  induction h with
  | nil => exact start
  | snoc _ last ih =>
    exact keep (by simp) (ih fun ha => keep (List.mem_append_left _ ha)) last

/-- The simulation rule: every step of the first system is matched, label by label. -/
theorem simulation {R : σ → τ → Prop} (h : L.Run s as t) {x : τ} (start : R s x)
    (keep : ∀ {s a t x}, R s x → L.step s a t → ∃ y, M.step x a y ∧ R t y) :
    ∃ y, M.Run x as y ∧ R t y := by
  induction h with
  | nil => exact ⟨x,nil x,start⟩
  | snoc _ last ih =>
    obtain ⟨y,hy,r⟩ := ih
    obtain ⟨z,hz,r'⟩ := keep r last
    exact ⟨z,snoc hy hz,r'⟩

/-- The simulation rule for steps that are matched by whole runs. The relation can speak of what was
performed on either side. -/
theorem matched {β : Type*} {N : Lts τ β} {R : List α → σ → List β → τ → Prop} (h : L.Run s as t)
    {x : τ} (start : R [] s [] x)
    (keep : ∀ {as s a t bs x}, R as s bs x → L.step s a t →
      ∃ bs' y, N.Run x bs' y ∧ R (as ++ [a]) t (bs ++ bs') y) :
    ∃ bs y, N.Run x bs y ∧ R as t bs y := by
  induction h with
  | nil => exact ⟨[],x,nil x,start⟩
  | snoc _ last ih =>
    obtain ⟨bs,y,hy,r⟩ := ih
    obtain ⟨bs',z,hz,r'⟩ := keep r last
    exact ⟨bs ++ bs',z,hy.append hz,r'⟩

/-- The simulation rule for steps of which the second system sees some only. -/
theorem simulation_hidden {β : Type*} {N : Lts τ β} (vis : α → Option β) {R : σ → τ → Prop}
    (h : L.Run s as t) {x : τ} (start : R s x)
    (keep : ∀ {s a t x}, R s x → L.step s a t → ∃ y, N.Run x (vis a).toList y ∧ R t y) :
    ∃ y, N.Run x (as.filterMap vis) y ∧ R t y := by
  obtain ⟨bs,y,hy,rfl,r⟩ := h.matched
    (R := fun as s bs x => bs = as.filterMap vis ∧ R s x) ⟨rfl,start⟩ (by
      rintro as s a t bs x ⟨rfl,r⟩ step
      obtain ⟨y,hy,r'⟩ := keep r step
      refine ⟨_,y,hy,?_,r'⟩
      cases hv : vis a <;> simp [hv])
  exact ⟨y,hy,r⟩

/-- The other way round, steps of its own come in between. -/
theorem simulation_visible {β : Type*} {N : Lts τ β} (vis : β → Option α) {R : σ → τ → Prop}
    (h : L.Run s as t) {x : τ} (start : R s x)
    (keep : ∀ {s a t x}, R s x → L.step s a t →
      ∃ bs y, N.Run x bs y ∧ bs.filterMap vis = [a] ∧ R t y) :
    ∃ bs y, N.Run x bs y ∧ bs.filterMap vis = as ∧ R t y := by
  obtain ⟨bs,y,hy,hbs,r⟩ := h.matched
    (R := fun as s bs x => bs.filterMap vis = as ∧ R s x) ⟨rfl,start⟩ (by
      rintro as s a t bs x ⟨rfl,r⟩ step
      obtain ⟨bs',y,hy,hbs',r'⟩ := keep r step
      exact ⟨bs',y,hy,by rw [List.filterMap_append,hbs'],r'⟩)
  exact ⟨bs,y,hy,hbs,r⟩

/-- The progress rule: as long as the goal is not reached, some step keeps the invariant and makes
the measure smaller. -/
theorem exists_goal (inv goal : σ → Prop) (measure : σ → ℕ)
    (progress : ∀ {s}, inv s → ¬ goal s → ∃ a t, L.step s a t ∧ inv t ∧ measure t < measure s)
    (start : inv s) : ∃ as t, L.Run s as t ∧ goal t := by
  induction hm : measure s using Nat.strongRecOn generalizing s with
  | ind m ih =>
    by_cases hg : goal s
    · exact ⟨[],s,nil s,hg⟩
    · obtain ⟨a,t,step,keep,lt⟩ := progress start hg
      obtain ⟨as,u,run,hu⟩ := ih _ (hm ▸ lt) keep rfl
      exact ⟨a::as,u,(single step).append run,hu⟩

/-- A system with fewer steps has fewer runs. -/
theorem mono {N : Lts σ α} (h : L.Run s as t)
    (sub : ∀ {s a t}, L.step s a t → N.step s a t) : N.Run s as t := by
  induction h with
  | nil => exact nil _
  | snoc _ last ih => exact snoc ih (sub last)

/-- A guard that every label of the run passes. -/
theorem guard {guard : σ → α → Prop} (h : L.Run s as t) (hg : ∀ a ∈ as, ∀ s, guard s a) :
    (L.guarded guard).Run s as t := by
  induction h with
  | nil => exact nil _
  | snoc _ last ih => exact snoc (ih fun a ha => hg a (by simp [ha])) ⟨hg _ (by simp) _,last⟩

/-- A guard takes runs away and changes none. -/
theorem unguard {guard : σ → α → Prop} (h : (L.guarded guard).Run s as t) : L.Run s as t :=
  h.mono fun step => step.2

/-- A functional system has exactly one run for each list of labels. -/
theorem eq_foldl {f : σ → α → σ} (h : (ofFun f).Run s as t) : t = as.foldl f s := by
  induction h with
  | nil => rfl
  | snoc _ last ih => rw [List.foldl_append,← ih]; exact last

theorem eq_foldl_of_guarded {f : σ → α → σ} {guard : σ → α → Prop}
    (h : ((ofFun f).guarded guard).Run s as t) : t = as.foldl f s :=
  h.unguard.eq_foldl

/-- What a list of labels computes, it reaches. -/
theorem of_foldlM {f : σ → α → Option σ} (h : as.foldlM f s = some t) :
    (ofPartial f).Run s as t := by
  induction as generalizing s with
  | nil => cases h; exact nil _
  | cons a as ih =>
    rw [List.foldlM_cons,Option.bind_eq_bind,Option.bind_eq_some_iff] at h
    obtain ⟨u,hu,ht⟩ := h
    have first : (ofPartial f).Run s [a] u := single hu
    exact first.append (ih ht)

/-- A guard that can be decided is part of the function. -/
theorem of_foldlM_guarded {f : σ → α → Option σ} {guard : σ → α → Prop}
    [∀ s a, Decidable (guard s a)]
    (h : as.foldlM (fun s a => if guard s a then f s a else none) s = some t) :
    ((ofPartial f).guarded guard).Run s as t := by
  refine (of_foldlM h).mono fun {s a t} step => ?_
  change (if guard s a then f s a else none) = some t at step
  split_ifs at step with hg
  exact ⟨hg,step⟩

/-- Where a start succeeds and the labels act, the state that they compute is reached. -/
theorem of_any {f : σ → α → Option σ} {o : Option τ} {start : τ → σ} {p : σ → Bool}
    (h : (o.bind fun b => as.foldlM f (start b)).any p = true) :
    ∃ b t, o = some b ∧ (ofPartial f).Run (start b) as t ∧ p t = true := by
  simp only [Option.any_eq_true] at h
  obtain ⟨t,ht,hp⟩ := h
  obtain ⟨b,hb,ht⟩ := Option.bind_eq_some_iff.mp ht
  exact ⟨b,t,hb,of_foldlM ht,hp⟩

theorem of_any_guarded {f : σ → α → Option σ} {guard : σ → α → Prop}
    [∀ s a, Decidable (guard s a)] {o : Option τ} {start : τ → σ} {p : σ → Bool}
    (h : (o.bind fun b =>
      as.foldlM (fun s a => if guard s a then f s a else none) (start b)).any p = true) :
    ∃ b t, o = some b ∧ ((ofPartial f).guarded guard).Run (start b) as t ∧ p t = true := by
  simp only [Option.any_eq_true] at h
  obtain ⟨t,ht,hp⟩ := h
  obtain ⟨b,hb,ht⟩ := Option.bind_eq_some_iff.mp ht
  exact ⟨b,t,hb,of_foldlM_guarded ht,hp⟩

theorem snoc_cases (h : L.Run s (as ++ [a]) u) : ∃ t, L.Run s as t ∧ L.step t a u := by
  generalize hbs : as ++ [a] = bs at h
  cases h with
  | nil => simp at hbs
  | snoc run last =>
    obtain ⟨rfl,hab⟩ := List.append_inj' hbs rfl
    cases hab
    exact ⟨_,run,last⟩

theorem nil_cases (h : L.Run s [] t) : t = s := by
  generalize hbs : ([] : List α) = bs at h
  cases h with
  | nil => rfl
  | snoc run last => simp at hbs

theorem single_cases (h : L.Run s [a] t) : L.step s a t := by
  rw [← List.nil_append [a]] at h
  obtain ⟨u,hnil,last⟩ := h.snoc_cases
  exact hnil.nil_cases ▸ last

/-- A run can be stopped on its way. -/
theorem append_cases (h : L.Run s (as ++ bs) u) : ∃ t, L.Run s as t ∧ L.Run t bs u := by
  induction bs using List.reverseRecOn generalizing u with
  | nil => exact ⟨u,by simpa using h,nil u⟩
  | append_singleton bs a ih =>
    rw [← List.append_assoc] at h
    obtain ⟨v,hv,last⟩ := h.snoc_cases
    obtain ⟨t,ht,hbs⟩ := ih hv
    exact ⟨t,ht,snoc hbs last⟩

/-- The first step of a run, and the rest of it. -/
theorem cons_cases (h : L.Run s (a::as) u) : ∃ t, L.step s a t ∧ L.Run t as u := by
  rw [← List.singleton_append] at h
  obtain ⟨t,hfirst,hrest⟩ := h.append_cases
  rw [← List.nil_append [a]] at hfirst
  obtain ⟨v,hnil,hstep⟩ := hfirst.snoc_cases
  generalize hbs : ([] : List α) = bs at hnil
  cases hnil with
  | nil => exact ⟨t,hstep,hrest⟩
  | snoc => simp at hbs

/-- A deterministic system has one run at most for each list of labels. -/
theorem unique (det : ∀ {s a t t'}, L.step s a t → L.step s a t' → t = t') (h : L.Run s as t)
    (k : L.Run s as u) : t = u := by
  induction h generalizing u with
  | nil =>
    generalize hbs : ([] : List α) = bs at k
    cases k with
    | nil => rfl
    | snoc run last => simp at hbs
  | snoc _ last ih =>
    obtain ⟨v,hv,hu⟩ := k.snoc_cases
    cases ih hv
    exact det last hu

/-- On the way of a run that a guard lets pass, the guard holds. -/
theorem guard_of_prefix {guard : σ → α → Prop} {pre : List α}
    (det : ∀ {s a t t'}, L.step s a t → L.step s a t' → t = t')
    (h : (L.guarded guard).Run s as t) (hp : pre ++ [a] <+: as) (hu : L.Run s pre u) :
    guard u a ∧ (L.guarded guard).Run s pre u := by
  induction h with
  | nil => simp at hp
  | snoc before last ih =>
    cases List.prefix_concat_iff.mp hp with
    | inl heq =>
      obtain ⟨rfl,hab⟩ := List.append_inj' heq rfl
      cases hab
      cases hu.unique det (before.mono fun h => h.2)
      exact ⟨last.1,before⟩
    | inr hp => exact ih hp

/-- Where an invariant decides by the guard whether the next state is good, all states on the way
of a deterministic run are good exactly if the guard lets the run pass. -/
theorem guarded_iff {guard : σ → α → Prop} (inv : σ → Prop) {good : σ → Prop}
    (det : ∀ {s a t t'}, L.step s a t → L.step s a t' → t = t')
    (step : ∀ {s a t}, inv s → L.step s a t → (good t ↔ guard s a))
    (keep : ∀ {s a t}, inv s → guard s a → L.step s a t → inv t) (sound : ∀ {s}, inv s → good s)
    (start : inv s) (run : L.Run s as t) : (L.guarded guard).Run s as t ↔
      ∀ pre u, pre <+: as → L.Run s pre u → good u := by
  have hinv : ∀ {bs u}, (L.guarded guard).Run s bs u → inv u := fun h =>
    h.invariant start fun hi hs => keep hi hs.1 hs.2
  constructor
  · intro h pre u hp hu
    induction h with
    | nil =>
      rw [List.prefix_nil.mp hp] at hu
      exact hu.unique det (nil s) ▸ sound start
    | snoc before last ih =>
      cases List.prefix_concat_iff.mp hp with
      | inl heq =>
        subst heq
        obtain ⟨v,hv,hlast⟩ := hu.snoc_cases
        cases hv.unique det (before.mono fun h => h.2)
        exact (step (hinv before) hlast).mpr last.1
      | inr hp => exact ih (before.mono fun h => h.2) hp
  · intro h
    induction run with
    | nil => exact nil s
    | snoc run last ih =>
      have before := ih fun pre u hp hu => h pre u (hp.trans (List.prefix_append _ _)) hu
      have hgood := h _ _ (List.prefix_refl _) (run.snoc last)
      exact before.snoc ⟨(step (hinv before) last).mp hgood,last⟩

/-- Where an invariant decides by the guard whether a step is good, all steps of a deterministic
run are good exactly if the guard lets the run pass. -/
theorem guarded_iff_steps {guard good : σ → α → Prop} (inv : σ → Prop)
    (det : ∀ {s a t t'}, L.step s a t → L.step s a t' → t = t')
    (step : ∀ {s a}, inv s → (good s a ↔ guard s a))
    (keep : ∀ {s a t}, inv s → L.step s a t → inv t) (start : inv s) (run : L.Run s as t) :
    (L.guarded guard).Run s as t ↔
      ∀ pre a u, pre ++ [a] <+: as → L.Run s pre u → good u a := by
  have hinv : ∀ {bs u}, L.Run s bs u → inv u := fun h => h.invariant start keep
  constructor
  · intro h pre a u hp hu
    exact (step (hinv hu)).mpr (h.guard_of_prefix det hp hu).1
  · intro h
    induction run with
    | nil => exact nil s
    | snoc run last ih =>
      have before := ih fun pre a u hp => h pre a u (hp.trans (List.prefix_append _ _))
      exact before.snoc ⟨(step (hinv run)).mp (h _ _ _ (List.prefix_refl _) run),last⟩

end Run

/-- No step leads from the state. -/
def Ended (L : Lts σ α) (s : σ) : Prop := ∀ a t, ¬ L.step s a t

section Rank
variable {L : Lts σ α} {ρ : Type*} {r : ρ → ρ → Prop} (wf : WellFounded r) (rank : σ → ρ)
  (down : ∀ {s a t}, L.step s a t → r (rank t) (rank s))
include wf down

/-- Steps that go down a well-founded order do not go on for ever. -/
theorem no_endless (s : σ) :
    ¬ ∃ ss : ℕ → σ, ss 0 = s ∧ ∀ i, ∃ a, L.step (ss i) a (ss (i+1)) := by
  induction hr : rank s using wf.induction generalizing s with
  | h x ih =>
    rintro ⟨ss,rfl,hall⟩
    obtain ⟨a,hstep⟩ := hall 0
    exact ih _ (hr ▸ down hstep) (ss 1) rfl ⟨fun i => ss (i+1),rfl,fun i => hall (i+1)⟩

/-- They come to an end. -/
theorem exists_ended (s : σ) : ∃ as t, L.Run s as t ∧ L.Ended t := by
  induction hr : rank s using wf.induction generalizing s with
  | h x ih =>
    by_cases hend : L.Ended s
    · exact ⟨[],s,.nil s,hend⟩
    · simp only [Ended,not_forall,not_not] at hend
      obtain ⟨a,t,hstep⟩ := hend
      obtain ⟨as,u,run,hu⟩ := ih _ (hr ▸ down hstep) t rfl
      exact ⟨a::as,u,(Run.single hstep).append run,hu⟩

end Rank

/-- A partial function is deterministic. -/
theorem ofPartial_det {f : σ → α → Option σ} {s t t' : σ} {a : α} (h : (ofPartial f).step s a t)
    (h' : (ofPartial f).step s a t') : t = t' := Option.some.inj (h.symm.trans h')

/-- What the steps of a partial function contribute, one after the other, as far as they go. -/
def collect {β : Type*} (f : σ → α → Option σ) (g : σ → σ → List β) : σ → List α → List β
  | _,[] => []
  | s,a::as =>
    match f s a with
    | none => []
    | some t => g s t ++ collect f g t as

theorem collect_cons {β : Type*} {f : σ → α → Option σ} (g : σ → σ → List β) {s t : σ} {a : α}
    (as : List α) (h : f s a = some t) : collect f g s (a::as) = g s t ++ collect f g t as := by
  simp only [collect,h]

/-- A run contributes first what its beginning does. -/
theorem Run.collect_append {β : Type*} {f : σ → α → Option σ} (g : σ → σ → List β) {s t : σ}
    {as : List α} (run : (ofPartial f).Run s as t) (bs : List α) :
    collect f g s (as ++ bs) = collect f g s as ++ collect f g t bs := by
  induction run generalizing bs with
  | nil => rfl
  | @snoc t u as a before step ih =>
    have hstep : f t a = some u := step
    rw [List.append_assoc,List.singleton_append,ih,ih,collect_cons g bs hstep,
      collect_cons g [] hstep,List.append_assoc,List.append_assoc]
    rfl

theorem Run.collect_snoc {β : Type*} {f : σ → α → Option σ} (g : σ → σ → List β) {s t u : σ}
    {as : List α} {a : α} (run : (ofPartial f).Run s as t) (last : f t a = some u) :
    collect f g s (as ++ [a]) = collect f g s as ++ g t u := by
  rw [run.collect_append,collect_cons g [] last]
  exact congrArg _ (List.append_nil _)

/-- The guard holds before each label of a list, when the labels act one after the other. -/
def Admitted (f : σ → α → σ) (guard : σ → α → Prop) : σ → List α → Prop
  | _,[] => True
  | s,a::as => guard s a ∧ Admitted f guard (f s a) as

instance Admitted.decidable (f : σ → α → σ) (guard : σ → α → Prop)
    [∀ s a, Decidable (guard s a)] : ∀ s as, Decidable (Admitted f guard s as)
  | _,[] => .isTrue trivial
  | s,a::as => @instDecidableAnd _ _ _ (Admitted.decidable f guard (f s a) as)

/-- Admitted labels make a run. -/
theorem Admitted.run {f : σ → α → σ} {guard : σ → α → Prop} {s : σ} {as : List α}
    (h : Admitted f guard s as) : ((ofFun f).guarded guard).Run s as (as.foldl f s) := by
  induction as generalizing s with
  | nil => exact .nil s
  | cons a as ih =>
    have first : ((ofFun f).guarded guard).Run s [a] (f s a) := .single ⟨h.1,rfl⟩
    exact first.append (ih h.2)

/-- Where an invariant decides by the guard whether the next state is good, all states on the way
are good exactly if all labels are admitted. -/
theorem Admitted.iff_prefix {f : σ → α → σ} {guard : σ → α → Prop} {inv good : σ → Prop}
    (step : ∀ {s a}, inv s → (good (f s a) ↔ guard s a))
    (keep : ∀ {s a}, inv s → guard s a → inv (f s a)) (sound : ∀ {s}, inv s → good s) {s : σ}
    {as : List α} (h : inv s) :
    (∀ pre, pre <+: as → good (pre.foldl f s)) ↔ Admitted f guard s as := by
  induction as generalizing s with
  | nil =>
    refine ⟨fun _ => trivial,fun _ pre hp => ?_⟩
    rw [List.prefix_nil.mp hp]
    exact sound h
  | cons a as ih =>
    constructor
    · intro hall
      have hg : guard s a := (step h).mp (hall [a] (List.prefix_append [a] as))
      refine ⟨hg,(ih (keep h hg)).mp fun pre hp => ?_⟩
      exact hall (a::pre) ((List.prefix_cons_inj a).mpr hp)
    · rintro ⟨hg,hrest⟩ pre hp
      cases pre with
      | nil => exact sound h
      | cons b pre =>
        obtain ⟨rfl,htail⟩ := List.cons_prefix_cons.mp hp
        exact (ih (keep h hg)).mpr hrest pre htail

end Lts
end MessageQueue.Base

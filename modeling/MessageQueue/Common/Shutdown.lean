import Mathlib.Data.List.Nodup
import MessageQueue.Common.ThreadPool

/-! What becomes of the tasks of a pool that is stopped. None is executed twice; those that are
pending when `_stop` is set are executed if some worker has still to swap them out. -/
namespace MessageQueue
open Base

/-- An element of a list, and what stands around it when it is replaced. -/
theorem exists_set {α : Type*} {l : List α} {i : ℕ} {a : α} (h : l[i]? = some a) :
    ∃ front back, l = front ++ a::back ∧ ∀ b, l.set i b = front ++ b::back := by
  obtain ⟨hi,rfl⟩ := List.getElem?_eq_some_iff.mp h
  refine ⟨l.take i,l.drop (i+1),?_,fun b => ?_⟩
  · rw [← List.drop_eq_getElem_cons hi,List.take_append_drop]
  · exact List.set_eq_take_append_cons_drop.trans (if_pos hi)

namespace PoolWorker

/-- The tasks that it has taken and not executed. -/
def pending : PoolWorker → List ℕ
  | .running batch => batch
  | _ => []

def holds : PoolWorker → Bool
  | .waiting | .blocking | .swapping => true
  | _ => false

/-- It found `_stop` not set, and has not swapped the tasks out since. -/
def beforeSwap : PoolWorker → Bool
  | .running _ | .exited => false
  | _ => true

theorem notified_pending (w : PoolWorker) : w.notified.pending = w.pending := by cases w <;> rfl
theorem notified_holds (w : PoolWorker) : w.notified.holds = w.holds := by cases w <;> rfl
theorem notified_beforeSwap (w : PoolWorker) : w.notified.beforeSwap = w.beforeSwap := by
  cases w <;> rfl

end PoolWorker

/-- The task of the push in progress is among the tasks. -/
def Mutex.pushed : Mutex → ℕ
  | .pusher .emplaced | .pusher .notified => 1
  | _ => 0

namespace ThreadPool

/-- What each step finds, and what it leaves. -/
inductive Moves (s : ThreadPool) : Action → ThreadPool → Prop
  | run {i task : ℕ} {batch : List ℕ} (hw : s.workers[i]? = some (.running (task::batch))) :
      Moves s (.run i) {s.setWorker i (.running batch) with executed := s.executed ++ [task]}
  | test {i : ℕ} (hw : s.workers[i]? = some (.running [])) :
      Moves s (.test i) (s.setWorker i (if s.stop then .exited else .locking))
  | lock {i : ℕ} (hw : s.workers[i]? = some .locking) (hm : s.mutex = .free) :
      Moves s (.lock i) {s.setWorker i .waiting with mutex := .worker}
  | evaluate {i : ℕ} (hw : s.workers[i]? = some .waiting) :
      Moves s (.evaluate i)
        (s.setWorker i (if s.stop || !s.tasks.isEmpty then .swapping else .blocking))
  | block {i : ℕ} (hw : s.workers[i]? = some .blocking) :
      Moves s (.block i) {s.setWorker i .blocked with mutex := .free}
  | wake {i : ℕ} (hw : s.workers[i]? = some .blocked) : Moves s (.wake i) (s.setWorker i .locking)
  | swap {i : ℕ} (hw : s.workers[i]? = some .swapping) :
      Moves s (.swap i) {s.setWorker i (.running s.tasks) with tasks := [], mutex := .free}
  | pushLock (hm : s.mutex = .free) : Moves s .pushLock {s with mutex := .pusher .locked}
  | pushEmplace (hm : s.mutex = .pusher .locked) :
      Moves s .pushEmplace {s with
        tasks := s.tasks ++ [s.next]
        next := s.next+1
        mutex := .pusher .emplaced}
  | notifyNone (hm : s.mutex = .pusher .emplaced) :
      Moves s (.pushNotify none) {s with mutex := .pusher .notified}
  | notifyOne {i : ℕ} (hm : s.mutex = .pusher .emplaced) (hw : s.workers[i]? = some .blocked) :
      Moves s (.pushNotify (some i)) {s.setWorker i .locking with mutex := .pusher .notified}
  | pushUnlock (hm : s.mutex = .pusher .notified) :
      Moves s .pushUnlock {s with mutex := .free, completed := s.completed+1}
  | call (hst : s.stopping = .notCalled) :
      Moves s .call {s with stopping := .called, before := s.completed}
  | store (hst : s.stopping = .called) : Moves s .store {s with stopping := .stored, stop := true}
  | notifyAll (hst : s.stopping = .stored) :
      Moves s .notifyAll {s with
        stopping := .joining
        workers := s.workers.map PoolWorker.notified}
  | join (hst : s.stopping = .joining) (hall : ∀ w ∈ s.workers, w = .exited) :
      Moves s .join {s with stopping := .returned}

theorem moves {s s' : ThreadPool} {a : Action} (hs : s.step a = some s') : Moves s a s' := by
  cases a with
  | run i =>
    simp only [step] at hs
    split at hs
    next hw => cases hs; exact .run hw
    · cases hs
  | test i =>
    simp only [step] at hs
    split at hs
    next hw => cases hs; exact .test hw
    · cases hs
  | lock i =>
    simp only [step] at hs
    split at hs
    next hw hm => cases hs; exact .lock hw hm
    · cases hs
  | evaluate i =>
    simp only [step] at hs
    split at hs
    next hw => cases hs; exact .evaluate hw
    · cases hs
  | block i =>
    simp only [step] at hs
    split at hs
    next hw => cases hs; exact .block hw
    · cases hs
  | wake i =>
    simp only [step] at hs
    split at hs
    next hw => cases hs; exact .wake hw
    · cases hs
  | swap i =>
    simp only [step] at hs
    split at hs
    next hw => cases hs; exact .swap hw
    · cases hs
  | pushLock =>
    simp only [step] at hs
    split at hs
    next hm => cases hs; exact .pushLock hm
    · cases hs
  | pushEmplace =>
    simp only [step] at hs
    split at hs
    next hm => cases hs; exact .pushEmplace hm
    · cases hs
  | pushNotify woken =>
    cases woken with
    | none =>
      simp only [step] at hs
      split at hs
      next hm => split_ifs at hs; cases hs; exact .notifyNone hm
      · cases hs
    | some i =>
      simp only [step] at hs
      split at hs
      next hm hw => cases hs; exact .notifyOne hm hw
      · cases hs
  | pushUnlock =>
    simp only [step] at hs
    split at hs
    next hm => cases hs; exact .pushUnlock hm
    · cases hs
  | call =>
    simp only [step] at hs
    split at hs
    next hst => cases hs; exact .call hst
    · cases hs
  | store =>
    simp only [step] at hs
    split at hs
    next hst => cases hs; exact .store hst
    · cases hs
  | notifyAll =>
    simp only [step] at hs
    split at hs
    next hst => cases hs; exact .notifyAll hst
    · cases hs
  | join =>
    simp only [step] at hs
    split at hs
    next hst => split_ifs at hs with hall; cases hs; exact .join hst hall
    · cases hs

/-- What holds in every state: one thread at most has the mutex, and each task is pending, in a
batch or executed, and there once. -/
structure Sound (s : ThreadPool) : Prop where
  holders : s.workers.countP PoolWorker.holds = if s.mutex = .worker then 1 else 0
  pushed : s.completed+s.mutex.pushed = s.next
  before : s.before ≤ s.completed
  flag : s.stop = true ↔ s.stopping = .stored ∨ s.stopping = .joining ∨ s.stopping = .returned
  ended : s.stopping = .returned → ∀ w ∈ s.workers, w = .exited
  conserved : (s.tasks ++ s.workers.flatMap PoolWorker.pending ++ s.executed).Perm (List.range s.next)

namespace Sound
variable {s s' : ThreadPool} {a : Action} {i : ℕ} {w w' : PoolWorker}

theorem start (n : ℕ) : Sound (start n) where
  holders := by
    have hnone : (List.replicate n (PoolWorker.running [])).countP PoolWorker.holds = 0 :=
      List.countP_eq_zero.mpr fun w hw => by
        rw [List.eq_of_mem_replicate hw]
        simp [PoolWorker.holds]
    exact hnone
  pushed := rfl
  before := Nat.le_refl 0
  flag := by simp [ThreadPool.start]
  ended h := by simp [ThreadPool.start] at h
  conserved := by
    have hnone : (List.replicate n (PoolWorker.running [])).flatMap PoolWorker.pending = [] :=
      List.flatMap_eq_nil_iff.mpr fun w hw => by
        rw [List.eq_of_mem_replicate hw]
        rfl
    change ([] ++ (List.replicate n (PoolWorker.running [])).flatMap PoolWorker.pending ++ []).Perm []
    rw [hnone]
    exact .refl _

/-- A worker that holds the mutex has it. -/
theorem mutex_of_holds (h : Sound s) (hw : s.workers[i]? = some w) (hh : w.holds = true) :
    s.mutex = .worker := by
  by_contra hne
  have hzero := h.holders
  rw [if_neg hne,List.countP_eq_zero] at hzero
  exact hzero w (List.mem_of_getElem? hw) hh

/-- A worker moves on, and takes with it what it does to the mutex and to the tasks. -/
theorem move (h : Sound s) (hw : s.workers[i]? = some w) (hne : w ≠ .exited) {mutex : Mutex}
    {tasks executed : List ℕ}
    (hholds : (if w'.holds = true then 1 else 0)+(if s.mutex = .worker then 1 else 0) =
      (if w.holds = true then 1 else 0)+if mutex = .worker then 1 else 0)
    (hpushed : mutex.pushed = s.mutex.pushed)
    (hperm : (tasks ++ w'.pending ++ executed).Perm (s.tasks ++ w.pending ++ s.executed)) :
    Sound {s.setWorker i w' with mutex := mutex, tasks := tasks, executed := executed} := by
  obtain ⟨front,back,hold,hnew⟩ := exists_set hw
  refine ⟨?_,?_,h.before,h.flag,fun hr => ?_,?_⟩
  · have hcount := h.holders
    simp only [setWorker,hnew]
    simp only [hold,List.countP_append,List.countP_cons] at hcount ⊢
    omega
  · change s.completed+mutex.pushed = s.next
    rw [hpushed]
    exact h.pushed
  · exact absurd (h.ended hr w (List.mem_of_getElem? hw)) hne
  · refine List.Perm.trans ?_ h.conserved
    simp only [setWorker,hnew]
    rw [List.perm_iff_count] at hperm ⊢
    intro t
    have ht := hperm t
    simp only [hold,List.flatMap_append,List.flatMap_cons,List.count_append] at ht ⊢
    omega

/-- What moves no worker leaves it to nobody or to itself who has the mutex. -/
theorem holders_free (h : Sound s) {m : Mutex} (hold : s.mutex ≠ .worker) (hnew : m ≠ .worker) :
    s.workers.countP PoolWorker.holds = if m = .worker then 1 else 0 := by
  rw [h.holders,if_neg hold,if_neg hnew]

theorem step (h : Sound s) (hs : s.step a = some s') : Sound s' := by
  have hpushed := h.pushed
  have hflag := h.flag
  cases moves hs with
  | run hw =>
    refine h.move hw (by simp) rfl rfl ?_
    rw [List.perm_iff_count]
    intro t
    simp only [PoolWorker.pending,setWorker_tasks,List.count_append,List.count_cons,List.count_nil]
    omega
  | test hw =>
    have hquiet : ∀ b : Bool,
        (if b then PoolWorker.exited else PoolWorker.locking).holds = false ∧
        (if b then PoolWorker.exited else PoolWorker.locking).pending = [] := by decide
    refine h.move hw (by simp) ?_ rfl ?_
    · rw [(hquiet s.stop).1]
      rfl
    · rw [(hquiet s.stop).2]
      exact .refl _
  | lock hw hm =>
    exact h.move hw (by simp) (by simp [hm,PoolWorker.holds]) (by rw [hm]; rfl) (.refl _)
  | evaluate hw =>
    have hquiet : ∀ b : Bool,
        (if b then PoolWorker.swapping else PoolWorker.blocking).holds = true ∧
        (if b then PoolWorker.swapping else PoolWorker.blocking).pending = [] := by decide
    refine h.move hw (by simp) ?_ rfl ?_
    · rw [(hquiet _).1]
      rfl
    · rw [(hquiet _).2]
      exact .refl _
  | block hw =>
    have hm := h.mutex_of_holds hw rfl
    exact h.move hw (by simp) (by simp [hm,PoolWorker.holds]) (by rw [hm]; rfl) (.refl _)
  | wake hw => exact h.move hw (by simp) rfl rfl (.refl _)
  | swap hw =>
    have hm := h.mutex_of_holds hw rfl
    refine h.move hw (by simp) (by simp [hm,PoolWorker.holds]) (by rw [hm]; rfl) ?_
    simp [PoolWorker.pending]
  | pushLock hm =>
    rw [hm] at hpushed
    exact ⟨h.holders_free (by simp [hm]) (by simp),hpushed,h.before,hflag,h.ended,h.conserved⟩
  | pushEmplace hm =>
    rw [hm] at hpushed
    refine ⟨h.holders_free (by simp [hm]) (by simp),congrArg (·+1) hpushed,h.before,hflag,h.ended,
      ?_⟩
    rw [List.perm_iff_count]
    intro t
    have ht := h.conserved.count_eq t
    simp only [List.range_succ,List.count_append] at ht ⊢
    omega
  | notifyNone hm =>
    rw [hm] at hpushed
    exact ⟨h.holders_free (by simp [hm]) (by simp),hpushed,h.before,hflag,h.ended,h.conserved⟩
  | notifyOne hm hw =>
    exact h.move hw (by simp) (by simp [hm,PoolWorker.holds]) (by rw [hm]; rfl) (.refl _)
  | pushUnlock hm =>
    rw [hm] at hpushed
    exact ⟨h.holders_free (by simp [hm]) (by simp),hpushed,Nat.le_succ_of_le h.before,hflag,h.ended,
      h.conserved⟩
  | call hst =>
    rw [hst] at hflag
    exact ⟨h.holders,hpushed,Nat.le_refl _,by simpa using hflag,fun hr => by simp at hr,h.conserved⟩
  | store hst => exact ⟨h.holders,hpushed,h.before,by simp,fun hr => by simp at hr,h.conserved⟩
  | notifyAll hst =>
    rw [hst] at hflag
    refine ⟨?_,hpushed,h.before,by simpa using hflag,fun hr => by simp at hr,?_⟩
    · rw [← h.holders,List.countP_map]
      exact List.countP_congr fun w _ => by simp [PoolWorker.notified_holds]
    · rw [List.flatMap_map]
      simp only [PoolWorker.notified_pending]
      exact h.conserved
  | join hst hall =>
    rw [hst] at hflag
    exact ⟨h.holders,hpushed,h.before,by simpa using hflag,fun _ => hall,h.conserved⟩

end Sound
variable {s s' u : ThreadPool} {a : Action} {i : ℕ} {w w' : PoolWorker}

/-- No task whose push returned before `Stop` was called is left, or some worker has still to swap
the tasks out. -/
def InTime (s : ThreadPool) : Prop :=
  (∀ t < s.before, t ∉ s.tasks) ∨ ∃ w ∈ s.workers, w.beforeSwap = true

/-- A worker moves on without swapping. -/
theorem inTime_move (hw : s.workers[i]? = some w) (hws : s'.workers = s.workers.set i w')
    (hb : s'.before = s.before) (ht : s'.tasks = s.tasks)
    (hsame : w'.beforeSwap = w.beforeSwap) : s'.InTime ↔ s.InTime := by
  obtain ⟨front,back,hold,hnew⟩ := exists_set hw
  unfold InTime
  rw [hb,ht,hws,hnew,hold]
  simp only [List.mem_append,List.mem_cons,or_and_right,exists_or,exists_eq_left,hsame]

/-- Once `_stop` is set it is decided whether the tasks are in time. -/
theorem inTime_step (h : Sound s) (hstop : s.stop = true) (hs : s.step a = some s') :
    s'.InTime ↔ s.InTime := by
  have hflag := h.flag.mp hstop
  cases moves hs with
  | run hw => exact inTime_move hw rfl rfl rfl rfl
  | test hw => exact inTime_move hw rfl rfl rfl (by rw [hstop]; rfl)
  | lock hw => exact inTime_move hw rfl rfl rfl rfl
  | evaluate hw => exact inTime_move hw rfl rfl rfl (by rw [hstop]; rfl)
  | block hw => exact inTime_move hw rfl rfl rfl rfl
  | wake hw => exact inTime_move hw rfl rfl rfl rfl
  | swap hw =>
    -- before it a worker has still to swap, and after it nothing is left
    exact iff_of_true (.inl fun t _ ht => by simp at ht) (.inr ⟨_,List.mem_of_getElem? hw,rfl⟩)
  | pushEmplace =>
    have hnew : ∀ t < s.before, t ∉ s.tasks ++ [s.next] ↔ t ∉ s.tasks := by
      intro t ht
      have hnext : s.before ≤ s.next := Nat.le_trans h.before (Nat.le.intro h.pushed)
      simp only [List.mem_append,List.mem_singleton,not_or,and_iff_left_iff_imp]
      omega
    unfold InTime
    simp only [forall₂_congr hnew]
  | notifyOne hm hw => exact inTime_move hw rfl rfl rfl rfl
  | call hst => simp [hst] at hflag
  | notifyAll =>
    unfold InTime
    simp only [List.mem_map,exists_exists_and_eq_and,PoolWorker.notified_beforeSwap]
  | pushLock | notifyNone | pushUnlock | store | join => exact Iff.rfl

/-- `_stop` is set in one place, and never taken back. -/
theorem stop_step (hs : s.step a = some s') :
    (a = .store ∧ s'.stop = true) ∨ s'.stop = s.stop := by
  cases moves hs with
  | store => exact .inl ⟨rfl,rfl⟩
  | _ => exact .inr rfl

theorem inTime_run {as : List Action} (hu : Sound u) (hstop : u.stop = true)
    (run : system.Run u as s) : s.InTime ↔ u.InTime := by
  have hall : Sound s ∧ s.stop = true ∧ (s.InTime ↔ u.InTime) :=
    run.invariant (P := fun t => Sound t ∧ t.stop = true ∧ (t.InTime ↔ u.InTime))
      ⟨hu,hstop,Iff.rfl⟩ fun ⟨ht,hst,hin⟩ hs => by
        refine ⟨ht.step hs,?_,(inTime_step ht hst hs).trans hin⟩
        cases stop_step hs with
        | inl h => exact h.2
        | inr h => exact h.trans hst
  exact hall.2.2

/-- To set `_stop` moves no worker and no task. -/
theorem inTime_store (hs : s.step .store = some s') : s'.stop = true ∧ (s'.InTime ↔ s.InTime) := by
  cases moves hs with
  | store => exact ⟨rfl,Iff.rfl⟩

/-- Every task whose push returned before `Stop` was called has been executed once, and no task
twice. -/
def Once (s : ThreadPool) : Prop :=
  (∀ t < s.before, s.executed.count t = 1) ∧ s.executed.Nodup

theorem Sound.executed_nodup (h : Sound s) : s.executed.Nodup :=
  (List.nodup_append.mp (h.conserved.nodup_iff.mpr List.nodup_range)).2.1

/-- When the workers have exited, what has not been executed is still among the tasks. -/
theorem Sound.once_iff (h : Sound s) (hr : s.stopping = .returned) : s.Once ↔ s.InTime := by
  have hover := h.ended hr
  have hnone : s.workers.flatMap PoolWorker.pending = [] := List.flatMap_eq_nil_iff.mpr fun w hw => by
    rw [hover w hw]
    rfl
  have hlate : ¬ ∃ w ∈ s.workers, w.beforeSwap = true := by
    rintro ⟨w,hw,hb⟩
    rw [hover w hw] at hb
    cases hb
  have hcount : ∀ t < s.before, s.tasks.count t+s.executed.count t = 1 := by
    intro t ht
    have hlt : t < s.next := Nat.lt_of_lt_of_le ht (Nat.le_trans h.before (Nat.le.intro h.pushed))
    have hc := h.conserved.count_eq t
    rw [hnone,List.append_nil,List.count_append,
      List.count_eq_one_of_mem List.nodup_range (List.mem_range.mpr hlt)] at hc
    exact hc
  unfold Once InTime
  rw [or_iff_left hlate,and_iff_left h.executed_nodup]
  refine forall₂_congr fun t ht => ?_
  rw [← List.count_eq_zero]
  have := hcount t ht
  omega

/-- A run after which `_stop` is set comes through the step that sets it. -/
theorem stop_of_run {n : ℕ} {as : List Action} (run : system.Run (start n) as s)
    (hstop : s.stop = true) : ∃ pre post u, as = pre ++ .store::post ∧
      system.Run (start n) pre u := by
  induction run with
  | nil => simp [start] at hstop
  | @snoc t u as a run last ih =>
    cases stop_step last with
    | inl h => exact ⟨as,[],t,by rw [h.1],run⟩
    | inr h =>
      obtain ⟨pre,post,v,rfl,hv⟩ := ih (h ▸ hstop)
      exact ⟨pre,post ++ [a],v,by simp,hv⟩

/-- Once `Stop` has returned, each task whose push had returned before has been executed once, and
no task twice, exactly if the tasks were in time when `_stop` was set. -/
theorem tasks_once_iff {n : ℕ} {as : List Action} (run : system.Run (start n) as s)
    (returned : s.stopping = .returned) : s.Once ↔
      ∀ pre post u, as = pre ++ .store::post → system.Run (start n) pre u → u.InTime := by
  have sound : ∀ {bs t}, system.Run (start n) bs t → Sound t := fun run =>
    run.invariant (Sound.start n) fun h hs => h.step hs
  have hstored : ∀ pre post u, as = pre ++ .store::post → system.Run (start n) pre u →
      (s.InTime ↔ u.InTime) := by
    rintro pre post u rfl hu
    obtain ⟨v,hv,hpost⟩ := run.append_cases
    cases hu.unique Lts.ofPartial_det hv
    obtain ⟨u',hlast,hpost⟩ := hpost.cons_cases
    obtain ⟨hstop,hsame⟩ := inTime_store hlast
    exact (inTime_run ((sound hu).step hlast) hstop hpost).trans hsame
  rw [(sound run).once_iff returned]
  constructor
  · exact fun h pre post u e hu => (hstored pre post u e hu).mp h
  · intro h
    obtain ⟨pre,post,u,e,hu⟩ := stop_of_run run ((sound run).flag.mpr (.inr (.inr returned)))
    exact (hstored pre post u e hu).mpr (h pre post u e hu)

/-- A worker that waits when the pool is stopped, and finds one task. -/
def stoppedWaiting : List Action :=
  [.test 0,.pushLock,.pushEmplace,.pushNotify none,.pushUnlock,.call,.store,.notifyAll,.lock 0,
    .evaluate 0,.swap 0,.run 0,.test 0,.join]

theorem tasks_once_waiting : ∃ s, system.Run (start 1) stoppedWaiting s ∧
    s.stopping = .returned ∧ (s.Once ↔ ∀ pre post u, stoppedWaiting = pre ++ .store::post →
      system.Run (start 1) pre u → u.InTime) := by
  have hall : ((some (start 1)).bind (stoppedWaiting.foldlM step)).any
      (fun s => decide (s.stopping = .returned)) = true := by
    decide
  obtain ⟨s₀,s,hstart,run,hs⟩ := Lts.Run.of_any hall
  cases hstart
  have hr := of_decide_eq_true hs
  exact ⟨s,run,hr,tasks_once_iff run hr⟩

/-- A task that is pushed while the worker executes its batch. -/
def stoppedBusy : List Action :=
  [.pushLock,.pushEmplace,.pushNotify none,.pushUnlock,.test 0,.lock 0,.evaluate 0,.swap 0,
    .pushLock,.pushEmplace,.pushNotify none,.pushUnlock,.call,.store,.notifyAll,.run 0,.test 0,
    .join]

theorem pending_task_lost : ¬ ∀ (n : ℕ) (as : List Action) (s : ThreadPool), 1 ≤ n →
    system.Run (start n) as s → s.stopping = .returned → s.Once := by
  intro h
  have hall : ((some (start 1)).bind (stoppedBusy.foldlM step)).any
      (fun s => decide (s.stopping = .returned ∧ s.before = 2 ∧ s.executed = [0])) = true := by
    decide
  obtain ⟨s₀,s,hstart,run,hs⟩ := Lts.Run.of_any hall
  cases hstart
  obtain ⟨hr,hb,he⟩ := of_decide_eq_true hs
  have honce := (h 1 _ s (Nat.le_refl 1) run hr).1 1 (by omega)
  rw [he] at honce
  simp at honce

end ThreadPool
end MessageQueue

import Mathlib.Algebra.Ring.Nat
import MessageQueue.Common.Shutdown

/-! `Stop` sets `_stop` and notifies all without the mutex. A worker that has just found its
predicate false is not blocked yet: it misses the notification and blocks after it. -/
namespace MessageQueue
open Base

namespace PoolWorker

/-- It is blocked, or its next step is to block. -/
def sleeps : PoolWorker → Bool
  | .blocking | .blocked => true
  | _ => false

/-- So many steps lead it from here to the end of `Entry` once `_stop` is set, the tasks that it has
still to swap out apart. -/
def left : PoolWorker → ℕ
  | .running batch => batch.length+1
  | .swapping => 2
  | .waiting => 3
  | .locking => 4
  | .blocking | .blocked | .exited => 0

theorem sleeps_notified {w : PoolWorker} : w.notified.sleeps = true ↔ w = .blocking := by
  cases w <;> simp [notified,sleeps]

end PoolWorker

/-- So many steps of the push that has the mutex are left, the one for its task included. -/
def Mutex.left : Mutex → ℕ
  | .free | .worker => 0
  | .pusher .locked => 4
  | .pusher .emplaced => 2
  | .pusher .notified => 1

namespace ThreadPool
variable {s s' u : ThreadPool} {a : Action} {i : ℕ} {w w' : PoolWorker}

/-- `Stop` is behind its `notify_all`. -/
def NotifiedAll (s : ThreadPool) : Prop := s.stopping = .joining ∨ s.stopping = .returned

def Awake (s : ThreadPool) : Prop := ∀ w ∈ s.workers, w.sleeps = false

/-- A push has the mutex and has not notified yet. -/
def Notifying (s : ThreadPool) : Prop := s.mutex = .pusher .locked ∨ s.mutex = .pusher .emplaced

/-- Who sleeps will be notified. -/
def Woken (s : ThreadPool) : Prop := ∀ w ∈ s.workers, w.sleeps = true → s.Notifying

/-- Neither a push that begins nor a wait that ends by itself. -/
def Action.Ongoing : Action → Prop
  | .pushLock | .wake _ => False
  | _ => True

/-- The joins can come to their end without a push that begins or a wait that ends by itself. -/
def Ends (s : ThreadPool) : Prop :=
  ∃ as t, (system.guarded fun _ a => a.Ongoing).Run s as t ∧ t.stopping = .returned

/-- When `Stop` notifies, no worker stands between its predicate and the wait. -/
def Settled (s : ThreadPool) (a : Action) : Prop := a = .notifyAll → .blocking ∉ s.workers

theorem Sound.stop_of_notifiedAll (h : Sound s) (hn : s.NotifiedAll) : s.stop = true :=
  h.flag.mpr (.inr hn)

theorem Awake.set (h : s.Awake) (hw : w.sleeps = false) : (s.setWorker i w).Awake := by
  intro v hv
  cases List.mem_or_eq_of_mem_set hv with
  | inl hmem => exact h v hmem
  | inr heq => exact heq ▸ hw

/-- Once all have been notified and nobody sleeps, nobody falls asleep. -/
theorem awake_step (h : Sound s) (ha : s.NotifiedAll → s.Awake) (hset : s.Settled a)
    (hs : s.step a = some s') (hn : s'.NotifiedAll) : s'.Awake := by
  cases moves hs with
  | run | lock | wake | swap | notifyOne => exact (ha hn).set rfl
  | test =>
    refine (ha hn).set ?_
    rw [h.stop_of_notifiedAll hn]
    rfl
  | evaluate =>
    refine (ha hn).set ?_
    rw [h.stop_of_notifiedAll hn]
    rfl
  | block hw => exact absurd (ha hn _ (List.mem_of_getElem? hw)) (by simp [PoolWorker.sleeps])
  | call | store => simp [NotifiedAll] at hn
  | notifyAll =>
    intro w hw
    obtain ⟨v,hv,rfl⟩ := List.mem_map.mp hw
    rw [Bool.eq_false_iff,ne_eq,PoolWorker.sleeps_notified]
    exact fun e => hset rfl (e ▸ hv)
  | join hst => exact ha (.inl hst)
  | pushLock | pushEmplace | notifyNone | pushUnlock => exact ha hn

/-- Who is about to block has the mutex, so that no push can notify. -/
theorem Sound.not_notifying (h : Sound s) (hb : .blocking ∈ s.workers) : ¬ s.Notifying := by
  obtain ⟨i,hi⟩ := List.mem_iff_getElem?.mp hb
  have hm := h.mutex_of_holds hi rfl
  simp [Notifying,hm]

/-- An upper bound of the steps of workers and pushes that are left when no push begins any more. -/
def left (s : ThreadPool) : ℕ :=
  s.tasks.length+(s.workers.map PoolWorker.left).sum+s.mutex.left

/-- A worker moves on, and less is left for it, the tasks and the mutex together. -/
theorem left_move (hw : s.workers[i]? = some w) {mutex : Mutex} {tasks executed : List ℕ}
    (hlt : tasks.length+w'.left+mutex.left < s.tasks.length+w.left+s.mutex.left) :
    left {s.setWorker i w' with mutex := mutex, tasks := tasks, executed := executed} < s.left := by
  obtain ⟨front,back,hold,hnew⟩ := exists_set hw
  simp only [left,setWorker,hnew]
  simp only [hold,List.map_append,List.map_cons,List.sum_append,List.sum_cons]
  omega

/-- A worker that does not wait for the mutex goes on. -/
theorem worker_goes_on (h : Sound s) (ha : s.Awake) (hst : s.stopping = .joining)
    (hw : s.workers[i]? = some w) (hne : w ≠ .exited) (hlock : w ≠ .locking) :
    ∃ a s', a.Ongoing ∧ s.step a = some s' ∧ s'.stopping = .joining ∧ s'.left < s.left := by
  have hstop := h.stop_of_notifiedAll (.inl hst)
  cases w with
  | running batch =>
    cases batch with
    | nil =>
      refine ⟨.test i,s.setWorker i .exited,trivial,by simp [ThreadPool.step,hw,hstop],hst,?_⟩
      exact left_move hw (by simp [PoolWorker.left])
    | cons task batch =>
      refine ⟨.run i,{s.setWorker i (.running batch) with executed := s.executed ++ [task]},trivial,
        by simp only [ThreadPool.step,hw],hst,?_⟩
      exact left_move hw (by simp [PoolWorker.left])
  | waiting =>
    refine ⟨.evaluate i,s.setWorker i .swapping,trivial,by simp [ThreadPool.step,hw,hstop],hst,?_⟩
    exact left_move hw (by simp [PoolWorker.left])
  | swapping =>
    refine ⟨.swap i,{s.setWorker i (.running s.tasks) with tasks := [], mutex := .free},trivial,
      by simp only [ThreadPool.step,hw],hst,?_⟩
    have hm := h.mutex_of_holds hw rfl
    exact left_move hw (by simp [PoolWorker.left,Mutex.left,hm])
  | locking => exact absurd rfl hlock
  | exited => exact absurd rfl hne
  | blocking | blocked =>
    exact absurd (ha _ (List.mem_of_getElem? hw)) (by simp [PoolWorker.sleeps])

/-- As long as a worker has not exited, some step is open that needs nobody else to come. -/
theorem goes_on (h : Sound s) (ha : s.Awake) (hst : s.stopping = .joining)
    (hall : ¬ ∀ w ∈ s.workers, w = .exited) :
    ∃ a s', a.Ongoing ∧ s.step a = some s' ∧ s'.stopping = .joining ∧ s'.left < s.left := by
  push Not at hall
  obtain ⟨w,hmem,hne⟩ := hall
  obtain ⟨i,hw⟩ := List.mem_iff_getElem?.mp hmem
  by_cases hlock : w = .locking
  · subst hlock
    -- who has the mutex comes first
    cases hm : s.mutex with
    | free =>
      refine ⟨.lock i,{s.setWorker i .waiting with mutex := .worker},trivial,
        by simp only [ThreadPool.step,hw,hm],hst,?_⟩
      exact left_move hw (by simp [PoolWorker.left,Mutex.left,hm])
    | worker =>
      have hcount := h.holders
      rw [if_pos hm] at hcount
      obtain ⟨v,hv,hholds⟩ := List.countP_pos_iff.mp (hcount ▸ Nat.one_pos)
      obtain ⟨j,hj⟩ := List.mem_iff_getElem?.mp hv
      refine worker_goes_on h ha hst hj ?_ ?_
      · rintro rfl
        cases hholds
      · rintro rfl
        cases hholds
    | pusher stage =>
      cases stage with
      | locked =>
        refine ⟨.pushEmplace,{s with
            tasks := s.tasks ++ [s.next]
            next := s.next+1
            mutex := .pusher .emplaced},trivial,by simp only [ThreadPool.step,hm],hst,?_⟩
        simp only [left,hm,Mutex.left,List.length_append,List.length_singleton]
        omega
      | emplaced =>
        have hnone : .blocked ∉ s.workers := fun hb =>
          absurd (ha _ hb) (by simp [PoolWorker.sleeps])
        refine ⟨.pushNotify none,{s with mutex := .pusher .notified},trivial,
          by simp only [ThreadPool.step,hm,if_neg hnone],hst,?_⟩
        simp only [left,hm,Mutex.left]
        omega
      | notified =>
        refine ⟨.pushUnlock,{s with mutex := .free, completed := s.completed+1},trivial,
          by simp only [ThreadPool.step,hm],hst,?_⟩
        simp only [left,hm,Mutex.left]
        omega
  · exact worker_goes_on h ha hst hw hne hlock

/-- When nobody sleeps, the joins come to their end. -/
theorem Awake.ends (h : Sound s) (ha : s.Awake) (hn : s.NotifiedAll) : s.Ends := by
  cases hn with
  | inr hr => exact ⟨[],s,.nil s,hr⟩
  | inl hst =>
    obtain ⟨as,t,run,ht,hexit⟩ := Lts.Run.exists_goal (L := system.guarded fun _ a => a.Ongoing)
      (fun t => Sound t ∧ t.Awake ∧ t.stopping = .joining)
      (fun t => t.stopping = .joining ∧ ∀ w ∈ t.workers, w = .exited) left
      (fun {t} ⟨ht,hta,htj⟩ hg => by
        obtain ⟨a,t',hon,hs,hst',hlt⟩ := goes_on ht hta htj fun hall => hg ⟨htj,hall⟩
        have hset : t.Settled a := by
          rintro rfl
          simp [ThreadPool.step,htj] at hs
        have hawake := awake_step ht (fun _ => hta) hset hs (.inl hst')
        exact ⟨a,t',⟨hon,hs⟩,⟨ht.step hs,hawake,hst'⟩,hlt⟩)
      ⟨h,ha,hst⟩
    have hjoin : t.step .join = some {t with stopping := .returned} := by
      simp only [ThreadPool.step,ht]
      exact if_pos hexit
    have last : (system.guarded fun _ a => a.Ongoing).step t .join {t with stopping := .returned} :=
      ⟨trivial,hjoin⟩
    exact ⟨as ++ [.join],_,run.snoc last,rfl⟩

/-- A worker that nobody will notify, when `Stop` is behind its notification. -/
structure Stuck (s : ThreadPool) : Prop where
  joining : s.stopping = .joining
  quiet : ¬ s.Notifying
  asleep : ∃ w ∈ s.workers, w.sleeps = true

/-- Another worker moves on. -/
theorem asleep_set (h : ∃ w ∈ s.workers, w.sleeps = true) (hw : s.workers[i]? = some w)
    (hawake : w.sleeps = false) : ∃ v ∈ (s.setWorker i w').workers, v.sleeps = true := by
  obtain ⟨v,hv,hsleeps⟩ := h
  obtain ⟨front,back,hold,hnew⟩ := exists_set hw
  rw [hold,List.mem_append,List.mem_cons] at hv
  refine ⟨v,?_,hsleeps⟩
  simp only [setWorker,hnew,List.mem_append,List.mem_cons]
  refine hv.imp_right fun h => h.imp_left ?_
  rintro rfl
  rw [hawake] at hsleeps
  cases hsleeps

theorem Stuck.step (h : Stuck s) (hon : a.Ongoing) (hs : s.step a = some s') : Stuck s' := by
  have hst := h.joining
  have hquiet := h.quiet
  cases moves hs with
  | run hw | test hw | evaluate hw => exact ⟨hst,hquiet,asleep_set h.asleep hw rfl⟩
  | lock hw | swap hw => exact ⟨hst,by simp [Notifying],asleep_set h.asleep hw rfl⟩
  | block hw =>
    refine ⟨hst,by simp [Notifying],.blocked,?_,rfl⟩
    exact List.mem_set (List.getElem?_eq_some_iff.mp hw).1 _
  | pushEmplace hm => exact absurd (.inl hm) hquiet
  | notifyNone hm | notifyOne hm => exact absurd (.inr hm) hquiet
  | pushUnlock => exact ⟨hst,by simp [Notifying],h.asleep⟩
  | join _ hall =>
    obtain ⟨w,hw,hsleeps⟩ := h.asleep
    rw [hall w hw] at hsleeps
    cases hsleeps
  | wake | pushLock => exact hon.elim
  | call hc | store hc | notifyAll hc => simp [hst] at hc

/-- The joins wait for a worker that nobody will wake. -/
theorem Stuck.not_ends (h : Stuck s) : ¬ s.Ends := by
  rintro ⟨as,t,run,hr⟩
  have ht : Stuck t := run.invariant h fun h hs => h.step hs.1 hs.2
  simp [ht.joining] at hr

/-- What holds when nobody sleeps, and fails when a worker is about to block, holds in all states
after the notification exactly if no worker was about to block when it came. -/
theorem settled_iff {good : ThreadPool → Prop}
    (awake : ∀ {u}, Sound u → u.NotifiedAll → u.Awake → good u)
    (missed : ∀ {u}, Sound u → u.stopping = .joining → .blocking ∈ u.workers → ¬ good u)
    {n : ℕ} {as : List Action} (run : system.Run (start n) as s) :
    (system.guarded Settled).Run (start n) as s ↔
      ∀ pre u, pre <+: as → system.Run (start n) pre u → u.NotifiedAll → good u := by
  refine run.guarded_iff (fun t => Sound t ∧ (t.NotifiedAll → t.Awake)) Lts.ofPartial_det
    ?_ ?_ ?_ ?_
  · intro t a t' ⟨ht,hta⟩ hs
    constructor
    · rintro hgood rfl hb
      have ht' := ht.step hs
      cases moves hs with
      | notifyAll => exact missed ht' rfl (List.mem_map.mpr ⟨_,hb,rfl⟩) (hgood (.inl rfl))
    · exact fun hset hn => awake (ht.step hs) hn (awake_step ht hta hset hs hn)
  · exact fun ⟨ht,hta⟩ hset hs => ⟨ht.step hs,awake_step ht hta hset hs⟩
  · exact fun ⟨ht,hta⟩ hn => awake ht hn (hta hn)
  · exact ⟨Sound.start n,fun hn => by simp [NotifiedAll,start] at hn⟩

/-- After the notification of `Stop` nobody sleeps and the joins come to their end, or only nobody
sleeps whom no push will notify: each exactly if no worker was about to block when it came. -/
theorem nobody_asleep_iff {n : ℕ} {as : List Action} (run : system.Run (start n) as s) :
    ((system.guarded Settled).Run (start n) as s ↔ ∀ pre u, pre <+: as →
      system.Run (start n) pre u → u.NotifiedAll → u.Awake ∧ u.Ends) ∧
    ((system.guarded Settled).Run (start n) as s ↔ ∀ pre u, pre <+: as →
      system.Run (start n) pre u → u.NotifiedAll → u.Woken) := by
  constructor
  · refine settled_iff (fun hu hn ha => ⟨ha,ha.ends hu hn⟩) (fun hu hst hb hgood => ?_) run
    exact Stuck.not_ends ⟨hst,hu.not_notifying hb,_,hb,rfl⟩ hgood.2
  · refine settled_iff (fun hu hn ha w hw hsleeps => ?_) (fun hu _ hb hgood => ?_) run
    · rw [ha w hw] at hsleeps
      cases hsleeps
    · exact hu.not_notifying hb (hgood _ hb rfl)

/-- A worker that is blocked when the pool is stopped. -/
def stoppedBlocked : List Action :=
  [.test 0,.lock 0,.evaluate 0,.block 0,.call,.store,.notifyAll,.lock 0,.evaluate 0,.swap 0,.test 0,
    .join]

theorem nobody_asleep_blocked : ∃ s, system.Run (start 1) stoppedBlocked s ∧
    ((system.guarded Settled).Run (start 1) stoppedBlocked s ↔ ∀ pre u, pre <+: stoppedBlocked →
      system.Run (start 1) pre u → u.NotifiedAll → u.Awake ∧ u.Ends) ∧
    ((system.guarded Settled).Run (start 1) stoppedBlocked s ↔ ∀ pre u, pre <+: stoppedBlocked →
      system.Run (start 1) pre u → u.NotifiedAll → u.Woken) := by
  have hall : ((some (start 1)).bind (stoppedBlocked.foldlM step)).any (fun _ => true) = true := by
    decide
  obtain ⟨s₀,s,hstart,run,-⟩ := Lts.Run.of_any hall
  cases hstart
  exact ⟨s,run,nobody_asleep_iff run⟩

/-- The notification comes between the predicate of a worker and its wait. -/
def stoppedBlocking : List Action :=
  [.test 0,.lock 0,.evaluate 0,.call,.store,.notifyAll,.block 0]

theorem notification_missed : ¬ ∀ (n : ℕ) (as : List Action) (s : ThreadPool),
    system.Run (start n) as s → s.NotifiedAll → s.Woken := by
  intro h
  have hall : ((some (start 1)).bind (stoppedBlocking.foldlM step)).any (fun s =>
      decide (s.stopping = .joining ∧ s.workers = [.blocked] ∧ s.mutex = .free)) = true := by
    decide
  obtain ⟨s₀,s,hstart,run,hs⟩ := Lts.Run.of_any hall
  cases hstart
  obtain ⟨hst,hw,hm⟩ := of_decide_eq_true hs
  have hnot := h 1 _ s run (.inl hst) .blocked (by simp [hw]) rfl
  simp [Notifying,hm] at hnot

end ThreadPool
end MessageQueue

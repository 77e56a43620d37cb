import MessageQueue.Base.Run

/-! `ThreadPool`: workers that take the pending tasks in batches, any number of threads that push,
and one that stops the pool. A step is what a thread does between two points at which the others
can come. A task is known by the number of its push. -/
namespace MessageQueue
open Base

/-- Where a worker is in the loop of `Entry`. -/
inductive PoolWorker
  /-- It executes its batch, and tests `_stop` when nothing of it is left. -/
  | running (batch : List ℕ)
  /-- `_stop` was not set, or the wait was ended: the mutex comes next. -/
  | locking
  /-- It has the mutex, and evaluates the predicate of the wait next. -/
  | waiting
  /-- The predicate was false: it gives the mutex up and blocks next. -/
  | blocking
  | blocked
  /-- The predicate was true: it swaps the tasks out and gives the mutex up next. -/
  | swapping
  | exited
  deriving DecidableEq

/-- What `notify_all` makes of a worker. -/
def PoolWorker.notified : PoolWorker → PoolWorker
  | .blocked => .locking
  | w => w

/-- How far the push that has the mutex has come. -/
inductive Pushing
  | locked
  | emplaced
  | notified
  deriving DecidableEq

inductive Mutex
  | free
  | worker
  | pusher (stage : Pushing)
  deriving DecidableEq

/-- How far the call of `Stop` has come; a later call would find `_stop` set and return. -/
inductive Stopping
  | notCalled
  /-- `_stop` was not set. -/
  | called
  | stored
  /-- It has notified all, and joins the workers. -/
  | joining
  | returned
  deriving DecidableEq

structure ThreadPool where
  stop : Bool := false
  tasks : List ℕ := []
  mutex : Mutex := .free
  workers : List PoolWorker
  stopping : Stopping := .notCalled
  /-- Tasks from here on have not been pushed. -/
  next : ℕ := 0
  /-- So many pushes have returned. -/
  completed : ℕ := 0
  /-- So many had returned when `Stop` was called. -/
  before : ℕ := 0
  /-- The tasks that have been executed, in order. -/
  executed : List ℕ := []

namespace ThreadPool

def start (thrCount : ℕ) : ThreadPool := {workers := List.replicate thrCount (.running [])}

/-- The steps of the `i`-th worker, of a push, and of `Stop`. -/
inductive Action
  | run (i : ℕ)
  | test (i : ℕ)
  | lock (i : ℕ)
  | evaluate (i : ℕ)
  | block (i : ℕ)
  /-- A wait may also end by itself. -/
  | wake (i : ℕ)
  | swap (i : ℕ)
  | pushLock
  | pushEmplace
  /-- The worker that is woken, if any is blocked. -/
  | pushNotify (woken : Option ℕ)
  | pushUnlock
  | call
  | store
  | notifyAll
  | join

def setWorker (s : ThreadPool) (i : ℕ) (w : PoolWorker) : ThreadPool :=
  {s with workers := s.workers.set i w}

@[simp] theorem setWorker_tasks (s : ThreadPool) (i : ℕ) (w : PoolWorker) :
    (s.setWorker i w).tasks = s.tasks := rfl
@[simp] theorem setWorker_executed (s : ThreadPool) (i : ℕ) (w : PoolWorker) :
    (s.setWorker i w).executed = s.executed := rfl
@[simp] theorem setWorker_mutex (s : ThreadPool) (i : ℕ) (w : PoolWorker) :
    (s.setWorker i w).mutex = s.mutex := rfl

/-- `none` where the thread is at another point, or has to wait. -/
def step (s : ThreadPool) : Action → Option ThreadPool
  | .run i =>
    match s.workers[i]? with
    | some (.running (task::batch)) =>
      some {s.setWorker i (.running batch) with executed := s.executed ++ [task]}
    | _ => none
  | .test i =>
    match s.workers[i]? with
    | some (.running []) => some (s.setWorker i (if s.stop then .exited else .locking))
    | _ => none
  | .lock i =>
    match s.workers[i]?,s.mutex with
    | some .locking,.free => some {s.setWorker i .waiting with mutex := .worker}
    | _,_ => none
  | .evaluate i =>
    match s.workers[i]? with
    | some .waiting =>
      some (s.setWorker i (if s.stop || !s.tasks.isEmpty then .swapping else .blocking))
    | _ => none
  | .block i =>
    match s.workers[i]? with
    | some .blocking => some {s.setWorker i .blocked with mutex := .free}
    | _ => none
  | .wake i =>
    match s.workers[i]? with
    | some .blocked => some (s.setWorker i .locking)
    | _ => none
  | .swap i =>
    match s.workers[i]? with
    | some .swapping => some {s.setWorker i (.running s.tasks) with tasks := [], mutex := .free}
    | _ => none
  | .pushLock =>
    match s.mutex with
    | .free => some {s with mutex := .pusher .locked}
    | _ => none
  | .pushEmplace =>
    match s.mutex with
    | .pusher .locked => some {s with
        tasks := s.tasks ++ [s.next]
        next := s.next+1
        mutex := .pusher .emplaced}
    | _ => none
  | .pushNotify none =>
    match s.mutex with
    | .pusher .emplaced =>
      if .blocked ∈ s.workers then none else some {s with mutex := .pusher .notified}
    | _ => none
  | .pushNotify (some i) =>
    match s.mutex,s.workers[i]? with
    | .pusher .emplaced,some .blocked =>
      some {s.setWorker i .locking with mutex := .pusher .notified}
    | _,_ => none
  | .pushUnlock =>
    match s.mutex with
    | .pusher .notified => some {s with mutex := .free, completed := s.completed+1}
    | _ => none
  | .call =>
    match s.stopping with
    | .notCalled => some {s with stopping := .called, before := s.completed}
    | _ => none
  | .store =>
    match s.stopping with
    | .called => some {s with stopping := .stored, stop := true}
    | _ => none
  | .notifyAll =>
    match s.stopping with
    | .stored => some {s with stopping := .joining, workers := s.workers.map PoolWorker.notified}
    | _ => none
  | .join =>
    match s.stopping with
    | .joining => if ∀ w ∈ s.workers, w = .exited then some {s with stopping := .returned} else none
    | _ => none

def system : Lts ThreadPool Action := .ofPartial step

end ThreadPool
end MessageQueue

import MessageQueue.Common.Helper
import MessageQueue.Server.QueueMessage

/-! `MessageManager`: the message handles of the queues, over the disk they share. -/
namespace MessageQueue
open Base

/-- A shared pointer to a `QueueMessage`: which object it is, and the object. -/
structure Handle where
  object : ℕ
  store : QueueMessage

structure MessageManager where
  basedir : String
  queueMsgs : Table String Handle
  /-- Objects from here on have never been made. -/
  fresh : ℕ

namespace MessageManager

def new (basedir : String) : MessageManager := ⟨basedir,∅,0⟩

/-- Replace the object behind a handle by what an operation made of it. -/
def update (m : MessageManager) (qname : String) (h : Handle) (store : QueueMessage) :
    MessageManager :=
  {m with queueMsgs := m.queueMsgs.insert qname {h with store := store}}

def initQueueMessage (m : MessageManager) (d : Disk) (qname : String) : MessageManager × Disk :=
  match m.queueMsgs.lookup qname with
  | some _ => (m,d)
  | none =>
    let mapper := MessageMapper.named m.basedir qname
    let r := (QueueMessage.new mapper).recovery (mapper.construct d)
    ({m with
      queueMsgs := m.queueMsgs.insert qname ⟨m.fresh,r.2.1⟩
      fresh := m.fresh+1},r.2.2)

def destroyQueueMessage (m : MessageManager) (d : Disk) (qname : String) :
    MessageManager × Disk :=
  match m.queueMsgs.lookup qname with
  | none => (m,d)
  | some h => ({m with queueMsgs := m.queueMsgs.erase qname},(h.store.clear d).2)

/-- One round of the loop of `clear`. -/
def clearQueueMessage (m : MessageManager) (d : Disk) (qname : String) : MessageManager × Disk :=
  match m.queueMsgs.lookup qname with
  | none => (m,d)
  | some h =>
    let r := h.store.clear d
    (m.update qname h r.1,r.2)

/-- The handles stay, with nothing in them. -/
def clear (m : MessageManager) (it : Iteration) (d : Disk) : MessageManager × Disk :=
  (it.order m.queueMsgs.keys).foldl (fun r qname => r.1.clearQueueMessage r.2 qname) (m,d)

def insert (m : MessageManager) (d : Disk) (qname : String) (bp : Option BasicProperties)
    (body : String) (queueIsDurable : Bool) (uuid : String) : Bool × MessageManager × Disk :=
  match m.queueMsgs.lookup qname with
  | none => (false,m,d)
  | some h =>
    let r := h.store.insert d bp body queueIsDurable uuid
    (r.1,m.update qname h r.2.1,r.2.2)

/-- The message object that was taken, and the payload it holds. -/
structure Taken where
  object : ℕ
  message : MessagePtr
  payload : Payload

def front (m : MessageManager) (qname : String) : Option Taken × MessageManager :=
  match m.queueMsgs.lookup qname with
  | none => (none,m)
  | some h =>
    match h.store.front with
    | (none,store) => (none,m.update qname h store)
    | (some p,store) => (some ⟨h.object,p,store.payload p⟩,m.update qname h store)

/-- What `front` takes, and what it leaves, where the queue has a handle. -/
theorem front_some {m : MessageManager} {qname : String} {h : Handle}
    (hl : m.queueMsgs.lookup qname = some h) : m.front qname =
      (h.store.front.1.map fun p => ⟨h.object,p,h.store.front.2.payload p⟩,
        m.update qname h h.store.front.2) := by
  simp only [front,hl]
  split
  · next store heq => simp [heq]
  · next p store heq => simp [heq]

theorem front_ne {m : MessageManager} {q n : String} (hq : q ≠ n) :
    (m.front n).2.queueMsgs.lookup q = m.queueMsgs.lookup q := by
  cases hl : m.queueMsgs.lookup n with
  | none => simp only [front,hl]
  | some h =>
    rw [front_some hl]
    exact AList.lookup_insert_ne hq

def ack (m : MessageManager) (d : Disk) (qname msgId : String) : MessageManager × Disk :=
  match m.queueMsgs.lookup qname with
  | none => (m,d)
  | some h =>
    let r := h.store.remove QueueMessage.garbageCollectionCheck d msgId
    (m.update qname h r.2.1,r.2.2)

def getAbleCount (m : MessageManager) (qname : String) : ℕ :=
  match m.queueMsgs.lookup qname with
  | none => 0
  | some h => h.store.getAbleCount

end MessageManager
end MessageQueue

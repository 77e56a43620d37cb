import MessageQueue.Base.Table
import MessageQueue.Server.MessageMapper

/-! `QueueMessage`: the messages of one queue. The list of available messages and the two hash
tables share their messages, so they hold addresses of a heap. -/
namespace MessageQueue
open Base

/-- The address of a message object. -/
abbrev MessagePtr := ℕ

structure QueueMessage where
  mapper : MessageMapper
  validCount : UInt64
  totalCount : UInt64
  msgs : List MessagePtr
  durableMsgs : Table String MessagePtr
  waitackMsgs : Table String MessagePtr
  heap : MessagePtr → Message
  /-- The addresses from here on have never been handed out. -/
  fresh : MessagePtr

namespace QueueMessage

/-- When compaction is worth it, given the total and the valid count. -/
abbrev Policy := UInt64 → UInt64 → Bool

/-- More than 2000 records on file, of which fewer than five in ten are valid. -/
def garbageCollectionCheck : Policy := fun totalCount validCount =>
  decide (totalCount > 2000) && decide (validCount*10/totalCount < 5)

/-- The constructor, before `recovery`. -/
def new (m : MessageMapper) : QueueMessage where
  mapper := m
  validCount := 0
  totalCount := 0
  msgs := []
  durableMsgs := ∅
  waitackMsgs := ∅
  heap := fun _ => {}
  fresh := 0

def payload (q : QueueMessage) (p : MessagePtr) : Payload := (q.heap p).payload

def store (q : QueueMessage) (p : MessagePtr) (m : Message) : QueueMessage :=
  {q with heap := Function.update q.heap p m}

/-- The new object sits at `q.fresh`. -/
def alloc (q : QueueMessage) (m : Message) : QueueMessage :=
  {q.store q.fresh m with fresh := q.fresh+1}

/-- The message that `insert` builds: without properties it makes up an id. -/
def newMessage (bp : Option BasicProperties) (body : String) (queueIsDurable : Bool)
    (uuid : String) : Message :=
  match bp with
  | some bp => {payload :=
    { body := body
      properties := some
        { id := bp.id
          deliveryMode := if queueIsDurable then bp.deliveryMode else .undurable
          routingKey := bp.routingKey } }}
  | none => {payload :=
    { body := body
      properties := some
        { id := uuid
          deliveryMode := if queueIsDurable then .durable else .undurable
          routingKey := "" } }}

def pushMessage (q : QueueMessage) (m : Message) : QueueMessage :=
  {q.alloc m with msgs := q.msgs ++ [q.fresh]}

def insert (q : QueueMessage) (d : Disk) (bp : Option BasicProperties) (body : String)
    (queueIsDurable : Bool) (uuid : String) : Bool × QueueMessage × Disk :=
  let msg := newMessage bp body queueIsDurable uuid
  if msg.payload.deliveryMode = .durable then
    let msg := {msg with payload := {msg.payload with valid := "1"}}
    match q.mapper.insertDataFile d msg with
    | (false,_,d) => (false,q,d)
    | (true,msg,d) =>
      (true,
        {q.pushMessage msg with
          validCount := q.validCount+1
          totalCount := q.totalCount+1
          durableMsgs := q.durableMsgs.emplace msg.payload.id q.fresh},d)
  else (true,q.pushMessage msg,d)

/-- What the compaction loop does with one message of the new file: a message that memory knows
learns its new place, any other is queued again. -/
def adopt (q : QueueMessage) (msg : Message) : QueueMessage :=
  match q.durableMsgs.lookup msg.payload.id with
  | none =>
    {q.pushMessage msg with durableMsgs := q.durableMsgs.emplace msg.payload.id q.fresh}
  | some p => q.store p {q.heap p with offset := msg.offset, length := msg.length}

def garbageCollection (check : Policy) (q : QueueMessage) (d : Disk) : QueueMessage × Disk :=
  if check q.totalCount q.validCount = false then (q,d)
  else
    let r := q.mapper.garbageCollection d
    ({r.1.foldl adopt q with
      validCount := UInt64.ofNat r.1.length
      totalCount := UInt64.ofNat r.1.length},r.2)

/-- An acknowledgement. -/
def remove (check : Policy) (q : QueueMessage) (d : Disk) (msgId : String) :
    Bool × QueueMessage × Disk :=
  match q.waitackMsgs.lookup msgId with
  | none => (true,q,d)
  | some p =>
    if (q.heap p).payload.deliveryMode = .durable then
      let r := q.mapper.remove d (q.heap p)
      let q := {q.store p r.2.1 with
        durableMsgs := q.durableMsgs.erase msgId
        validCount := q.validCount-1}
      let s := q.garbageCollection check r.2.2
      (true,{s.1 with waitackMsgs := s.1.waitackMsgs.erase msgId},s.2)
    else (true,{q with waitackMsgs := q.waitackMsgs.erase msgId},d)

/-- One recovered message joins the tables. -/
def recover (q : QueueMessage) (msg : Message) : QueueMessage :=
  {q.pushMessage msg with durableMsgs := q.durableMsgs.emplace msg.payload.id q.fresh}

def recovery (q : QueueMessage) (d : Disk) : Bool × QueueMessage × Disk :=
  let r := q.mapper.garbageCollection d
  (true,
    {r.1.foldl recover {q with msgs := []} with
      validCount := UInt64.ofNat r.1.length
      totalCount := UInt64.ofNat r.1.length},r.2)

/-- The head of the list moves to the messages waiting for an acknowledgement. -/
def front (q : QueueMessage) : Option MessagePtr × QueueMessage :=
  match q.msgs with
  | [] => (none,q)
  | p::rest =>
    (some p,
      {q with
        msgs := rest
        waitackMsgs := q.waitackMsgs.emplace (q.heap p).payload.id p})

theorem front_nil {q : QueueMessage} (hm : q.msgs = []) : q.front = (none,q) := by
  simp only [front,hm]

theorem front_cons {q : QueueMessage} {p : MessagePtr} {rest : List MessagePtr}
    (hm : q.msgs = p::rest) : q.front = (some p,
      {q with
        msgs := rest
        waitackMsgs := q.waitackMsgs.emplace (q.heap p).payload.id p}) := by
  simp only [front,hm]

def getAbleCount (q : QueueMessage) : ℕ := q.msgs.length

def clear (q : QueueMessage) (d : Disk) : QueueMessage × Disk :=
  ({q with
    msgs := []
    durableMsgs := ∅
    waitackMsgs := ∅
    validCount := 0
    totalCount := 0},q.mapper.removeFile d)

end QueueMessage
end MessageQueue

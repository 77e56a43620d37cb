import MessageQueue.Base.Table

/-! Consumers: the subscribers of one queue, taken in turns, and their registry. -/
namespace MessageQueue
open Base

/-- What a bound member function of a channel holds: which channel object, and the two fields
it reads, which never change. -/
structure ChannelRef where
  object : ℕ
  id : String
  connection : ℕ
  deriving DecidableEq

structure Consumer where
  autoAck : Bool
  subscribeQueueName : String
  consumerTag : String
  callback : ChannelRef
  deriving DecidableEq

structure QueueConsumer where
  rrSeq : UInt64 := 0
  consumers : List Consumer := []

namespace QueueConsumer

/-- `none` when the tag is taken. -/
def create (q : QueueConsumer) (ctag queueName : String) (ackFlag : Bool) (cb : ChannelRef) :
    Option Consumer × QueueConsumer :=
  if q.consumers.any (·.consumerTag = ctag) then (none,q)
  else
    let consumer : Consumer := ⟨ackFlag,queueName,ctag,cb⟩
    (some consumer,{q with consumers := q.consumers ++ [consumer]})

/-- A new consumer has a tag of its own. -/
theorem create_tags {q : QueueConsumer} (h : (q.consumers.map Consumer.consumerTag).Nodup)
    (ctag queueName : String) (ackFlag : Bool) (cb : ChannelRef) :
    ((q.create ctag queueName ackFlag cb).2.consumers.map Consumer.consumerTag).Nodup := by
  unfold create
  split_ifs with hany
  · exact h
  · rw [List.map_append,List.map_singleton]
    refine List.nodup_append.mpr ⟨h,List.nodup_singleton _,?_⟩
    intro a ha b hb
    rw [List.mem_singleton.mp hb]
    rintro rfl
    obtain ⟨c,hc,htag⟩ := List.mem_map.mp ha
    exact hany (List.any_eq_true.mpr ⟨c,hc,by simpa using htag⟩)

/-- The first consumer with the tag goes. -/
def remove (q : QueueConsumer) (ctag : String) : QueueConsumer :=
  {q with consumers := q.consumers.eraseP (·.consumerTag = ctag)}

/-- `int idx = _rr_seq % _consumers.size()`: the remainder is cut to 32 bits, and the highest of
them is the sign. -/
def index (q : QueueConsumer) : Int :=
  (Int32.ofNat (q.rrSeq.toNat % q.consumers.length)).toInt

/-- The index is an `int`: a list of 2^31 consumers would be past it. -/
def choose (q : QueueConsumer) : Option Consumer × QueueConsumer :=
  if q.consumers.length = 0 then (none,q)
  else
    let idx := q.rrSeq.toNat % q.consumers.length
    (q.consumers[idx]?,{q with rrSeq := q.rrSeq+1})

/-- A turn chooses one of the consumers, and they stay. -/
theorem choose_mem {q : QueueConsumer} {cp : Consumer} (h : q.choose.1 = some cp) :
    cp ∈ q.consumers := by
  unfold choose at h
  split_ifs at h
  exact List.mem_of_getElem? h

theorem choose_consumers (q : QueueConsumer) : q.choose.2.consumers = q.consumers := by
  unfold choose
  split_ifs <;> rfl

/-- `choose` for any number of consumers, with the index as it is computed. `none` is an access
outside of the vector. -/
def chooseAt (q : QueueConsumer) : Option (Option Consumer × QueueConsumer) :=
  if q.consumers.length = 0 then some (none,q)
  else if q.index < 0 then none
  else q.consumers[q.index.toNat]?.map fun cp => (some cp,{q with rrSeq := q.rrSeq+1})

def clear (_ : QueueConsumer) : QueueConsumer := {rrSeq := 0, consumers := []}

end QueueConsumer

abbrev ConsumerManager := Table String QueueConsumer

namespace ConsumerManager

def initQueueConsumer (m : ConsumerManager) (qname : String) : ConsumerManager :=
  m.emplace qname {}

def destroyQueueConsumer (m : ConsumerManager) (qname : String) : ConsumerManager := m.erase qname

def createConsumer (m : ConsumerManager) (ctag queueName : String) (ackFlag : Bool)
    (cb : ChannelRef) : Option Consumer × ConsumerManager :=
  match m.lookup queueName with
  | none => (none,m)
  | some qcp =>
    let r := qcp.create ctag queueName ackFlag cb
    (r.1,m.insert queueName r.2)

def removeConsumer (m : ConsumerManager) (ctag queueName : String) : ConsumerManager :=
  match m.lookup queueName with
  | none => m
  | some qcp => m.insert queueName (qcp.remove ctag)

def chooseConsumer (m : ConsumerManager) (queueName : String) :
    Option Consumer × ConsumerManager :=
  match m.lookup queueName with
  | none => (none,m)
  | some qcp =>
    let r := qcp.choose
    (r.1,m.insert queueName r.2)

end ConsumerManager
end MessageQueue

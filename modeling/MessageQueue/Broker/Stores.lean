import MessageQueue.Broker.Handlers
import MessageQueue.Store.Operations

/-! Properties that hold of the message store of every queue: they are kept by all handlers as
soon as recovery, insertion and acknowledgement keep them. The first one is that a store only
holds addresses it has handed out. -/
namespace MessageQueue
open Base

/-- Every queue's message handle has the property. -/
def MessageManager.Stores (S : String → Handle → Prop) (m : MessageManager) : Prop :=
  ∀ q x, m.queueMsgs.lookup q = some x → S q x

namespace MessageManager.Stores
variable {S : String → Handle → Prop} {m : MessageManager} {d : Disk} {n : String}

theorem update (h : m.Stores S) {x : Handle} {store : QueueMessage}
    (hs : S n {x with store := store}) : (m.update n x store).Stores S :=
  Table.forall_insert hs h

theorem initQueueMessage (h : m.Stores S)
    (recovery : ∀ q object mapper d, S q ⟨object,((QueueMessage.new mapper).recovery d).2.1⟩) :
    (m.initQueueMessage d n).1.Stores S := by
  unfold MessageManager.initQueueMessage
  cases hl : m.queueMsgs.lookup n with
  | some x => exact h
  | none => exact Table.forall_insert (recovery _ _ _ _) h

theorem destroyQueueMessage (h : m.Stores S) : (m.destroyQueueMessage d n).1.Stores S := by
  unfold MessageManager.destroyQueueMessage
  cases hl : m.queueMsgs.lookup n with
  | none => exact h
  | some x =>
    intro q y hy
    exact h q y (Table.lookup_erase_eq_some.mp hy).2

theorem insert (h : m.Stores S) {bp : Option BasicProperties} {body uuid : String}
    {durable : Bool}
    (keep : ∀ q x, S q x → S q {x with store := (x.store.insert d bp body durable uuid).2.1}) :
    (m.insert d n bp body durable uuid).2.1.Stores S := by
  unfold MessageManager.insert
  cases hl : m.queueMsgs.lookup n with
  | none => exact h
  | some x => exact h.update (keep n x (h n x hl))

theorem front (h : m.Stores S) (keep : ∀ x, m.queueMsgs.lookup n = some x →
    S n {x with store := x.store.front.2}) : (m.front n).2.Stores S := by
  cases hl : m.queueMsgs.lookup n with
  | none =>
    simp only [MessageManager.front,hl]
    exact h
  | some x => rw [front_some hl]; exact h.update (keep x hl)

theorem ack (h : m.Stores S) {msgId : String}
    (keep : ∀ q x, S q x → S q {x with
      store := (x.store.remove QueueMessage.garbageCollectionCheck d msgId).2.1}) :
    (m.ack d n msgId).1.Stores S := by
  unfold MessageManager.ack
  cases hl : m.queueMsgs.lookup n with
  | none => exact h
  | some x => exact h.update (keep n x (h n x hl))

/-- The rule: recovery makes the property, insertion and acknowledgement keep it. -/
theorem keeps (S : String → Handle → Prop)
    (recovery : ∀ q object mapper d, S q ⟨object,((QueueMessage.new mapper).recovery d).2.1⟩)
    (insert : ∀ q x d bp body durable uuid, S q x →
      S q {x with store := (x.store.insert d bp body durable uuid).2.1})
    (ack : ∀ q x d msgId, S q x → S q {x with
      store := (x.store.remove QueueMessage.garbageCollectionCheck d msgId).2.1}) :
    VirtualHost.Keeps fun h => h.messages.Stores S where
  declareExchange _ _ _ _ _ h := h
  deleteExchange _ h := h
  declareQueue _ _ _ _ _ h := h.initQueueMessage recovery
  deleteQueue _ h := h.destroyQueueMessage
  bind {host} ename qname key h := by
    unfold VirtualHost.bind
    split
    · exact h
    · split <;> exact h
  unBind _ _ h := h
  basicPublish {host} qname bp body uuid h := by
    unfold VirtualHost.basicPublish
    split
    · exact h
    · exact h.insert fun q x hx => insert q x _ _ _ _ _ hx
  basicAck _ _ h := h.ack fun q x hx => ack q x _ _ hx

/-- A new process has the property, since every handle is recovered. -/
theorem construct {basedir : String} {it : Iteration} {db : Database} {host : VirtualHost}
    (h : VirtualHost.construct basedir it d db = some host)
    (recovery : ∀ q object mapper d, S q ⟨object,((QueueMessage.new mapper).recovery d).2.1⟩) :
    host.messages.Stores S := by
  refine VirtualHost.construct_messages h ?_ fun _ _ _ hm => hm.initQueueMessage recovery
  intro q x hx
  simp [MessageManager.new] at hx

end MessageManager.Stores

/-- A store holds addresses that it has handed out. -/
def QueueMessage.Bounded (q : QueueMessage) : Prop := ∀ p, q.Held p → p < q.fresh

namespace QueueMessage.Bounded
variable {q : QueueMessage}

theorem pushMessage (h : q.Bounded) (m : Message) (t : Table String MessagePtr) :
    Bounded {q.pushMessage m with durableMsgs := t} := by
  intro p hp
  rcases hp with hp | ⟨id,hid⟩
  · rcases List.mem_append.mp hp with hp | hp
    · exact Nat.lt_succ_of_lt (h p (.inl hp))
    · rw [List.mem_singleton.mp hp]
      exact Nat.lt_succ_self _
  · exact Nat.lt_succ_of_lt (h p (.inr ⟨id,hid⟩))

theorem new (m : MessageMapper) : (QueueMessage.new m).Bounded := by
  rintro p (hp | ⟨id,hid⟩)
  · simp [QueueMessage.new] at hp
  · simp [QueueMessage.new] at hid

theorem recovery (mapper : MessageMapper) (d : Disk) :
    ((QueueMessage.new mapper).recovery d).2.1.Bounded :=
  recovery_keeps (fun _ _ _ hq => hq) (fun _ m hq => hq.pushMessage m _) d (new mapper)

theorem insert (h : q.Bounded) (d : Disk) (bp : Option BasicProperties) (body : String)
    (durable : Bool) (uuid : String) : (q.insert d bp body durable uuid).2.1.Bounded := by
  rcases q.insert_cases d bp body durable uuid with ⟨d',he⟩ | ⟨q',d',m,he,-,-,hm,hw,-,hf⟩
  · rw [he]; exact h
  · rw [he]
    intro p hp
    simp only [Held,Waits,hm,hw] at hp
    rw [hf]
    rcases hp with hp | hp
    · rcases List.mem_append.mp hp with hp | hp
      · exact Nat.lt_succ_of_lt (h p (.inl hp))
      · rw [List.mem_singleton.mp hp]
        exact Nat.lt_succ_self _
    · exact Nat.lt_succ_of_lt (h p (.inr hp))

theorem front (h : q.Bounded) : q.front.2.Bounded := by
  unfold QueueMessage.front
  split
  · exact h
  · next x rest hm =>
    rintro p (hp | ⟨id,hid⟩)
    · exact h p (.inl (by rw [hm]; exact List.mem_cons_of_mem _ hp))
    · rcases Table.lookup_emplace_eq_some.mp hid with hid | ⟨-,-,rfl⟩
      · exact h p (.inr ⟨id,hid⟩)
      · exact h p (.inl (by rw [hm]; exact List.mem_cons_self))

theorem adopt (h : q.Bounded) (m : Message) : (q.adopt m).Bounded := by
  unfold QueueMessage.adopt
  split
  · exact h.pushMessage m _
  · exact h

theorem garbageCollection (h : q.Bounded) (check : Policy) (d : Disk) :
    (q.garbageCollection check d).1.Bounded :=
  garbageCollection_keeps (fun _ _ _ hq => hq) (fun _ m hq => hq.adopt m) check d h

/-- Fewer waiting messages are bounded, too. -/
theorem erase (h : q.Bounded) (id : String) :
    Bounded {q with waitackMsgs := q.waitackMsgs.erase id} := by
  rintro p (hp | ⟨i,hi⟩)
  · exact h p (.inl hp)
  · exact h p (.inr ⟨i,(Table.lookup_erase_eq_some.mp hi).2⟩)

theorem remove (h : q.Bounded) (check : Policy) (d : Disk) (msgId : String) :
    (q.remove check d msgId).2.1.Bounded := by
  unfold QueueMessage.remove
  split
  · exact h
  · split_ifs
    · refine erase (garbageCollection ?_ check _) msgId
      exact h
    · exact h.erase msgId

/-- Every handler keeps the stores bounded. -/
theorem keeps : VirtualHost.Keeps fun h => h.messages.Stores fun _ x => x.store.Bounded :=
  MessageManager.Stores.keeps (fun _ x => x.store.Bounded)
    (fun _ _ mapper d => recovery mapper d)
    (fun _ _ d bp body durable uuid h => h.insert d bp body durable uuid)
    (fun _ _ d msgId h => h.remove _ d msgId)

end QueueMessage.Bounded

/-- The stores of a broker that was started on any disk are bounded. -/
theorem Broker.run_bounded {basedir : String} {it : Iteration} {disk : Disk} {db : Database}
    {b₀ b : Broker} {evs : List Event} (start : construct basedir it disk db = some b₀)
    (run : system.Run b₀ evs b) : b.host.messages.Stores fun _ x => x.store.Bounded := by
  refine run.invariant (P := fun b : Broker => b.host.messages.Stores fun _ x => x.store.Bounded)
    ?_ fun hb h => ?_
  · obtain ⟨host,hhost,rfl⟩ := Option.map_eq_some_iff.mp start
    exact .construct hhost fun _ _ mapper d => .recovery mapper d
  · refine step_keeps QueueMessage.Bounded.keeps h hb ?_ ?_
    · intro qname hb
      exact MessageManager.Stores.front hb fun x hx => QueueMessage.Bounded.front (hb qname x hx)
    · intro it host hhost
      exact .construct hhost fun _ _ mapper d => .recovery mapper d

end MessageQueue

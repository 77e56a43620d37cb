import MessageQueue.Broker.Stores
import MessageQueue.Store.Order
import Mathlib.Data.Prod.Lex

/-! The order in which messages come into a queue. A message is at a position, which is its store
and its address there; both are handed out in increasing order, so what is inserted later has a
greater position, also when the queue was deleted in between and declared again. -/
namespace MessageQueue
open Base

/-- The store of a message, and its address there. -/
abbrev Position := ℕ ×ₗ ℕ

def MessageManager.Taken.position (m : MessageManager.Taken) : Position :=
  toLex (m.object,m.message)

/-- The list is in the order in which the addresses were handed out. -/
structure QueueMessage.Ascending (q : QueueMessage) : Prop where
  sorted : q.msgs.Pairwise (· < ·)
  bound : ∀ p ∈ q.msgs, p < q.fresh

namespace QueueMessage.Ascending
variable {q q' : QueueMessage}

theorem grow (h : q.Ascending) (hg : q.Grows q') : q'.Ascending := by
  obtain ⟨n,hm,hf⟩ := hg
  refine ⟨?_,fun p hp => ?_⟩
  · rw [hm,List.pairwise_append]
    refine ⟨h.sorted,List.pairwise_lt_range',fun a ha b hb => ?_⟩
    exact (h.bound a ha).trans_le (List.mem_range'_1.mp hb).1
  · rw [hm,List.mem_append,List.mem_range'_1] at hp
    rw [hf]
    exact hp.elim (fun hp => Nat.lt_add_right n (h.bound p hp)) fun hp => hp.2

theorem recovery (mapper : MessageMapper) (d : Disk) :
    ((QueueMessage.new mapper).recovery d).2.1.Ascending :=
  grow ⟨List.Pairwise.nil,fun _ hp => absurd hp List.not_mem_nil⟩ (.recovery mapper d)

theorem front (h : q.Ascending) : q.front.2.Ascending := by
  unfold QueueMessage.front
  cases hm : q.msgs with
  | nil => exact h
  | cons p rest =>
    have hs := h.sorted
    rw [hm] at hs
    refine ⟨hs.of_cons,fun x hx => h.bound x ?_⟩
    rw [hm]
    exact List.mem_cons_of_mem _ hx

end QueueMessage.Ascending

namespace MessageManager
variable {m m' m'' : MessageManager} {d : Disk} {q n : String} {x : Handle}

/-- The positions of the available messages of a queue. -/
def positions (m : MessageManager) (q : String) : List Position :=
  match m.queueMsgs.lookup q with
  | none => []
  | some x => x.store.msgs.map fun p => toLex (x.object,p)

/-- No position of the queue from here on has been handed out. -/
def next (m : MessageManager) (q : String) : Position :=
  match m.queueMsgs.lookup q with
  | none => toLex (m.fresh,0)
  | some x => toLex (x.object,x.store.fresh)

theorem positions_some (h : m.queueMsgs.lookup q = some x) :
    m.positions q = x.store.msgs.map fun p => toLex (x.object,p) := by
  simp only [positions,h]

theorem next_some (h : m.queueMsgs.lookup q = some x) :
    m.next q = toLex (x.object,x.store.fresh) := by
  simp only [next,h]

theorem positions_none (h : m.queueMsgs.lookup q = none) : m.positions q = [] := by
  simp only [positions,h]

theorem next_none (h : m.queueMsgs.lookup q = none) : m.next q = toLex (m.fresh,0) := by
  simp only [next,h]

/-- The stores are old, and each list is in order. -/
structure Ascending (m : MessageManager) : Prop where
  objects : ∀ q x, m.queueMsgs.lookup q = some x → x.object < m.fresh
  stores : ∀ q x, m.queueMsgs.lookup q = some x → x.store.Ascending

theorem Ascending.sorted (h : m.Ascending) (q : String) :
    (m.positions q).Pairwise (· < ·) := by
  cases hl : m.queueMsgs.lookup q with
  | none => simp [positions_none hl]
  | some x =>
    rw [positions_some hl,List.pairwise_map]
    refine (h.stores q x hl).sorted.imp fun {a b} hlt => ?_
    exact Prod.Lex.toLex_lt_toLex.mpr (.inr ⟨rfl,hlt⟩)

theorem Ascending.bound (h : m.Ascending) (q : String) : ∀ r ∈ m.positions q, r < m.next q := by
  intro r hr
  cases hl : m.queueMsgs.lookup q with
  | none =>
    rw [positions_none hl] at hr
    cases hr
  | some x =>
    rw [positions_some hl] at hr
    obtain ⟨p,hp,rfl⟩ := List.mem_map.mp hr
    rw [next_some hl]
    exact Prod.Lex.toLex_lt_toLex.mpr (.inr ⟨rfl,(h.stores q x hl).bound p hp⟩)

/-- Nothing is available later that was not before, except for what is new. -/
structure Later (m m' : MessageManager) (q : String) : Prop where
  next_le : m.next q ≤ m'.next q
  inserted : ∀ r ∈ m'.positions q, r ∈ m.positions q ∨ m.next q ≤ r

namespace Later

theorem refl (m : MessageManager) (q : String) : m.Later m q := ⟨le_rfl,fun _ hr => .inl hr⟩

theorem trans (h : m.Later m' q) (k : m'.Later m'' q) : m.Later m'' q := by
  refine ⟨h.next_le.trans k.next_le,fun r hr => ?_⟩
  cases k.inserted r hr with
  | inl hr => exact h.inserted r hr
  | inr hr => exact .inr (h.next_le.trans hr)

/-- Another queue's handle has changed. -/
theorem of_lookup (h : m'.queueMsgs.lookup q = m.queueMsgs.lookup q) (hf : m.fresh ≤ m'.fresh) :
    m.Later m' q := by
  refine ⟨?_,fun r hr => .inl ?_⟩
  · simp only [next,h]
    cases m.queueMsgs.lookup q with
    | none => exact Prod.Lex.toLex_le_toLex'.mpr ⟨hf,fun _ => le_rfl⟩
    | some x => exact le_rfl
  · simpa only [positions,h] using hr

/-- The queue's list has grown. -/
theorem of_grows {store : QueueMessage} (hl : m.queueMsgs.lookup n = some x)
    (hg : x.store.Grows store) (q : String) : m.Later (m.update n x store) q := by
  by_cases hq : q = n
  · subst hq
    have hl' : (m.update q x store).queueMsgs.lookup q = some {x with store := store} := by
      simp [update]
    obtain ⟨k,hmsgs,hfresh⟩ := hg
    refine ⟨?_,fun r hr => ?_⟩
    · rw [next_some hl,next_some hl',hfresh]
      exact Prod.Lex.toLex_le_toLex'.mpr ⟨le_rfl,fun _ => Nat.le_add_right _ k⟩
    · rw [positions_some hl',hmsgs,List.map_append,List.mem_append] at hr
      rw [positions_some hl,next_some hl]
      refine hr.imp_right fun hr => ?_
      obtain ⟨p,hp,rfl⟩ := List.mem_map.mp hr
      exact Prod.Lex.toLex_le_toLex'.mpr ⟨le_rfl,fun _ => (List.mem_range'_1.mp hp).1⟩
  · exact of_lookup (by simp [update,AList.lookup_insert_ne hq]) le_rfl

end Later

namespace Ascending

/-- One store makes way for another that is in order. -/
theorem update (h : m.Ascending) {store : QueueMessage} (hl : m.queueMsgs.lookup n = some x)
    (hs : store.Ascending) : (m.update n x store).Ascending := by
  constructor
  · exact Table.forall_insert (h.objects n x hl) h.objects
  · exact Table.forall_insert hs h.stores

theorem new (basedir : String) : (MessageManager.new basedir).Ascending :=
  ⟨fun q x hx => by simp [MessageManager.new] at hx,
    fun q x hx => by simp [MessageManager.new] at hx⟩

/-- A new handle is the newest, and its store is recovered. -/
theorem initQueueMessage (h : m.Ascending) (d : Disk) (n : String) :
    (m.initQueueMessage d n).1.Ascending ∧ ∀ q, m.Later (m.initQueueMessage d n).1 q := by
  unfold MessageManager.initQueueMessage
  cases hl : m.queueMsgs.lookup n with
  | some x => exact ⟨h,Later.refl m⟩
  | none =>
    have hnew := QueueMessage.Ascending.recovery (.named m.basedir n)
      ((MessageMapper.named m.basedir n).construct d)
    refine ⟨⟨?_,?_⟩,fun q => ?_⟩
    · exact Table.forall_insert (Nat.lt_succ_self m.fresh) fun q y hy =>
        Nat.lt_succ_of_lt (h.objects q y hy)
    · exact Table.forall_insert hnew h.stores
    · by_cases hq : q = n
      · subst hq
        refine ⟨?_,fun r hr => .inr ?_⟩
        · rw [next_none hl,next_some (AList.lookup_insert _)]
          exact Prod.Lex.toLex_le_toLex'.mpr ⟨le_rfl,fun _ => Nat.zero_le _⟩
        · rw [positions_some (AList.lookup_insert _)] at hr
          obtain ⟨p,-,rfl⟩ := List.mem_map.mp hr
          rw [next_none hl]
          exact Prod.Lex.toLex_le_toLex'.mpr ⟨le_rfl,fun _ => Nat.zero_le _⟩
      · exact .of_lookup (AList.lookup_insert_ne hq) (Nat.le_succ _)

theorem destroyQueueMessage (h : m.Ascending) (d : Disk) (n : String) :
    (m.destroyQueueMessage d n).1.Ascending ∧ ∀ q, m.Later (m.destroyQueueMessage d n).1 q := by
  unfold MessageManager.destroyQueueMessage
  cases hl : m.queueMsgs.lookup n with
  | none => exact ⟨h,Later.refl m⟩
  | some x =>
    refine ⟨⟨fun q y hy => h.objects q y (Table.lookup_erase_eq_some.mp hy).2,
      fun q y hy => h.stores q y (Table.lookup_erase_eq_some.mp hy).2⟩,fun q => ?_⟩
    by_cases hq : q = n
    · subst hq
      have hl' : (m.queueMsgs.erase q).lookup q = none := AList.lookup_erase q _
      refine ⟨?_,fun r hr => ?_⟩
      · rw [next_some hl,next_none hl']
        exact (Prod.Lex.toLex_lt_toLex.mpr (.inl (h.objects q x hl))).le
      · rw [positions_none hl'] at hr
        cases hr
    · exact .of_lookup (AList.lookup_erase_ne hq) le_rfl

theorem insert (h : m.Ascending) (d : Disk) (n : String) (bp : Option BasicProperties)
    (body : String) (durable : Bool) (uuid : String) :
    (m.insert d n bp body durable uuid).2.1.Ascending ∧
      ∀ q, m.Later (m.insert d n bp body durable uuid).2.1 q := by
  unfold MessageManager.insert
  cases hl : m.queueMsgs.lookup n with
  | none => exact ⟨h,Later.refl m⟩
  | some x =>
    have hg := QueueMessage.Grows.insert x.store d bp body durable uuid
    exact ⟨h.update hl ((h.stores n x hl).grow hg),Later.of_grows hl hg⟩

theorem ack (h : m.Ascending) (d : Disk) (n msgId : String) :
    (m.ack d n msgId).1.Ascending ∧ ∀ q, m.Later (m.ack d n msgId).1 q := by
  unfold MessageManager.ack
  cases hl : m.queueMsgs.lookup n with
  | none => exact ⟨h,Later.refl m⟩
  | some x =>
    have hg := QueueMessage.Grows.remove QueueMessage.garbageCollectionCheck x.store d msgId
    exact ⟨h.update hl ((h.stores n x hl).grow hg),Later.of_grows hl hg⟩

theorem front (h : m.Ascending) (n : String) : (m.front n).2.Ascending := by
  cases hl : m.queueMsgs.lookup n with
  | none =>
    simp only [MessageManager.front,hl]
    exact h
  | some x =>
    rw [front_some hl]
    exact h.update hl (h.stores n x hl).front

end Ascending

theorem front_fresh (m : MessageManager) (n : String) : (m.front n).2.fresh = m.fresh := by
  cases hl : m.queueMsgs.lookup n with
  | none => simp only [front,hl]
  | some x => rw [front_some hl]; rfl

/-- `front` takes the first position of its queue, and no other. -/
theorem front_positions (m : MessageManager) (n q : String) :
    (m.front n).2.next q = m.next q ∧ m.positions q =
      (if q = n then ((m.front n).1.map Taken.position).toList else []) ++
        (m.front n).2.positions q := by
  by_cases hq : q = n
  · subst hq
    cases hl : m.queueMsgs.lookup q with
    | none => simp [front,positions,hl]
    | some x =>
      rw [front_some hl]
      cases hm : x.store.msgs with
      | nil => simp [QueueMessage.front,next,positions,update,hl,hm]
      | cons p rest => simp [QueueMessage.front,next,positions,update,hl,hm,Taken.position]
  · simp [next,positions,front_ne hq,front_fresh,hq]

/-- The rule for the handlers: from a state in order on, they lead to later ones. -/
theorem later_keeps (m : MessageManager) : VirtualHost.Keeps fun h =>
    h.messages.Ascending ∧ ∀ q, m.Later h.messages q where
  declareExchange _ _ _ _ _ h := h
  deleteExchange _ h := h
  declareQueue _ _ _ _ _ h :=
    have hn := h.1.initQueueMessage _ _
    ⟨hn.1,fun q => (h.2 q).trans (hn.2 q)⟩
  deleteQueue _ h :=
    have hn := h.1.destroyQueueMessage _ _
    ⟨hn.1,fun q => (h.2 q).trans (hn.2 q)⟩
  bind {host} ename qname key h := by
    unfold VirtualHost.bind
    split
    · exact h
    · split <;> exact h
  unBind _ _ h := h
  basicPublish {host} qname bp body uuid h := by
    unfold VirtualHost.basicPublish
    split
    · exact h
    · next mqp _ =>
      have hn := h.1.insert host.disk qname bp body mqp.durable uuid
      exact ⟨hn.1,fun q => (h.2 q).trans (hn.2 q)⟩
  basicAck _ _ h :=
    have hn := h.1.ack _ _ _
    ⟨hn.1,fun q => (h.2 q).trans (hn.2 q)⟩

/-- A new process has its messages in order. -/
theorem ascending_construct {basedir : String} {it : Iteration} {db : Database}
    {host : VirtualHost} (h : VirtualHost.construct basedir it d db = some host) :
    host.messages.Ascending :=
  VirtualHost.construct_messages h (Ascending.new basedir) fun _ d n hm =>
    (hm.initQueueMessage d n).1

end MessageManager
end MessageQueue

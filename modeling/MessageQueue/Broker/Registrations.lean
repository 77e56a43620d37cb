import MessageQueue.Broker.Channels
import MessageQueue.Broker.Managers

/-! The three registries that a queue is entered in: its name is in the queue manager, in the
message manager and in the consumer manager, or in none of them, as long as no declaration is
refused by the database. -/
namespace MessageQueue
open Base

namespace ConsumerManager
variable {m : ConsumerManager} {q n : String}

theorem createConsumer_isSome (ctag : String) (ackFlag : Bool) (cb : ChannelRef) :
    ((m.createConsumer ctag n ackFlag cb).2.lookup q).isSome = (m.lookup q).isSome := by
  unfold createConsumer
  cases hl : m.lookup n with
  | none => rfl
  | some qcp => exact Table.isSome_lookup_insert (Option.isSome_of_eq_some hl)

theorem removeConsumer_isSome (ctag : String) :
    ((m.removeConsumer ctag n).lookup q).isSome = (m.lookup q).isSome := by
  unfold removeConsumer
  cases hl : m.lookup n with
  | none => rfl
  | some qcp => exact Table.isSome_lookup_insert (Option.isSome_of_eq_some hl)

theorem chooseConsumer_isSome :
    ((m.chooseConsumer n).2.lookup q).isSome = (m.lookup q).isSome := by
  unfold chooseConsumer
  cases hl : m.lookup n with
  | none => rfl
  | some qcp => exact Table.isSome_lookup_insert (Option.isSome_of_eq_some hl)

theorem initQueueConsumer_isSome :
    ((m.initQueueConsumer n).lookup q).isSome ↔ q = n ∨ (m.lookup q).isSome := by
  unfold initQueueConsumer
  by_cases hq : q = n
  · subst hq
    cases hl : m.lookup q with
    | none => simp [Table.lookup_emplace_none hl]
    | some x => simp [Table.emplace_some hl,hl]
  · simp [Table.lookup_emplace_ne hq,hq]

theorem foldl_initQueueConsumer_iff (ks : List String) :
    ((ks.foldl initQueueConsumer m).lookup q).isSome ↔ (m.lookup q).isSome ∨ q ∈ ks := by
  induction ks generalizing m with
  | nil => simp
  | cons k ks ih =>
    rw [List.foldl_cons,ih,initQueueConsumer_isSome,List.mem_cons]
    tauto

end ConsumerManager

namespace Broker

/-- A name is registered everywhere or nowhere. -/
structure Whole (b : Broker) : Prop where
  messages : ∀ n, (b.host.messages.queueMsgs.lookup n).isSome = (b.host.queues.lookup n).isSome
  consumers : ∀ n, (b.consumers.lookup n).isSome = (b.host.queues.lookup n).isSome

/-- The same names are registered. -/
structure SameNames (b b' : Broker) : Prop where
  queues : ∀ n, (b'.host.queues.lookup n).isSome = (b.host.queues.lookup n).isSome
  messages : ∀ n, (b'.host.messages.queueMsgs.lookup n).isSome =
    (b.host.messages.queueMsgs.lookup n).isSome
  consumers : ∀ n, (b'.consumers.lookup n).isSome = (b.consumers.lookup n).isSome

theorem SameNames.refl (b : Broker) : b.SameNames b := ⟨fun _ => rfl,fun _ => rfl,fun _ => rfl⟩

theorem SameNames.whole {b b' : Broker} (h : b.SameNames b') (hw : b.Whole) : b'.Whole :=
  ⟨fun n => by rw [h.messages,h.queues]; exact hw.messages n,
    fun n => by rw [h.consumers,h.queues]; exact hw.consumers n⟩

/-- A host with the same queues and handles, and the same consumers. -/
theorem SameNames.of_host {b b' : Broker} (hq : b'.host.queues = b.host.queues)
    (hm : ∀ n, (b'.host.messages.queueMsgs.lookup n).isSome =
      (b.host.messages.queueMsgs.lookup n).isSome) (hc : b'.consumers = b.consumers) :
    b.SameNames b' :=
  ⟨fun _ => by rw [hq],hm,fun _ => by rw [hc]⟩

theorem destroyChannel_names (b : Broker) (c : Channel) : b.SameNames (b.destroyChannel c) := by
  unfold destroyChannel
  split
  · exact .refl b
  · exact ⟨fun _ => rfl,fun _ => rfl,fun n => ConsumerManager.removeConsumer_isSome _⟩

theorem delConnection_names (b : Broker) (conn : ℕ) (it : Iteration) :
    b.SameNames (b.delConnection conn it) := by
  refine delConnection_keeps (P := b.SameNames) (fun b' c h => ?_)
    ⟨fun _ => rfl,fun _ => rfl,fun _ => rfl⟩
  have h' := destroyChannel_names b' c
  exact ⟨fun n => (h'.queues n).trans (h.queues n),
    fun n => (h'.messages n).trans (h.messages n),
    fun n => (h'.consumers n).trans (h.consumers n)⟩

end Broker

/-- The requests that register a queue or take it away. -/
def Request.Registers : Request → Prop
  | .declareQueue .. => True
  | .deleteQueue .. => True
  | _ => False

/-- So does a new process. -/
def Event.Registers : Event → Prop
  | .request _ req _ _ => req.Registers
  | .restart _ => True
  | _ => False

/-- Any other request registers no name and takes none away. -/
theorem Channel.serve_names {c : Channel} {b : Broker} {it : Iteration}
    {uuid : String → String} {req : Request} {r : Broker × Response}
    (h : c.serve b it uuid req = some r) (hreq : ¬ req.Registers) : b.SameNames r.1 := by
  cases req with
  | declareQueue => exact absurd trivial hreq
  | deleteQueue => exact absurd trivial hreq
  | basicPublish rid cid ename body bp =>
    cases basicPublish_cases h with
    | inl h => rw [h]; exact .refl b
    | inr h =>
      obtain ⟨type,key,bs,h⟩ := h
      refine publishLoop_invariant (P := b.SameNames) (fun b' qname hb => ?_) h (.refl b)
      refine ⟨?_,?_,hb.consumers⟩
      · intro n
        refine Eq.trans ?_ (hb.queues n)
        unfold VirtualHost.basicPublish
        dsimp only
        split <;> rfl
      · intro n
        refine Eq.trans ?_ (hb.messages n)
        unfold VirtualHost.basicPublish
        dsimp only
        split
        · rfl
        · exact MessageManager.insert_isSome _ _ _ _
  | basicConsume rid cid ctag qname autoAck =>
    cases h
    simp only [Channel.basicConsume]
    split
    · exact .refl b
    · exact ⟨fun _ => rfl,fun _ => rfl,fun n => ConsumerManager.createConsumer_isSome _ _ _⟩
  | openChannel => cases h
  | closeChannel => cases h
  | declareExchange => cases h; exact .of_host rfl (fun _ => rfl) rfl
  | deleteExchange => cases h; exact .of_host rfl (fun _ => rfl) rfl
  | queueBind rid cid ename qname key =>
    cases h
    have hsame : (b.host.bind ename qname key).2.queues = b.host.queues ∧
        (b.host.bind ename qname key).2.messages = b.host.messages := by
      unfold VirtualHost.bind
      split
      · exact ⟨rfl,rfl⟩
      · split <;> exact ⟨rfl,rfl⟩
    exact .of_host hsame.1 (fun n => by rw [hsame.2]) rfl
  | queueUnBind => cases h; exact .of_host rfl (fun _ => rfl) rfl
  | basicAck => cases h; exact .of_host rfl (fun n => MessageManager.ack_isSome _) rfl
  | basicCancel =>
    cases h
    exact ⟨fun _ => rfl,fun _ => rfl,fun n => ConsumerManager.removeConsumer_isSome _⟩

namespace Broker
variable {b b' : Broker} {conn : ℕ} {req : Request} {it : Iteration} {uuid : String → String}
  {r : Broker × Option Response}

theorem handle_names (h : b.handle conn req it uuid = some r) (hreq : ¬ req.Registers) :
    b.SameNames r.1 := by
  unfold handle at h
  split at h
  · cases h; exact .refl b
  next channels hconn =>
    split at h
    · cases h
      simp only [openChannel]
      split <;> exact .of_host rfl (fun _ => rfl) rfl
    · cases h
      simp only [closeChannel]
      split
      · exact .of_host rfl (fun _ => rfl) rfl
      · have hn := destroyChannel_names
        exact ⟨(hn _ _).queues,(hn _ _).messages,(hn _ _).consumers⟩
    · split at h
      · cases h; exact .refl b
      · obtain ⟨x,hx,rfl⟩ := Option.map_eq_some_iff.mp h
        exact Channel.serve_names hx hreq

/-- A request that a channel serves is answered by its handler. -/
theorem handle_serve (hreq : req.Registers) (h : b.handle conn req it uuid = some r) :
    (b.hasChannel conn req.cid = false ∧ r = (b,none)) ∨
      ∃ (c : Channel) (x : Broker × Response), b.hasChannel conn req.cid = true ∧
        c.serve b it uuid req = some x ∧ r = (x.1,some x.2) := by
  unfold handle at h
  unfold hasChannel
  cases hc : b.connections.lookup conn with
  | none =>
    simp only [hc] at h
    cases h
    exact .inl ⟨rfl,rfl⟩
  | some channels =>
    simp only [hc,Option.bind_some] at h ⊢
    split at h
    · exact absurd hreq id
    · exact absurd hreq id
    · cases hl : channels.lookup req.cid with
      | none =>
        simp only [hl] at h
        cases h
        exact .inl ⟨rfl,rfl⟩
      | some c =>
        simp only [hl] at h
        obtain ⟨x,hx,rfl⟩ := Option.map_eq_some_iff.mp h
        exact .inr ⟨c,x,rfl,hx,rfl⟩

/-- A deletion takes the name out of all three registries. -/
theorem Whole.deleteQueue (h : b.Whole) (rid cid name : String) :
    (Channel.deleteQueue b rid cid name).1.Whole := by
  have hq : ∀ n, (Channel.deleteQueue b rid cid name).1.host.queues.lookup n =
      if n = name then none else b.host.queues.lookup n := fun n =>
    QueueManager.lookup_deleteQueue
  constructor
  · intro n
    rw [hq]
    change ((b.host.messages.destroyQueueMessage b.host.disk name).1.queueMsgs.lookup n).isSome = _
    by_cases hn : n = name
    · subst hn
      have hnone : (b.host.messages.destroyQueueMessage b.host.disk n).1.queueMsgs.lookup n =
          none := by
        unfold MessageManager.destroyQueueMessage
        cases hl : b.host.messages.queueMsgs.lookup n with
        | none => exact hl
        | some x => exact AList.lookup_erase _ _
      rw [hnone,if_pos rfl]
      rfl
    · rw [MessageManager.destroyQueueMessage_ne hn,if_neg hn]
      exact h.messages n
  · intro n
    rw [hq]
    change ((b.consumers.erase name).lookup n).isSome = _
    by_cases hn : n = name
    · subst hn
      rw [AList.lookup_erase,if_pos rfl]
      rfl
    · rw [AList.lookup_erase_ne hn,if_neg hn]
      exact h.consumers n

/-- The database takes the row of a new durable queue: the statement gets through, and no row is
left from a queue of that name whose deletion did not. -/
def storesQueue (b : Broker) (name : String) (durable : Bool) : Bool :=
  (b.host.queues.lookup name).isSome || !durable ||
    (b.host.db.succeeds && b.host.db.queueTable.any fun rows => !rows.any (·.name = name))

section Declare
variable {rid cid name : String} {durable exclusive autoDelete : Bool} {args : Args}

theorem insert_stores {db : Database} (queue : Queue) : (QueueMapper.insert db queue).1 =
    (db.succeeds && db.queueTable.any fun rows => !rows.any (·.name = queue.name)) := by
  unfold QueueMapper.insert
  rw [Database.exec_eq]
  cases db.succeeds with
  | false => rfl
  | true =>
    simp only [↓reduceIte,Database.spent_queueTable,Bool.true_and]
    cases db.queueTable with
    | none => rfl
    | some rows =>
      simp only [Option.any_some]
      cases hrow : rows.any (·.name = queue.name) <;> rfl

/-- A new queue is registered if the database takes its row. -/
theorem declareQueue_new (hnone : b.host.queues.lookup name = none) :
    ∃ db, b.host.queues.declareQueue b.host.db name durable exclusive autoDelete args =
      (b.storesQueue name durable,
        if b.storesQueue name durable then
          b.host.queues.insert name ⟨name,durable,exclusive,autoDelete,args⟩
        else b.host.queues,db) := by
  rw [QueueManager.declareQueue_eq]
  simp only [Registry.declare,storesQueue,hnone,Option.isSome_none,Bool.false_or]
  cases durable with
  | false => exact ⟨_,rfl⟩
  | true =>
    simp only [Bool.not_true,Bool.false_or,↓reduceIte]
    have hins := @insert_stores b.host.db ⟨name,true,exclusive,autoDelete,args⟩
    rw [← hins]
    generalize QueueMapper.insert _ _ = x
    obtain ⟨ok,d⟩ := x
    cases ok <;> exact ⟨d,rfl⟩

/-- A declaration that is refused leaves a message handle behind, and no queue. -/
theorem declareQueue_refused
    (hs : b.storesQueue name durable = false) :
    let r := Channel.declareQueue b rid cid name durable exclusive autoDelete args
    (r.1.host.messages.queueMsgs.lookup name).isSome = true ∧
      (r.1.host.queues.lookup name).isSome = false := by
  have hnone : b.host.queues.lookup name = none := by
    simp only [storesQueue,Bool.or_eq_false_iff] at hs
    simpa using hs.1.1
  obtain ⟨db,hq⟩ := @declareQueue_new b name durable exclusive autoDelete args hnone
  rw [hs,if_neg (by simp)] at hq
  have hr : Channel.declareQueue b rid cid name durable exclusive autoDelete args =
      ({b with host := (b.host.declareQueue name durable exclusive autoDelete args).2},
        .common rid cid false) := by
    simp only [Channel.declareQueue,VirtualHost.declareQueue,hq,↓reduceIte]
  rw [hr]
  refine ⟨MessageManager.initQueueMessage_self,?_⟩
  simp only [VirtualHost.declareQueue,hq,hnone,Option.isSome_none]

/-- A declaration that is not refused registers the name everywhere. -/
theorem Whole.declareQueue (h : b.Whole)
    (hs : b.storesQueue name durable = true) :
    let r := Channel.declareQueue b rid cid name durable exclusive autoDelete args
    r.1.Whole ∧ r.2 = .common rid cid true ∧
      ((b.host.queues.lookup name).isSome = true → r.1 = b) := by
  cases hl : b.host.queues.lookup name with
  | some q =>
    have hm : b.host.messages.initQueueMessage b.host.disk name =
        (b.host.messages,b.host.disk) := by
      obtain ⟨x,hx⟩ := Option.isSome_iff_exists.mp ((h.messages name).trans (by rw [hl]; rfl))
      simp only [MessageManager.initQueueMessage,hx]
    have hc : b.consumers.initQueueConsumer name = b.consumers := by
      obtain ⟨x,hx⟩ := Option.isSome_iff_exists.mp ((h.consumers name).trans (by rw [hl]; rfl))
      exact Table.emplace_some hx
    have hr : Channel.declareQueue b rid cid name durable exclusive autoDelete args =
        (b,.common rid cid true) := by
      simp only [Channel.declareQueue,VirtualHost.declareQueue,QueueManager.declareQueue,hl,hm,hc]
      rfl
    rw [hr]
    exact ⟨h,rfl,fun _ => rfl⟩
  | none =>
    obtain ⟨db,hq⟩ := @declareQueue_new b name durable exclusive autoDelete args hl
    rw [hs,if_pos rfl] at hq
    have hr : Channel.declareQueue b rid cid name durable exclusive autoDelete args =
        ({b with
          host := (b.host.declareQueue name durable exclusive autoDelete args).2
          consumers := b.consumers.initQueueConsumer name},.common rid cid true) := by
      simp only [Channel.declareQueue,VirtualHost.declareQueue,hq]
      rfl
    rw [hr]
    refine ⟨⟨?_,?_⟩,rfl,fun h => by simp at h⟩
    · intro n
      simp only [VirtualHost.declareQueue,hq]
      by_cases hn : n = name
      · subst hn
        rw [AList.lookup_insert,MessageManager.initQueueMessage_self]
        rfl
      · rw [AList.lookup_insert_ne hn,MessageManager.initQueueMessage_ne hn]
        exact h.messages n
    · intro n
      simp only [VirtualHost.declareQueue,hq]
      rw [Bool.eq_iff_iff,ConsumerManager.initQueueConsumer_isSome]
      by_cases hn : n = name
      · subst hn
        simp
      · rw [AList.lookup_insert_ne hn,h.consumers n]
        simp [hn]

end Declare

/-- A new broker has a message handle and a consumer handle for each queue it read. -/
theorem construct_whole {basedir : String} {disk : Disk} {db : Database}
    (h : construct basedir it disk db = some b) : b.Whole := by
  obtain ⟨host,hhost,rfl⟩ := Option.map_eq_some_iff.mp h
  obtain ⟨-,-,-,-,-,hmsg⟩ := VirtualHost.construct_parts hhost
  have hmem : ∀ n, n ∈ it.order host.queues.keys ↔ (host.queues.lookup n).isSome := fun n =>
    Iteration.mem_order.trans Table.isSome_lookup.symm
  constructor
  · intro n
    have hm := MessageManager.foldl_initQueueMessage_iff (q := n) (it.order host.queues.keys)
      (r := (MessageManager.new basedir,disk))
    rw [hmsg,hmem] at hm
    rw [Bool.eq_iff_iff]
    refine hm.trans ⟨fun h => ?_,.inr⟩
    cases h with
    | inl h => cases h
    | inr h => exact h
  · intro n
    have hc := ConsumerManager.foldl_initQueueConsumer_iff (m := ∅) (q := n)
      (it.order host.queues.keys)
    rw [hmem] at hc
    rw [Bool.eq_iff_iff]
    refine hc.trans ⟨fun h => ?_,.inr⟩
    cases h with
    | inl h => cases h
    | inr h => exact h

/-- No declaration of a queue is refused by the database. -/
def Accepted (b : Broker) : Event → Prop
  | .request conn (.declareQueue _ cid name _ durable _ _) _ _ =>
    b.hasChannel conn cid = true → b.storesQueue name durable = true
  | _ => True

instance (b : Broker) : ∀ ev, Decidable (b.Accepted ev)
  | .request conn (.declareQueue _ cid name _ durable _ _) _ _ =>
    inferInstanceAs (Decidable (b.hasChannel conn cid = true →
      b.storesQueue name durable = true))
  | .request _ (.openChannel ..) _ _ | .request _ (.closeChannel ..) _ _
  | .request _ (.declareExchange ..) _ _ | .request _ (.deleteExchange ..) _ _
  | .request _ (.deleteQueue ..) _ _ | .request _ (.queueBind ..) _ _
  | .request _ (.queueUnBind ..) _ _ | .request _ (.basicPublish ..) _ _
  | .request _ (.basicAck ..) _ _ | .request _ (.basicConsume ..) _ _
  | .request _ (.basicCancel ..) _ _ | .connect _ | .disconnect .. | .take _ | .choose _
  | .autoAck _ | .restart _ => .isTrue trivial

/-- A declaration that is answered with false leaves the registries and the disk as they were, and
one of a queue that exists changes nothing. -/
def Harmless (b : Broker) : Event → Prop
  | .request conn (.declareQueue rid cid name exclusive durable autoDelete args) it uuid =>
    ∀ r, b.handle conn (.declareQueue rid cid name exclusive durable autoDelete args) it uuid =
      some r →
        (r.2 = some (.common rid cid false) → r.1.host.queues = b.host.queues ∧
          r.1.host.messages = b.host.messages ∧ r.1.consumers = b.consumers ∧
          r.1.host.disk = b.host.disk) ∧
        ((b.host.queues.lookup name).isSome = true → r.1 = b)
  | _ => True

/-- A declaration keeps the registries in agreement exactly if it is not refused. -/
theorem declare_whole_iff {rid cid name : String} {exclusive durable autoDelete : Bool}
    {args : Args} (h : b.Whole)
    (hx : b.handle conn (.declareQueue rid cid name exclusive durable autoDelete args) it uuid =
      some r) :
    r.1.Whole ↔ (b.hasChannel conn cid = true → b.storesQueue name durable = true) := by
  have hreq : (Request.declareQueue rid cid name exclusive durable autoDelete args).Registers :=
    trivial
  cases handle_serve hreq hx with
  | inl hno =>
    obtain ⟨hno,rfl⟩ := hno
    exact iff_of_true h fun hc => absurd (hno.symm.trans hc) (by simp)
  | inr hserve =>
    obtain ⟨c,x,hc,hserved,rfl⟩ := hserve
    cases hserved
    cases hst : b.storesQueue name durable with
    | true => exact iff_of_true (h.declareQueue hst).1 fun _ => rfl
    | false =>
      have hbad := @declareQueue_refused b rid cid name durable exclusive autoDelete args hst
      refine iff_of_false (fun hw => ?_) fun hall => absurd (hall hc) (by simp)
      have heq := hw.messages name
      rw [hbad.1,hbad.2] at heq
      exact absurd heq (by simp)

/-- Any other event registers no name and takes none away. -/
theorem step_names {ev : Event} (hs : b.step ev = some b') (hev : ¬ ev.Registers) :
    b.SameNames b' := by
  cases ev with
  | connect conn => cases hs; exact ⟨fun _ => rfl,fun _ => rfl,fun _ => rfl⟩
  | disconnect conn it => cases hs; exact delConnection_names b conn it
  | request conn req it uuid =>
    obtain ⟨r,hx,rfl⟩ := Option.map_eq_some_iff.mp hs
    exact handle_names hx hev
  | take i =>
    obtain ⟨task,-,rfl⟩ := take_cases hs
    exact .of_host rfl (fun n => MessageManager.front_isSome) rfl
  | choose i =>
    obtain ⟨r,hx,rfl⟩ := Option.map_eq_some_iff.mp hs
    have hc : ∀ task : Task, ∀ n, ((b.consumers.chooseConsumer task.qname).2.lookup n).isSome =
        (b.consumers.lookup n).isSome := fun _ _ => ConsumerManager.chooseConsumer_isSome
    obtain ⟨task,m,-,hr⟩ := choose_cases hx
    cases hr with
    | inl hr => rw [hr.2]; exact ⟨fun _ => rfl,fun _ => rfl,hc task⟩
    | inr hr =>
      obtain ⟨cp,-,rfl⟩ := hr
      exact ⟨fun _ => rfl,fun _ => rfl,hc task⟩
  | autoAck i =>
    obtain ⟨task,m,-,rfl⟩ := autoAck_cases hs
    exact .of_host rfl (fun n => MessageManager.ack_isSome _) rfl
  | restart it => exact absurd trivial hev

/-- Whether the registries agree after the next event is decided by the declaration in it. -/
theorem step_whole_iff {ev : Event} (h : b.Whole) (hs : b.step ev = some b') :
    b'.Whole ↔ b.Accepted ev := by
  by_cases hev : ev.Registers
  · cases ev with
    | request conn req it uuid =>
      obtain ⟨r,hx,rfl⟩ := Option.map_eq_some_iff.mp hs
      cases req with
      | declareQueue rid cid name exclusive durable autoDelete args =>
        exact declare_whole_iff h hx
      | deleteQueue rid cid name =>
        refine iff_of_true ?_ trivial
        have hreq : (Request.deleteQueue rid cid name).Registers := trivial
        cases handle_serve hreq hx with
        | inl hno => rw [hno.2]; exact h
        | inr hserve =>
          obtain ⟨c,x,-,hserved,rfl⟩ := hserve
          cases hserved
          exact h.deleteQueue rid cid name
      | _ => exact absurd hev id
    | restart it => exact iff_of_true (construct_whole hs) trivial
    | _ => exact absurd hev id
  · refine iff_of_true ((step_names hs hev).whole h) ?_
    cases ev with
    | request conn req it uuid =>
      cases req with
      | declareQueue => exact absurd trivial hev
      | _ => trivial
    | _ => trivial

/-- Among registries that agree a declaration that is not refused is harmless. -/
theorem Whole.harmless (h : b.Whole) {ev : Event} (ha : b.Accepted ev) : b.Harmless ev := by
  cases ev with
  | request conn req it uuid =>
    cases req with
    | declareQueue rid cid name exclusive durable autoDelete args =>
      intro r hx
      have hreq : (Request.declareQueue rid cid name exclusive durable autoDelete args).Registers :=
        trivial
      cases handle_serve hreq hx with
      | inl hno =>
        rw [hno.2]
        exact ⟨fun hr => by simp at hr,fun _ => rfl⟩
      | inr hserve =>
        obtain ⟨c,x,hc,hserved,rfl⟩ := hserve
        cases hserved
        obtain ⟨-,hreply,hsame⟩ := @Whole.declareQueue b rid cid name _ _ _ _ h (ha hc)
        refine ⟨fun hr => ?_,hsame⟩
        simp only [hreply,Option.some.injEq,Response.common.injEq] at hr
        exact absurd hr.2.2 (by simp)
    | _ => trivial
  | _ => trivial

/-- In all states on the way of a run the three registries hold the same names, and every
declaration is harmless, exactly if none is refused by the database. -/
theorem queues_whole_iff {basedir : String} {disk : Disk} {db : Database} {b₀ : Broker}
    {evs : List Event} (start : construct basedir it disk db = some b₀)
    (run : system.Run b₀ evs b) : (system.guarded Accepted).Run b₀ evs b ↔
      (∀ pre u, pre <+: evs → system.Run b₀ pre u → u.Whole) ∧
        ∀ pre ev u, pre ++ [ev] <+: evs → system.Run b₀ pre u → u.Harmless ev := by
  have hstart := construct_whole start
  have hiff : (system.guarded Accepted).Run b₀ evs b ↔
      ∀ pre u, pre <+: evs → system.Run b₀ pre u → u.Whole :=
    run.guarded_iff Whole Lts.ofPartial_det (fun hi hs => step_whole_iff hi hs)
      (fun hi ha hs => (step_whole_iff hi hs).mpr ha) id hstart
  constructor
  · intro h
    refine ⟨hiff.mp h,fun pre ev u hp hu => ?_⟩
    exact (hiff.mp h pre u ((List.prefix_append _ _).trans hp) hu).harmless
      (h.guard_of_prefix Lts.ofPartial_det hp hu).1
  · intro h
    exact hiff.mpr h.1

/-- A queue is declared, declared again and deleted. -/
def registeredTwice : List Event :=
  [.connect 1,
    .request 1 (.openChannel "r1" "c1") .listed fun _ => "u1",
    .request 1 (.declareQueue "r2" "c1" "orders" false true false ∅) .listed fun _ => "u2",
    .request 1 (.declareQueue "r3" "c1" "orders" false true false ∅) .listed fun _ => "u3",
    .request 1 (.deleteQueue "r4" "c1" "orders") .listed fun _ => "u4"]

theorem queues_whole_twice : ∃ b₀ b, construct "/data" .listed blankDisk {} = some b₀ ∧
    system.Run b₀ registeredTwice b ∧
    ∀ pre u, pre <+: registeredTwice → system.Run b₀ pre u → u.Whole := by
  have hall : ((construct "/data" .listed blankDisk {}).bind fun b =>
      registeredTwice.foldlM (fun b ev => if b.Accepted ev then b.step ev else none) b).any
        (fun _ => true) = true := by
    decide +kernel
  obtain ⟨b₀,b,start,run,-⟩ := Lts.Run.of_any_guarded hall
  have plain : system.Run b₀ registeredTwice b := run.mono fun h => h.2
  exact ⟨b₀,b,start,plain,((queues_whole_iff start plain).mp run).1⟩

/-- The first three events, where the statement of the declaration fails: six statements of the
constructor come before it. -/
theorem refused_half_registered : ¬ ∀ (basedir : String) (it : Iteration) (disk : Disk)
    (db : Database) (b₀ b : Broker) (evs : List Event),
    construct basedir it disk db = some b₀ → system.Run b₀ evs b →
    (∀ pre u, pre <+: evs → system.Run b₀ pre u → u.Whole) ∧
      ∀ pre ev u, pre ++ [ev] <+: evs → system.Run b₀ pre u → u.Harmless ev := by
  intro h
  have hall : ((construct "/data" .listed blankDisk
      {plan := [true,true,true,true,true,true,false]}).bind
        ((registeredTwice.take 3).foldlM step)).any (fun b : Broker =>
      (b.host.messages.queueMsgs.lookup "orders").isSome &&
        (b.host.queues.lookup "orders").isNone) = true := by
    decide +kernel
  obtain ⟨b₀,b,start,run,hb⟩ := Lts.Run.of_any hall
  have hw := ((h _ _ _ _ b₀ b _ start run).1 _ b (List.prefix_refl _) run).messages "orders"
  rw [Bool.and_eq_true] at hb
  rw [hb.1] at hw
  have hnone := hb.2
  rw [Option.isNone_iff_eq_none] at hnone
  rw [hnone] at hw
  exact absurd hw (by simp)

end Broker
end MessageQueue

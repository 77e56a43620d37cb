import MessageQueue.Broker.Clean
import MessageQueue.Broker.Publish
import MessageQueue.Broker.Topology

/-! The key that a pair of an exchange and a queue is bound with. The first one that is accepted is
honoured until the pair is taken apart; a later one is answered with true and left out. -/
namespace MessageQueue
open Base

namespace VirtualHost
variable {h h' : VirtualHost} {op : HostOp}

/-- What the operations on the host keep is kept by every step. -/
theorem Keeps.hostStep {P : VirtualHost → Prop} (keeps : Keeps P)
    (front : ∀ {h} qname, P h → P (h.basicConsume qname).2)
    (restart : ∀ {basedir it disk db h}, VirtualHost.construct basedir it disk db = some h → P h)
    (hp : P h) (hs : h.step op = some h') : P h' := by
  cases op with
  | declareExchange => cases hs; exact keeps.declareExchange _ _ _ _ _ hp
  | deleteExchange => cases hs; exact keeps.deleteExchange _ hp
  | declareQueue => cases hs; exact keeps.declareQueue _ _ _ _ _ hp
  | deleteQueue => cases hs; exact keeps.deleteQueue _ hp
  | bind => cases hs; exact keeps.bind _ _ _ hp
  | unBind => cases hs; exact keeps.unBind _ _ hp
  | basicPublish => cases hs; exact keeps.basicPublish _ _ _ _ hp
  | basicConsume => cases hs; exact front _ hp
  | basicAck => cases hs; exact keeps.basicAck _ _ hp
  | restart it => exact restart hs

/-- Every registered queue has its message handle. -/
def Handled (h : VirtualHost) : Prop :=
  ∀ n, (h.queues.lookup n).isSome → (h.messages.queueMsgs.lookup n).isSome

namespace Handled

theorem keeps : Keeps Handled where
  declareExchange _ _ _ _ _ hh := hh
  deleteExchange _ hh := hh
  declareQueue name _ _ _ _ hh := by
    intro n hn
    cases QueueManager.isSome_of_declareQueue hn with
    | inl hold => exact MessageManager.initQueueMessage_isSome (hh n hold)
    | inr hnew => exact hnew ▸ MessageManager.initQueueMessage_self
  deleteQueue {host} name hh := by
    intro n hn
    have hlook : (host.deleteQueue name).queues.lookup n =
        if n = name then none else host.queues.lookup n := QueueManager.lookup_deleteQueue
    by_cases hne : n = name
    · rw [hlook,if_pos hne] at hn
      cases hn
    · rw [hlook,if_neg hne] at hn
      change ((host.messages.destroyQueueMessage host.disk name).1.queueMsgs.lookup n).isSome
      rw [MessageManager.destroyQueueMessage_ne hne]
      exact hh n hn
  bind ename qname key hh := by
    unfold VirtualHost.bind
    split
    · exact hh
    · split <;> exact hh
  unBind _ _ hh := hh
  basicPublish {host} qname bp body uuid hh := by
    unfold VirtualHost.basicPublish
    cases host.queues.selectQueue qname with
    | none => exact hh
    | some mqp => exact fun n hn => (MessageManager.insert_isSome _ _ _ _).trans (hh n hn)
  basicAck _ _ hh := fun n hn => (MessageManager.ack_isSome _).trans (hh n hn)

theorem construct {basedir : String} {it : Iteration} {disk : Disk} {db : Database}
    (hs : VirtualHost.construct basedir it disk db = some h) : Handled h := by
  obtain ⟨-,-,-,-,-,hmsg⟩ := VirtualHost.construct_parts hs
  intro n hn
  have hall := MessageManager.foldl_initQueueMessage (it.order h.queues.keys)
    (r := (MessageManager.new basedir,disk))
    (.inr (Iteration.mem_order.mpr (Table.isSome_lookup.mp hn)))
  rwa [hmsg] at hall

end Handled

section Run
variable {basedir : String} {it : Iteration} {disk : Disk} {db : Database} {h₀ : VirtualHost}
  {ops : List HostOp}

theorem run_handled (start : construct basedir it disk db = some h₀)
    (run : system.Run h₀ ops h) : h.Handled :=
  run.invariant (Handled.construct start) fun hh hs => Handled.keeps.hostStep
    (fun _ hh n hn => MessageManager.front_isSome.trans (hh n hn)) Handled.construct hh hs

theorem run_bounded (start : construct basedir it disk db = some h₀) (run : system.Run h₀ ops h) :
    h.messages.Stores fun _ x => x.store.Bounded := by
  have recovered : ∀ {basedir it disk db h}, construct basedir it disk db = some h →
      h.messages.Stores fun _ x => x.store.Bounded := fun hs =>
    .construct hs fun _ _ mapper d => .recovery mapper d
  refine run.invariant (recovered start) fun hh hs =>
    QueueMessage.Bounded.keeps.hostStep (fun qname hb => ?_) recovered hh hs
  exact MessageManager.Stores.front hb fun x hx => QueueMessage.Bounded.front (hb qname x hx)

end Run
end VirtualHost

/-- The operation does not take the pair apart. -/
def HostOp.Spares (e q : String) : HostOp → Prop
  | .deleteExchange name => name ≠ e
  | .deleteQueue name => name ≠ q
  | .unBind ename qname => (ename,qname) ≠ (e,q)
  | _ => True

instance (e q : String) : ∀ op, Decidable (HostOp.Spares e q op)
  | .deleteExchange name => inferInstanceAs (Decidable (name ≠ e))
  | .deleteQueue name => inferInstanceAs (Decidable (name ≠ q))
  | .unBind ename qname => inferInstanceAs (Decidable ((ename,qname) ≠ (e,q)))
  | .declareExchange .. | .declareQueue .. | .bind .. | .basicPublish .. | .basicConsume _
  | .basicAck .. | .restart _ => .isTrue trivial

/-- The pair is bound with the key, and its ends are what they were declared. -/
structure Topology.Entered (t : Topology) (e q key : String) (de : DeclaredExchange)
    (dq : DeclaredQueue) : Prop where
  exchange : t.exchanges e = some de
  queue : t.queues q = some dq
  key : t.bindings (e,q) = some key

namespace VirtualHost
variable {h h' : VirtualHost} {op : HostOp} {e q key : String} {de : DeclaredExchange}
  {dq : DeclaredQueue}

theorem topology_bound : h.topology.bindings (e,q) = some key ↔
    ∃ b, h.bindings.getBinding e q = some b ∧ b.bindingKey = key := by
  simp [topology,BindingManager.look,Option.map_eq_some_iff]

/-- An operation that spares the pair leaves it bound with its key, whether its statements succeed
or not; a restart does if it can read the rows of the pair. -/
theorem entered_step (he : h.topology.Entered e q key de dq) (hs : h.step op = some h')
    (spares : op.Spares e q)
    (restart : ∀ it, op = .restart it → Kept h ∧ de.durable = true ∧ dq.durable = true) :
    h'.topology.Entered e q key de dq := by
  cases op with
  | declareExchange name type durable autoDelete args =>
    cases hs
    refine ⟨?_,he.queue,he.key⟩
    obtain ⟨x,hx,hd⟩ := Option.map_eq_some_iff.mp he.exchange
    refine Option.map_eq_some_iff.mpr ⟨x,?_,hd⟩
    simp only [VirtualHost.declareExchange,ExchangeManager.declareExchange_eq]
    exact Registry.lookup_declare_of_some hx
  | declareQueue name durable exclusive autoDelete args =>
    cases hs
    refine ⟨he.exchange,?_,he.key⟩
    obtain ⟨x,hx,hd⟩ := Option.map_eq_some_iff.mp he.queue
    refine Option.map_eq_some_iff.mpr ⟨x,?_,hd⟩
    simp only [VirtualHost.declareQueue,QueueManager.declareQueue_eq]
    exact Registry.lookup_declare_of_some hx
  | deleteExchange name =>
    cases hs
    have hne : e ≠ name := Ne.symm spares
    refine ⟨?_,he.queue,?_⟩
    · refine Eq.trans ?_ he.exchange
      exact congrArg (Option.map Exchange.declared)
        ((ExchangeManager.lookup_deleteExchange name e).trans (if_neg hne))
    · refine Eq.trans ?_ he.key
      exact congrArg (Option.map Binding.bindingKey)
        ((BindingManager.look_unbindByExchange h.db (e,q)).trans (if_neg hne))
  | deleteQueue name =>
    cases hs
    have hne : q ≠ name := Ne.symm spares
    refine ⟨he.exchange,?_,?_⟩
    · refine Eq.trans ?_ he.queue
      exact congrArg (Option.map Queue.declared)
        (QueueManager.lookup_deleteQueue.trans (if_neg hne))
    · refine Eq.trans ?_ he.key
      exact congrArg (Option.map Binding.bindingKey)
        ((BindingManager.look_unbindByQueue h.db (e,q)).trans (if_neg hne))
  | unBind ename qname =>
    cases hs
    refine ⟨he.exchange,he.queue,?_⟩
    refine Eq.trans ?_ he.key
    exact congrArg (Option.map Binding.bindingKey)
      ((BindingManager.look_unbind h.db (e,q)).trans (if_neg (Ne.symm spares)))
  | bind ename qname key' =>
    cases hs
    unfold VirtualHost.bind
    split
    · exact he
    next ep _ =>
      split
      · exact he
      next mqp _ =>
        refine ⟨he.exchange,he.queue,?_⟩
        cases hb : h.bindings.getBinding ename qname with
        | some b => rw [BindingManager.bind_bound hb]; exact he.key
        | none =>
          have hne : (e,q) ≠ (ename,qname) := by
            intro heq
            cases heq
            obtain ⟨b,hbound,-⟩ := topology_bound.mp he.key
            cases hb.symm.trans hbound
          refine Eq.trans ?_ he.key
          exact congrArg (Option.map Binding.bindingKey)
            ((BindingManager.look_bind h.db key' (ep.durable && mqp.durable) hb (e,q)).trans
              (if_neg hne))
  | basicPublish qname bp body uuid =>
    cases hs
    unfold VirtualHost.basicPublish
    split <;> exact ⟨he.exchange,he.queue,he.key⟩
  | basicConsume qname => cases hs; exact ⟨he.exchange,he.queue,he.key⟩
  | basicAck qname msgId => cases hs; exact ⟨he.exchange,he.queue,he.key⟩
  | restart it =>
    obtain ⟨hk,hde,hdq⟩ := restart it rfl
    obtain ⟨x,hx,ht,-⟩ := hk.construct h.messages.basedir it h.disk
    cases hx.symm.trans hs
    rw [ht]
    refine ⟨?_,?_,?_⟩
    · simp [Topology.durablePart,he.exchange,hde]
    · simp [Topology.durablePart,he.queue,hdq]
    · simp [Topology.durablePart,Topology.durableEnds,he.exchange,he.queue,he.key,hde,hdq]

/-- A bind that is answered with true has entered the pair, if it was not bound. -/
theorem bind_entered (hnew : h.bindings.getBinding e q = none) (hbind : (h.bind e q key).1 = true) :
    ∃ de dq, h.topology.exchanges e = some de ∧ h.topology.queues q = some dq ∧
      (h.bind e q key).2.topology.Entered e q key de dq := by
  unfold VirtualHost.bind ExchangeManager.selectExchange QueueManager.selectQueue at hbind ⊢
  cases hexch : h.exchanges.lookup e with
  | none => simp [hexch] at hbind
  | some ep =>
    cases hqueue : h.queues.lookup q with
    | none => simp [hexch,hqueue] at hbind
    | some mqp =>
      have hde : h.topology.exchanges e = some ep.declared := by simp [topology,hexch]
      have hdq : h.topology.queues q = some mqp.declared := by simp [topology,hqueue]
      refine ⟨_,_,hde,hdq,hde,hdq,?_⟩
      exact congrArg (Option.map Binding.bindingKey)
        ((BindingManager.look_bind h.db key (ep.durable && mqp.durable) hnew (e,q)).trans
          (if_pos rfl))

/-- A bound pair is bound again without any effect. -/
theorem bind_again (he : h.topology.Entered e q key de dq) (key' : String) :
    h.bind e q key' = (true,h) := by
  obtain ⟨ep,hexch,-⟩ := Option.map_eq_some_iff.mp he.exchange
  obtain ⟨mqp,hqueue,-⟩ := Option.map_eq_some_iff.mp he.queue
  obtain ⟨b,hb,-⟩ := topology_bound.mp he.key
  simp only [VirtualHost.bind,ExchangeManager.selectExchange,QueueManager.selectQueue,hexch,hqueue,
    BindingManager.bind_bound hb]

end VirtualHost

namespace Publishable
variable {h : VirtualHost} {n q : String}

/-- A round for another queue leaves the queue as it is. -/
theorem round_ne (hp : Publishable h) (hne : q ≠ n) (bp : Option BasicProperties)
    (body uuid : String) :
    Publishable (h.basicPublish n bp body uuid).2 ∧
      (h.basicPublish n bp body uuid).2.queues = h.queues ∧
      (h.basicPublish n bp body uuid).2.messages.queueMsgs.lookup q =
        h.messages.queueMsgs.lookup q := by
  cases hq : h.queues.lookup n with
  | none =>
    have hsame : (h.basicPublish n bp body uuid).2 = h := by
      simp only [VirtualHost.basicPublish,QueueManager.selectQueue,hq]
    rw [hsame]
    exact ⟨hp,rfl,rfl⟩
  | some mqp =>
    cases hx : h.messages.queueMsgs.lookup n with
    | none =>
      have hsame : (h.basicPublish n bp body uuid).2 = h := by
        simp only [VirtualHost.basicPublish,QueueManager.selectQueue,hq,MessageManager.insert,hx]
      rw [hsame]
      exact ⟨hp,rfl,rfl⟩
    | some x =>
      obtain ⟨y,d',he,-,hp'⟩ := hp.basicPublish hq hx bp body uuid
      refine ⟨hp',?_,?_⟩
      · rw [he]
      · rw [he]
        exact AList.lookup_insert_ne hne

end Publishable

namespace Channel
variable {type : ExchangeType} {bs : List (Sigma fun _ : String => Binding)} {b : Broker}
  {q : String}

/-- The loop reaches its end, and leaves a queue alone whose binding the routing key does not reach. -/
theorem publishLoop_unreached (c : ChannelRef) (routingKey : String) (bp : Option BasicProperties)
    (body : String) (uuid : String → String) (htype : type.Known) (hp : Publishable b.host)
    (hq : ∀ e ∈ bs, e.1 = q → RouteManager.route type routingKey e.2.bindingKey = some false) :
    ∃ b', publishLoop c type routingKey bp body uuid bs b = some b' ∧
      b'.host.messages.queueMsgs.lookup q = b.host.messages.queueMsgs.lookup q := by
  induction bs generalizing b with
  | nil => exact ⟨b,rfl,rfl⟩
  | cons e bs ih =>
    obtain ⟨hhead,htail⟩ := List.forall_mem_cons.mp hq
    obtain ⟨n,binding⟩ := e
    obtain ⟨r,hroute⟩ := RouteManager.route_isSome htype routingKey binding.bindingKey
    rw [publishLoop,hroute]
    cases r with
    | false => exact ih hp htail
    | true =>
      have hne : q ≠ n := by
        rintro rfl
        cases hroute.symm.trans (hhead rfl)
      obtain ⟨hp',-,hlook⟩ := hp.round_ne hne bp body (uuid n)
      obtain ⟨b',hloop,hb'⟩ := @ih {b with host := _, pool := b.pool ++ [⟨c,n⟩]} hp' htail
      exact ⟨b',hloop,hb'.trans hlook⟩

/-- A queue whose binding the routing key reaches gets the message, whatever the other bindings
name. -/
theorem publishLoop_reaches (c : ChannelRef) (routingKey : String) (bp : Option BasicProperties)
    (body : String) (uuid : String → String) (htype : type.Known) {mqp : Queue} {x : Handle}
    {binding : Binding} (hnodup : (bs.map Sigma.fst).Nodup) (hp : Publishable b.host)
    (hq : b.host.queues.lookup q = some mqp) (hx : b.host.messages.queueMsgs.lookup q = some x)
    (hm : ⟨q,binding⟩ ∈ bs)
    (hreached : RouteManager.route type routingKey binding.bindingKey = some true) :
    ∃ b' y, publishLoop c type routingKey bp body uuid bs b = some b' ∧
      b'.host.messages.queueMsgs.lookup q = some y ∧ Published bp body mqp.durable x y := by
  induction bs generalizing b with
  | nil => cases hm
  | cons e bs ih =>
    obtain ⟨hout,htail⟩ := List.nodup_cons.mp hnodup
    cases List.mem_cons.mp hm with
    | inl he =>
      subst he
      rw [publishLoop,hreached]
      obtain ⟨y,d',he,hpub,hp'⟩ := hp.basicPublish hq hx bp body (uuid q)
      obtain ⟨b',hloop,hb'⟩ := publishLoop_unreached (b := {b with
        host := (b.host.basicPublish q bp body (uuid q)).2
        pool := b.pool ++ [⟨c,q⟩]}) c routingKey bp body uuid htype hp' fun e he heq =>
          absurd (List.mem_map.mpr ⟨e,he,heq⟩) hout
      refine ⟨b',y,hloop,hb'.trans ?_,hpub⟩
      rw [he]
      exact AList.lookup_insert _
    | inr hrest =>
      obtain ⟨n,other⟩ := e
      have hne : q ≠ n := fun he => hout (List.mem_map.mpr ⟨⟨q,binding⟩,hrest,he⟩)
      obtain ⟨r,hroute⟩ := RouteManager.route_isSome htype routingKey other.bindingKey
      rw [publishLoop,hroute]
      cases r with
      | false => exact ih htail hp hq hx hrest
      | true =>
        obtain ⟨hp',hqueues,hlook⟩ := hp.round_ne hne bp body (uuid n)
        exact @ih {b with host := _, pool := b.pool ++ [⟨c,n⟩]} htail hp'
          ((congrArg (AList.lookup q) hqueues).trans hq) (hlook.trans hx) hrest

end Channel

namespace VirtualHost
variable {h h' : VirtualHost} {e q key : String} {de : DeclaredExchange} {dq : DeclaredQueue}

/-- A message that is published to the exchange with a routing key that `key` reaches is inserted
in the queue. -/
def Honours (h : VirtualHost) (ename qname key : String) : Prop :=
  ∀ (b : Broker) (c : Channel) (ep : Exchange) (rid cid body : String)
    (bp : Option BasicProperties) (it : Iteration) (uuid : String → String),
    b.host = h → h.selectExchange ename = some ep →
    RouteManager.route ep.type (bp.elim "" BasicProperties.routingKey) key = some true →
    ∃ b' mqp x y, c.basicPublish b rid cid ename body bp it uuid =
        some (b',.common rid cid true) ∧
      h.queues.lookup qname = some mqp ∧ h.messages.queueMsgs.lookup qname = some x ∧
      b'.host.messages.queueMsgs.lookup qname = some y ∧ Published bp body mqp.durable x y

/-- A message that is published to the exchange with a routing key that `key` does not reach is not
inserted in the queue. -/
def LeavesOut (h : VirtualHost) (ename qname key : String) : Prop :=
  ∀ (b : Broker) (c : Channel) (ep : Exchange) (rid cid body : String)
    (bp : Option BasicProperties) (it : Iteration) (uuid : String → String),
    b.host = h → h.selectExchange ename = some ep →
    RouteManager.route ep.type (bp.elim "" BasicProperties.routingKey) key = some false →
    ∃ b', c.basicPublish b rid cid ename body bp it uuid = some (b',.common rid cid true) ∧
      b'.host.messages.queueMsgs.lookup qname = h.messages.queueMsgs.lookup qname

theorem leavesOut_entered (he : h.topology.Entered e q key de dq) (hp : Publishable h) :
    h.LeavesOut e q key := by
  intro b c ep rid cid body bp it uuid hb hexch hmissed
  subst hb
  obtain ⟨binding,hbound,rfl⟩ := topology_bound.mp he.key
  have htype : ep.type.Known :=
    (RouteManager.route_isSome_iff _ _).mp (Option.isSome_of_eq_some hmissed)
  have honly : ∀ x ∈ it.order (b.host.exchangeBindings e).entries, x.1 = q →
      RouteManager.route ep.type (bp.elim "" BasicProperties.routingKey) x.2.bindingKey =
        some false := by
    rintro ⟨n,binding'⟩ hx rfl
    rw [(it.perm _).mem_iff,← AList.mem_lookup_iff] at hx
    have hx' : b.host.bindings.getBinding e n = some binding' := by
      unfold VirtualHost.exchangeBindings BindingManager.getExchangeBindings at hx
      unfold BindingManager.getBinding
      cases hl : b.host.bindings.lookup e with
      | none => simp [hl] at hx
      | some qs => simpa [hl] using hx
    cases hx'.symm.trans hbound
    exact hmissed
  obtain ⟨b',hloop,hb'⟩ := Channel.publishLoop_unreached c.self
    (bp.elim "" BasicProperties.routingKey) bp body uuid htype hp honly
  refine ⟨b',?_,hb'⟩
  rw [Channel.basicPublish_eq hexch,hloop]
  rfl

theorem honours_entered (he : h.topology.Entered e q key de dq) (handled : h.Handled)
    (hp : Publishable h) : h.Honours e q key := by
  intro b c ep rid cid body bp it uuid hb hexch hreached
  subst hb
  obtain ⟨mqp,hqueue,-⟩ := Option.map_eq_some_iff.mp he.queue
  obtain ⟨x,hx⟩ := Option.isSome_iff_exists.mp (handled q (Option.isSome_of_eq_some hqueue))
  obtain ⟨binding,hbound,rfl⟩ := topology_bound.mp he.key
  have htype : ep.type.Known :=
    (RouteManager.route_isSome_iff _ _).mp (Option.isSome_of_eq_some hreached)
  have hperm := it.perm (b.host.exchangeBindings e).entries
  have hnodup : ((it.order (b.host.exchangeBindings e).entries).map Sigma.fst).Nodup :=
    (hperm.map Sigma.fst).nodup_iff.mpr (b.host.exchangeBindings e).nodupKeys
  have hm : ⟨q,binding⟩ ∈ it.order (b.host.exchangeBindings e).entries := by
    rw [hperm.mem_iff,← AList.mem_lookup_iff]
    unfold BindingManager.getBinding at hbound
    unfold VirtualHost.exchangeBindings BindingManager.getExchangeBindings
    cases hl : b.host.bindings.lookup e with
    | none => simp [hl] at hbound
    | some qs => simpa [hl] using hbound
  obtain ⟨b',y,hloop,hy,hpub⟩ := Channel.publishLoop_reaches c.self
    (bp.elim "" BasicProperties.routingKey) bp body uuid htype
    hnodup hp hqueue hx hm hreached
  refine ⟨b',mqp,x,y,?_,hqueue,hx,hy,hpub⟩
  rw [Channel.basicPublish_eq hexch,hloop]
  rfl

section Reachable
variable {basedir : String} {it : Iteration} {disk : Disk} {db : Database} {h₀ : VirtualHost}
  {ops ops' : List HostOp}

/-- The key of a bind that is accepted while the pair is not bound is honoured in every later state
until the pair is taken apart, and no other key is; a restart needs both ends durable, and that the
statements have succeeded with clean strings in them. All that time a further bind of the pair is
answered with true and has no effect. -/
theorem first_bind_honoured (start : construct basedir it disk db = some h₀)
    (run : system.Run h₀ ops h) (hnew : h.bindings.getBinding e q = none)
    (hbind : (h.bind e q key).1 = true) (later : system.Run (h.bind e q key).2 ops' h')
    (spares : ∀ op ∈ ops', op.Spares e q)
    (restarts : (∃ it, .restart it ∈ ops') → db = {} ∧ h.topology.durableEnds (e,q) = true ∧
      ∀ op ∈ ops ++ .bind e q key::ops', op.Clean)
    (ready : StorageReady h') :
    h'.Honours e q key ∧ h'.LeavesOut e q key ∧ (∃ ep, h'.selectExchange e = some ep) ∧
      ∀ key', h'.bind e q key' = (true,h') := by
  obtain ⟨de,dq,hde,hdq,hent⟩ := bind_entered hnew hbind
  have bound : system.Run h₀ (ops ++ [.bind e q key]) (h.bind e q key).2 := run.snoc rfl
  have hall : h'.topology.Entered e q key de dq ∧ (db = {} → Kept h') := by
    refine later.invariant_mem
      (P := fun h' : VirtualHost => h'.topology.Entered e q key de dq ∧ (db = {} → Kept h'))
      ⟨hent,?_⟩ ?_
    · intro hdb
      subst hdb
      exact (Kept.run start bound).2
    · intro s op t hop hs hstep
      refine ⟨entered_step hs.1 hstep (spares op hop) ?_,fun hdb => ((hs.2 hdb).step hstep).2⟩
      intro it hre
      obtain ⟨hdb,hends,-⟩ := restarts ⟨it,hre ▸ hop⟩
      simp only [Topology.durableEnds,hde,hdq,Option.any_some,Bool.and_eq_true] at hends
      exact ⟨hs.2 hdb,hends⟩
  obtain ⟨hent',-⟩ := hall
  obtain ⟨ep,hep,-⟩ := Option.map_eq_some_iff.mp hent'.exchange
  have hp : Publishable h' := ⟨ready,run_bounded start (bound.append later)⟩
  exact ⟨honours_entered hent' (run_handled start (bound.append later)) hp,
    leavesOut_entered hent' hp,⟨ep,hep⟩,bind_again hent'⟩

/-- A topic exchange and a durable queue. -/
def tradeOps : List HostOp :=
  [.declareExchange "trade" .topic true false ∅,.declareQueue "orders" true false false ∅]

/-- A second bind of the pair, and a restart. -/
def reboundOps : List HostOp := [.bind "trade" "orders" "refund.#",.restart .listed]

theorem first_bind_honoured_trade : ∃ h₀ h h',
    construct "/data" .listed blankDisk {} = some h₀ ∧ system.Run h₀ tradeOps h ∧
      system.Run (h.bind "trade" "orders" "order.#").2 reboundOps h' ∧
      h'.Honours "trade" "orders" "order.#" ∧ h'.LeavesOut "trade" "orders" "order.#" := by
  have hreached : ((construct "/data" .listed blankDisk {}).bind (tradeOps.foldlM step)).any
      (fun h : VirtualHost => ((h.bindings.getBinding "trade" "orders").isNone &&
        (h.bind "trade" "orders" "order.#").1 && h.topology.durableEnds ("trade","orders")) &&
        (reboundOps.foldlM step (h.bind "trade" "orders" "order.#").2).any fun h' =>
          decide (StorageReady h')) = true := by
    decide +kernel
  obtain ⟨h₀,h,start,run,hall⟩ := Lts.Run.of_any hreached
  simp only [Bool.and_eq_true,Option.any_eq_true,Option.isNone_iff_eq_none,
    decide_eq_true_eq] at hall
  obtain ⟨⟨⟨hnew,hbind⟩,hends⟩,h',hlater,ready⟩ := hall
  have later := Lts.Run.of_foldlM hlater
  have clean : ∀ op ∈ tradeOps ++ .bind "trade" "orders" "order.#"::reboundOps, op.Clean := by
    decide
  obtain ⟨honours,leavesOut,-⟩ := first_bind_honoured start run hnew hbind later (by decide)
    (fun _ => ⟨rfl,hends,clean⟩) ready
  exact ⟨h₀,h,h',start,run,later,honours,leavesOut⟩

/-- The pair is bound with `order.#` and accepted with `refund.#`; a refund is published. -/
theorem second_bind_left_out : ¬ ∀ (basedir : String) (it : Iteration) (disk : Disk)
    (h₀ h h' : VirtualHost) (ops ops' : List HostOp) (e q key : String),
    construct basedir it disk {} = some h₀ → system.Run h₀ ops h → (h.bind e q key).1 = true →
    system.Run (h.bind e q key).2 ops' h' → (∀ op ∈ ops', op.Spares e q) →
    (∀ it, .restart it ∉ ops') → StorageReady h' → h'.Honours e q key := by
  intro hall
  let broker : VirtualHost → Broker := fun h => ⟨"/data",h,∅,∅,0,[],[]⟩
  let c : Channel := {self := ⟨0,"c1",1⟩}
  let bp : BasicProperties := ⟨"m1",.durable,"refund.new"⟩
  have hreached : ((construct "/data" .listed blankDisk {}).bind
      ((tradeOps ++ [HostOp.bind "trade" "orders" "order.#"]).foldlM step)).any
        (fun h : VirtualHost =>
      (h.bind "trade" "orders" "refund.#").1 &&
      decide (StorageReady (h.bind "trade" "orders" "refund.#").2) &&
      ((h.bind "trade" "orders" "refund.#").2.selectExchange "trade").any fun ep =>
        decide (RouteManager.route ep.type bp.routingKey "refund.#" = some true) &&
        (c.basicPublish (broker (h.bind "trade" "orders" "refund.#").2) "r1" "c1" "trade" "ten"
          (some bp) .listed fun _ => "").all fun r =>
            (r.1.host.messages.queueMsgs.lookup "orders").all fun y => y.store.msgs.isEmpty) =
        true := by
    decide +kernel
  obtain ⟨h₀,h,start,run,hrun⟩ := Lts.Run.of_any hreached
  simp only [Bool.and_eq_true,Option.any_eq_true,decide_eq_true_eq] at hrun
  obtain ⟨⟨hbind,ready⟩,ep,hexch,hroute,hempty⟩ := hrun
  obtain ⟨b',mqp,x,y,hpub,-,-,hy,m,-,happ,-⟩ := hall _ _ _ h₀ h _ _ [] "trade" "orders" "refund.#"
    start run hbind (.nil _) (by simp) (by simp) ready (broker _) c ep "r1" "c1" "ten" (some bp)
    .listed (fun _ => "") rfl hexch hroute
  rw [hpub] at hempty
  simp only [Option.all_some,hy,List.isEmpty_iff] at hempty
  have havail := happ.available
  rw [QueueMessage.available,hempty] at havail
  exact absurd havail (by simp)

end Reachable
end VirtualHost
end MessageQueue

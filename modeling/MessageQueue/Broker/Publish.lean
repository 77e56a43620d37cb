import MessageQueue.Broker.Host
import MessageQueue.Broker.Stores

/-! Publishing. A message goes to exactly the queues whose binding key the routing key reaches: at
the tail of each of them, with one consume task each, and nowhere else. -/
namespace MessageQueue
open Base

theorem insertedPayload_body (bp : Option BasicProperties) (body : String) (durable : Bool)
    (uuid : String) : (insertedPayload bp body durable uuid).body = body := by
  unfold insertedPayload QueueMessage.newMessage
  cases bp <;> simp only <;> split_ifs <;> rfl

/-- A message is durable when its queue is and its publisher does not ask for less. -/
theorem newMessage_durable (bp : Option BasicProperties) (body : String) (durable : Bool)
    (uuid : String) :
    (QueueMessage.newMessage bp body durable uuid).payload.deliveryMode = .durable ↔
      durable = true ∧ ∀ p ∈ bp, p.deliveryMode = .durable := by
  have hne : DeliveryMode.undurable ≠ .durable := by decide
  cases bp with
  | none => cases durable <;> simp [QueueMessage.newMessage,Payload.deliveryMode,Payload.props,hne]
  | some p => cases durable <;> simp [QueueMessage.newMessage,Payload.deliveryMode,Payload.props,hne]

theorem insertedPayload_durable (bp : Option BasicProperties) (body : String) (durable : Bool)
    (uuid : String) :
    (insertedPayload bp body durable uuid).deliveryMode = .durable ↔
      durable = true ∧ ∀ p ∈ bp, p.deliveryMode = .durable := by
  rw [← newMessage_durable bp body durable uuid]
  unfold insertedPayload
  simp only
  split_ifs <;> rfl

namespace QueueMessage

/-- The payloads of the available messages, in order. -/
def available (q : QueueMessage) : List Payload := q.msgs.map q.payload

/-- What one more message at the tail leaves as it was. -/
structure Appended (q q' : QueueMessage) (m : Payload) : Prop where
  mapper : q'.mapper = q.mapper
  available : q'.available = q.available ++ [m]
  waiting : q'.waitackMsgs = q.waitackMsgs
  payloads : ∀ p, q.Held p → q'.payload p = q.payload p

/-- When the writes succeed, so does an insertion. -/
theorem insert_ready {q : QueueMessage} {d : Disk} (hp : d.plan = ∅)
    (hf : (d.files (resolve q.mapper.nameDataFile)).isSome) (hb : q.Bounded)
    (bp : Option BasicProperties) (body : String) (durable : Bool) (uuid : String) :
    ∃ q' d', q.insert d bp body durable uuid = (true,q',d') ∧
      q.Appended q' (insertedPayload bp body durable uuid) ∧ d'.plan = ∅ ∧
      ∀ p, (d.files p).isSome → (d'.files p).isSome := by
  have hdisk : (q.insert d bp body durable uuid).1 = true ∧
      (q.insert d bp body durable uuid).2.2.plan = ∅ ∧
      ∀ p, (d.files p).isSome → ((q.insert d bp body durable uuid).2.2.files p).isSome := by
    obtain ⟨f,hf⟩ := Option.isSome_iff_exists.mp hf
    simp only [insert]
    split_ifs
    · simp only [MessageMapper.insertDataFile]
      rw [MessageMapper.insert_done _ hp hf]
      refine ⟨rfl,hp,fun p hs => ?_⟩
      by_cases he : p = resolve q.mapper.nameDataFile
      · simp [he]
      · simpa [he] using hs
    · exact ⟨rfl,hp,fun _ hs => hs⟩
  rcases q.insert_cases d bp body durable uuid with ⟨d',he⟩ | ⟨q',d',m,he,hpay,hmap,hms,hw,hh,-⟩
  · rw [he] at hdisk
    cases hdisk.1
  · rw [he] at hdisk
    have hold : ∀ p, q.Held p → q'.payload p = q.payload p := fun p hheld => by
      simp [payload,hh,Function.update_of_ne (hb p hheld).ne]
    refine ⟨q',d',he,⟨hmap,?_,hw,hold⟩,hdisk.2⟩
    have hlast : q'.payload q.fresh = insertedPayload bp body durable uuid := by
      simp [payload,hh,hpay]
    have hfirst : q.msgs.map q'.payload = q.msgs.map q.payload :=
      List.map_congr_left fun p hm => hold p (.inl hm)
    simp only [available,hms,List.map_append,List.map_cons,List.map_nil,hlast,hfirst]

end QueueMessage

/-- The writes to come succeed: the environment lets them, and every queue has its data file. -/
structure StorageReady (h : VirtualHost) : Prop where
  plan : h.disk.plan = ∅
  files : ∀ q x, h.messages.queueMsgs.lookup q = some x →
    (h.disk.files (resolve x.store.mapper.nameDataFile)).isSome

/-- The store of a queue got one message more at its tail, made from the request. -/
def Published (bp : Option BasicProperties) (body : String) (durable : Bool) (x y : Handle) :
    Prop :=
  ∃ m, y.object = x.object ∧ x.store.Appended y.store m ∧ m.body = body ∧
    (m.deliveryMode = .durable ↔ durable = true ∧ ∀ p ∈ bp, p.deliveryMode = .durable)

/-- What holds before each round of the loop. -/
structure Publishable (h : VirtualHost) : Prop where
  ready : StorageReady h
  bounded : h.messages.Stores fun _ x => x.store.Bounded

namespace Publishable
variable {h : VirtualHost} {q : String} {mqp : Queue} {x : Handle}

/-- One round: the queue gets its message, and the other queues nothing. -/
theorem basicPublish (hp : Publishable h) (hq : h.queues.lookup q = some mqp)
    (hx : h.messages.queueMsgs.lookup q = some x) (bp : Option BasicProperties)
    (body uuid : String) :
    ∃ y d', (h.basicPublish q bp body uuid).2 = {h with
        messages := {h.messages with queueMsgs := h.messages.queueMsgs.insert q y}
        disk := d'} ∧
      Published bp body mqp.durable x y ∧ Publishable (h.basicPublish q bp body uuid).2 := by
  obtain ⟨store,d',hins,happ,hplan,hfiles⟩ := QueueMessage.insert_ready hp.ready.plan
    (hp.ready.files q x hx) (hp.bounded q x hx) bp body mqp.durable uuid
  have he : (h.basicPublish q bp body uuid).2 = {h with
      messages := h.messages.update q x store
      disk := d'} := by
    simp only [VirtualHost.basicPublish,QueueManager.selectQueue,hq,MessageManager.insert,hx,hins]
  refine ⟨⟨x.object,store⟩,d',he,⟨_,rfl,happ,insertedPayload_body _ _ _ _,
    insertedPayload_durable _ _ _ _⟩,?_⟩
  refine ⟨⟨?_,?_⟩,QueueMessage.Bounded.keeps.basicPublish q bp body uuid hp.bounded⟩
  · rw [he]; exact hplan
  · rw [he]
    refine MessageManager.Stores.update
      (S := fun _ x => (d'.files (resolve x.store.mapper.nameDataFile)).isSome) ?_ ?_
    · exact fun q x hx => hfiles _ (hp.ready.files q x hx)
    · simp only [happ.mapper]
      exact hfiles _ (hp.ready.files q x hx)

end Publishable

/-- The queues of a list of bindings that a routing key reaches. -/
def reached (type : ExchangeType) (routingKey : String)
    (bs : List (Sigma fun _ : String => Binding)) : List String :=
  (bs.filter fun e => RouteManager.route type routingKey e.2.bindingKey = some true).map Sigma.fst

theorem storageReady_iff {h : VirtualHost} : StorageReady h ↔
    h.disk.plan = ∅ ∧ ∀ e ∈ h.messages.queueMsgs.entries,
      (h.disk.files (resolve e.2.store.mapper.nameDataFile)).isSome := by
  constructor
  · intro hr
    refine ⟨hr.plan,fun e he => ?_⟩
    obtain ⟨q,x⟩ := e
    exact hr.files q x (AList.mem_lookup_iff.mpr he)
  · intro hr
    refine ⟨hr.1,fun q x hx => ?_⟩
    exact hr.2 ⟨q,x⟩ (AList.mem_lookup_iff.mp hx)

instance (h : VirtualHost) : Decidable (StorageReady h) := decidable_of_iff _ storageReady_iff.symm

/-- What the loop makes of a broker, given the queues that are reached. -/
structure FannedOut (c : ChannelRef) (bp : Option BasicProperties) (body : String)
    (qs : List String) (b b' : Broker) : Prop where
  registries : b'.host.exchanges = b.host.exchanges ∧ b'.host.queues = b.host.queues ∧
    b'.host.bindings = b.host.bindings ∧ b'.host.db = b.host.db
  messages : ∀ q ∈ qs, ∃ mqp x y, b.host.queues.lookup q = some mqp ∧
    b.host.messages.queueMsgs.lookup q = some x ∧
    b'.host.messages.queueMsgs.lookup q = some y ∧ Published bp body mqp.durable x y
  others : ∀ q, q ∉ qs → b'.host.messages.queueMsgs.lookup q = b.host.messages.queueMsgs.lookup q
  tasks : b'.pool = b.pool ++ qs.map fun q => ⟨c,q⟩

/-- The three types of exchange that the route function knows. -/
def ExchangeType.Known (type : ExchangeType) : Prop :=
  type = .direct ∨ type = .fanout ∨ type = .topic

/-- A client may send any number; `route` knows three of them. -/
theorem RouteManager.route_isSome_iff {type : ExchangeType} (routingKey bindingKey : String) :
    (route type routingKey bindingKey).isSome ↔ type.Known := by
  unfold route ExchangeType.Known
  split_ifs <;> simp_all

theorem RouteManager.route_isSome {type : ExchangeType} (h : type.Known)
    (routingKey bindingKey : String) : ∃ r, route type routingKey bindingKey = some r :=
  Option.isSome_iff_exists.mp ((route_isSome_iff routingKey bindingKey).mpr h)

/-- The loop reaches its end, and fans out to the queues that are reached. -/
theorem Channel.publishLoop_fansOut (c : ChannelRef) {type : ExchangeType} (routingKey : String)
    (bp : Option BasicProperties) (body : String) (uuid : String → String)
    (htype : type.Known) (bs : List (Sigma fun _ : String => Binding)) {b : Broker}
    (hnodup : (bs.map Sigma.fst).Nodup) (hp : Publishable b.host)
    (hqs : ∀ e ∈ bs, ∃ mqp x, b.host.queues.lookup e.1 = some mqp ∧
      b.host.messages.queueMsgs.lookup e.1 = some x) :
    ∃ b', publishLoop c type routingKey bp body uuid bs b = some b' ∧
      FannedOut c bp body (reached type routingKey bs) b b' := by
  induction bs generalizing b with
  | nil => exact ⟨b,rfl,⟨⟨rfl,rfl,rfl,rfl⟩,by simp [reached],fun _ _ => rfl,by simp [reached]⟩⟩
  | cons e bs ih =>
    obtain ⟨q,binding⟩ := e
    obtain ⟨hq,hnodup⟩ := List.nodup_cons.mp hnodup
    have hrest : ∀ e ∈ bs, ∃ mqp x, b.host.queues.lookup e.1 = some mqp ∧
        b.host.messages.queueMsgs.lookup e.1 = some x :=
      fun e he => hqs e (List.mem_cons_of_mem _ he)
    obtain ⟨r,hroute⟩ := RouteManager.route_isSome htype routingKey binding.bindingKey
    rw [publishLoop,hroute]
    cases r with
    | false =>
      have hr : reached type routingKey (⟨q,binding⟩::bs) = reached type routingKey bs := by
        simp [reached,hroute]
      rw [hr]
      exact ih hnodup hp hrest
    | true =>
      have hr : reached type routingKey (⟨q,binding⟩::bs) = q :: reached type routingKey bs := by
        simp [reached,hroute]
      obtain ⟨mqp,x,hmqp,hx⟩ := hqs ⟨q,binding⟩ List.mem_cons_self
      obtain ⟨y,d',he,hpub,hp'⟩ := hp.basicPublish hmqp hx bp body (uuid q)
      -- the queues of the other bindings are not touched by this round
      have hne : ∀ e ∈ bs, e.1 ≠ q := fun e hm heq => hq (List.mem_map.mpr ⟨e,hm,heq⟩)
      simp only
      rw [he] at hp' ⊢
      obtain ⟨b',hloop,hfan⟩ := ih (b := {b with host := _, pool := b.pool ++ [⟨c,q⟩]}) hnodup hp'
        fun e hm => by
          obtain ⟨mqp,x,hmqp,hx⟩ := hrest e hm
          exact ⟨mqp,x,hmqp,(AList.lookup_insert_ne (hne e hm)).trans hx⟩
      have hout : q ∉ reached type routingKey bs := fun hm => by
        obtain ⟨e,hm,heq⟩ := List.mem_map.mp hm
        exact hne e (List.mem_filter.mp hm).1 heq
      refine ⟨b',hloop,hfan.registries,?_,?_,?_⟩
      · rw [hr]
        intro n hn
        rcases List.mem_cons.mp hn with rfl | hn
        · refine ⟨mqp,x,y,hmqp,hx,?_,hpub⟩
          rw [hfan.others n hout]
          exact AList.lookup_insert _
        · obtain ⟨mqp',x',y',hmqp',hx',hy',hpub'⟩ := hfan.messages n hn
          have hnq : n ≠ q := fun heq => hout (heq ▸ hn)
          rw [AList.lookup_insert_ne hnq] at hx'
          exact ⟨mqp',x',y',hmqp',hx',hy',hpub'⟩
      · rw [hr]
        intro n hn
        rw [hfan.others n fun hm => hn (List.mem_cons_of_mem _ hm)]
        exact AList.lookup_insert_ne fun heq => hn (heq ▸ List.mem_cons_self)
      · rw [hfan.tasks,hr]
        simp

/-- The handler of a publish request to an existing exchange is its loop. -/
theorem Channel.basicPublish_eq {c : Channel} {b : Broker} {ep : Exchange}
    {rid cid ename body : String} {bp : Option BasicProperties} {it : Iteration}
    {uuid : String → String} (hexch : b.host.selectExchange ename = some ep) :
    c.basicPublish b rid cid ename body bp it uuid =
      (publishLoop c.self ep.type (bp.elim "" BasicProperties.routingKey) bp body uuid
        (it.order (b.host.exchangeBindings ename).entries) b).map
          fun b => (b,.common rid cid true) := by
  simp only [basicPublish,hexch]
  cases bp <;> rfl

/-- The queue is bound to the exchange with a key that the routing key reaches. -/
def Matches (h : VirtualHost) (ename : String) (type : ExchangeType)
    (bp : Option BasicProperties) (q : String) : Prop :=
  ∃ binding, h.bindings.getBinding ename q = some binding ∧
    RouteManager.route type (bp.elim "" BasicProperties.routingKey) binding.bindingKey = some true

/-- The bindings of an exchange are what is bound to it. -/
theorem VirtualHost.mem_exchangeBindings {h : VirtualHost} {ename q : String} {binding : Binding} :
    (⟨q,binding⟩ : Sigma fun _ : String => Binding) ∈ (h.exchangeBindings ename).entries ↔
      h.bindings.getBinding ename q = some binding := by
  rw [← AList.mem_lookup_iff]
  unfold exchangeBindings BindingManager.getExchangeBindings BindingManager.getBinding
  cases h.bindings.lookup ename <;> simp

section Reachable
variable {basedir : String} {it₀ : Iteration} {disk : Disk} {b₀ b : Broker} {evs : List Event}

/-- In every reachable state a publish request to an exchange of a known type is answered and fans
out to exactly the queues that match, whatever order the bindings are taken in. -/
theorem publish_fanout {conn : ℕ} {channels : ChannelManager} {c : Channel} {ep : Exchange}
    {rid cid ename body : String} {bp : Option BasicProperties}
    (start : Broker.construct basedir it₀ disk {} = some b₀) (run : Broker.system.Run b₀ evs b)
    (hconn : b.connections.lookup conn = some channels) (hchan : channels.lookup cid = some c)
    (hexch : b.host.selectExchange ename = some ep) (htype : ep.type.Known)
    (ready : StorageReady b.host) (it : Iteration) (uuid : String → String) :
    ∃ b' qs, b.handle conn (.basicPublish rid cid ename body bp) it uuid =
        some (b',some (.common rid cid true)) ∧
      qs.Nodup ∧ (∀ q, q ∈ qs ↔ Matches b.host ename ep.type bp q) ∧
      FannedOut c.self bp body qs b b' := by
  have hreg := Broker.run_registered start run
  have hbounded := Broker.run_bounded start run
  let entries := it.order (b.host.exchangeBindings ename).entries
  have hperm := it.perm (b.host.exchangeBindings ename).entries
  have hmem : ∀ q binding, ⟨q,binding⟩ ∈ entries ↔
      b.host.bindings.getBinding ename q = some binding := fun q binding =>
    hperm.mem_iff.trans VirtualHost.mem_exchangeBindings
  have hnodup : (entries.map Sigma.fst).Nodup :=
    (hperm.map Sigma.fst).nodup_iff.mpr (b.host.exchangeBindings ename).nodupKeys
  -- every binding names a queue with its handle, so no round of the loop goes astray
  obtain ⟨b',hloop,hfan⟩ := Channel.publishLoop_fansOut c.self
    (bp.elim "" BasicProperties.routingKey) bp body uuid htype entries hnodup
    ⟨ready,hbounded⟩ fun e he => by
      have hq := hreg.bound ename e.1 e.2 ((hmem e.1 e.2).mp he)
      obtain ⟨mqp,hmqp⟩ := Option.isSome_iff_exists.mp hq
      obtain ⟨x,hx⟩ := Option.isSome_iff_exists.mp (hreg.handled e.1 hq)
      exact ⟨mqp,x,hmqp,hx⟩
  refine ⟨b',_,?_,?_,?_,hfan⟩
  · simp only [Broker.handle,hconn,Request.cid,hchan,Channel.serve,Channel.basicPublish_eq hexch]
    rw [hloop]
    rfl
  · exact hnodup.sublist (List.Sublist.map _ List.filter_sublist)
  · intro q
    simp only [reached,List.mem_map,List.mem_filter,decide_eq_true_eq]
    constructor
    · rintro ⟨⟨n,binding⟩,⟨hm,hr⟩,rfl⟩
      exact ⟨binding,(hmem n binding).mp hm,hr⟩
    · rintro ⟨binding,hb,hr⟩
      exact ⟨⟨q,binding⟩,⟨(hmem q binding).mpr hb,hr⟩,rfl⟩

theorem publish_fanout_trade :
    ∃ b b' qs c ep, (Broker.construct "/data" .listed blankDisk {}).bind
        (tradeSetup.foldlM Broker.step) = some b ∧
      b.handle 1 (.basicPublish "r5" "c1" "trade" "ten" (some ⟨"m1",.durable,"order.new"⟩))
        .listed (fun _ => "") = some (b',some (.common "r5" "c1" true)) ∧
      qs.Nodup ∧ (∀ q, q ∈ qs ↔
        Matches b.host "trade" ep (some ⟨"m1",.durable,"order.new"⟩) q) ∧
      FannedOut c (some ⟨"m1",.durable,"order.new"⟩) "ten" qs b b' := by
  obtain ⟨b₀,start⟩ := Broker.construct_blank "/data" .listed blankDisk
  have hall : ((Broker.construct "/data" .listed blankDisk {}).bind
      (tradeSetup.foldlM Broker.step)).any (fun b : Broker => decide (StorageReady b.host) &&
        (((b.connections.lookup 1).any fun channels => (channels.lookup "c1").isSome) &&
        (b.host.selectExchange "trade").any fun ep => decide (ep.type = .topic))) = true := by
    decide +kernel
  simp only [Option.any_eq_true,Bool.and_eq_true,decide_eq_true_eq] at hall
  obtain ⟨b,hb,ready,⟨channels,hconn,hchan⟩,ep,hexch,htype⟩ := hall
  obtain ⟨c,hchan⟩ := Option.isSome_iff_exists.mp hchan
  rw [start,Option.bind_some] at hb
  obtain ⟨b',qs,h⟩ := publish_fanout start (.of_foldlM hb) hconn hchan hexch
    (.inr (.inr htype)) ready .listed fun _ => ""
  exact ⟨b,b',qs,c.self,ep.type,by rw [start]; exact hb,h⟩

end Reachable
end MessageQueue

import MessageQueue.Broker.Acceptance
import MessageQueue.Broker.Ledgers

/-! The shelf of a whole broker. What its clients, its workers and its restarts do to the queues is a
list of operations on the virtual host, and the shelf follows that list. So a durable message stays
until it is acknowledged, or its queue is deleted. -/
namespace MessageQueue
open Base Payload

/-- The operation ends what the queue owes to a message with the id. -/
def HostOp.releases (n msgId : String) : HostOp → Bool
  | .deleteQueue name => name = n
  | .basicAck qname msgId' => qname = n ∧ msgId' = msgId
  | _ => false

/-- The message is on the durable page of a durable queue. -/
def Shelf.Keeps (t : Shelf) (n : String) (m : Payload) : Prop :=
  ∃ k, t n = some k ∧ k.durable = true ∧ m ∈ k.ledger.durable

/-- Publications leave a queue as durable as it is. -/
theorem Shelf.map_durable_publish (qs : List String) (bp : Option BasicProperties) (body : String)
    (uuid : String → String) (t : Shelf) (n : String) :
    (((qs.map fun q => HostOp.basicPublish q bp body (uuid q)).foldl Shelf.apply t) n).map
      QueueBook.durable = (t n).map QueueBook.durable := by
  induction qs generalizing t with
  | nil => rfl
  | cons q qs ih =>
    rw [List.map_cons,List.foldl_cons,ih,Shelf.apply,Shelf.at']
    by_cases hn : n = q
    · subst hn
      rw [Function.update_self,Option.map_map]
      rfl
    · rw [Function.update_of_ne hn]

namespace Shelf.Keeps
variable {t : Shelf} {n : String} {m : Payload} {op : HostOp}

/-- An operation on one queue, whose durable page keeps the message. -/
theorem at' (h : t.Keeps n m) (n' : String) {f : QueueBook → QueueBook}
    (hf : ∀ k, (f k).durable = k.durable)
    (hkeep : n' = n → ∀ k : QueueBook, m ∈ k.ledger.durable → m ∈ (f k).ledger.durable) :
    (t.at' n' f).Keeps n m := by
  obtain ⟨k,hk,hd,hm⟩ := h
  by_cases hn : n' = n
  · subst hn
    refine ⟨f k,?_,(hf k).trans hd,hkeep rfl k hm⟩
    rw [Shelf.at',Function.update_self,hk,Option.map_some]
  · refine ⟨k,?_,hd,hm⟩
    rw [Shelf.at',Function.update_of_ne (Ne.symm hn),hk]

theorem apply (h : t.Keeps n m) (hop : op.releases n m.id = false) : (t.apply op).Keeps n m := by
  cases op with
  | declareQueue qname durable exclusive autoDelete args =>
    obtain ⟨k,hk,hd,hm⟩ := h
    simp only [Shelf.apply]
    split_ifs with hq
    · exact ⟨k,hk,hd,hm⟩
    · have hne : n ≠ qname := by
        rintro rfl
        exact hq (by rw [hk]; rfl)
      exact ⟨k,by rw [Function.update_of_ne hne,hk],hd,hm⟩
  | deleteQueue name =>
    obtain ⟨k,hk,hd,hm⟩ := h
    have hne : n ≠ name := by
      rintro rfl
      simp [HostOp.releases] at hop
    exact ⟨k,by rw [Shelf.apply,Function.update_of_ne hne,hk],hd,hm⟩
  | basicPublish qname bp body uuid =>
    refine h.at' qname (fun _ => rfl) fun _ k hm => ?_
    simp only [QueueBook.publish,Ledger.insert]
    split_ifs
    · exact List.mem_append_left _ hm
    · exact hm
  | basicConsume qname =>
    refine h.at' qname (fun _ => rfl) fun _ k hm => ?_
    simp only [QueueBook.take,Ledger.front]
    split <;> exact hm
  | basicAck qname msgId =>
    refine h.at' qname (fun _ => rfl) fun hq k hm => ?_
    have hid : m.id ≠ msgId := by
      rintro rfl
      simp [HostOp.releases,hq] at hop
    simp only [QueueBook.acknowledge,Ledger.remove]
    split
    · exact hm
    · split_ifs
      · exact List.mem_filter.mpr ⟨hm,by simpa using hid⟩
      · exact hm
  | restart it =>
    obtain ⟨k,hk,hd,hm⟩ := h
    exact ⟨k.restart,by simp [Shelf.apply,hk,hd],hd,hm⟩
  | declareExchange => exact h
  | deleteExchange => exact h
  | bind => exact h
  | unBind => exact h

theorem foldl (h : t.Keeps n m) {ops : List HostOp}
    (hops : ∀ op ∈ ops, op.releases n m.id = false) : (ops.foldl Shelf.apply t).Keeps n m :=
  List.foldlRecOn (motive := fun t : Shelf => t.Keeps n m) ops _ h
    fun _ hr _ hop => hr.apply (hops _ hop)

/-- A durable message enters the page of a durable queue. -/
theorem publish {k : QueueBook} (hk : t n = some k) (hd : k.durable = true)
    {bp : Option BasicProperties} (hmode : ∀ p ∈ bp, p.deliveryMode = .durable)
    (body uuid : String) : (t.apply (.basicPublish n bp body uuid)).Keeps n
      (insertedPayload bp body true uuid) := by
  have hdurable : (insertedPayload bp body true uuid).deliveryMode = .durable :=
    (insertedPayload_durable bp body true uuid).mpr ⟨rfl,hmode⟩
  refine ⟨k.publish bp body uuid,?_,hd,?_⟩
  · rw [Shelf.apply,Shelf.at',Function.update_self,hk,Option.map_some]
  · simp only [QueueBook.publish,Ledger.insert,hd,if_pos hdurable]
    exact List.mem_append_right _ (List.mem_singleton.mpr rfl)

end Shelf.Keeps

namespace Broker

/-- The operations on the host that a request asks for, when a channel serves it. -/
def requestOps (b : Broker) (it : Iteration) (uuid : String → String) : Request → List HostOp
  | .declareExchange _ _ name type durable autoDelete args =>
    [.declareExchange name type durable autoDelete args]
  | .deleteExchange _ _ name => [.deleteExchange name]
  | .declareQueue _ _ name exclusive durable autoDelete args =>
    [.declareQueue name durable exclusive autoDelete args]
  | .deleteQueue _ _ name => [.deleteQueue name]
  | .queueBind _ _ ename qname key => [.bind ename qname key]
  | .queueUnBind _ _ ename qname => [.unBind ename qname]
  | .basicPublish _ _ ename body bp =>
    match b.host.selectExchange ename with
    | none => []
    | some ep => (b.matched ename ep bp it).map fun q => .basicPublish q bp body (uuid q)
  | .basicAck _ _ qname msgId => [.basicAck qname msgId]
  | .basicConsume .. | .basicCancel .. | .openChannel .. | .closeChannel .. => []

/-- The operations on the host that an event consists of. -/
def hostOps (b : Broker) : Event → List HostOp
  | .request conn req it uuid =>
    match b.channelAt conn req.cid with
    | none => []
    | some _ => b.requestOps it uuid req
  | .take i => (b.pool[i]?).toList.map fun task => .basicConsume task.qname
  | .autoAck i =>
    match b.running[i]? with
    | some (.called task m) => [.basicAck task.qname m.payload.id]
    | _ => []
  | .restart it => [.restart it]
  | .connect _ | .disconnect .. | .choose _ => []

/-- The operations of a run, one after the other. -/
def performed (b : Broker) : List Event → List HostOp
  | [] => []
  | ev::evs => b.hostOps ev ++
    match b.step ev with
    | none => []
    | some b' => b'.performed evs

variable {b b' : Broker} {ev : Event} {evs evs' : List Event}

theorem performed_append (h : evs.foldlM step b = some b') (evs' : List Event) :
    b.performed (evs ++ evs') = b.performed evs ++ b'.performed evs' := by
  induction evs generalizing b with
  | nil =>
    cases h
    rfl
  | cons ev evs ih =>
    obtain ⟨b₁,hstep,h⟩ := Option.bind_eq_some_iff.mp h
    simp only [List.cons_append,performed,hstep,ih h,List.append_assoc]

theorem performed_single (b : Broker) (ev : Event) : b.performed [ev] = b.hostOps ev := by
  simp only [performed]
  split <;> exact List.append_nil _

/-- The operations take the host from one broker to the other. -/
structure Performs (b : Broker) (ops : List HostOp) (b' : Broker) : Prop where
  host : ops.foldlM VirtualHost.step b.host = some b'.host
  basedir : b'.basedir = b.basedir

/-- The loop of a publication, one round after the other. -/
theorem publishLoop_ops {c : ChannelRef} {type : ExchangeType} {routingKey body : String}
    {bp : Option BasicProperties} {uuid : String → String}
    {bs : List (Sigma fun _ : String => Binding)}
    (h : Channel.publishLoop c type routingKey bp body uuid bs b = some b') :
    b.Performs ((reached type routingKey bs).map fun q => .basicPublish q bp body (uuid q)) b' := by
  induction bs generalizing b with
  | nil =>
    cases h
    exact ⟨rfl,rfl⟩
  | cons e bs ih =>
    obtain ⟨q,binding⟩ := e
    rw [Channel.publishLoop] at h
    cases hroute : RouteManager.route type routingKey binding.bindingKey with
    | none =>
      rw [hroute] at h
      cases h
    | some r =>
      rw [hroute] at h
      cases r with
      | false =>
        have hskip : reached type routingKey (⟨q,binding⟩::bs) = reached type routingKey bs := by
          simp [reached,hroute]
        rw [hskip]
        exact ih h
      | true =>
        have hround : reached type routingKey (⟨q,binding⟩::bs) =
            q::reached type routingKey bs := by
          simp [reached,hroute]
        obtain ⟨hhost,hbase⟩ := ih h
        rw [hround]
        exact ⟨hhost,hbase⟩

theorem destroyChannel_basedir (c : Channel) : (b.destroyChannel c).basedir = b.basedir := by
  unfold destroyChannel
  split <;> rfl

theorem serve_ops {c : Channel} {req : Request} {it : Iteration} {uuid : String → String}
    {r : Broker × Response} (h : c.serve b it uuid req = some r) :
    b.Performs (b.requestOps it uuid req) r.1 := by
  cases req with
  | basicPublish rid cid ename body bp =>
    simp only [Channel.serve,Channel.basicPublish] at h
    simp only [requestOps]
    cases hsel : b.host.selectExchange ename with
    | none =>
      rw [hsel] at h
      cases h
      exact ⟨rfl,rfl⟩
    | some ep =>
      rw [hsel] at h
      obtain ⟨b',hloop,rfl⟩ := Option.map_eq_some_iff.mp h
      cases bp <;> exact publishLoop_ops hloop
  | declareQueue rid cid name exclusive durable autoDelete args =>
    cases h
    simp only [Channel.declareQueue]
    split <;> exact ⟨rfl,rfl⟩
  | basicConsume rid cid ctag qname autoAck =>
    cases h
    simp only [Channel.basicConsume]
    split <;> exact ⟨rfl,rfl⟩
  | openChannel => cases h
  | closeChannel => cases h
  | declareExchange => cases h; exact ⟨rfl,rfl⟩
  | deleteExchange => cases h; exact ⟨rfl,rfl⟩
  | deleteQueue => cases h; exact ⟨rfl,rfl⟩
  | queueBind => cases h; exact ⟨rfl,rfl⟩
  | queueUnBind => cases h; exact ⟨rfl,rfl⟩
  | basicAck => cases h; exact ⟨rfl,rfl⟩
  | basicCancel => cases h; exact ⟨rfl,rfl⟩

/-- Opening and closing a channel is nothing to the host. -/
theorem handle_ops {conn : ℕ} {req : Request} {it : Iteration} {uuid : String → String}
    {r : Broker × Option Response} (h : b.handle conn req it uuid = some r) :
    b.Performs (b.hostOps (.request conn req it uuid)) r.1 := by
  have hsame : r.1.host = b.host → r.1.basedir = b.basedir → b.requestOps it uuid req = [] →
      b.Performs (b.hostOps (.request conn req it uuid)) r.1 := by
    intro hhost hbase hnone
    refine ⟨?_,hbase⟩
    simp only [hostOps,hnone,hhost]
    split <;> rfl
  unfold handle at h
  split at h
  · next hl =>
    cases h
    simp only [hostOps,channelAt,hl,Option.bind_none]
    exact ⟨rfl,rfl⟩
  · next channels hl =>
    split at h
    · cases h
      simp only [openChannel] at hsame ⊢
      split at hsame <;> exact hsame rfl rfl rfl
    · cases h
      simp only [closeChannel] at hsame ⊢
      split at hsame
      · exact hsame rfl rfl rfl
      · exact hsame (destroyChannel_host _) (destroyChannel_basedir _) rfl
    · split at h
      · next hc =>
        cases h
        simp only [hostOps,channelAt,hl,Option.bind_some,hc]
        exact ⟨rfl,rfl⟩
      · next c hc =>
        obtain ⟨x,hx,rfl⟩ := Option.map_eq_some_iff.mp h
        simp only [hostOps,channelAt,hl,Option.bind_some,hc]
        exact serve_ops hx

/-- What an event does to the host are its operations. -/
theorem step_ops (hb : b.host.messages.basedir = b.basedir) (h : b.step ev = some b') :
    b.Performs (b.hostOps ev) b' := by
  cases ev with
  | connect conn =>
    cases h
    exact ⟨rfl,rfl⟩
  | disconnect conn it =>
    cases h
    refine ⟨congrArg some (b.delConnection_frame conn it).1.symm,?_⟩
    exact delConnection_keeps (P := fun x => x.basedir = b.basedir)
      (fun x c hx => (destroyChannel_basedir c).trans hx) rfl
  | request conn req it uuid =>
    obtain ⟨r,hr,rfl⟩ := Option.map_eq_some_iff.mp h
    exact handle_ops hr
  | take i =>
    obtain ⟨task,hi,rfl⟩ := take_cases h
    simp only [hostOps,hi]
    exact ⟨rfl,rfl⟩
  | choose i =>
    obtain ⟨r,hr,rfl⟩ := Option.map_eq_some_iff.mp h
    obtain ⟨task,m,-,⟨-,rfl⟩ | ⟨cp,-,rfl⟩⟩ := choose_cases hr <;> exact ⟨rfl,rfl⟩
  | autoAck i =>
    obtain ⟨task,m,hi,rfl⟩ := autoAck_cases h
    simp only [hostOps,hi]
    exact ⟨rfl,rfl⟩
  | restart it =>
    obtain ⟨host,hhost,rfl⟩ := Option.map_eq_some_iff.mp h
    refine ⟨?_,rfl⟩
    simp only [hostOps,List.foldlM_cons,List.foldlM_nil,VirtualHost.step,hb,hhost]
    rfl

/-- The strings of the event are clean, and each of its operations is admitted where its turn
comes. -/
def Admits (names : List String) (b : Broker) (ev : Event) : Prop :=
  ev.Clean ∧ b.host.AdmitsAll names (b.hostOps ev)

instance (names : List String) (b : Broker) (ev : Event) : Decidable (b.Admits names ev) :=
  inferInstanceAs (Decidable (_ ∧ _))

/-- A broker on a disk whose files are the shelf. -/
structure Holds (basedir : String) (names : List String) (b : Broker) (t : Shelf) : Prop where
  base : b.basedir = basedir
  host : b.host.Holds basedir names t

namespace Holds
variable {basedir : String} {names : List String} {t : Shelf}

theorem step (hh : b.Holds basedir names t) (apart : Apart basedir names) (ok : b.Admits names ev)
    (hs : b.step ev = some b') : b'.Holds basedir names ((b.hostOps ev).foldl Shelf.apply t) := by
  obtain ⟨hhost,hbase⟩ := step_ops (hh.host.base.trans hh.base.symm) hs
  exact ⟨hbase.trans hh.base,hh.host.foldlM apart ok.2 hhost⟩

/-- The rule for all runs. -/
theorem run (hh : b.Holds basedir names t) (apart : Apart basedir names)
    (run : (system.guarded (Admits names)).Run b evs b') :
    evs.foldlM Broker.step b = some b' ∧
      b'.Holds basedir names ((b.performed evs).foldl Shelf.apply t) := by
  induction run with
  | nil => exact ⟨rfl,hh⟩
  | snoc _ last ih =>
    obtain ⟨ok,hs⟩ := last
    obtain ⟨hfold,hh⟩ := ih
    have hs : Broker.step _ _ = some _ := hs
    refine ⟨?_,?_⟩
    · rw [List.foldlM_append,hfold]
      simpa using hs
    · rw [performed_append hfold,performed_single,List.foldl_append]
      exact hh.step apart ok hs

/-- A new process on a blank database, whose names have no records yet. -/
theorem start {it : Iteration} {disk : Disk} (h : construct basedir it disk {} = some b)
    (plan : disk.plan = ∅) (blank : ∀ n ∈ names,
      FileHelper.contents disk (MessageMapper.named basedir n).nameDataFile = []) :
    b.Holds basedir names .empty := by
  obtain ⟨host,hhost,rfl⟩ := Option.map_eq_some_iff.mp h
  exact ⟨rfl,.start hhost plan blank⟩

/-- What is on a durable page is held, and will be recovered. -/
theorem keeps {n : String} {m : Payload} (hh : b.Holds basedir names t) (hm : t.Keeps n m) :
    m ∈ (MessageMapper.named basedir n).recovered b.host.disk ∧
      ∃ x, b.host.messages.queueMsgs.lookup n = some x ∧ (m ∈ x.store.available ∨
        (x.store.waitackMsgs.lookup m.id).map x.store.payload = some m) := by
  obtain ⟨k,hk,-,hm⟩ := hm
  obtain ⟨x,hx,hserves⟩ := hh.host.there n k hk
  refine ⟨by rw [hserves.recovered]; exact hm,x,hx,?_⟩
  obtain ⟨es,hc,hledger⟩ := hserves.consistent
  rw [← hledger] at hm
  obtain ⟨p,hp,rfl⟩ := List.mem_map.mp hm
  rcases ((hc.inMemory.held p).mp hp).1 with hp | ⟨id,hp⟩
  · exact .inl (List.mem_map_of_mem hp)
  · have hid := hc.inMemory.waiting id p hp
    exact .inr (by rw [hid,hp,Option.map_some])

end Holds

section Reachable
variable {basedir : String} {it : Iteration} {disk : Disk} {names : List String} {b₀ b : Broker}
  {evs : List Event}

/-- Whatever clients, workers and restarts do, the queues of a broker are what the operations make of
an empty shelf. -/
theorem shelf_kept (start : construct basedir it disk {} = some b₀) (plan : disk.plan = ∅)
    (apart : Apart basedir names) (blank : ∀ n ∈ names,
      FileHelper.contents disk (MessageMapper.named basedir n).nameDataFile = [])
    (run : (system.guarded (Admits names)).Run b₀ evs b) :
    b.host.shelf = (b₀.performed evs).foldl Shelf.apply .empty :=
  ((Holds.start start plan blank).run apart run).2.host.shelf_eq

/-- The publication of a durable message, and what a worker and a restart make of it. -/
def publishTen : Event :=
  .request 1 (.basicPublish "r5" "c1" "trade" "ten" (some ⟨"m1",.durable,"order.new"⟩)) .listed
    fun _ => "u5"

def handedOut : List Event := [.take 0,.choose 0,.restart .listed]

theorem ordersApart : Apart "/data" ["orders"] := by simp [Apart]

theorem shelf_kept_orders : ∃ b₀ b : Broker, construct "/data" .listed blankDisk {} = some b₀ ∧
    (b.host.shelf "orders").any (fun k => k.ledger.available.length = 1) = true ∧
      b.host.shelf = (b₀.performed (tradeSetup ++ publishTen::handedOut)).foldl Shelf.apply .empty := by
  have hall : ((construct "/data" .listed blankDisk {}).bind fun b₀ =>
      (tradeSetup ++ publishTen::handedOut).foldlM
        (fun b ev => if Admits ["orders"] b ev then step b ev else none) b₀).any
          (fun b : Broker => (b.host.shelf "orders").any fun k => k.ledger.available.length = 1) =
      true := by
    decide +kernel
  obtain ⟨b₀,b,start,run,hone⟩ := Lts.Run.of_any_guarded hall
  exact ⟨b₀,b,start,hone,shelf_kept start rfl ordersApart (fun _ _ => rfl) run⟩

/-- A durable message that a publication puts into a durable queue stays there until it is
acknowledged or the queue is deleted. It is available, or it was handed out; and the next process will
recover it, however often the broker has been restarted since. -/
theorem durable_kept {b₁ b₂ : Broker} {evs' : List Event} {conn : ℕ}
    {rid cid ename body n : String} {bp : Option BasicProperties} {it' : Iteration}
    {uuid : String → String} {ep : Exchange} {q : Queue}
    (start : construct basedir it disk {} = some b₀) (plan : disk.plan = ∅)
    (apart : Apart basedir names) (blank : ∀ n ∈ names,
      FileHelper.contents disk (MessageMapper.named basedir n).nameDataFile = [])
    (run : (system.guarded (Admits names)).Run b₀ evs b₁)
    (publish : (system.guarded (Admits names)).step b₁
      (.request conn (.basicPublish rid cid ename body bp) it' uuid) b₂)
    (served : (b₁.channelAt conn cid).isSome)
    (exchange : b₁.host.selectExchange ename = some ep)
    (bound : Matches b₁.host ename ep.type bp n)
    (queue : b₁.host.queues.lookup n = some q) (durable : q.durable = true)
    (mode : ∀ p ∈ bp, p.deliveryMode = .durable)
    (run' : (system.guarded (Admits names)).Run b₂ evs' b)
    (unreleased : ∀ op ∈ b₂.performed evs',
      op.releases n (insertedPayload bp body true (uuid n)).id = false) :
    insertedPayload bp body true (uuid n) ∈
        (MessageMapper.named basedir n).recovered b.host.disk ∧
      ∃ x, b.host.messages.queueMsgs.lookup n = some x ∧
        (insertedPayload bp body true (uuid n) ∈ x.store.available ∨
          (x.store.waitackMsgs.lookup (insertedPayload bp body true (uuid n)).id).map
            x.store.payload = some (insertedPayload bp body true (uuid n))) := by
  have hh₁ := ((Holds.start start plan blank).run apart run).2
  have hh₂ := hh₁.step apart publish.1 publish.2
  refine (hh₂.run apart run').2.keeps (Shelf.Keeps.foldl ?_ unreleased)
  -- the operation on the queue is one of those of the publication
  obtain ⟨c,hc⟩ := Option.isSome_iff_exists.mp served
  have hops : b₁.hostOps (.request conn (.basicPublish rid cid ename body bp) it' uuid) =
      (b₁.matched ename ep bp it').map fun q => .basicPublish q bp body (uuid q) := by
    simp only [hostOps,Request.cid,hc,requestOps,exchange]
  obtain ⟨front,back,hsplit⟩ := List.append_of_mem (mem_matched.mpr bound)
  rw [hops,hsplit,List.map_append,List.map_cons,List.foldl_append,List.foldl_cons]
  have hrelease : ∀ (qs : List String) (id : String), ∀ op ∈ qs.map fun q =>
      HostOp.basicPublish q bp body (uuid q), op.releases n id = false := by
    intro qs id op hop
    obtain ⟨q,-,rfl⟩ := List.mem_map.mp hop
    rfl
  refine Shelf.Keeps.foldl ?_ (hrelease back _)
  have hdurable := hh₁.host.registered n
  simp only [VirtualHost.topology,queue,Option.map_some] at hdurable
  rw [← Shelf.map_durable_publish front bp body uuid] at hdurable
  obtain ⟨k,hk,hd⟩ := Option.map_eq_some_iff.mp hdurable.symm
  exact .publish hk (hd.trans durable) mode body (uuid n)

/-- A message that a worker took and nobody got is there again after a restart. -/
theorem durable_kept_orders : ∃ b₀ b₁ b₂ b, construct "/data" .listed blankDisk {} = some b₀ ∧
    (system.guarded (Admits ["orders"])).Run b₀ tradeSetup b₁ ∧ b₁.step publishTen = some b₂ ∧
      (system.guarded (Admits ["orders"])).Run b₂ handedOut b ∧
        insertedPayload (some ⟨"m1",.durable,"order.new"⟩) "ten" true "u5" ∈
          (MessageMapper.named "/data" "orders").recovered b.host.disk := by
  let bp : BasicProperties := ⟨"m1",.durable,"order.new"⟩
  have hall : ((construct "/data" .listed blankDisk {}).bind fun b₀ => tradeSetup.foldlM
      (fun b ev => if Admits ["orders"] b ev then step b ev else none) b₀).any (fun b₁ : Broker =>
        (b₁.channelAt 1 "c1").isSome && Admits ["orders"] b₁ publishTen &&
        (b₁.host.selectExchange "trade").any (fun ep =>
          "orders" ∈ b₁.matched "trade" ep (some bp) .listed) &&
        (b₁.host.queues.lookup "orders").any Queue.durable &&
        (b₁.step publishTen).any fun b₂ => (b₂.performed handedOut).all (fun op =>
          !op.releases "orders" "m1") &&
          (handedOut.foldlM (fun b ev => if Admits ["orders"] b ev then step b ev else none)
            b₂).isSome) = true := by
    decide +kernel
  obtain ⟨b₀,b₁,start,run,hone⟩ := Lts.Run.of_any_guarded hall
  simp only [Bool.and_eq_true,Option.any_eq_true,decide_eq_true_eq] at hone
  obtain ⟨⟨⟨⟨hchan,hok⟩,ep,hep,hmatch⟩,q,hq,hdurable⟩,b₂,hstep,hfree,hrun⟩ := hone
  obtain ⟨b,hb⟩ := Option.isSome_iff_exists.mp hrun
  have run' := Lts.Run.of_foldlM_guarded hb
  have hfree' : ∀ op ∈ b₂.performed handedOut, op.releases "orders" "m1" = false := by
    simpa using hfree
  have hkept := durable_kept start rfl ordersApart (fun _ _ => rfl) run ⟨hok,hstep⟩ hchan hep
    (mem_matched.mp hmatch) hq hdurable (by simp) run' hfree'
  exact ⟨b₀,b₁,b₂,b,start,run,hstep,run',hkept.1⟩

end Reachable

end Broker
end MessageQueue

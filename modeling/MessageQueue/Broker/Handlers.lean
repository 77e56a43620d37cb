import MessageQueue.Base.Run
import MessageQueue.Server.Broker

/-! What the handlers of the broker do to the virtual host, the pool and the running tasks. A
property of the host is kept by every handler as soon as the operations of the host keep it. -/
namespace MessageQueue
open Base

/-- The operations that the handlers perform on the host keep `P`. -/
structure VirtualHost.Keeps (P : VirtualHost → Prop) : Prop where
  declareExchange : ∀ {h} name type durable autoDelete args, P h →
    P (h.declareExchange name type durable autoDelete args).2
  deleteExchange : ∀ {h} name, P h → P (h.deleteExchange name)
  declareQueue : ∀ {h} name durable exclusive autoDelete args, P h →
    P (h.declareQueue name durable exclusive autoDelete args).2
  deleteQueue : ∀ {h} name, P h → P (h.deleteQueue name)
  bind : ∀ {h} ename qname key, P h → P (h.bind ename qname key).2
  unBind : ∀ {h} ename qname, P h → P (h.unBind ename qname)
  basicPublish : ∀ {h} qname bp body uuid, P h → P (h.basicPublish qname bp body uuid).2
  basicAck : ∀ {h} qname msgId, P h → P (h.basicAck qname msgId)

/-- The same without the declaration of an exchange. -/
structure VirtualHost.KeepsUndeclared (P : VirtualHost → Prop) : Prop where
  deleteExchange : ∀ {h} name, P h → P (h.deleteExchange name)
  declareQueue : ∀ {h} name durable exclusive autoDelete args, P h →
    P (h.declareQueue name durable exclusive autoDelete args).2
  deleteQueue : ∀ {h} name, P h → P (h.deleteQueue name)
  bind : ∀ {h} ename qname key, P h → P (h.bind ename qname key).2
  unBind : ∀ {h} ename qname, P h → P (h.unBind ename qname)
  basicPublish : ∀ {h} qname bp body uuid, P h → P (h.basicPublish qname bp body uuid).2
  basicAck : ∀ {h} qname msgId, P h → P (h.basicAck qname msgId)

theorem VirtualHost.Keeps.undeclared {P : VirtualHost → Prop} (keeps : VirtualHost.Keeps P) :
    VirtualHost.KeepsUndeclared P :=
  ⟨keeps.deleteExchange,keeps.declareQueue,keeps.deleteQueue,keeps.bind,keeps.unBind,
    keeps.basicPublish,keeps.basicAck⟩

namespace Channel
variable {c : ChannelRef} {type : ExchangeType} {routingKey body : String}
  {bp : Option BasicProperties} {uuid : String → String}
  {bs : List (Sigma fun _ : String => Binding)} {b b' : Broker}

/-- The rule of the loop: what each round keeps, the loop keeps. -/
theorem publishLoop_invariant {P : Broker → Prop}
    (round : ∀ b qname, P b → P {b with
      host := (b.host.basicPublish qname bp body (uuid qname)).2
      pool := b.pool ++ [⟨c,qname⟩]})
    (h : publishLoop c type routingKey bp body uuid bs b = some b') (start : P b) : P b' := by
  induction bs generalizing b with
  | nil =>
    rw [publishLoop,Option.some.injEq] at h
    exact h ▸ start
  | cons binding bs ih =>
    obtain ⟨qname,binding⟩ := binding
    rw [publishLoop] at h
    split at h
    · cases h
    · exact ih h start
    · exact ih h (round b qname start)

/-- A publish request ends with the loop, or does nothing. -/
theorem basicPublish_cases {c : Channel} {rid cid ename : String} {it : Iteration}
    {r : Broker × Response}
    (h : c.basicPublish b rid cid ename body bp it uuid = some r) :
    r.1 = b ∨ ∃ (type : ExchangeType) (routingKey : String)
      (bs : List (Sigma fun _ : String => Binding)),
      publishLoop c.self type routingKey bp body uuid bs b = some r.1 := by
  unfold basicPublish at h
  split at h
  · rw [Option.some.injEq] at h
    exact .inl (by rw [← h])
  · obtain ⟨b',hb',rfl⟩ := Option.map_eq_some_iff.mp h
    exact .inr ⟨_,_,_,hb'⟩

end Channel

/-- What a new host is made of: the three managers, one after the other on the database, and a
message handle for each queue. -/
theorem VirtualHost.construct_parts {basedir : String} {it : Iteration} {disk : Disk}
    {db : Database} {h : VirtualHost} (hc : VirtualHost.construct basedir it disk db = some h) :
    ∃ d₁ d₂, ExchangeManager.construct db = some (h.exchanges,d₁) ∧
      QueueManager.construct d₁ = some (h.queues,d₂) ∧
      BindingManager.construct d₂ = some (h.bindings,h.db) ∧
      (it.order h.queues.keys).foldl (fun r qname => r.1.initQueueMessage r.2 qname)
        (MessageManager.new basedir,disk) = (h.messages,h.disk) := by
  unfold VirtualHost.construct at hc
  cases he : ExchangeManager.construct db with
  | none => simp [he] at hc
  | some e =>
    obtain ⟨exchanges,d₁⟩ := e
    simp only [he] at hc
    cases hq : QueueManager.construct d₁ with
    | none => simp [hq] at hc
    | some q =>
      obtain ⟨queues,d₂⟩ := q
      simp only [hq] at hc
      cases hb : BindingManager.construct d₂ with
      | none => simp [hb] at hc
      | some b =>
        obtain ⟨bindings,d₃⟩ := b
        simp only [hb,Option.some.injEq] at hc
        subst hc
        exact ⟨d₁,d₂,rfl,hq,hb,rfl⟩

/-- The message manager of a new host has what its constructor makes and `initQueueMessage`
keeps. -/
theorem VirtualHost.construct_messages {P : MessageManager → Prop} {basedir : String}
    {it : Iteration} {disk : Disk} {db : Database} {h : VirtualHost}
    (hc : VirtualHost.construct basedir it disk db = some h) (new : P (.new basedir))
    (init : ∀ m d n, P m → P (m.initQueueMessage d n).1) : P h.messages := by
  obtain ⟨-,-,-,-,-,hm⟩ := VirtualHost.construct_parts hc
  have hloop := List.foldlRecOn (motive := fun r : MessageManager × Disk => P r.1)
    (it.order h.queues.keys) (fun r n => r.1.initQueueMessage r.2 n) (b := (.new basedir,disk)) new
    fun r hr n _ => init r.1 r.2 n hr
  rw [hm] at hloop
  exact hloop

namespace Broker
variable {b : Broker} {conn : ℕ} {req : Request} {it : Iteration} {uuid : String → String}

/-- A process starts on a blank database, whatever is on the disk. -/
theorem construct_blank (basedir : String) (it : Iteration) (disk : Disk) :
    ∃ b, construct basedir it disk {} = some b := ⟨_,rfl⟩

@[simp] theorem destroyChannel_host (c : Channel) : (b.destroyChannel c).host = b.host := by
  unfold destroyChannel
  split <;> rfl

@[simp] theorem destroyChannel_pool (c : Channel) : (b.destroyChannel c).pool = b.pool := by
  unfold destroyChannel
  split <;> rfl

@[simp] theorem destroyChannel_running (c : Channel) :
    (b.destroyChannel c).running = b.running := by
  unfold destroyChannel
  split <;> rfl

/-- A lost connection keeps what the destructor of a channel keeps. -/
theorem delConnection_keeps {P : Broker → Prop} (destroy : ∀ b c, P b → P (b.destroyChannel c))
    (h : P {b with connections := b.connections.erase conn}) : P (b.delConnection conn it) :=
  List.foldlRecOn _ _ h fun b hb e _ => destroy b e.2 hb

/-- A lost connection leaves the host and the tasks alone. -/
theorem delConnection_frame (b : Broker) (conn : ℕ) (it : Iteration) :
    (b.delConnection conn it).host = b.host ∧
    (b.delConnection conn it).pool = b.pool ∧ (b.delConnection conn it).running = b.running := by
  refine delConnection_keeps (P := fun x => x.host = b.host ∧ x.pool = b.pool ∧
    x.running = b.running) (fun x c hx => ?_) ⟨rfl,rfl,rfl⟩
  simpa using hx

end Broker

/-- The requests whose handler pushes tasks. -/
def Request.IsPublish : Request → Prop
  | .basicPublish .. => True
  | _ => False

namespace Channel
variable {c : Channel} {b : Broker} {it : Iteration} {uuid : String → String} {req : Request}
  {r : Broker × Response}

/-- What no handler touches, and what only a publish request does. -/
theorem serve_frame (h : c.serve b it uuid req = some r) : r.1.running = b.running ∧
    r.1.fresh = b.fresh ∧ (¬ req.IsPublish → r.1.pool = b.pool) := by
  cases req with
  | basicPublish rid cid ename body bp =>
    have hkept : r.1.running = b.running ∧ r.1.fresh = b.fresh := by
      rcases basicPublish_cases h with h | ⟨type,key,bs,h⟩
      · rw [h]
        exact ⟨rfl,rfl⟩
      · exact publishLoop_invariant
          (P := fun b' => b'.running = b.running ∧ b'.fresh = b.fresh) (fun _ _ same => same) h
          ⟨rfl,rfl⟩
    exact ⟨hkept.1,hkept.2,fun hreq => absurd trivial hreq⟩
  | declareQueue rid cid name exclusive durable autoDelete args =>
    cases h
    simp only [Channel.declareQueue]
    split <;> exact ⟨rfl,rfl,fun _ => rfl⟩
  | basicConsume rid cid ctag qname autoAck =>
    cases h
    simp only [Channel.basicConsume]
    split <;> exact ⟨rfl,rfl,fun _ => rfl⟩
  | openChannel => cases h
  | closeChannel => cases h
  | declareExchange => cases h; exact ⟨rfl,rfl,fun _ => rfl⟩
  | deleteExchange => cases h; exact ⟨rfl,rfl,fun _ => rfl⟩
  | deleteQueue => cases h; exact ⟨rfl,rfl,fun _ => rfl⟩
  | queueBind => cases h; exact ⟨rfl,rfl,fun _ => rfl⟩
  | queueUnBind => cases h; exact ⟨rfl,rfl,fun _ => rfl⟩
  | basicAck => cases h; exact ⟨rfl,rfl,fun _ => rfl⟩
  | basicCancel => cases h; exact ⟨rfl,rfl,fun _ => rfl⟩

theorem serve_running (h : c.serve b it uuid req = some r) : r.1.running = b.running :=
  (serve_frame h).1

theorem serve_fresh (h : c.serve b it uuid req = some r) : r.1.fresh = b.fresh :=
  (serve_frame h).2.1

theorem serve_pool (h : c.serve b it uuid req = some r) (hreq : ¬ req.IsPublish) :
    r.1.pool = b.pool := (serve_frame h).2.2 hreq

/-- Each handler is one operation of the host, or several of the same kind. -/
theorem serve_keeps_of {P : VirtualHost → Prop} (keeps : VirtualHost.KeepsUndeclared P)
    (declare : ∀ {rid cid name type durable autoDelete args},
      req = .declareExchange rid cid name type durable autoDelete args →
      P (b.host.declareExchange name type durable autoDelete args).2)
    (h : c.serve b it uuid req = some r) (start : P b.host) : P r.1.host := by
  cases req with
  | basicPublish rid cid ename body bp =>
    rcases basicPublish_cases h with h | ⟨type,key,bs,h⟩
    · rwa [h]
    · exact publishLoop_invariant (P := fun b => P b.host)
        (fun _ _ => keeps.basicPublish _ _ _ _) h start
  | declareQueue rid cid name exclusive durable autoDelete args =>
    cases h
    simp only [Channel.declareQueue]
    split <;> exact keeps.declareQueue _ _ _ _ _ start
  | basicConsume rid cid ctag qname autoAck =>
    cases h
    simp only [Channel.basicConsume]
    split <;> exact start
  | openChannel => cases h
  | closeChannel => cases h
  | declareExchange => cases h; exact declare rfl
  | deleteExchange => cases h; exact keeps.deleteExchange _ start
  | deleteQueue => cases h; exact keeps.deleteQueue _ start
  | queueBind => cases h; exact keeps.bind _ _ _ start
  | queueUnBind => cases h; exact keeps.unBind _ _ start
  | basicAck => cases h; exact keeps.basicAck _ _ start
  | basicCancel => cases h; exact start

end Channel

namespace Broker
variable {b : Broker} {conn : ℕ} {req : Request} {it : Iteration} {uuid : String → String}
  {r : Broker × Option Response}

/-- A request is served by a channel, or touches at most the channels themselves. -/
theorem handle_cases (h : b.handle conn req it uuid = some r) :
    (r.1.host = b.host ∧ r.1.pool = b.pool ∧ r.1.running = b.running) ∨
      ∃ (c : Channel) (x : Broker × Response), c.serve b it uuid req = some x ∧ r.1 = x.1 := by
  unfold handle at h
  split at h
  · cases h; exact .inl ⟨rfl,rfl,rfl⟩
  · split at h
    · cases h
      refine .inl ?_
      simp only [openChannel]
      split <;> exact ⟨rfl,rfl,rfl⟩
    · cases h
      refine .inl ?_
      simp only [closeChannel]
      split
      · exact ⟨rfl,rfl,rfl⟩
      · simp
    · split at h
      · cases h; exact .inl ⟨rfl,rfl,rfl⟩
      · obtain ⟨x,hx,rfl⟩ := Option.map_eq_some_iff.mp h
        exact .inr ⟨_,x,hx,rfl⟩

theorem handle_running (h : b.handle conn req it uuid = some r) : r.1.running = b.running := by
  rcases handle_cases h with h | ⟨c,x,hx,he⟩
  · exact h.2.2
  · rw [he]; exact Channel.serve_running hx

theorem handle_pool (h : b.handle conn req it uuid = some r) (hreq : ¬ req.IsPublish) :
    r.1.pool = b.pool := by
  rcases handle_cases h with h | ⟨c,x,hx,he⟩
  · exact h.2.1
  · rw [he]; exact Channel.serve_pool hx hreq

theorem handle_keeps_of {P : VirtualHost → Prop} (keeps : VirtualHost.KeepsUndeclared P)
    (declare : ∀ {rid cid name type durable autoDelete args},
      req = .declareExchange rid cid name type durable autoDelete args →
      P (b.host.declareExchange name type durable autoDelete args).2)
    (h : b.handle conn req it uuid = some r) (start : P b.host) : P r.1.host := by
  rcases handle_cases h with h | ⟨c,x,hx,he⟩
  · rw [h.1]; exact start
  · rw [he]; exact Channel.serve_keeps_of keeps declare hx start

theorem handle_keeps {P : VirtualHost → Prop} (keeps : VirtualHost.Keeps P)
    (h : b.handle conn req it uuid = some r) (start : P b.host) : P r.1.host :=
  handle_keeps_of keeps.undeclared (fun _ => keeps.declareExchange _ _ _ _ _ start) h start

/-- A worker that begins a task takes it from the pool, and keeps what it took off the queue. -/
theorem take_cases {i : ℕ} {b' : Broker} (h : b.take i = some b') :
    ∃ task, b.pool[i]? = some task ∧ b' = {b with
      pool := b.pool.eraseIdx i
      host := (b.host.basicConsume task.qname).2
      running := b.running ++ ((b.host.basicConsume task.qname).1.map (.took task)).toList} := by
  unfold take at h
  split at h
  · cases h
  · next task hi =>
    refine ⟨task,hi,?_⟩
    cases hc : (b.host.basicConsume task.qname).1 with
    | none => simp only [hc] at h; cases h; simp
    | some m => simp only [hc] at h; cases h; simp

/-- What a task makes of its message when it has looked for a consumer. -/
def delivery (cp : Consumer) (m : MessageManager.Taken) : Consumer × Response :=
  (cp,.consume cp.callback.id cp.consumerTag m.payload.body (some m.payload.props))

/-- A task that looks for a consumer ends without one, or calls it. -/
theorem choose_cases {i : ℕ} {r : Broker × Option (Consumer × Response)}
    (h : b.choose i = some r) : ∃ task m, b.running[i]? = some (.took task m) ∧
      ((b.consumers.chooseConsumer task.qname).1 = none ∧ r = ({b with
          consumers := (b.consumers.chooseConsumer task.qname).2
          running := b.running.eraseIdx i},none) ∨
        ∃ cp, (b.consumers.chooseConsumer task.qname).1 = some cp ∧ r = ({b with
          consumers := (b.consumers.chooseConsumer task.qname).2
          running := if cp.autoAck then b.running.set i (.called task m)
            else b.running.eraseIdx i},some (delivery cp m))) := by
  unfold choose at h
  split at h
  · next task m hi =>
    refine ⟨task,m,hi,?_⟩
    cases hc : (b.consumers.chooseConsumer task.qname).1 with
    | none => simp only [hc] at h; cases h; exact .inl ⟨rfl,rfl⟩
    | some cp => simp only [hc] at h; cases h; exact .inr ⟨cp,rfl,rfl⟩
  · cases h

theorem autoAck_cases {i : ℕ} {b' : Broker} (h : b.autoAck i = some b') :
    ∃ task m, b.running[i]? = some (.called task m) ∧ b' = {b with
      host := b.host.basicAck task.qname m.payload.id
      running := b.running.eraseIdx i} := by
  unfold autoAck at h
  split at h
  · next task m hi => cases h; exact ⟨task,m,hi,rfl⟩
  · cases h

/-- The broker as a transition system. -/
def system : Lts Broker Event := .ofPartial step

/-- The rule for all steps: beside the handlers there are the deliveries and the restart. -/
theorem step_keeps_of {P : VirtualHost → Prop} (keeps : VirtualHost.KeepsUndeclared P)
    {b b' : Broker} {ev : Event} (h : b.step ev = some b') (start : P b.host)
    (declare : ∀ {conn rid cid name type durable autoDelete args it uuid},
      ev = .request conn (.declareExchange rid cid name type durable autoDelete args) it uuid →
      P (b.host.declareExchange name type durable autoDelete args).2)
    (consume : ∀ qname, P b.host → P (b.host.basicConsume qname).2)
    (restart : ∀ it host, VirtualHost.construct b.basedir it b.host.disk b.host.db = some host →
      P host) : P b'.host := by
  cases ev with
  | connect conn => cases h; exact start
  | disconnect conn it =>
    cases h
    rw [(b.delConnection_frame conn it).1]
    exact start
  | request conn req it uuid =>
    obtain ⟨r,hx,rfl⟩ := Option.map_eq_some_iff.mp h
    exact handle_keeps_of keeps (fun e => declare (by rw [e])) hx start
  | take i =>
    obtain ⟨task,-,rfl⟩ := take_cases h
    exact consume _ start
  | choose i =>
    obtain ⟨r,hx,rfl⟩ := Option.map_eq_some_iff.mp h
    obtain ⟨task,m,-,⟨-,rfl⟩ | ⟨cp,-,rfl⟩⟩ := choose_cases hx
    · exact start
    · exact start
  | autoAck i =>
    obtain ⟨task,m,-,rfl⟩ := autoAck_cases h
    exact keeps.basicAck _ _ start
  | restart it =>
    obtain ⟨host,hhost,rfl⟩ := Option.map_eq_some_iff.mp h
    exact restart it host hhost

theorem step_keeps {P : VirtualHost → Prop} (keeps : VirtualHost.Keeps P) {b b' : Broker}
    {ev : Event} (h : b.step ev = some b') (start : P b.host)
    (consume : ∀ qname, P b.host → P (b.host.basicConsume qname).2)
    (restart : ∀ it host, VirtualHost.construct b.basedir it b.host.disk b.host.db = some host →
      P host) : P b'.host :=
  step_keeps_of keeps.undeclared h start (fun _ => keeps.declareExchange _ _ _ _ _ start) consume
    restart

end Broker

/-- A client that has opened a channel, and set up an exchange with one queue. -/
def tradeSetup : List Event :=
  [.connect 1,
    .request 1 (.openChannel "r1" "c1") .listed fun _ => "u1",
    .request 1 (.declareExchange "r2" "c1" "trade" .topic true false ∅) .listed fun _ => "u2",
    .request 1 (.declareQueue "r3" "c1" "orders" false true false ∅) .listed fun _ => "u3",
    .request 1 (.queueBind "r4" "c1" "trade" "orders" "order.#") .listed fun _ => "u4"]

end MessageQueue

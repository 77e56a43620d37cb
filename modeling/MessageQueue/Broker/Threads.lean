import MessageQueue.Broker.Ownership
import MessageQueue.Server.ThreadPool

/-! The steps of the threads. What a step can be is said once, and the event loop by itself does
what the handlers of the broker do in one go. -/
namespace MessageQueue
open Base

namespace Threads

def system : Lts Threads Move := .ofPartial step

section Cases
variable {s s' : Threads} {i conn : ℕ} {req : Request} {it : Iteration}
  {uuid : String → String}

/-- The event loop begins with an event when it is idle. -/
theorem connect_cases (h : s.step (.connect conn) = some s') :
    s.handling = .idle ∧ s' = {s with broker := s.broker.newConnection conn} := by
  simp only [step] at h
  split at h
  · next hi => exact ⟨hi,(Option.some.inj h).symm⟩
  · cases h

theorem disconnect_cases (h : s.step (.disconnect conn it) = some s') :
    s.handling = .idle ∧ s' = s.disconnect conn it := by
  simp only [step] at h
  split at h
  · next hi => exact ⟨hi,(Option.some.inj h).symm⟩
  · cases h

theorem request_idle (h : s.step (.request conn req it uuid) = some s') :
    s.handling = .idle ∧ s.request conn req it uuid = some s' := by
  simp only [step] at h
  split at h
  · next hi => exact ⟨hi,h⟩
  · cases h

theorem swap_cases (h : s.swap i = some s') : s.workers[i]? = some ⟨[],none⟩ ∧ s' = {s with
    broker := {s.broker with pool := []}
    workers := s.workers.set i ⟨s.broker.pool,none⟩} := by
  unfold swap at h
  split at h
  · next hi =>
    split at h
    · cases h
    · exact ⟨hi,(Option.some.inj h).symm⟩
  · cases h

theorem front_cases (h : s.front i = some s') : ∃ task batch,
    s.workers[i]? = some ⟨task::batch,none⟩ ∧ s' = {s with
      broker := {s.broker with host := (s.broker.host.basicConsume task.qname).2}
      workers := s.workers.set i
        ⟨batch,(s.broker.host.basicConsume task.qname).1.map fun m => (task,.took m)⟩} := by
  unfold front at h
  split at h
  · next task batch hi => exact ⟨task,batch,hi,(Option.some.inj h).symm⟩
  · cases h

theorem find_cases (h : s.find i = some s') : ∃ task batch m,
    s.workers[i]? = some ⟨batch,some (task,.took m)⟩ ∧ s' = {s with
      workers := s.workers.set i ⟨batch,
        (s.broker.consumers.lookup task.qname).map fun _ => (task,.found m none)⟩} := by
  unfold find at h
  split at h
  · next batch task m hi => exact ⟨task,batch,m,hi,(Option.some.inj h).symm⟩
  · cases h

/-- The unit is the manager's, or that of a deleted queue. -/
theorem choose_cases (h : s.choose i = some s') :
    (∃ task batch m, s.workers[i]? = some ⟨batch,some (task,.found m none)⟩ ∧ s' = {s with
      broker := {s.broker with consumers := (s.broker.consumers.chooseConsumer task.qname).2}
      workers := s.workers.set i ⟨batch,
        (s.broker.consumers.chooseConsumer task.qname).1.map fun cp => (task,.chose m cp)⟩}) ∨
    (∃ task batch m k qcp, s.workers[i]? = some ⟨batch,some (task,.found m (some k))⟩ ∧
      s.detached[k]? = some qcp ∧ s' = {s with
        workers := s.workers.set i ⟨batch,qcp.choose.1.map fun cp => (task,.chose m cp)⟩
        detached := s.detached.set k qcp.choose.2}) := by
  unfold choose at h
  split at h
  · next batch task m hi => exact .inl ⟨task,batch,m,hi,(Option.some.inj h).symm⟩
  · next batch task m k hi =>
    obtain ⟨qcp,hk,rfl⟩ := Option.map_eq_some_iff.mp h
    exact .inr ⟨task,batch,m,k,qcp,hi,hk,rfl⟩
  · cases h

theorem callback_cases (h : s.callback i = some s') : ∃ task batch m cp,
    s.workers[i]? = some ⟨batch,some (task,.chose m cp)⟩ ∧ s' = {s with
      workers := s.workers.set i ⟨batch,if cp.autoAck then some (task,.called m) else none⟩
      pushed := s.pushed ++ [⟨task.qname,m,cp⟩]} := by
  unfold callback at h
  split at h
  · next batch task m cp hi => exact ⟨task,batch,m,cp,hi,(Option.some.inj h).symm⟩
  · cases h

theorem autoAck_cases (h : s.autoAck i = some s') : ∃ task batch m,
    s.workers[i]? = some ⟨batch,some (task,.called m)⟩ ∧ s' = {s with
      broker := {s.broker with host := s.broker.host.basicAck task.qname m.payload.id}
      workers := s.workers.set i ⟨batch,none⟩} := by
  unfold autoAck at h
  split at h
  · next batch task m hi => exact ⟨task,batch,m,hi,(Option.some.inj h).symm⟩
  · cases h

/-- A round puts a message into a queue, pushes a task, destroys a channel, or only looks on. -/
theorem round_cases (h : s.round = some s') :
    (∃ handling, (∀ cs, handling = .closing cs → s.handling = .closing cs) ∧
      (∀ job', handling = .publishing job' →
        ∃ job, s.handling = .publishing job ∧ job'.channel = job.channel) ∧
      s' = {s with handling := handling}) ∨
    (∃ job qname, s.handling = .publishing job ∧ s' = {s with
      broker := {s.broker with pool := s.broker.pool ++ [⟨job.channel,qname⟩]}
      handling := .publishing {job with stored := none}}) ∨
    (∃ job qname rest, s.handling = .publishing job ∧ s' = {s with
      broker := {s.broker with host :=
        (s.broker.host.basicPublish qname job.properties job.body (job.uuid qname)).2}
      handling := .publishing {job with rest := rest, stored := some qname}}) ∨
    (∃ c cs, s.handling = .closing (c::cs) ∧ s' = {s with
      broker := s.broker.destroyChannel c
      handling := .closing cs
      destroyed := s.destroyed ++ [c.self]}) := by
  unfold round at h
  cases hh : s.handling with
  | idle => simp only [hh] at h; cases h
  | publishing job =>
    simp only [hh] at h
    split at h
    · cases h
      exact .inr (.inl ⟨job,_,rfl,rfl⟩)
    · split at h
      · cases h
        exact .inl ⟨.idle,by simp,by simp,rfl⟩
      · split at h
        · cases h
        · cases h
          exact .inl ⟨_,by simp,fun job' hj => ⟨job,rfl,by cases hj; rfl⟩,rfl⟩
        · cases h
          exact .inr (.inr (.inl ⟨job,_,_,rfl,rfl⟩))
  | closing cs =>
    cases cs with
    | nil => simp only [hh] at h; cases h; exact .inl ⟨.idle,by simp,by simp,rfl⟩
    | cons c cs => simp only [hh] at h; cases h; exact .inr (.inr (.inr ⟨c,cs,rfl,rfl⟩))

/-- A handler that drops a unit leaves it to the workers that have found it. -/
theorem served_cases (s : Threads) (b : Broker) (qname : String) :
    s.served b qname = {s with broker := b} ∨
    ∃ qcp, s.broker.consumers.lookup qname = some qcp ∧ s.served b qname = {s with
      broker := b
      workers := s.workers.map fun w => w.detach qname s.detached.length
      detached := s.detached ++ [qcp]} := by
  unfold served
  split
  · next qcp hl _ => exact .inr ⟨qcp,hl,rfl⟩
  · exact .inl rfl

/-- A request begins the loop of publishing or of closing, or is handled as a whole, and then it may
drop the unit of a queue. -/
theorem request_cases (h : s.request conn req it uuid = some s') :
    s' = s ∨
    (∃ r, ¬ req.IsPublish ∧ s.broker.handle conn req it uuid = some r ∧
      (s' = {s with broker := r.1} ∨
      ∃ qname qcp, s.broker.consumers.lookup qname = some qcp ∧ s' = {s with
        broker := r.1
        workers := s.workers.map fun w => w.detach qname s.detached.length
        detached := s.detached ++ [qcp]})) ∨
    (∃ channels cid, s.broker.connections.lookup conn = some channels ∧ s' = {s with
      broker := {s.broker with
        connections := s.broker.connections.insert conn (channels.erase cid)}
      handling := .closing (channels.lookup cid).toList}) ∨
    (∃ channels cid c job, s.broker.connections.lookup conn = some channels ∧
      channels.lookup cid = some c ∧ job.channel = c.self ∧
      s' = {s with handling := .publishing job}) := by
  unfold request at h
  cases hl : s.broker.connections.lookup conn with
  | none => simp only [hl] at h; cases h; exact .inl rfl
  | some channels =>
    simp only [hl] at h
    cases req with
    | closeChannel rid cid => cases h; exact .inr (.inr (.inl ⟨channels,cid,rfl,rfl⟩))
    | basicPublish rid cid ename body properties =>
      simp only at h
      cases hc : channels.lookup cid with
      | none => simp only [hc] at h; cases h; exact .inl rfl
      | some c =>
        simp only [hc] at h
        cases he : s.broker.host.selectExchange ename with
        | none => simp only [he] at h; cases h; exact .inl rfl
        | some ep =>
          simp only [he] at h
          cases h
          exact .inr (.inr (.inr ⟨channels,cid,c,_,rfl,hc,rfl,rfl⟩))
    | deleteQueue rid cid qname =>
      obtain ⟨r,hr,rfl⟩ := Option.map_eq_some_iff.mp h
      refine .inr (.inl ⟨r,id,hr,(s.served_cases r.1 qname).imp_right fun hex => ?_⟩)
      obtain ⟨qcp,hl,hs⟩ := hex
      exact ⟨qname,qcp,hl,hs⟩
    | _ =>
      obtain ⟨r,hr,rfl⟩ := Option.map_eq_some_iff.mp h
      exact .inr (.inl ⟨r,id,hr,.inl rfl⟩)

end Cases
section Alone
variable {s : Threads}

/-- The rounds of publishing, when no worker comes between. -/
theorem publishing_alone (job : Publishing) {b b' : Broker}
    (h : Channel.publishLoop job.channel job.type job.routingKey job.properties job.body job.uuid
      job.rest b = some b') (hs : job.stored = none) :
    ∃ n, system.Run {s with broker := b, handling := .publishing job} (List.replicate n .round)
      {s with broker := b', handling := .idle} := by
  obtain ⟨c,type,key,bp,body,uuid,rest,stored⟩ := job
  simp only at h hs
  subst hs
  induction rest generalizing b with
  | nil =>
    cases h
    exact ⟨1,.single rfl⟩
  | cons e rest ih =>
    obtain ⟨qname,binding⟩ := e
    rw [Channel.publishLoop] at h
    cases hr : RouteManager.route type key binding.bindingKey with
    | none => simp only [hr] at h; cases h
    | some matched =>
      simp only [hr] at h
      cases matched with
      | false =>
        obtain ⟨n,run⟩ := ih h
        have first : system.Run {s with
            broker := b
            handling := .publishing ⟨c,type,key,bp,body,uuid,⟨qname,binding⟩::rest,none⟩} [.round]
            {s with
              broker := b
              handling := .publishing ⟨c,type,key,bp,body,uuid,rest,none⟩} :=
          .single (by simp [system,Lts.ofPartial,step,round,hr])
        exact ⟨n+1,first.append run⟩
      | true =>
        obtain ⟨n,run⟩ := ih h
        have first : system.Run {s with
            broker := b
            handling := .publishing ⟨c,type,key,bp,body,uuid,⟨qname,binding⟩::rest,none⟩}
            [.round,.round] {s with
              broker := {b with
                host := (b.host.basicPublish qname bp body (uuid qname)).2
                pool := b.pool ++ [⟨c,qname⟩]}
              handling := .publishing ⟨c,type,key,bp,body,uuid,rest,none⟩} :=
          .of_foldlM (by simp [step,round,hr])
        exact ⟨n+2,first.append run⟩

/-- The rounds of closing. -/
theorem closing_alone (cs : List Channel) (b : Broker) (gone : List ChannelRef) :
    ∃ n, system.Run {s with broker := b, handling := .closing cs, destroyed := gone}
      (List.replicate n .round) {s with
        broker := cs.foldl Broker.destroyChannel b
        handling := .idle
        destroyed := gone ++ cs.map Channel.self} := by
  induction cs generalizing b gone with
  | nil =>
    refine ⟨1,.single ?_⟩
    simp [system,Lts.ofPartial,step,round]
  | cons c cs ih =>
    obtain ⟨n,run⟩ := ih (b.destroyChannel c) (gone ++ [c.self])
    rw [List.append_assoc] at run
    have first : system.Run {s with broker := b, handling := .closing (c::cs), destroyed := gone}
        [.round] {s with
          broker := b.destroyChannel c
          handling := .closing cs
          destroyed := gone ++ [c.self]} := .single rfl
    exact ⟨n+1,first.append run⟩

/-- The step by which the event loop begins with an event. -/
def begins : Event → Option Move
  | .connect conn => some (.connect conn)
  | .disconnect conn it => some (.disconnect conn it)
  | .request conn req it uuid => some (.request conn req it uuid)
  | _ => none

variable {b : Broker} {workers : List Worker} {gone : List ChannelRef} {pushed : List Push}
  {units : List QueueConsumer}
  {conn : ℕ} {cid : String} {it : Iteration} {uuid : String → String} {channels : ChannelManager}

theorem closeChannel_alone (rid : String) (it : Iteration) (uuid : String → String)
    (hl : b.connections.lookup conn = some channels) :
    ∃ n, system.Run ⟨b,.idle,workers,gone,pushed,units⟩
      (.request conn (.closeChannel rid cid) it uuid::List.replicate n .round)
      ⟨(b.closeChannel conn channels rid cid).1,.idle,workers,
        gone ++ (channels.lookup cid).toList.map Channel.self,pushed,units⟩ := by
  let b' := {b with connections := b.connections.insert conn (channels.erase cid)}
  obtain ⟨n,run⟩ := closing_alone (s := ⟨b,.idle,workers,gone,pushed,units⟩)
    (channels.lookup cid).toList b' gone
  have hdestroyed : (b.closeChannel conn channels rid cid).1 =
      (channels.lookup cid).toList.foldl Broker.destroyChannel b' := by
    unfold Broker.closeChannel
    cases channels.lookup cid <;> rfl
  rw [hdestroyed]
  refine ⟨n,(Lts.Run.single ?_).append run⟩
  simp [system,Lts.ofPartial,step,request,hl,b']

theorem basicPublish_alone {rid ename body : String} {properties : Option BasicProperties}
    {c : Channel} {x : Broker × Response} (hl : b.connections.lookup conn = some channels)
    (hc : channels.lookup cid = some c)
    (hx : c.serve b it uuid (.basicPublish rid cid ename body properties) = some x) :
    ∃ n, system.Run ⟨b,.idle,workers,gone,pushed,units⟩
      (.request conn (.basicPublish rid cid ename body properties) it uuid::
        List.replicate n .round) ⟨x.1,.idle,workers,gone,pushed,units⟩ := by
  simp only [Channel.serve,Channel.basicPublish] at hx
  cases he : b.host.selectExchange ename with
  | none =>
    simp only [he] at hx
    cases hx
    refine ⟨0,.single ?_⟩
    simp [system,Lts.ofPartial,step,request,hl,hc,he]
  | some ep =>
    simp only [he] at hx
    obtain ⟨b',hb',rfl⟩ := Option.map_eq_some_iff.mp hx
    obtain ⟨n,run⟩ := publishing_alone (s := ⟨b,.idle,workers,gone,pushed,units⟩)
      ⟨c.self,ep.type,_,properties,body,uuid,_,none⟩ hb' rfl
    refine ⟨n,(Lts.Run.single ?_).append run⟩
    cases properties <;> simp [system,Lts.ofPartial,step,request,hl,hc,he]

/-- A request, from its arrival until the event loop is done with it. Only a worker that has found
the unit of a deleted queue sees a difference. -/
theorem request_alone {req : Request} {r : Broker × Option Response}
    (h : b.handle conn req it uuid = some r) :
    ∃ n workers' units', system.Run ⟨b,.idle,workers,gone,pushed,units⟩
      (.request conn req it uuid::List.replicate n .round) ⟨r.1,.idle,workers',
        gone ++ (b.closing (.request conn req it uuid)).map Channel.self,pushed,units'⟩ := by
  have hwhole : ∀ b', (⟨b,.idle,workers,gone,pushed,units⟩ : Threads).request conn req it uuid =
      some ⟨b',.idle,workers,gone,pushed,units⟩ →
      b.closing (.request conn req it uuid) = [] →
      r.1 = b' → ∃ n workers' units', system.Run ⟨b,.idle,workers,gone,pushed,units⟩
        (.request conn req it uuid::List.replicate n .round) ⟨r.1,.idle,workers',
          gone ++ (b.closing (.request conn req it uuid)).map Channel.self,pushed,units'⟩ := by
    rintro b' hreq hclosing rfl
    rw [hclosing,List.map_nil,List.append_nil]
    exact ⟨0,_,_,.single hreq⟩
  have hhandle := h
  unfold Broker.handle at h
  cases hl : b.connections.lookup conn with
  | none =>
    simp only [hl] at h
    cases h
    refine hwhole b (by simp [request,hl]) ?_ rfl
    cases req <;> simp [Broker.closing,Broker.channelAt,hl]
  | some channels =>
    simp only [hl] at h
    cases req with
    | closeChannel rid cid =>
      cases h
      have hclosing : b.closing (.request conn (.closeChannel rid cid) it uuid) =
          (channels.lookup cid).toList := by
        simp [Broker.closing,Broker.channelAt_of_lookup hl]
      rw [hclosing]
      obtain ⟨n,run⟩ := closeChannel_alone rid it uuid hl
      exact ⟨n,_,_,run⟩
    | basicPublish rid cid ename body properties =>
      have hclosing : b.closing (.request conn (.basicPublish rid cid ename body properties)
          it uuid) = [] := rfl
      cases hc : channels.lookup cid with
      | none =>
        simp only [Request.cid,hc] at h
        cases h
        exact hwhole b (by simp [request,hl,hc]) hclosing rfl
      | some c =>
        simp only [Request.cid,hc] at h
        obtain ⟨x,hx,rfl⟩ := Option.map_eq_some_iff.mp h
        rw [hclosing,List.map_nil,List.append_nil]
        obtain ⟨n,run⟩ := basicPublish_alone hl hc hx
        exact ⟨n,_,_,run⟩
    | openChannel rid cid => cases h; exact hwhole _ (by simp [request,hl,Broker.handle]) rfl rfl
    | deleteQueue rid cid qname =>
      have hreq : (⟨b,.idle,workers,gone,pushed,units⟩ : Threads).request conn
          (.deleteQueue rid cid qname) it uuid =
            some (served ⟨b,.idle,workers,gone,pushed,units⟩ r.1 qname) := by
        simp [request,hl,hhandle]
      have hclosing : b.closing (.request conn (.deleteQueue rid cid qname) it uuid) = [] := rfl
      rw [hclosing,List.map_nil,List.append_nil]
      cases served_cases ⟨b,.idle,workers,gone,pushed,units⟩ r.1 qname with
      | inl hs => exact ⟨0,_,_,.single (hreq.trans (congrArg some hs))⟩
      | inr hs =>
        obtain ⟨qcp,-,hs⟩ := hs
        exact ⟨0,_,_,.single (hreq.trans (congrArg some hs))⟩
    | _ => exact hwhole r.1 (by simp only [request,hl,Broker.handle,h]; rfl) rfl rfl

/-- Without workers the event loop takes the broker where its handler takes it. -/
theorem event_alone {ev : Event} {mv : Move} {b' : Broker} (hidle : s.handling = .idle)
    (hmv : begins ev = some mv) (h : s.broker.step ev = some b') :
    ∃ n workers units, system.Run s (mv::List.replicate n .round) {s with
      broker := b'
      workers := workers
      destroyed := s.destroyed ++ (s.broker.closing ev).map Channel.self
      detached := units} := by
  obtain ⟨b,handling,workers,gone,pushed,units⟩ := s
  simp only at hidle h ⊢
  subst hidle
  cases ev with
  | connect conn =>
    cases hmv
    cases h
    refine ⟨0,workers,units,.single ?_⟩
    simp [system,Lts.ofPartial,step,Broker.closing]
  | disconnect conn it =>
    cases hmv
    cases h
    obtain ⟨n,run⟩ := closing_alone (s := ⟨b,.idle,workers,gone,pushed,units⟩)
      (b.closing (.disconnect conn it)) {b with connections := b.connections.erase conn} gone
    have hdel : (b.closing (.disconnect conn it)).foldl Broker.destroyChannel
        {b with connections := b.connections.erase conn} = b.delConnection conn it := by
      simp only [Broker.closing,Broker.delConnection,List.foldl_map]
    rw [hdel] at run
    exact ⟨n,workers,units,(Lts.Run.single rfl).append run⟩
  | request conn req it uuid =>
    cases hmv
    obtain ⟨r,hr,rfl⟩ := Option.map_eq_some_iff.mp h
    exact request_alone hr
  | _ => cases hmv

end Alone
end Threads
end MessageQueue

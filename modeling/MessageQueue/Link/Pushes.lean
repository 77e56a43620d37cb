import MessageQueue.Broker.Subscriptions
import MessageQueue.Link.Subscribing

/-! Pushed messages. The broker may push as soon as it has registered a consumer, and the client
drops what a worker handles before the subscriber is installed. Nothing is dropped as long as no
worker handles a message of a channel on which a thread is still subscribing. -/
namespace MessageQueue
open Base Client

/-- A message pushed on the channel. -/
def Response.PushedOn (cid : String) : Response → Prop
  | .consume c .. => c = cid
  | .common .. => False

instance (cid : String) : ∀ resp : Response, Decidable (resp.PushedOn cid)
  | .consume c .. => inferInstanceAs (Decidable (c = cid))
  | .common .. => .isFalse id

@[simp] theorem Response.pushedOn_common {cid rid n : String} {ok : Bool} :
    (Response.common rid n ok).PushedOn cid ↔ False := Iff.rfl

@[simp] theorem Response.pushedOn_consume {cid n tag body : String}
    {props : Option BasicProperties} : (Response.consume n tag body props).PushedOn cid ↔ n = cid :=
  Iff.rfl

/-- A session, with the messages that the broker has pushed, the calls of callbacks, and the
subscribers that the application has given to `basicConsume`. -/
structure Traced where
  session : Session
  pushed : List Response := []
  handed : List (ℕ × Response) := []
  given : List (String × Subscriber) := []

namespace Traced

def start (b : Broker) (conn : ℕ) : Traced := {session := .start b conn}

/-- What an event pushes. -/
def sent (t : Traced) : LinkEvent → List Response
  | .choose i => t.session.pushed ((t.session.broker.choose i).bind Prod.snd)
  | _ => []

/-- The call of a callback that an event makes, if any. -/
def called (t : Traced) : LinkEvent → List (ℕ × Response)
  | .work i =>
    match t.session.client.pool[i]?,(t.session.client.work i).bind Prod.snd with
    | some task,some cb => [(cb,task.2)]
    | _,_ => []
  | _ => []

def asks : LinkEvent → List (String × Subscriber)
  | .call cid _ (.basicConsume consumerTag queueName autoAck cb) =>
    [(cid,⟨autoAck,queueName,consumerTag,cb⟩)]
  | _ => []

def step (t : Traced) (ev : LinkEvent) : Option Traced :=
  (t.session.step ev).map fun s =>
    ⟨s,t.pushed ++ t.sent ev,t.handed ++ t.called ev,t.given ++ asks ev⟩

def system : Lts Traced LinkEvent := .ofPartial step

/-- The runs in which the workers wait for the thread that subscribes on the channel. -/
def patientSystem (cid : String) : Lts Traced LinkEvent :=
  system.guarded fun t ev => t.session.Patient cid ev

/-- What was handed to a callback, what waits for a worker, and what is on the link. -/
def accounted (t : Traced) : List Response :=
  t.handed.map Prod.snd ++ t.session.client.pool.map Prod.snd ++ t.session.responses

/-- What was pushed on the channel was handed to its subscriber, the one that the application has
given to `basicConsume`, or is on its way. -/
structure Delivers (t : Traced) (cid : String) : Prop where
  conserved : (t.pushed.filter (·.PushedOn cid)).Perm (t.accounted.filter (·.PushedOn cid))
  callback : ∀ x ∈ t.handed, x.2.PushedOn cid → ∃ sub, (cid,sub) ∈ t.given ∧
    t.session.client.subscriberOf cid = some sub ∧
      ∃ body props, x = (sub.callback,.consume cid sub.subscribeQueueTag body props)

end Traced

namespace Session
variable {s s' : Session} {cid tag : String}

/-- Every message that can reach the channel is ready, and so is every one that the broker can
still push. -/
structure Watched (s : Session) (cid : String) : Prop where
  named : s.broker.Named
  ids : Ids s.flow s.client s.drawn
  steady : s.Steady cid
  registered : s.broker.consumers.Tagged s.conn cid (s.Ready cid)
  owed : ∀ resp, s.replying = some resp → ∃ rid n ok, resp = .common rid n ok
  arriving : ∀ tag body props, .consume cid tag body props ∈ s.responses → s.Ready cid tag
  tasks : ∀ task ∈ s.client.pool, ∃ tag body props, task.2 = .consume task.1 tag body props ∧
    (task.1 = cid → s.Ready cid tag)

/-- The channel of a message that is ready is there. -/
theorem Ready.exist (h : s.Ready cid tag) (hs : s.Steady cid) :
    (s.client.channels.lookup cid).isSome := by
  rcases h with ⟨sub,hsub,-⟩ | ⟨c,hc,hcid,-,-⟩
  · obtain ⟨ch,hl,-⟩ := Option.bind_eq_some_iff.mp hsub
    exact Option.isSome_of_eq_some hl
  · exact hs.client.exist c hc hcid

/-- With no thread subscribing, the subscriber of a message that is ready is there. -/
theorem Ready.subscriber (h : s.Ready cid tag) (hidle : ¬ s.client.Subscribing cid) :
    ∃ sub, s.client.subscriberOf cid = some sub ∧ sub.subscribeQueueTag = tag := by
  refine h.resolve_right ?_
  rintro ⟨c,hc,hcid,ht,-⟩
  exact hidle ⟨c,hc,hcid,Option.isSome_of_eq_some ht⟩

namespace Watched

theorem tasks_carry (h : s.Watched cid) (hc : s.Carries s' cid) : ∀ task ∈ s.client.pool,
    ∃ tag body props, task.2 = .consume task.1 tag body props ∧
      (task.1 = cid → s'.Ready cid tag) := by
  intro task hm
  obtain ⟨tag,body,props,heq,hr⟩ := h.tasks task hm
  exact ⟨tag,body,props,heq,fun hcid => hc.ready tag (hr hcid)⟩

/-- What was registered before the step is as ready after it. -/
theorem registered_carry (h : s.Watched cid) (hc : s.Carries s' cid) :
    s.broker.consumers.Tagged s.conn cid (s'.Ready cid) :=
  h.registered.mono fun _ _ hcp hconn hid => hc.ready _ (hcp hconn hid)

/-- A new subscription is registered together with the reply that grants it. -/
theorem serve (h : s.Watched cid) {req : Request} {rest : List Request} {it : Iteration}
    {uuid : String → String} {r : Broker × Option Response} (hreq : s.requests = req::rest)
    (hr : s.broker.handle s.conn req it uuid = some r) (hs' : s'.client = s.client)
    (hreplying : s'.replying = r.2) (hc : s.Carries s' cid) :
    r.1.consumers.Tagged s.conn cid (s'.Ready cid) := by
  refine (ConsumerManager.Tagged.keeps s.conn cid _).handle hr ?_ (h.registered_carry hc)
  intro ctag qname channels c hsub hq hconn hl _ hid
  cases req with
  | basicConsume rid n tag' qname' autoAck =>
    cases hsub
    obtain ⟨hn,-⟩ := h.named s.conn channels n c hconn hl
    obtain rfl : n = cid := hn.symm.trans hid
    obtain ⟨call,hcall,hcid,hrid,ht⟩ := h.steady.asked rid ctag qname autoAck (by simp [hreq])
    have hreply : r.2 = some (.common rid n true) := by
      simp only [Broker.handle,hconn,hl,Channel.serve,Channel.basicConsume,hq] at hr
      cases hr
      rfl
    refine .inr ⟨call,hs' ▸ hcall,hcid,ht,.inl ?_⟩
    simp [replies,hreplying,hreply,hcid,hrid]
  | _ => cases hsub

/-- The requests of other connections subscribe on channels of theirs. -/
theorem other (h : s.Watched cid) {ev : Event} {b : Broker} (hev : ev.Elsewhere s.conn)
    (hb : s.broker.step ev = some b) (hc : s.Carries s' cid) :
    b.consumers.Tagged s.conn cid (s'.Ready cid) := by
  refine (ConsumerManager.Tagged.keeps s.conn cid _).step hb ?_ (h.registered_carry hc)
  rintro conn req it uuid rfl ctag qname channels c - - hl hch hcon
  exact absurd ((h.named conn channels _ c hl hch).2.symm.trans hcon) hev

/-- A message is pushed to a registered consumer. -/
theorem choose (h : s.Watched cid) {i : ℕ} {r : Broker × Option (Consumer × Response)}
    (hr : s.broker.choose i = some r) (hc : s.Carries s' cid) :
    r.1.Named ∧ r.1.consumers.Tagged s.conn cid (s'.Ready cid) ∧
      ∀ tag body props, .consume cid tag body props ∈ s.pushed r.2 → s'.Ready cid tag := by
  have hreg := h.registered_carry hc
  have keeps := ConsumerManager.Tagged.keeps s.conn cid (s'.Ready cid)
  obtain ⟨task,m,-,⟨-,rfl⟩ | ⟨cp,hcp,rfl⟩⟩ := Broker.choose_cases hr
  · exact ⟨h.named,keeps.choose task.qname hreg,fun _ _ _ hm => by cases hm⟩
  · refine ⟨h.named,keeps.choose task.qname hreg,fun tag body props hm => ?_⟩
    simp only [pushed] at hm
    split_ifs at hm with hcon
    · obtain ⟨hid,rfl,-⟩ := Response.consume.injEq .. |>.mp (List.mem_singleton.mp hm)
      exact hreg.chosen hcp hcon hid.symm
    · cases hm

/-- A step that registers nothing, and sends the client nothing new. -/
theorem carry (h : s.Watched cid) (hc : s.Carries s' cid) (hst : s'.Steady cid)
    (ids : Ids s'.flow s'.client s'.drawn) (hb : s'.broker = s.broker) (hconn : s'.conn = s.conn)
    (howed : ∀ resp, s'.replying = some resp → s.replying = some resp)
    (hresp : ∀ tag body props, .consume cid tag body props ∈ s'.responses →
      .consume cid tag body props ∈ s.responses)
    (hpool : ∀ task ∈ s'.client.pool, task ∈ s.client.pool) : s'.Watched cid where
  named := hb ▸ h.named
  ids := ids
  steady := hst
  registered := by
    rw [hb,hconn]
    exact h.registered_carry hc
  owed resp hr := h.owed resp (howed resp hr)
  arriving tag body props hm := hc.ready tag (h.arriving tag body props (hresp tag body props hm))
  tasks task hm := h.tasks_carry hc task (hpool task hm)

/-- The event loop makes a task of a message. -/
theorem receive (h : s.Watched cid) {resp : Response} {rest : List Response}
    (hresp : s.responses = resp::rest) {s' : Session}
    (hs' : s' = {s with responses := rest, client := s.client.receive resp})
    (hc : s.Carries s' cid) (hst : s'.Steady cid) (ids : Ids s'.flow s'.client s'.drawn) :
    s'.Watched cid := by
  have hold := h.tasks_carry hc
  subst hs'
  refine ⟨h.named,ids,hst,h.registered_carry hc,h.owed,fun tag body props hm =>
    hc.ready tag (h.arriving tag body props ?_),?_⟩
  · rw [hresp]
    exact List.mem_cons_of_mem _ hm
  · cases resp with
    | common rid n ok =>
      exact fun task hm => hold task (Client.Connection.basicResponse_pool ▸ hm)
    | consume n tag body props =>
      intro task hm
      simp only [Client.Connection.receive,Client.Connection.consumeResponse] at hm
      split_ifs at hm
      · rcases List.mem_append.mp hm with hm | hm
        · exact hold task hm
        · rw [List.mem_singleton.mp hm]
          refine ⟨tag,body,props,rfl,fun heq => hc.ready tag (h.arriving tag body props ?_)⟩
          have heq : n = cid := heq
          simp [hresp,heq]
      · exact hold task hm

theorem step (h : s.Watched cid) {ev : LinkEvent} (hp : s.Patient cid ev) (hends : ¬ ev.Ends cid)
    (hs : s.step ev = some s') : s'.Watched cid ∧ s.Carries s' cid := by
  obtain ⟨hst,hc⟩ := h.steady.step h.ids hp hends hs
  have ids := step_ids h.ids hs
  have hcases := step_cases hs
  refine ⟨?_,hc⟩
  cases ev with
  | openChannel n rid =>
    obtain ⟨-,-,-,rfl⟩ := hcases
    exact h.carry hc hst ids rfl rfl (fun _ hr => hr) (fun _ _ _ hm => hm) fun _ hm => hm
  | call n rid api =>
    obtain ⟨-,c,-,⟨-,rfl⟩ | ⟨req,-,rfl⟩⟩ := hcases
    · exact h
    · exact h.carry hc hst ids rfl rfl (fun _ hr => hr) (fun _ _ _ hm => hm) fun _ hm => hm
  | dropChannel n rid =>
    obtain ⟨-,c,-,-,-,⟨-,rfl⟩ | ⟨req,-,rfl⟩⟩ := hcases
    · exact h.carry hc hst ids rfl rfl (fun _ hr => hr) (fun _ _ _ hm => hm) fun _ hm => hm
    · exact h.carry hc hst ids rfl rfl (fun _ hr => hr) (fun _ _ _ hm => hm) fun _ hm => hm
  | resume i =>
    obtain ⟨k,hk,rfl⟩ := hcases
    exact h.carry hc hst ids rfl rfl (fun _ hr => hr) (fun _ _ _ hm => hm)
      fun _ hm => Client.Connection.resume_pool hk ▸ hm
  | receive =>
    obtain ⟨resp,rest,hresp,hs'⟩ := hcases
    exact h.receive hresp hs' hc hst ids
  | work i =>
    obtain ⟨r,-,rfl⟩ := hcases
    exact h.carry hc hst ids rfl rfl (fun _ hr => hr) (fun _ _ _ hm => hm)
      fun _ hm => List.mem_of_mem_eraseIdx hm
  | serve it uuid =>
    obtain ⟨req,rest,r,-,hreq,hr,rfl⟩ := hcases
    refine ⟨(Broker.handle_channels h.named hr).named,ids,hst,h.serve hreq hr rfl rfl hc,
      fun resp hresp => ?_,fun tag body props hm => hc.ready tag (h.arriving tag body props hm),
      h.tasks_carry hc⟩
    obtain ⟨ok,rfl⟩ := Broker.handle_answer hr hresp
    exact ⟨_,_,ok,rfl⟩
  | reply =>
    obtain ⟨resp,hresp,rfl⟩ := hcases
    obtain ⟨rid,n,ok,rfl⟩ := h.owed resp hresp
    exact h.carry hc hst ids rfl rfl (fun _ hr => by cases hr)
      (fun tag body props hm => by simpa using hm) fun _ hm => hm
  | choose i =>
    obtain ⟨r,hr,rfl⟩ := hcases
    obtain ⟨hn,hreg,hpush⟩ := h.choose hr hc
    refine ⟨hn,ids,hst,hreg,h.owed,fun tag body props hm => ?_,h.tasks_carry hc⟩
    rcases List.mem_append.mp hm with hm | hm
    · exact hc.ready tag (h.arriving tag body props hm)
    · exact hpush tag body props hm
  | other ev =>
    obtain ⟨hev,b,hb,rfl⟩ := hcases
    exact ⟨Broker.step_named h.named hb,ids,hst,h.other hev hb hc,h.owed,
      fun tag body props hm => hc.ready tag (h.arriving tag body props hm),h.tasks_carry hc⟩

end Watched
end Session

/-- Every subscriber, installed or waited for, was given. -/
structure Given (k : Client.Connection) (given : List (String × Subscriber)) : Prop where
  waited : ∀ c ∈ k.calls, ∀ sub, c.pending.subscriber = some sub → (c.cid,sub) ∈ given
  installed : ∀ n sub, k.subscriberOf n = some sub → (n,sub) ∈ given

namespace Given
variable {k k' : Client.Connection} {given : List (String × Subscriber)}

theorem start : Given {} [] where
  waited := by simp
  installed n sub hs := by simp [Client.Connection.subscriberOf] at hs

theorem frame (h : Given k given)
    (hcalls : ∀ c ∈ k'.calls, c ∈ k.calls ∨ c.pending.subscriber = none)
    (hsub : ∀ n sub, k'.subscriberOf n = some sub → k.subscriberOf n = some sub) :
    Given k' given where
  waited c hc sub hs := by
    rcases hcalls c hc with hc | hnone
    · exact h.waited c hc sub hs
    · cases hnone.symm.trans hs
  installed n sub hs := h.installed n sub (hsub n sub hs)

/-- What the client goes through with the channels it has. -/
theorem resume (h : Given k given) {i : ℕ} (hr : k.resume i = some k') : Given k' given := by
  obtain ⟨call,c,ok,hi,hc,-,woken,hwoken,hcases⟩ := Client.Connection.resume_cases hr
  have hmem : call ∈ k.calls := List.mem_of_getElem? hi
  have hf : Given woken given := by
    refine ⟨fun c' hc' => ?_,fun n sub hs => ?_⟩
    · rw [hwoken] at hc'
      exact h.waited c' (List.mem_of_mem_eraseIdx hc')
    · simp only [hwoken,Client.Connection.subscriberOf] at hs
      by_cases heq : n = call.cid
      · rw [heq] at hs ⊢
        rw [AList.lookup_insert,Option.bind_some] at hs
        rcases Client.Channel.finish_from hs with hs | hs
        · exact h.installed _ sub (by simpa [Client.Connection.subscriberOf,hc] using hs)
        · exact h.waited call hmem sub hs
      · rw [AList.lookup_insert_ne heq] at hs
        exact h.installed n sub hs
  rcases hcases with ⟨-,rfl⟩ | ⟨-,rfl⟩ | ⟨api,-,rfl⟩ | ⟨-,rfl⟩
  · split_ifs
    · exact hf.frame (fun _ hc => .inl hc) fun _ _ hs => hs
    · exact hf
  · exact hf.frame (fun _ hc => .inl hc) fun _ _ hs => hs
  · exact hf
  · refine hf.frame (fun _ hc => .inl hc) fun n sub hs => ?_
    obtain ⟨ch,hl,hs⟩ := Option.bind_eq_some_iff.mp hs
    exact Option.bind_eq_some_iff.mpr ⟨ch,(Table.lookup_erase_eq_some.mp hl).2,hs⟩

theorem mono (h : Given k given) (more : List (String × Subscriber)) : Given k (given ++ more) where
  waited c hc sub hs := List.mem_append_left _ (h.waited c hc sub hs)
  installed n sub hs := List.mem_append_left _ (h.installed n sub hs)

theorem step {s s' : Session} {ev : LinkEvent} (h : Given s.client given)
    (hs : s.step ev = some s') : Given s'.client (given ++ Traced.asks ev) := by
  have hadd : ∀ {k' : Client.Connection} {c : Call}, k'.calls = s.client.calls ++ [c] →
      (∀ n sub, k'.subscriberOf n = some sub → s.client.subscriberOf n = some sub) →
      (∀ sub, c.pending.subscriber = some sub → (c.cid,sub) ∈ Traced.asks ev) →
      Given k' (given ++ Traced.asks ev) := by
    intro k' c hcalls hsub hc
    refine ⟨fun c' hc' sub hs => ?_,fun n sub hs => (h.mono _).installed n sub (hsub n sub hs)⟩
    rw [hcalls,List.mem_append,List.mem_singleton] at hc'
    rcases hc' with hc' | rfl
    · exact (h.mono _).waited c' hc' sub hs
    · exact List.mem_append_right _ (hc sub hs)
  have hcases := Session.step_cases hs
  cases ev with
  | openChannel cid rid =>
    obtain ⟨-,-,-,rfl⟩ := hcases
    refine hadd (c := ⟨cid,rid,.openChannel⟩) rfl (fun n sub hs => ?_) fun _ hs => by cases hs
    by_cases heq : n = cid
    · subst heq
      simp [Session.send,Client.Connection.subscriberOf,Client.Connection.openChannel] at hs
    · simpa [Session.send,Client.Connection.subscriberOf,Client.Connection.openChannel,
        AList.lookup_insert_ne heq] using hs
  | call cid rid api =>
    obtain ⟨-,c,-,⟨-,rfl⟩ | ⟨req,-,rfl⟩⟩ := hcases
    · exact h.mono _
    · refine hadd (c := ⟨cid,rid,.call api⟩) rfl (fun _ _ hs => hs) fun sub hs => ?_
      cases api with
      | basicConsume => cases hs; exact List.mem_singleton_self _
      | _ => cases hs
  | dropChannel cid rid =>
    obtain ⟨-,c,-,-,-,⟨-,rfl⟩ | ⟨req,-,rfl⟩⟩ := hcases
    · refine (h.mono _).frame (fun _ hc => .inl hc) fun n sub hs => ?_
      obtain ⟨ch,hl,hs⟩ := Option.bind_eq_some_iff.mp hs
      exact Option.bind_eq_some_iff.mpr ⟨ch,(Table.lookup_erase_eq_some.mp hl).2,hs⟩
    · exact hadd (c := ⟨cid,rid,.destructor⟩) rfl (fun _ _ hs => hs) fun _ hs => by cases hs
  | resume i =>
    obtain ⟨k,hk,rfl⟩ := hcases
    exact (h.mono _).resume hk
  | receive =>
    obtain ⟨resp,rest,-,rfl⟩ := hcases
    obtain ⟨hcalls,hsub⟩ := s.client.receive_frame resp
    exact (h.mono _).frame (fun _ hc => .inl (hcalls ▸ hc)) fun n _ hs => hsub n ▸ hs
  | work i =>
    obtain ⟨r,-,rfl⟩ := hcases
    exact (h.mono _).frame (fun _ hc => .inl hc) fun _ _ hs => hs
  | serve it uuid => obtain ⟨req,rest,r,-,-,-,rfl⟩ := hcases; exact h.mono _
  | reply => obtain ⟨resp,-,rfl⟩ := hcases; exact h.mono _
  | choose i => obtain ⟨r,-,rfl⟩ := hcases; exact h.mono _
  | other ev => obtain ⟨-,b,-,rfl⟩ := hcases; exact h.mono _

end Given

namespace Traced
variable {t t' : Traced} {cid : String} {ev : LinkEvent}

/-- A worker that handles a message of the channel calls the subscriber. -/
theorem called_work (hw : t.session.Watched cid) {i : ℕ} (hp : t.session.Patient cid (.work i))
    {r : Client.Connection × Option ℕ} (hr : t.session.client.work i = some r) :
    ∃ n resp, t.session.client.pool[i]? = some (n,resp) ∧
      (∀ x ∈ t.called (.work i), x.2 = resp) ∧ (resp.PushedOn cid → ∃ sub body props,
        t.session.client.subscriberOf cid = some sub ∧
          resp = .consume cid sub.subscribeQueueTag body props ∧
            t.called (.work i) = [(sub.callback,resp)]) := by
  obtain ⟨n,resp,hi,hclient,hcalls⟩ := Client.Connection.work_cases hr
  obtain ⟨tag,body,props,heq,hready⟩ := hw.tasks (n,resp) (List.mem_of_getElem? hi)
  simp only at heq
  have hcall : t.called (.work i) = (r.2.map fun cb => (cb,resp)).toList := by
    simp only [called,hi,hr,Option.bind_some]
    cases r.2 <;> rfl
  refine ⟨n,resp,hi,?_,?_⟩
  · intro x hx
    rw [hcall,Option.mem_toList] at hx
    obtain ⟨cb,-,rfl⟩ := Option.map_eq_some_iff.mp hx
    rfl
  · intro hon
    obtain rfl : n = cid := by rwa [heq] at hon
    obtain ⟨sub,hsub,ht⟩ := (hready rfl).subscriber (hp (n,resp) hi rfl)
    refine ⟨sub,body,props,hsub,by rw [heq,ht],?_⟩
    rw [hcall,hcalls tag body props heq,hsub]
    simp [ht]

/-- What a worker has handed out and what it leaves in the pool are what was there. -/
theorem called_perm (hw : t.session.Watched cid) {i : ℕ} (hp : t.session.Patient cid (.work i))
    {r : Client.Connection × Option ℕ} (hr : t.session.client.work i = some r) :
    (((t.called (.work i)).map Prod.snd).filter (·.PushedOn cid) ++
        ((t.session.client.pool.eraseIdx i).map Prod.snd).filter (·.PushedOn cid)).Perm
      ((t.session.client.pool.map Prod.snd).filter (·.PushedOn cid)) := by
  obtain ⟨n,resp,hi,hcalled,hon⟩ := called_work hw hp hr
  obtain ⟨hlt,hget⟩ := List.getElem?_eq_some_iff.mp hi
  have hpool : ((n,resp) :: t.session.client.pool.eraseIdx i).Perm t.session.client.pool := by
    rw [← hget]
    exact List.getElem_cons_eraseIdx_perm hlt
  have hone : ((t.called (.work i)).map Prod.snd).filter (·.PushedOn cid) =
      [resp].filter (·.PushedOn cid) := by
    by_cases h : resp.PushedOn cid
    · obtain ⟨sub,body,props,-,-,hcall⟩ := hon h
      rw [hcall]
      rfl
    · rw [List.filter_singleton,List.filter_eq_nil_iff.mpr]
      · simp [h]
      · intro x hx
        obtain ⟨y,hy,rfl⟩ := List.mem_map.mp hx
        simpa [hcalled y hy] using h
  rw [hone,← List.filter_append]
  exact (hpool.map Prod.snd).filter _

/-- A message of the channel that comes in is put into the pool. -/
theorem receive_pool (hw : t.session.Watched cid) {resp : Response} {rest : List Response}
    (hresp : t.session.responses = resp::rest) :
    ((t.session.client.receive resp).pool.map Prod.snd).filter (·.PushedOn cid) =
      (t.session.client.pool.map Prod.snd ++ [resp]).filter (·.PushedOn cid) := by
  cases resp with
  | common rid n ok => simp [Client.Connection.receive]
  | consume n tag body props =>
    simp only [Client.Connection.receive,Client.Connection.consumeResponse]
    split_ifs with hman
    · simp [Response.cid]
    · have hne : n ≠ cid := by
        rintro rfl
        have hready := hw.arriving tag body props (by simp [hresp])
        exact hman (hw.steady.client.managed (hready.exist hw.steady))
      simp [hne]

/-- The broker pushes one more, or the client moves one along. -/
theorem accounted_step (hw : t.session.Watched cid) (hp : t.session.Patient cid ev)
    (hs : t.step ev = some t') : (t'.accounted.filter (·.PushedOn cid)).Perm
      ((t.accounted ++ t.sent ev).filter (·.PushedOn cid)) := by
  obtain ⟨s,hstep,rfl⟩ := Option.map_eq_some_iff.mp hs
  have same : t.sent ev = [] → t.called ev = [] → s.client.pool = t.session.client.pool →
      s.responses = t.session.responses →
      (accounted ⟨s,t.pushed ++ t.sent ev,t.handed ++ t.called ev,t.given ++ asks ev⟩).filter
        (·.PushedOn cid) = (t.accounted ++ t.sent ev).filter (·.PushedOn cid) := by
    intro hsent hcalled hpool hresp
    simp only [accounted,hsent,hcalled,hpool,hresp,List.append_nil]
  have hcases := Session.step_cases hstep
  cases ev with
  | work i =>
    obtain ⟨r,hr,rfl⟩ := hcases
    simp only [accounted,sent,List.append_nil,List.map_append,List.filter_append,
      List.append_assoc]
    refine List.Perm.append_left _ ?_
    rw [← List.append_assoc]
    exact (called_perm hw hp hr).append_right _
  | receive =>
    obtain ⟨resp,rest,hresp,rfl⟩ := hcases
    simp only [accounted,sent,called,List.append_nil,List.filter_append,receive_pool hw hresp,
      hresp,List.append_assoc]
    rw [← List.filter_append,List.singleton_append]
  | reply =>
    obtain ⟨resp,hresp,rfl⟩ := hcases
    obtain ⟨rid,n,ok,rfl⟩ := hw.owed resp hresp
    simp [accounted,sent,called]
  | choose i =>
    obtain ⟨r,hr,rfl⟩ := hcases
    simp only [accounted,sent,called,hr,Option.bind_some,List.append_nil,List.append_assoc]
    exact .refl _
  | openChannel =>
    obtain ⟨-,-,-,rfl⟩ := hcases
    exact .of_eq (same rfl rfl rfl rfl)
  | call =>
    obtain ⟨-,c,-,⟨-,rfl⟩ | ⟨req,-,rfl⟩⟩ := hcases <;> exact .of_eq (same rfl rfl rfl rfl)
  | dropChannel =>
    obtain ⟨-,c,-,-,-,⟨-,rfl⟩ | ⟨req,-,rfl⟩⟩ := hcases <;> exact .of_eq (same rfl rfl rfl rfl)
  | resume =>
    obtain ⟨k,hk,rfl⟩ := hcases
    exact .of_eq (same rfl rfl (Client.Connection.resume_pool hk) rfl)
  | serve =>
    obtain ⟨req,rest,r,-,-,-,rfl⟩ := hcases
    exact .of_eq (same rfl rfl rfl rfl)
  | other =>
    obtain ⟨-,b,-,rfl⟩ := hcases
    exact .of_eq (same rfl rfl rfl rfl)

theorem Delivers.step (h : t.Delivers cid) (hw : t.session.Watched cid)
    (hg : Given t.session.client t.given) (hp : t.session.Patient cid ev) (hends : ¬ ev.Ends cid)
    (hs : t.step ev = some t') : t'.Delivers cid := by
  have hacc := accounted_step hw hp hs
  obtain ⟨s,hstep,rfl⟩ := Option.map_eq_some_iff.mp hs
  obtain ⟨-,hc⟩ := hw.step hp hends hstep
  refine ⟨?_,fun x hx hon => ?_⟩
  · refine .trans ?_ hacc.symm
    rw [List.filter_append,List.filter_append]
    exact h.conserved.append_right _
  rcases List.mem_append.mp hx with hold | hnew
  · obtain ⟨sub,hgiven,hsub,heq⟩ := h.callback x hold hon
    exact ⟨sub,List.mem_append_left _ hgiven,hc.subscriber sub hsub,heq⟩
  cases ev with
  | work i =>
    obtain ⟨r,hr,rfl⟩ := Session.step_cases hstep
    obtain ⟨n,resp,-,hcalled,hon'⟩ := called_work hw hp hr
    obtain ⟨sub,body,props,hsub,heq,hcall⟩ := hon' (hcalled x hnew ▸ hon)
    rw [hcall,List.mem_singleton] at hnew
    exact ⟨sub,List.mem_append_left _ (hg.installed cid sub hsub),hc.subscriber sub hsub,
      body,props,by rw [hnew,heq]⟩
  | _ => cases hnew

end Traced

section Reachable
variable {basedir : String} {it : Iteration} {disk : Disk} {db : Database} {b₀ b : Broker}
  {evs : List Event} {conn : ℕ} {cid : String} {levs : List LinkEvent} {t : Traced}

/-- Whatever the broker has been through before this connection: as long as no worker of the
client handles a message of the channel while a thread subscribes on it, and no two threads do so
at once, every message that the broker pushes on the channel gets to the callback of its
subscriber. -/
theorem pushes_delivered (start : Broker.construct basedir it disk db = some b₀)
    (before : Broker.system.Run b₀ evs b) (new : ∀ ev ∈ evs, ev ≠ .connect conn)
    (run : (Traced.patientSystem cid).Run (.start b conn) levs t)
    (subscribed : ∀ ev ∈ levs, ¬ ev.Ends cid) : t.Delivers cid := by
  have hb := Broker.run_unknown start before new
  have hw : (Session.start b conn).Watched cid :=
    ⟨hb.named.connect conn,.start,.start,hb.consumers.mono fun _ cp hne heq => absurd heq hne,
      by simp [Session.start],by simp [Session.start],by simp [Session.start]⟩
  have inv : t.session.Watched cid ∧ Given t.session.client t.given ∧ t.Delivers cid := by
    refine run.invariant_mem (P := fun t => t.session.Watched cid ∧
      Given t.session.client t.given ∧ t.Delivers cid) ⟨hw,.start,?_⟩ ?_
    · exact ⟨.refl _,fun x hx => by cases hx⟩
    · rintro t ev t' hev ⟨hw,hg,hd⟩ ⟨hp,hs⟩
      have hd' := hd.step hw hg hp (subscribed ev hev) hs
      obtain ⟨s,hstep,rfl⟩ := Option.map_eq_some_iff.mp hs
      exact ⟨(hw.step hp (subscribed ev hev) hstep).1,hg.step hstep,hd'⟩
  exact inv.2.2

/-- A message has been published to a queue that nobody has subscribed to, and a task is about to
take it. -/
def published : List Event :=
  tradeSetup ++
    [.request 1 (.basicPublish "r5" "c1" "trade" "ten" (some ⟨"m1",.durable,"order.new"⟩)) .listed
      fun _ => "u5"]

/-- A second client opens a channel and subscribes. The broker pushes the message as soon as it
has registered the consumer, and message and reply reach the client. -/
def pushedAtOnce : List LinkEvent :=
  .openChannel "c2" "q1" :: answered ++
    [.call "c2" "q2" (.basicConsume "tag" "orders" true 0),.serve .listed fun _ => "",
      .other (.take 0),.choose 0,.reply,.receive,.receive]

/-- A worker handles the message before the thread has woken up, and drops it. -/
theorem push_dropped :
    ¬ ∀ (basedir : String) (it : Iteration) (disk : Disk) (db : Database) (b₀ b : Broker)
      (evs : List Event) (conn : ℕ) (cid : String) (levs : List LinkEvent) (t : Traced),
      Broker.construct basedir it disk db = some b₀ → Broker.system.Run b₀ evs b →
      (∀ ev ∈ evs, ev ≠ .connect conn) → Traced.system.Run (.start b conn) levs t →
      (∀ ev ∈ levs, ¬ ev.Ends cid) → t.Delivers cid := by
  intro h
  have hall : ((Broker.construct "/data" .listed blankDisk {}).any fun b₀ =>
      (published.foldlM Broker.step b₀).any fun b =>
        ((pushedAtOnce ++ [LinkEvent.work 0]).foldlM Traced.step (.start b 2)).any fun t : Traced =>
          (t.pushed.filter (·.PushedOn "c2")).length = 1 ∧
            (t.accounted.filter (·.PushedOn "c2")).length = 0) = true := by
    decide +kernel
  simp only [Option.any_eq_true,decide_eq_true_eq] at hall
  obtain ⟨b₀,start,b,hb,t,ht,hpushed,hgone⟩ := hall
  have hd := h _ _ _ _ b₀ b _ 2 "c2" _ t start (.of_foldlM hb)
    (by simp [published,tradeSetup]) (.of_foldlM ht) (by decide)
  have hlen := hd.conserved.length_eq
  rw [hpushed,hgone] at hlen
  cases hlen

/-- The thread wakes up first. -/
def wokenFirst : List LinkEvent := pushedAtOnce ++ [.resume 0,.work 0]

theorem pushes_delivered_woken :
    ∃ b₀ b t, Broker.construct "/data" .listed blankDisk {} = some b₀ ∧
      Broker.system.Run b₀ published b ∧
      (Traced.patientSystem "c2").Run (.start b 2) wokenFirst t ∧
      t.handed.length = 1 ∧ t.Delivers "c2" := by
  have hall : ((Broker.construct "/data" .listed blankDisk {}).any fun b₀ =>
      (published.foldlM Broker.step b₀).any fun b =>
        (wokenFirst.foldlM (fun (t : Traced) ev =>
          if t.session.Patient "c2" ev then t.step ev else none) (.start b 2)).any fun t : Traced =>
            t.handed.length = 1) = true := by
    decide +kernel
  simp only [Option.any_eq_true,decide_eq_true_eq] at hall
  obtain ⟨b₀,start,b,hb,t,ht,hone⟩ := hall
  have before : Broker.system.Run b₀ published b := .of_foldlM hb
  have run : (Traced.patientSystem "c2").Run (.start b 2) wokenFirst t :=
    .of_foldlM_guarded ht
  exact ⟨b₀,b,t,start,before,run,hone,pushes_delivered start before
    (by simp [published,tradeSetup]) run (by decide)⟩

end Reachable
end MessageQueue

import MessageQueue.Link.Session

/-! A broker with all its clients, while its process runs. The event loop of the broker turns to one
connection after the other, and its pool sends to any of them. Seen from one of its connections this
is a session; what happens on the others is a part of its surroundings. -/
namespace MessageQueue
open Base Client

/-- Both ends of a connection and the link between them, as far as the broker does not share it. -/
structure Ends where
  client : Client.Connection := {}
  requests : List Request := []
  replying : Option Response := none
  responses : List Response := []
  drawn : List String := []
  closing : List (String × String) := []

def Ends.session (e : Ends) (conn : ℕ) (b : Broker) : Session where
  conn := conn
  broker := b
  client := e.client
  requests := e.requests
  replying := e.replying
  responses := e.responses
  drawn := e.drawn
  closing := e.closing

def Session.ends (s : Session) : Ends where
  client := s.client
  requests := s.requests
  replying := s.replying
  responses := s.responses
  drawn := s.drawn
  closing := s.closing

/-- The events of a connection of its own. -/
def LinkEvent.isOwn : LinkEvent → Bool
  | .choose _ => false
  | .other _ => false
  | _ => true

/-- `ends` has the connections that are up. -/
structure Network where
  broker : Broker
  ends : Table ℕ Ends := ∅

inductive NetworkEvent
  | connect (conn : ℕ)
  | disconnect (conn : ℕ) (it : Iteration)
  | link (conn : ℕ) (ev : LinkEvent)
  | take (i : ℕ)
  | choose (i : ℕ)
  | autoAck (i : ℕ)

/-- What happened on a connection since it came up. -/
def NetworkEvent.since (conn : ℕ) (evs : List LinkEvent) : NetworkEvent → List LinkEvent
  | .connect c => if c = conn then [] else evs
  | .link c ev => if c = conn then evs ++ [ev] else evs
  | _ => evs

namespace Network

/-- No handler is about to reply, so that the event loop is free. -/
def idle (n : Network) : Bool := n.ends.entries.all fun e => e.2.replying.isNone

/-- What a callback sends, unless its connection is gone. -/
def push (n : Network) : Option (Consumer × Response) → Network
  | none => n
  | some (cp,resp) =>
    match n.ends.lookup cp.callback.connection with
    | none => n
    | some e =>
      let e := {e with responses := e.responses ++ [resp]}
      {n with ends := n.ends.insert cp.callback.connection e}

/-- The event loop is needed for the event. -/
def needsLoop : LinkEvent → Bool
  | .serve .. => true
  | _ => false

def step (n : Network) : NetworkEvent → Option Network
  | .connect conn =>
    if n.idle ∧ n.ends.lookup conn = none then
      some ⟨n.broker.newConnection conn,n.ends.insert conn {}⟩
    else none
  | .disconnect conn it =>
    if n.idle ∧ (n.ends.lookup conn).isSome then
      some ⟨n.broker.delConnection conn it,n.ends.erase conn⟩
    else none
  | .link conn ev =>
    if ev.isOwn ∧ (needsLoop ev → n.idle) then
      (n.ends.lookup conn).bind fun e => ((e.session conn n.broker).step ev).map fun s =>
        ⟨s.broker,n.ends.insert conn s.ends⟩
    else none
  | .take i => (n.broker.take i).map fun b => {n with broker := b}
  | .choose i => (n.broker.choose i).map fun r => ({n with broker := r.1} : Network).push r.2
  | .autoAck i => (n.broker.autoAck i).map fun b => {n with broker := b}

def system : Lts Network NetworkEvent := .ofPartial step

/-- What the event is to the broker. -/
def brokerEvent (n : Network) : NetworkEvent → Option Event
  | .connect conn => some (.connect conn)
  | .disconnect conn it => some (.disconnect conn it)
  | .link conn (.serve it uuid) =>
    (n.ends.lookup conn).bind fun e => e.requests.head?.map fun req => .request conn req it uuid
  | .link .. => none
  | .take i => some (.take i)
  | .choose i => some (.choose i)
  | .autoAck i => some (.autoAck i)

variable {n n' : Network} {conn c : ℕ} {e : Ends} {ev : LinkEvent}

theorem idle_iff : n.idle = true ↔
    ∀ conn e, n.ends.lookup conn = some e → e.replying = none := by
  simp only [idle,List.all_eq_true,Option.isNone_iff_eq_none]
  exact ⟨fun h conn e he => h ⟨conn,e⟩ (AList.mem_lookup_iff.mp he),
    fun h e he => h e.1 e.2 (AList.mem_lookup_iff.mpr he)⟩

theorem link_cases (h : n.step (.link conn ev) = some n') : ev.isOwn = true ∧ ∃ e s,
    n.ends.lookup conn = some e ∧ (e.session conn n.broker).step ev = some s ∧
      n' = ⟨s.broker,n.ends.insert conn s.ends⟩ := by
  simp only [step] at h
  split_ifs at h with hown
  obtain ⟨e,he,h⟩ := Option.bind_eq_some_iff.mp h
  obtain ⟨s,hs,rfl⟩ := Option.map_eq_some_iff.mp h
  exact ⟨hown.1,e,s,he,hs,rfl⟩

/-- Of its own events, a connection shows the broker its requests only. -/
theorem session_broker {s s' : Session} (hown : ev.isOwn = true) (h : s.step ev = some s') :
    (∃ it uuid req, ev = .serve it uuid ∧ s.requests.head? = some req ∧
        s.broker.step (.request s.conn req it uuid) = some s'.broker) ∨
      needsLoop ev = false ∧ s'.broker = s.broker := by
  have hcases := Session.step_cases h
  cases ev with
  | serve it uuid =>
    obtain ⟨req,rest,r,-,hreq,hr,rfl⟩ := hcases
    exact .inl ⟨it,uuid,req,rfl,by rw [hreq]; rfl,congrArg (Option.map Prod.fst) hr⟩
  | openChannel cid rid =>
    obtain ⟨-,-,-,rfl⟩ := hcases
    exact .inr ⟨rfl,rfl⟩
  | call cid rid api =>
    obtain ⟨-,c,-,⟨-,rfl⟩ | ⟨req,-,rfl⟩⟩ := hcases <;> exact .inr ⟨rfl,rfl⟩
  | dropChannel cid rid =>
    obtain ⟨-,c,-,-,-,⟨-,rfl⟩ | ⟨req,-,rfl⟩⟩ := hcases <;> exact .inr ⟨rfl,rfl⟩
  | resume i =>
    obtain ⟨k,-,rfl⟩ := hcases
    exact .inr ⟨rfl,rfl⟩
  | receive =>
    obtain ⟨resp,rest,-,rfl⟩ := hcases
    exact .inr ⟨rfl,rfl⟩
  | work i =>
    obtain ⟨r,-,rfl⟩ := hcases
    exact .inr ⟨rfl,rfl⟩
  | reply =>
    obtain ⟨resp,-,rfl⟩ := hcases
    exact .inr ⟨rfl,rfl⟩
  | choose i => cases hown
  | other ev => cases hown

/-- What is on the link to the broker, calls have sent. -/
theorem session_requests {s s' : Session} (h : s.step ev = some s') {req : Request}
    (hreq : req ∈ s'.requests) : req ∈ s.requests ∨ ∃ cid rid,
      (ev = .openChannel cid rid ∧ req = .openChannel rid cid) ∨ ∃ c api,
        s.client.channels.lookup cid = some c ∧ c.request rid api = some req ∧
          (ev = .call cid rid api ∨ ev = .dropChannel cid rid ∧ api = .basicCancel) := by
  have hcases := Session.step_cases h
  cases ev with
  | openChannel cid rid =>
    obtain ⟨-,-,-,rfl⟩ := hcases
    rcases List.mem_append.mp hreq with hreq | hreq
    · exact .inl hreq
    · exact .inr ⟨cid,rid,.inl ⟨rfl,List.mem_singleton.mp hreq⟩⟩
  | call cid rid api =>
    obtain ⟨-,c,hc,⟨-,rfl⟩ | ⟨req',hreq',rfl⟩⟩ := hcases
    · exact .inl hreq
    · rcases List.mem_append.mp hreq with hreq | hreq
      · exact .inl hreq
      · rw [List.mem_singleton.mp hreq]
        exact .inr ⟨cid,rid,.inr ⟨c,api,hc,hreq',.inl rfl⟩⟩
  | dropChannel cid rid =>
    obtain ⟨-,c,hc,-,-,⟨-,rfl⟩ | ⟨req',hreq',rfl⟩⟩ := hcases
    · exact .inl hreq
    · rcases List.mem_append.mp hreq with hreq | hreq
      · exact .inl hreq
      · rw [List.mem_singleton.mp hreq]
        exact .inr ⟨cid,rid,.inr ⟨c,.basicCancel,hc,hreq',.inr ⟨rfl,rfl⟩⟩⟩
  | serve it uuid =>
    obtain ⟨req',rest,r,-,hrest,-,rfl⟩ := hcases
    exact .inl (hrest ▸ List.mem_cons_of_mem _ hreq)
  | resume i => obtain ⟨k,-,rfl⟩ := hcases; exact .inl hreq
  | receive => obtain ⟨resp,rest,-,rfl⟩ := hcases; exact .inl hreq
  | work i => obtain ⟨r,-,rfl⟩ := hcases; exact .inl hreq
  | reply => obtain ⟨resp,-,rfl⟩ := hcases; exact .inl hreq
  | choose i => obtain ⟨r,-,rfl⟩ := hcases; exact .inl hreq
  | other ev => obtain ⟨-,b,-,rfl⟩ := hcases; exact .inl hreq

theorem session_conn {s s' : Session} (h : s.step ev = some s') : s'.conn = s.conn := by
  have hcases := Session.step_cases h
  cases ev with
  | openChannel cid rid =>
    obtain ⟨-,-,-,rfl⟩ := hcases
    rfl
  | call cid rid api => obtain ⟨-,c,-,⟨-,rfl⟩ | ⟨req,-,rfl⟩⟩ := hcases <;> rfl
  | dropChannel cid rid => obtain ⟨-,c,-,-,-,⟨-,rfl⟩ | ⟨req,-,rfl⟩⟩ := hcases <;> rfl
  | resume i => obtain ⟨k,-,rfl⟩ := hcases; rfl
  | receive => obtain ⟨resp,rest,-,rfl⟩ := hcases; rfl
  | work i => obtain ⟨r,-,rfl⟩ := hcases; rfl
  | serve it uuid => obtain ⟨req,rest,r,-,-,-,rfl⟩ := hcases; rfl
  | reply => obtain ⟨resp,-,rfl⟩ := hcases; rfl
  | choose i => obtain ⟨r,-,rfl⟩ := hcases; rfl
  | other ev => obtain ⟨-,b,-,rfl⟩ := hcases; rfl

/-- A step of the network is a step of the broker, or the broker does not see it. -/
theorem step_broker {nev : NetworkEvent} (h : n.step nev = some n') :
    match n.brokerEvent nev with
    | some ev => n.broker.step ev = some n'.broker
    | none => n'.broker = n.broker := by
  cases nev with
  | connect conn =>
    simp only [step] at h
    split_ifs at h
    cases h
    rfl
  | disconnect conn it =>
    simp only [step] at h
    split_ifs at h
    cases h
    rfl
  | link conn ev =>
    obtain ⟨hown,e,s,he,hs,rfl⟩ := link_cases h
    rcases session_broker hown hs with ⟨it,uuid,req,rfl,hreq,hstep⟩ | ⟨hloop,hb⟩
    · have hev : n.brokerEvent (.link conn (.serve it uuid)) = some (.request conn req it uuid) := by
        simp only [brokerEvent,he,Option.bind_some]
        exact congrArg (Option.map _) hreq
      rw [hev]
      exact hstep
    · have hev : n.brokerEvent (.link conn ev) = none := by
        cases ev <;> first | rfl | cases hloop
      rw [hev]
      exact hb
  | take i =>
    obtain ⟨b,hb,rfl⟩ := Option.map_eq_some_iff.mp h
    exact hb
  | choose i =>
    obtain ⟨r,hr,rfl⟩ := Option.map_eq_some_iff.mp h
    have hpush : (({n with broker := r.1} : Network).push r.2).broker = r.1 := by
      unfold push
      split
      · rfl
      · split <;> rfl
    rw [hpush]
    exact congrArg (Option.map Prod.fst) hr
  | autoAck i =>
    obtain ⟨b,hb,rfl⟩ := Option.map_eq_some_iff.mp h
    exact hb

/-! ### One connection of many -/

def happened (conn : ℕ) (nevs : List NetworkEvent) : List LinkEvent :=
  nevs.foldl (NetworkEvent.since conn) []

/-- The client of each connection keeps to the guard. -/
def Keeping (G : Session → LinkEvent → Prop) (n : Network) : NetworkEvent → Prop
  | .link conn ev => ∀ e ∈ n.ends.lookup conn, G (e.session conn n.broker) ev
  | _ => True

/-- A connection is a session of its own: with a broker that other connections have brought to where
it was when the connection came up, and that they go on using. -/
def IsSession (G : Session → LinkEvent → Prop) (b₀ : Broker) (conn : ℕ) (s : Session)
    (evs : List LinkEvent) : Prop :=
  ∃ bevs b levs, Broker.system.Run b₀ bevs b ∧
    (Session.system.guarded G).Run (.start b conn) levs s ∧ levs.filter LinkEvent.isOwn = evs

variable {G : Session → LinkEvent → Prop}

namespace IsSession
variable {b₀ : Broker} {s s' : Session} {evs : List LinkEvent}

theorem own (h : IsSession G b₀ conn s evs) (hown : ev.isOwn = true) (hG : G s ev)
    (hs : s.step ev = some s') : IsSession G b₀ conn s' (evs ++ [ev]) := by
  obtain ⟨bevs,b,levs,hb,hrun,hevs⟩ := h
  refine ⟨bevs,b,levs ++ [ev],hb,hrun.snoc ⟨hG,hs⟩,?_⟩
  rw [List.filter_append,hevs,List.filter_singleton,hown]
  rfl

theorem around (h : IsSession G b₀ conn s evs) (ev : LinkEvent) (hown : ev.isOwn = false)
    (hG : G s ev) (hs : s.step ev = some s') : IsSession G b₀ conn s' evs := by
  obtain ⟨bevs,b,levs,hb,hrun,hevs⟩ := h
  refine ⟨bevs,b,levs ++ [ev],hb,hrun.snoc ⟨hG,hs⟩,?_⟩
  rw [List.filter_append,hevs,List.filter_singleton,hown]
  exact List.append_nil _

/-- Another connection takes a step. -/
theorem other {b b' : Broker} (h : IsSession G b₀ conn (e.session conn b) evs) (bev : Event)
    (hG : G (e.session conn b) (.other bev)) (helse : bev.Elsewhere conn)
    (hb : b.step bev = some b') : IsSession G b₀ conn (e.session conn b') evs := by
  refine h.around (.other bev) rfl hG ?_
  simp only [Session.step,Ends.session,if_pos helse,hb,Option.map_some]

end IsSession

/-- Every connection that is up is a session, and the broker has its own run. -/
def Sessions (G : Session → LinkEvent → Prop) (b₀ : Broker) (nevs : List NetworkEvent)
    (n : Network) : Prop :=
  (∃ bevs, Broker.system.Run b₀ bevs n.broker) ∧ ∀ conn e, n.ends.lookup conn = some e →
    IsSession G b₀ conn (e.session conn n.broker) (happened conn nevs)

theorem happened_snoc (conn : ℕ) (nevs : List NetworkEvent) (nev : NetworkEvent) :
    happened conn (nevs ++ [nev]) = nev.since conn (happened conn nevs) := List.foldl_concat ..

namespace Sessions
variable {b₀ b' : Broker} {nevs : List NetworkEvent} {nev : NetworkEvent}

theorem broker (h : Sessions G b₀ nevs n) (hs : n.step nev = some n') :
    ∃ bevs, Broker.system.Run b₀ bevs n'.broker := by
  obtain ⟨bevs,run⟩ := h.1
  have hb := step_broker hs
  cases hev : n.brokerEvent nev with
  | none =>
    rw [hev] at hb
    exact ⟨bevs,hb ▸ run⟩
  | some ev =>
    rw [hev] at hb
    exact ⟨bevs ++ [ev],run.snoc hb⟩

section Guard
-- the guard is about what the client does
variable (free : ∀ (s : Session) (ev : LinkEvent), ev.isOwn = false → G s ev)
include free

theorem connect (h : Sessions G b₀ nevs n) (hs : n.step (.connect c) = some n') :
    Sessions G b₀ (nevs ++ [.connect c]) n' := by
  refine ⟨h.broker hs,fun conn e he => ?_⟩
  simp only [step] at hs
  split_ifs at hs
  cases hs
  rw [happened_snoc]
  rcases Table.lookup_insert_eq_some.mp he with ⟨rfl,rfl⟩ | ⟨hne,he⟩
  · obtain ⟨bevs,run⟩ := h.1
    refine ⟨bevs,n.broker,[],run,.nil _,?_⟩
    simp [NetworkEvent.since]
  · rw [NetworkEvent.since,if_neg (Ne.symm hne)]
    exact (h.2 conn e he).other (.connect c) (free _ _ rfl) trivial rfl

theorem disconnect (h : Sessions G b₀ nevs n) (hs : n.step (.disconnect c it) = some n') :
    Sessions G b₀ (nevs ++ [.disconnect c it]) n' := by
  refine ⟨h.broker hs,fun conn e he => ?_⟩
  simp only [step] at hs
  split_ifs at hs
  cases hs
  rw [happened_snoc]
  obtain ⟨hne,he⟩ := Table.lookup_erase_eq_some.mp he
  exact (h.2 conn e he).other (.disconnect c it) (free _ _ rfl) (Ne.symm hne) rfl

theorem link (h : Sessions G b₀ nevs n) (hG : n.Keeping G (.link c ev))
    (hs : n.step (.link c ev) = some n') : Sessions G b₀ (nevs ++ [.link c ev]) n' := by
  refine ⟨h.broker hs,fun conn e he => ?_⟩
  obtain ⟨hown,e₀,s,he₀,hstep,rfl⟩ := link_cases hs
  rw [happened_snoc]
  rcases Table.lookup_insert_eq_some.mp he with ⟨rfl,rfl⟩ | ⟨hne,he⟩
  · have hsame : s.ends.session conn s.broker = s := by
      have hconn : s.conn = conn := session_conn hstep
      obtain ⟨⟩ := s
      cases hconn
      rfl
    rw [NetworkEvent.since,if_pos rfl,hsame]
    exact (h.2 conn e₀ he₀).own hown (hG e₀ he₀) hstep
  · rw [NetworkEvent.since,if_neg (Ne.symm hne)]
    have hold := h.2 conn e he
    rcases session_broker hown hstep with ⟨it,uuid,req,-,-,hb⟩ | ⟨-,hb⟩
    · exact hold.other (.request c req it uuid) (free _ _ rfl) (Ne.symm hne) hb
    · rw [hb]
      exact hold

/-- A worker of the pool goes on. -/
theorem pool (h : Sessions G b₀ nevs n) (bev : Event) (helse : ∀ conn, bev.Elsewhere conn)
    (hb : n.broker.step bev = some b') (hsince : ∀ conn evs, nev.since conn evs = evs) :
    Sessions G b₀ (nevs ++ [nev]) {n with broker := b'} := by
  obtain ⟨bevs,run⟩ := h.1
  refine ⟨⟨bevs ++ [bev],run.snoc hb⟩,fun conn e he => ?_⟩
  rw [happened_snoc,hsince]
  exact (h.2 conn e he).other bev (free _ _ rfl) (helse conn) hb

theorem choose (h : Sessions G b₀ nevs n) {i : ℕ} (hs : n.step (.choose i) = some n') :
    Sessions G b₀ (nevs ++ [.choose i]) n' := by
  refine ⟨h.broker hs,fun conn e he => ?_⟩
  obtain ⟨⟨b,d⟩,hr,rfl⟩ := Option.map_eq_some_iff.mp hs
  rw [happened_snoc]
  change IsSession G b₀ conn _ (happened conn nevs)
  have hstep : ∀ e₀ : Ends, (e₀.session conn n.broker).step (.choose i) = some
      (({e₀ with responses := e₀.responses ++ (e₀.session conn n.broker).pushed d} : Ends).session
        conn b) := by
    intro e₀
    have hmap : (e₀.session conn n.broker).broker.choose i = some (b,d) := hr
    simp only [Session.step,hmap,Option.map_some]
    rfl
  have hbroker : (({n with broker := b} : Network).push d).broker = b := by
    unfold push
    split
    · rfl
    · split <;> rfl
  rw [hbroker]
  obtain ⟨e₀,he₀,rfl⟩ : ∃ e₀, n.ends.lookup conn = some e₀ ∧
      e = {e₀ with responses := e₀.responses ++ (e₀.session conn n.broker).pushed d} := by
    cases d with
    | none => exact ⟨e,he,by simp [Session.pushed]⟩
    | some d =>
      obtain ⟨cp,resp⟩ := d
      simp only [push] at he
      split at he
      · next hgone =>
        have hne : cp.callback.connection ≠ conn := by
          rintro rfl
          cases hgone.symm.trans he
        exact ⟨e,he,by simp [Session.pushed,Ends.session,hne]⟩
      · next e₀ he₀ =>
        rcases Table.lookup_insert_eq_some.mp he with ⟨rfl,rfl⟩ | ⟨hne,he⟩
        · exact ⟨e₀,he₀,by simp [Session.pushed,Ends.session]⟩
        · exact ⟨e,he,by simp [Session.pushed,Ends.session,Ne.symm hne]⟩
  exact (h.2 conn e₀ he₀).around (.choose i) rfl (free _ _ rfl) (hstep e₀)

theorem step (h : Sessions G b₀ nevs n) (hG : n.Keeping G nev) (hs : n.step nev = some n') :
    Sessions G b₀ (nevs ++ [nev]) n' := by
  cases nev with
  | connect c => exact h.connect free hs
  | disconnect c it => exact h.disconnect free hs
  | link c ev => exact h.link free hG hs
  | take i =>
    obtain ⟨b,hb,rfl⟩ := Option.map_eq_some_iff.mp hs
    exact h.pool free (.take i) (fun _ => trivial) hb fun _ _ => rfl
  | choose i => exact h.choose free hs
  | autoAck i =>
    obtain ⟨b,hb,rfl⟩ := Option.map_eq_some_iff.mp hs
    exact h.pool free (.autoAck i) (fun _ => trivial) hb fun _ _ => rfl

theorem run (run : (system.guarded (Keeping G)).Run ⟨b₀,∅⟩ nevs n) : Sessions G b₀ nevs n := by
  induction run with
  | nil => exact ⟨⟨[],.nil _⟩,fun conn e he => by cases he⟩
  | snoc _ last ih => exact ih.step free last.1 last.2

end Guard
end Sessions

/-- Whatever the clients of a broker do, each of them has a session with it. -/
theorem session_of_network {b₀ : Broker} {nevs : List NetworkEvent}
    (run : system.Run ⟨b₀,∅⟩ nevs n) (he : n.ends.lookup conn = some e) :
    ∃ bevs b levs, Broker.system.Run b₀ bevs b ∧
      Session.system.Run (.start b conn) levs (e.session conn n.broker) ∧
      levs.filter LinkEvent.isOwn = happened conn nevs := by
  have hrun : (system.guarded (Keeping fun _ _ => True)).Run ⟨b₀,∅⟩ nevs n :=
    run.mono fun {n nev n'} hs => ⟨by cases nev <;> simp [Keeping],hs⟩
  obtain ⟨bevs,b,levs,hb,hsession,hevs⟩ := (Sessions.run (fun _ _ _ => trivial) hrun).2 conn e he
  exact ⟨bevs,b,levs,hb,hsession.mono fun h => h.2,hevs⟩

/-- A call of a client, from its request to the end of the call. -/
def whole (conn : ℕ) (ev : LinkEvent) : List NetworkEvent := (ev::answered).map (.link conn)

/-- One client sets up an exchange with a queue, another one subscribes to the queue. Then the first
one publishes, and the message gets to the callback of the second. -/
def oneForTheOther : List NetworkEvent :=
  [.connect 1,.connect 2] ++ whole 1 (.openChannel "c1" "r1") ++
    whole 1 (.call "c1" "r2" (.declareExchange "trade" .topic true false ∅)) ++
    whole 1 (.call "c1" "r3" (.declareQueue "orders" true false false ∅)) ++
    whole 1 (.call "c1" "r4" (.queueBind "trade" "orders" "order.#")) ++
    whole 2 (.openChannel "c2" "r1") ++
    whole 2 (.call "c2" "r2" (.basicConsume "tag" "orders" true 7)) ++
    whole 1 (.call "c1" "r5" (.basicPublish "trade" (some ⟨"m1",.durable,"order.new"⟩) "ten")) ++
    [.take 0,.choose 0,.autoAck 0,.link 2 .receive,.link 2 (.work 0)]

theorem session_of_network_two : ∃ b₀ b s levs, Broker.construct "/data" .listed blankDisk {} =
    some b₀ ∧ Session.system.Run (.start b 2) levs s ∧
      levs.filter LinkEvent.isOwn = happened 2 oneForTheOther := by
  have hall : ((Broker.construct "/data" .listed blankDisk {}).bind fun b₀ =>
      oneForTheOther.foldlM step ⟨b₀,∅⟩).any (fun n => (n.ends.lookup 2).isSome) = true := by
    decide +kernel
  obtain ⟨b₀,n,start,run,hup⟩ := Lts.Run.of_any hall
  obtain ⟨e,he⟩ := Option.isSome_iff_exists.mp hup
  obtain ⟨-,b,levs,-,hrun,hevs⟩ := session_of_network run he
  exact ⟨b₀,b,_,levs,start,hrun,hevs⟩

end Network
end MessageQueue

import MessageQueue.Link.Awaited

/-! Threads that wait for a response. As long as nothing is sent on a channel after its close
request, every request finds its channel at the broker, and so every wait ends. -/
namespace MessageQueue
open Base Client

/-- The broker's side: every request under way finds the channel it is for, when those before it
have been served. -/
def Servable : (String → Bool) → List Request → Prop
  | _,[] => True
  | has,req::rest => (¬ req.ForConnection → has req.cid = true) ∧ Servable (req.opens has) rest

/-- The channels there are when all requests have been served. -/
def opensAll (has : String → Bool) (rs : List Request) : String → Bool :=
  rs.foldl (fun has req => req.opens has) has

theorem servable_append {has : String → Bool} {rs : List Request} {req : Request} :
    Servable has (rs ++ [req]) ↔
      Servable has rs ∧ (¬ req.ForConnection → opensAll has rs req.cid = true) := by
  induction rs generalizing has with
  | nil => simp [Servable,opensAll]
  | cons r rs ih =>
    simp only [List.cons_append,Servable,ih,and_assoc]
    rfl

theorem opensAll_append (has : String → Bool) (rs : List Request) (req : Request) :
    opensAll has (rs ++ [req]) = req.opens (opensAll has rs) := by
  simp [opensAll]

/-- A call on the channel sends a request, and does not return at once. -/
def Client.Connection.sends (k : Client.Connection) (cid rid : String) (api : Api) : Bool :=
  ((k.channels.lookup cid).bind fun c => c.request rid api).isSome

theorem Client.Connection.sends_eq {k : Client.Connection} {cid rid : String} {api : Api}
    {c : Client.Channel} {req : Request} (hc : k.channels.lookup cid = some c)
    (hreq : c.request rid api = some req) : k.sends cid rid api = true := by
  simp [sends,hc,hreq]

namespace Session

/-- No request is sent on a channel once its close request has been sent. -/
def Orderly (s : Session) : LinkEvent → Prop
  | .call cid rid api => s.client.sends cid rid api = true → cid ∉ s.closing.map Prod.fst
  | .dropChannel cid rid =>
    s.client.sends cid rid .basicCancel = true → cid ∉ s.closing.map Prod.fst
  | _ => True

instance (s : Session) : ∀ ev, Decidable (s.Orderly ev)
  | .call cid rid api => inferInstanceAs (Decidable
    (s.client.sends cid rid api = true → cid ∉ s.closing.map Prod.fst))
  | .dropChannel cid rid => inferInstanceAs (Decidable
    (s.client.sends cid rid .basicCancel = true → cid ∉ s.closing.map Prod.fst))
  | .openChannel .. | .resume _ | .receive | .work _ | .serve .. | .reply | .choose _
  | .other _ => .isTrue trivial

def orderlySystem : Lts Session LinkEvent := system.guarded Orderly

/-- What orderly runs keep. -/
structure Sound (s : Session) : Prop where
  named : s.broker.Named
  up : (s.broker.connections.lookup s.conn).isSome
  servable : Servable (s.broker.hasChannel s.conn) s.requests
  open' : ∀ cid, (s.client.channels.lookup cid).isSome → cid ∉ s.closing.map Prod.fst →
    opensAll (s.broker.hasChannel s.conn) s.requests cid = true
  awaited : Awaited s.flow s.client s.closing s.drawn

end Session

/-- A request that does not close leaves the channels that were there. -/
theorem Request.opens_mono {req : Request} {has : String → Bool} {n : String}
    (h : ∀ rid cid, req ≠ .closeChannel rid cid) (hn : has n = true) : req.opens has n = true := by
  cases req with
  | closeChannel rid cid => exact absurd rfl (h rid cid)
  | openChannel rid cid => simp [opens,hn]
  | _ => exact hn

theorem Request.noteClose_eq {req : Request} (h : ¬ req.ForConnection)
    (closing : List (String × String)) : req.noteClose closing = closing := by
  cases req with
  | closeChannel rid cid => exact absurd trivial h
  | _ => rfl

/-- What a request is, by the call that sends it. -/
def SentBy (pending : Pending) (rid cid : String) (req : Request) : Prop :=
  (pending = .call .closeChannel ∧ req = .closeChannel rid cid) ∨
    (pending ≠ .call .closeChannel ∧ (req = .openChannel rid cid ∨ ¬ req.ForConnection))

namespace Session.Sound
variable {s : Session}

/-- A thread sends a request on a channel that is not being closed. -/
theorem send {k : Client.Connection} {cid rid : String} {req : Request} {pending : Pending}
    (hn : s.broker.Named) (hup : (s.broker.connections.lookup s.conn).isSome)
    (hserv : Servable (s.broker.hasChannel s.conn) s.requests)
    (ha : Awaited s.flow k s.closing s.drawn)
    (ho : ∀ n, (k.channels.lookup n).isSome → n ∉ s.closing.map Prod.fst →
      opensAll (s.broker.hasChannel s.conn) s.requests n = true ∨ req = .openChannel rid n)
    (hreq : req.token = (cid,rid)) (hex : (k.channels.lookup cid).isSome)
    (hopen : cid ∉ s.closing.map Prod.fst) (hrid : rid ∉ s.drawn) (hp : pending ≠ .destructor)
    (hkind : SentBy pending rid cid req) :
    Sound (s.send {k with calls := k.calls ++ [⟨cid,rid,pending⟩]} req) := by
  obtain ⟨hcid,hid⟩ := Prod.mk.injEq .. |>.mp hreq
  refine ⟨hn,hup,?_,?_,?_⟩
  · refine servable_append.mpr ⟨hserv,fun hconn => ?_⟩
    rw [hcid]
    refine (ho cid hex hopen).resolve_right ?_
    rintro rfl
    exact hconn trivial
  · intro n hn hne
    simp only [Session.send,opensAll_append] at hne ⊢
    rcases hkind with ⟨-,rfl⟩ | ⟨-,rfl | hconn⟩
    · simp only [Request.noteClose,List.map_cons,List.mem_cons,not_or] at hne
      have hn' := (ho n hn hne.2).resolve_right (by simp)
      simp [Request.opens,hne.1,hn']
    · rcases ho n hn hne with hn' | heq
      · simp [Request.opens,hn']
      · cases heq
        simp [Request.opens]
    · have hnc : ∀ rid cid, req ≠ .closeChannel rid cid := by
        rintro r c rfl
        exact hconn trivial
      rw [Request.noteClose_eq hconn] at hne
      refine Request.opens_mono hnc ((ho n hn hne).resolve_right ?_)
      rintro rfl
      exact hconn trivial
  · have hflow : (s.send {k with calls := k.calls ++ [⟨cid,rid,pending⟩]} req).flow =
        s.flow ++ [(cid,rid)] := by
      simp [flow,Session.send,hreq]
    rw [hflow]
    simp only [Session.send,hid]
    refine ha.send hex hopen hrid hp ?_
    rcases hkind with ⟨-,rfl⟩ | ⟨hne,rfl | hconn⟩
    · exact .inr rfl
    · exact .inl ⟨hne,rfl⟩
    · exact .inl ⟨hne,Request.noteClose_eq hconn _⟩

/-- A step of the client that sends nothing. -/
theorem client (h : Sound s) {k : Client.Connection} (ha : Awaited s.flow k s.closing s.drawn)
    (hch : ∀ n, (k.channels.lookup n).isSome → (s.client.channels.lookup n).isSome) :
    Sound {s with client := k} :=
  ⟨h.named,h.up,h.servable,fun n hn => h.open' n (hch n hn),ha⟩

/-- The client opens a channel. -/
theorem openChannel (h : Sound s) {cid rid : String} (hcid : cid ∉ s.drawn) (hrid : rid ∉ s.drawn)
    (hne : cid ≠ rid) :
    Sound (({s with drawn := cid::s.drawn} : Session).send (s.client.openChannel cid rid).1
      (s.client.openChannel cid rid).2) := by
  refine send (s := {s with drawn := cid::s.drawn}) h.named h.up h.servable
    (h.awaited.create hcid) ?_ rfl (by simp) ?_ ?_ (by simp) (.inr ⟨by simp,.inl rfl⟩)
  · intro n hn hcl
    by_cases heq : n = cid
    · exact .inr (heq ▸ rfl)
    · rw [AList.lookup_insert_ne heq] at hn
      exact .inl (h.open' n hn hcl)
  · intro hm
    obtain ⟨x,hx,rfl⟩ := List.mem_map.mp hm
    exact hcid (h.awaited.drawnClosing x hx)
  · simp only [List.mem_cons,not_or]
    exact ⟨Ne.symm hne,hrid⟩

/-- The client makes a call on a channel, and sends its request. -/
theorem call (h : Sound s) {cid rid : String} {api : Api} {c : Client.Channel} {req : Request}
    (hord : s.Orderly (.call cid rid api)) (hrid : rid ∉ s.drawn)
    (hc : s.client.channels.lookup cid = some c) (hreq : c.request rid api = some req) :
    Sound (s.send {s.client with calls := s.client.calls ++ [⟨cid,rid,.call api⟩]} req) := by
  obtain ⟨hid,hcid,hkind⟩ := Client.Channel.request_ids hreq
  have hname := h.awaited.ids.named cid c hc
  refine send h.named h.up h.servable h.awaited (fun n hn hne => .inl (h.open' n hn hne))
    (by simp [Request.token,hid,hcid,hname]) (Option.isSome_of_eq_some hc)
    (hord (Client.Connection.sends_eq hc hreq)) hrid (by simp) ?_
  rcases hkind with ⟨rfl,rfl⟩ | ⟨hne,hconn⟩
  · exact .inl ⟨rfl,by rw [hname]⟩
  · exact .inr ⟨by simpa using hne,.inr hconn⟩

theorem resume (h : Sound s) {i : ℕ} {k : Client.Connection} (hr : s.client.resume i = some k) :
    Sound {s with client := k} := by
  refine h.client (h.awaited.resume hr) ?_
  obtain ⟨call,c,_,-,hc,-,woken,hwoken,hcases⟩ := Client.Connection.resume_cases hr
  have hwake : ∀ n, (woken.channels.lookup n).isSome → (s.client.channels.lookup n).isSome := by
    intro n hn
    rwa [hwoken,Table.isSome_lookup_insert (Option.isSome_of_eq_some hc)] at hn
  rcases hcases with ⟨-,rfl⟩ | ⟨-,rfl⟩ | ⟨api,-,rfl⟩ | ⟨-,rfl⟩
  · split_ifs <;> exact hwake
  · exact hwake
  · exact hwake
  · intro n hn
    obtain ⟨c',hc'⟩ := Option.isSome_iff_exists.mp hn
    exact hwake n (Option.isSome_of_eq_some (Table.lookup_erase_eq_some.mp hc').2)

/-- The event loop takes in the oldest response. -/
theorem receive (h : Sound s) {resp : Response} {rest : List Response}
    (hresp : s.responses = resp::rest) :
    Sound {s with responses := rest, client := s.client.receive resp} := by
  cases resp with
  | common rid cid ok =>
    have hflow : s.flow = (cid,rid) ::
        ({s with responses := rest, client := s.client.receive (.common rid cid ok)}
          : Session).flow := by
      simp [flow,hresp,Response.token]
    have ha := h.awaited
    rw [hflow] at ha
    refine ⟨h.named,h.up,h.servable,fun n hn => h.open' n ?_,ha.answer ok⟩
    simp only [Client.Connection.receive,Client.Connection.basicResponse] at hn
    split_ifs at hn
    · split at hn
      · exact hn
      · next c hc => rwa [Table.isSome_lookup_insert (Option.isSome_of_eq_some hc)] at hn
    · exact hn
  | consume cid tag body props =>
    have hflow : s.flow = ({s with
        responses := rest
        client := s.client.receive (.consume cid tag body props)} : Session).flow := by
      simp only [flow,hresp]
      rw [List.filterMap_cons_none rfl]
    have hk : ∀ k : Client.Connection, k = s.client.receive (.consume cid tag body props) →
        k.channels = s.client.channels ∧ k.manager = s.client.manager ∧
          k.held = s.client.held ∧ k.calls = s.client.calls := by
      rintro k rfl
      simp only [Client.Connection.receive,Client.Connection.consumeResponse]
      split_ifs <;> exact ⟨rfl,rfl,rfl,rfl⟩
    obtain ⟨hch,hm,hh,hc⟩ := hk _ rfl
    refine ⟨h.named,h.up,h.servable,fun n hn => h.open' n (by rwa [hch] at hn),?_⟩
    rw [← hflow]
    exact h.awaited.congr hch hm hh hc

/-- The broker serves the oldest request, and owes its reply. -/
theorem serve (h : Sound s) {req : Request} {rest : List Request} {it : Iteration}
    {uuid : String → String} {r : Broker × Option Response} (hidle : s.replying = none)
    (hreq : s.requests = req::rest) (hr : s.broker.handle s.conn req it uuid = some r) :
    Sound {s with broker := r.1, replying := r.2, requests := rest} := by
  obtain ⟨hn,-,hown⟩ := Broker.handle_channels h.named hr
  obtain ⟨hup,hhas⟩ := hown h.up
  have hhas : r.1.hasChannel s.conn = req.opens (s.broker.hasChannel s.conn) := funext hhas
  have hserv := h.servable
  rw [hreq] at hserv
  obtain ⟨ok,hok⟩ := Broker.handle_reply h.up hserv.1 hr
  refine ⟨hn,hup,hhas ▸ hserv.2,?_,?_⟩
  · intro n hn hne
    have ho := h.open' n hn hne
    rw [hreq] at ho
    simp only [hhas]
    exact ho
  · have hflow : ({s with broker := r.1, replying := r.2, requests := rest} : Session).flow =
        s.flow := by
      simp [flow,hidle,hreq,hok,Response.token,Request.token]
    rw [hflow]
    exact h.awaited

/-- A step of the broker that is not about the connection. -/
theorem broker (h : Sound s) {b : Broker} {responses : List Response} (hn : b.Named)
    (hsame : b.connections.lookup s.conn = s.broker.connections.lookup s.conn)
    (hresp : responses.filterMap Response.token = s.responses.filterMap Response.token) :
    Sound {s with broker := b, responses := responses} := by
  have hhas : b.hasChannel s.conn = s.broker.hasChannel s.conn := by
    funext cid
    simp only [Broker.hasChannel,hsame]
  have hflow : ({s with broker := b, responses := responses} : Session).flow = s.flow := by
    simp only [flow,hresp]
  refine ⟨hn,hsame ▸ h.up,hhas ▸ h.servable,?_,?_⟩
  · intro n hn hne
    simp only [hhas]
    exact h.open' n hn hne
  · rw [hflow]
    exact h.awaited

theorem step {s' : Session} {ev : LinkEvent} (h : Sound s) (hord : s.Orderly ev)
    (hs : s.step ev = some s') : Sound s' := by
  have hcases := step_cases hs
  cases ev with
  | openChannel cid rid =>
    obtain ⟨hcid,hrid,hne,rfl⟩ := hcases
    exact h.openChannel hcid hrid hne
  | call cid rid api =>
    obtain ⟨hrid,c,hc,⟨-,rfl⟩ | ⟨req,hreq,rfl⟩⟩ := hcases
    · exact h
    · exact h.call hord hrid hc hreq
  | dropChannel cid rid =>
    obtain ⟨-,c,hc,hman,hcalls,⟨-,rfl⟩ | ⟨req,hreq,-⟩⟩ := hcases
    · refine h.client (h.awaited.drop hman hcalls) ?_
      intro n hn
      obtain ⟨c',hc'⟩ := Option.isSome_iff_exists.mp hn
      exact Option.isSome_of_eq_some (Table.lookup_erase_eq_some.mp hc').2
    · -- a channel out of the manager has been closed, and nothing may be sent on it
      exact absurd (h.awaited.kept cid (Option.isSome_of_eq_some hc)
        (hord (Client.Connection.sends_eq hc hreq))) hman
  | resume i =>
    obtain ⟨k,hk,rfl⟩ := hcases
    exact h.resume hk
  | receive =>
    obtain ⟨resp,rest,hresp,rfl⟩ := hcases
    exact h.receive hresp
  | work i =>
    obtain ⟨r,-,rfl⟩ := hcases
    exact h.client (h.awaited.congr rfl rfl rfl rfl) fun _ hn => hn
  | serve it uuid =>
    obtain ⟨req,rest,r,hidle,hreq,hr,rfl⟩ := hcases
    exact h.serve hidle hreq hr
  | reply =>
    obtain ⟨resp,hresp,rfl⟩ := hcases
    refine ⟨h.named,h.up,h.servable,h.open',?_⟩
    have hflow : ({s with replying := none, responses := s.responses ++ [resp]} : Session).flow =
        s.flow := by
      simp [flow,hresp]
    rw [hflow]
    exact h.awaited
  | choose i =>
    obtain ⟨r,hr,rfl⟩ := hcases
    obtain ⟨task,m,-,⟨-,rfl⟩ | ⟨cp,-,rfl⟩⟩ := Broker.choose_cases hr
    · exact h.broker h.named rfl (by simp [pushed])
    · refine h.broker h.named rfl ?_
      rw [List.filterMap_append,pushed_token rfl,List.append_nil]
  | other ev =>
    obtain ⟨hev,b,hb,rfl⟩ := hcases
    exact h.broker (Broker.step_named h.named hb) (Broker.step_elsewhere h.named h.up hev hb) rfl

/-- A connection that has just come up. -/
theorem start {b : Broker} (hn : b.Named) (conn : ℕ) : Sound (.start b conn) := by
  have hs : ((b.newConnection conn).connections.lookup conn).isSome := by
    cases hl : b.connections.lookup conn with
    | some channels =>
      exact Option.isSome_of_eq_some (Table.lookup_emplace_eq_some.mpr (.inl hl))
    | none => exact Option.isSome_of_eq_some (Table.lookup_emplace_none hl)
  exact ⟨hn.connect conn,hs,trivial,fun n hn => by simp [Session.start] at hn,.start⟩

end Session.Sound

/-- What ends the wait of a thread is on its way. -/
def Session.Awaits (s : Session) (c : Call) : Prop :=
  (∃ req ∈ s.requests, req.rid = c.rid) ∨
  (∃ cid ok, s.replying = some (.common c.rid cid ok)) ∨
  (∃ ok, .common c.rid c.cid ok ∈ s.responses ∧ c.cid ∈ s.client.manager) ∨
  s.client.Answered c.cid c.rid

theorem Session.Sound.awaits {s : Session} (h : Sound s) {c : Call} (hc : c ∈ s.client.calls) :
    s.Awaits c := by
  rcases h.awaited.waits c hc with hflow | ha
  · have hman := h.awaited.managed _ hflow
    simp only [flow,List.mem_append,List.mem_filterMap,List.mem_map,Option.mem_toList] at hflow
    have htoken : ∀ resp : Response, resp.token = some (c.cid,c.rid) →
        ∃ ok, resp = .common c.rid c.cid ok := by
      intro resp htok
      cases resp with
      | common rid cid ok =>
        simp only [Response.token,Option.some.injEq,Prod.mk.injEq] at htok
        exact ⟨ok,by rw [htok.1,htok.2]⟩
      | consume => cases htok
    rcases hflow with (⟨resp,hm,htok⟩ | ⟨resp,hm,htok⟩) | ⟨req,hm,htok⟩
    · obtain ⟨ok,rfl⟩ := htoken resp htok
      exact .inr (.inr (.inl ⟨ok,hm,hman⟩))
    · obtain ⟨ok,rfl⟩ := htoken resp htok
      exact .inr (.inl ⟨c.cid,ok,hm⟩)
    · exact .inl ⟨req,hm,congrArg Prod.snd htok⟩
  · exact .inr (.inr (.inr ha))

section Reachable
variable {basedir : String} {it : Iteration} {disk : Disk} {db : Database} {b₀ b : Broker}
  {evs : List Event} {conn : ℕ} {levs : List LinkEvent} {s : Session}

/-- Whatever the broker has been through before the connection came up: as long as the client
sends nothing on a channel after its close request, no thread waits for a response that nobody
will send or deliver. -/
theorem waits_end (start : Broker.construct basedir it disk db = some b₀)
    (before : Broker.system.Run b₀ evs b)
    (run : Session.orderlySystem.Run (.start b conn) levs s) :
    ∀ c ∈ s.client.calls, s.Awaits c := by
  have hs : s.Sound := run.invariant (Session.Sound.start (Broker.run_named start before) conn)
    fun h step => h.step step.1 step.2
  exact fun c hc => hs.awaits hc

/-- A channel is opened, a queue declared and subscribed to. -/
def subscribed : List LinkEvent :=
  .openChannel "c1" "r1" :: answered ++
    .call "c1" "r2" (.declareQueue "orders" true false false ∅) :: answered ++
    .call "c1" "r3" (.basicConsume "tag" "orders" true 0) :: answered

/-- The subscriber closes its channel and drops it, and the destructor cancels the subscription
on a channel that the broker does not know any more. -/
def closedThenDropped : List LinkEvent :=
  subscribed ++ .call "c1" "r4" .closeChannel :: answered ++
    [.dropChannel "c1" "r5",.serve .listed fun _ => ""]

/-- The destructor waits for ever. -/
theorem destructor_waits :
    ¬ ∀ (basedir : String) (it : Iteration) (disk : Disk) (db : Database) (b : Broker) (conn : ℕ)
      (levs : List LinkEvent) (s : Session), Broker.construct basedir it disk db = some b →
      Session.system.Run (.start b conn) levs s → ∀ c ∈ s.client.calls, s.Awaits c := by
  intro h
  have hall : ((Broker.construct "/data" .listed blankDisk {}).bind
      fun b => closedThenDropped.foldlM Session.step (.start b 1)).any (fun s : Session =>
        (s.client.calls.any fun c => c.cid = "c1" ∧ c.rid = "r5") && s.requests.isEmpty &&
        s.replying.isNone && s.responses.isEmpty &&
        (s.client.channels.lookup "c1").all fun c => (c.basicResp.lookup "r5").isNone) = true := by
    decide +kernel
  simp only [Option.any_eq_true,Bool.and_eq_true,List.isEmpty_iff,Option.isNone_iff_eq_none,
    List.any_eq_true,decide_eq_true_eq,Option.all_eq_true] at hall
  obtain ⟨s,hs,⟨⟨⟨⟨c,hc,hcid,hrid⟩,hreq⟩,hrep⟩,hresp⟩,hans⟩ := hall
  obtain ⟨b,start,hs⟩ := Option.bind_eq_some_iff.mp hs
  rcases h _ _ _ _ b 1 _ s start (.of_foldlM hs) c hc with
    ⟨req,hm,-⟩ | ⟨cid,ok,hr⟩ | ⟨ok,hm,-⟩ | ⟨ch,ok,hch,hok⟩
  · simp [hreq] at hm
  · simp [hrep] at hr
  · simp [hresp] at hm
  · rw [hcid] at hch
    rw [hrid,hans ch hch] at hok
    cases hok

theorem waits_end_subscribed :
    ∃ b s, Broker.construct "/data" .listed blankDisk {} = some b ∧
      Session.orderlySystem.Run (.start b 1) (subscribed.take 6) s ∧
      s.client.calls ≠ [] ∧ ∀ c ∈ s.client.calls, s.Awaits c := by
  have hall : ((Broker.construct "/data" .listed blankDisk {}).bind fun b =>
      (subscribed.take 6).foldlM (fun s ev => if s.Orderly ev then s.step ev else none)
        (.start b 1)).any (fun s : Session => !s.client.calls.isEmpty) = true := by
    decide +kernel
  simp only [Option.any_eq_true] at hall
  obtain ⟨s,hs,hne⟩ := hall
  obtain ⟨b,start,hs⟩ := Option.bind_eq_some_iff.mp hs
  have run : Session.orderlySystem.Run (.start b 1) (subscribed.take 6) s := .of_foldlM_guarded hs
  exact ⟨b,s,start,run,by simpa using hne,waits_end start (.nil b) run⟩

end Reachable
end MessageQueue

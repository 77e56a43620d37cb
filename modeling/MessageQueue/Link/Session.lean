import MessageQueue.Client.Calls

/-! One connection between a client and the broker while its link is up. The link keeps the order
of what is sent in each direction. The broker handles one request of the connection at a time and
then sends the reply; its pool, and everything that happens on other connections, goes on in
between. -/
namespace MessageQueue
open Base Client

/-- `drawn` are the ids that the client has made up, and `closing` the channels for which it has
sent a close request, with the id of the request. -/
structure Session where
  conn : ℕ
  broker : Broker
  client : Client.Connection := {}
  requests : List Request := []
  replying : Option Response := none
  responses : List Response := []
  drawn : List String := []
  closing : List (String × String) := []

inductive LinkEvent
  | openChannel (cid rid : String)
  | call (cid rid : String) (api : Api)
  | dropChannel (cid rid : String)
  | resume (i : ℕ)
  | receive
  | work (i : ℕ)
  | serve (it : Iteration) (uuid : String → String)
  | reply
  | choose (i : ℕ)
  | other (ev : Event)

/-- The close requests, with this request. -/
def Request.noteClose (req : Request) (closing : List (String × String)) :
    List (String × String) :=
  match req with
  | .closeChannel rid cid => (cid,rid)::closing
  | _ => closing

namespace Session

/-- A connection that has just come up. -/
def start (b : Broker) (conn : ℕ) : Session := {conn := conn, broker := b.newConnection conn}

def send (s : Session) (k : Client.Connection) (req : Request) : Session :=
  {s with
    client := k
    requests := s.requests ++ [req]
    drawn := req.rid::s.drawn
    closing := req.noteClose s.closing}

def sendSome (s : Session) : Client.Connection × Option Request → Session
  | (k,none) => {s with client := k}
  | (k,some req) => s.send k req

/-- What a consume task of the broker sends on this connection. -/
def pushed (s : Session) : Option (Consumer × Response) → List Response
  | none => []
  | some (cp,resp) => if cp.callback.connection = s.conn then [resp] else []

/-- An id is never drawn twice: its last digits count the draws of the process. -/
def step (s : Session) : LinkEvent → Option Session
  | .openChannel cid rid =>
    if cid ∈ s.drawn ∨ rid ∈ s.drawn ∨ cid = rid then none
    else
      let r := s.client.openChannel cid rid
      some (({s with drawn := cid::s.drawn} : Session).send r.1 r.2)
  | .call cid rid api =>
    if rid ∈ s.drawn then none else (s.client.call cid rid api).map s.sendSome
  | .dropChannel cid rid =>
    if rid ∈ s.drawn then none else (s.client.dropChannel cid rid).map s.sendSome
  | .resume i => (s.client.resume i).map fun k => {s with client := k}
  | .receive =>
    match s.responses with
    | [] => none
    | resp::rest => some {s with responses := rest, client := s.client.receive resp}
  | .work i => (s.client.work i).map fun r => {s with client := r.1}
  | .serve it uuid =>
    match s.replying,s.requests with
    | none,req::rest => (s.broker.handle s.conn req it uuid).map fun r =>
      {s with broker := r.1, replying := r.2, requests := rest}
    | _,_ => none
  | .reply => s.replying.map fun resp =>
    {s with replying := none, responses := s.responses ++ [resp]}
  | .choose i => (s.broker.choose i).map fun r =>
    {s with broker := r.1, responses := s.responses ++ s.pushed r.2}
  | .other ev =>
    if ev.Elsewhere s.conn then (s.broker.step ev).map fun b => {s with broker := b} else none

def system : Lts Session LinkEvent := .ofPartial step

/-- Everything that a step can be. -/
theorem step_cases {s s' : Session} {ev : LinkEvent} (hs : s.step ev = some s') : match ev with
    | .openChannel cid rid => cid ∉ s.drawn ∧ rid ∉ s.drawn ∧ cid ≠ rid ∧
      s' = ({s with drawn := cid::s.drawn} : Session).send (s.client.openChannel cid rid).1
        (s.client.openChannel cid rid).2
    | .call cid rid api => rid ∉ s.drawn ∧ ∃ c, s.client.channels.lookup cid = some c ∧
      ((c.request rid api = none ∧ s' = s) ∨ ∃ req, c.request rid api = some req ∧
        s' = s.send {s.client with calls := s.client.calls ++ [⟨cid,rid,.call api⟩]} req)
    | .dropChannel cid rid => rid ∉ s.drawn ∧ ∃ c, s.client.channels.lookup cid = some c ∧
      cid ∉ s.client.manager ∧ (∀ c ∈ s.client.calls, c.cid ≠ cid) ∧
        ((c.request rid .basicCancel = none ∧ s' = {s with client := {s.client with
            channels := s.client.channels.erase cid
            held := s.client.held.filter (· ≠ cid)}}) ∨
          ∃ req, c.request rid .basicCancel = some req ∧ s' = s.send {s.client with
            held := s.client.held.filter (· ≠ cid)
            calls := s.client.calls ++ [⟨cid,rid,.destructor⟩]} req)
    | .resume i => ∃ k, s.client.resume i = some k ∧ s' = {s with client := k}
    | .receive => ∃ resp rest, s.responses = resp::rest ∧
      s' = {s with responses := rest, client := s.client.receive resp}
    | .work i => ∃ r, s.client.work i = some r ∧
      s' = {s with client := {s.client with pool := s.client.pool.eraseIdx i}}
    | .serve it uuid => ∃ req rest r, s.replying = none ∧ s.requests = req::rest ∧
      s.broker.handle s.conn req it uuid = some r ∧
        s' = {s with broker := r.1, replying := r.2, requests := rest}
    | .reply => ∃ resp, s.replying = some resp ∧
      s' = {s with replying := none, responses := s.responses ++ [resp]}
    | .choose i => ∃ r, s.broker.choose i = some r ∧
      s' = {s with broker := r.1, responses := s.responses ++ s.pushed r.2}
    | .other ev => ev.Elsewhere s.conn ∧ ∃ b, s.broker.step ev = some b ∧
      s' = {s with broker := b} := by
  cases ev with
  | openChannel cid rid =>
    simp only [step] at hs
    split_ifs at hs with hdrawn
    simp only [not_or] at hdrawn
    cases hs
    exact ⟨hdrawn.1,hdrawn.2.1,hdrawn.2.2,rfl⟩
  | call cid rid api =>
    simp only [step] at hs
    split_ifs at hs with hrid
    obtain ⟨r,hr,rfl⟩ := Option.map_eq_some_iff.mp hs
    obtain ⟨c,hc,⟨hnone,rfl⟩ | ⟨req,hreq,rfl⟩⟩ := Connection.call_cases hr
    · exact ⟨hrid,c,hc,.inl ⟨hnone,rfl⟩⟩
    · exact ⟨hrid,c,hc,.inr ⟨req,hreq,rfl⟩⟩
  | dropChannel cid rid =>
    simp only [step] at hs
    split_ifs at hs with hrid
    obtain ⟨r,hr,rfl⟩ := Option.map_eq_some_iff.mp hs
    obtain ⟨c,hc,hman,hcalls,⟨hnone,rfl⟩ | ⟨req,hreq,rfl⟩⟩ := Connection.dropChannel_cases hr
    · exact ⟨hrid,c,hc,hman,hcalls,.inl ⟨hnone,rfl⟩⟩
    · exact ⟨hrid,c,hc,hman,hcalls,.inr ⟨req,hreq,rfl⟩⟩
  | resume i =>
    obtain ⟨k,hk,rfl⟩ := Option.map_eq_some_iff.mp hs
    exact ⟨k,hk,rfl⟩
  | receive =>
    simp only [step] at hs
    split at hs
    · cases hs
    · next resp rest hresp => cases hs; exact ⟨resp,rest,hresp,rfl⟩
  | work i =>
    obtain ⟨r,hr,rfl⟩ := Option.map_eq_some_iff.mp hs
    obtain ⟨n,resp,-,hclient,-⟩ := Connection.work_cases hr
    exact ⟨r,hr,by rw [hclient]⟩
  | serve it uuid =>
    simp only [step] at hs
    split at hs
    · next req rest hidle hreq =>
      obtain ⟨r,hr,rfl⟩ := Option.map_eq_some_iff.mp hs
      exact ⟨req,rest,r,hidle,hreq,hr,rfl⟩
    · cases hs
  | reply =>
    obtain ⟨resp,hresp,rfl⟩ := Option.map_eq_some_iff.mp hs
    exact ⟨resp,hresp,rfl⟩
  | choose i =>
    obtain ⟨r,hr,rfl⟩ := Option.map_eq_some_iff.mp hs
    exact ⟨r,hr,rfl⟩
  | other ev =>
    simp only [step] at hs
    split_ifs at hs with hev
    obtain ⟨b,hb,rfl⟩ := Option.map_eq_some_iff.mp hs
    exact ⟨hev,b,hb,rfl⟩

end Session

/-- The broker serves a request, and the thread that sent it takes its response. -/
def answered : List LinkEvent := [.serve .listed fun _ => "",.reply,.receive,.resume 0]

end MessageQueue

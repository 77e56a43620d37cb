import MessageQueue.Link.Session
import Mathlib.Data.List.Perm.Basic

/-! The ids of a connection. The flow lists the requests whose responses the client has not taken
in, oldest first; no id is under way twice, and none is both under way and answered. -/
namespace MessageQueue
open Base Client

namespace Client.Connection

/-- The response is in the channel's table. -/
def Answered (k : Connection) (cid rid : String) : Prop :=
  ∃ c ok, k.channels.lookup cid = some c ∧ c.basicResp.lookup rid = some ok

end Client.Connection

/-- The channel and the id of a basic response. -/
def Response.token : Response → Option (String × String)
  | .common rid cid _ => some (cid,rid)
  | .consume .. => none

def Request.token (req : Request) : String × String := (req.cid,req.rid)

namespace Session

/-- The requests on their way to the client's table, in the order in which they get there. -/
def flow (s : Session) : List (String × String) :=
  s.responses.filterMap Response.token ++ s.replying.toList.filterMap Response.token ++
    s.requests.map Request.token

end Session

/-- The ids under way, waited for and answered are distinct, and all of them were drawn. -/
structure Ids (flow : List (String × String)) (k : Client.Connection) (drawn : List String) :
    Prop where
  once : (flow.map Prod.snd).Nodup
  unanswered : ∀ x ∈ flow, ¬ k.Answered x.1 x.2
  calls : (k.calls.map Call.rid).Nodup
  named : ∀ cid c, k.channels.lookup cid = some c → c.channelId = cid
  drawnFlow : ∀ x ∈ flow, x.2 ∈ drawn
  drawnCalls : ∀ c ∈ k.calls, c.rid ∈ drawn
  drawnAnswers : ∀ cid rid, k.Answered cid rid → rid ∈ drawn
  drawnChannels : ∀ cid, (k.channels.lookup cid).isSome → cid ∈ drawn

namespace Ids
variable {flow flow' : List (String × String)} {k : Client.Connection} {drawn : List String}
  {cid rid : String}

theorem start : Ids [] {} [] where
  once := by simp
  unanswered := by simp
  calls := by simp
  named := by simp
  drawnFlow := by simp
  drawnCalls := by simp
  drawnAnswers := by simp [Client.Connection.Answered]
  drawnChannels := by simp

/-- Only the channels and the calls matter. -/
theorem congr (h : Ids flow k drawn) {k' : Client.Connection} (hch : k'.channels = k.channels)
    (hc : k'.calls = k.calls) : Ids flow k' drawn := by
  obtain ⟨channels,manager,held,calls,pool⟩ := k'
  obtain ⟨channels',manager',held',calls',pool'⟩ := k
  simp only at hch hc
  subst hch hc
  exact ⟨h.once,h.unanswered,h.calls,h.named,h.drawnFlow,h.drawnCalls,h.drawnAnswers,
    h.drawnChannels⟩

/-- Requests and responses can get lost. -/
theorem sublist (h : Ids flow k drawn) (hs : flow'.Sublist flow) : Ids flow' k drawn where
  __ := h
  once := h.once.sublist (hs.map _)
  unanswered x hx := h.unanswered x (hs.subset hx)
  drawnFlow x hx := h.drawnFlow x (hs.subset hx)

/-- A thread sends a request under a new id, and waits. -/
theorem send (h : Ids flow k drawn) (hrid : rid ∉ drawn) (pending : Pending) :
    Ids (flow ++ [(cid,rid)]) {k with calls := k.calls ++ [⟨cid,rid,pending⟩]} (rid::drawn) := by
  have hcall : ∀ c : Call, c ∈ k.calls ++ [⟨cid,rid,pending⟩] →
      c ∈ k.calls ∨ c = ⟨cid,rid,pending⟩ := fun c hc => by simpa using hc
  have hflow : ∀ x : String × String, x ∈ flow ++ [(cid,rid)] → x ∈ flow ∨ x = (cid,rid) :=
    fun x hx => by simpa using hx
  constructor
  case once =>
    rw [List.map_append,List.nodup_append]
    refine ⟨h.once,by simp,?_⟩
    intro r hr r' hr'
    obtain ⟨x,hx,rfl⟩ := List.mem_map.mp hr
    obtain rfl : r' = rid := by simpa using hr'
    exact fun heq => hrid (heq ▸ h.drawnFlow x hx)
  case unanswered =>
    intro x hx
    rcases hflow x hx with hx | rfl
    · exact h.unanswered x hx
    · exact fun ha => hrid (h.drawnAnswers cid rid ha)
  case calls =>
    rw [List.map_append,List.nodup_append]
    refine ⟨h.calls,by simp,?_⟩
    intro r hr r' hr'
    obtain ⟨x,hx,rfl⟩ := List.mem_map.mp hr
    obtain rfl : r' = rid := by simpa using hr'
    exact fun heq => hrid (heq ▸ h.drawnCalls x hx)
  case named => exact h.named
  case drawnFlow =>
    intro x hx
    rcases hflow x hx with hx | rfl
    · exact List.mem_cons_of_mem _ (h.drawnFlow x hx)
    · exact List.mem_cons_self
  case drawnCalls =>
    intro c hc
    rcases hcall c hc with hc | rfl
    · exact List.mem_cons_of_mem _ (h.drawnCalls c hc)
    · exact List.mem_cons_self
  case drawnAnswers => exact fun n r ha => List.mem_cons_of_mem _ (h.drawnAnswers n r ha)
  case drawnChannels => exact fun n hn => List.mem_cons_of_mem _ (h.drawnChannels n hn)

theorem fresh (h : Ids flow k drawn) (hcid : cid ∉ drawn) : k.channels.lookup cid = none := by
  rw [← Option.not_isSome_iff_eq_none]
  exact fun hs => hcid (h.drawnChannels cid hs)

/-- A new channel has no answers. -/
theorem answered_create (h : Ids flow k drawn) (hcid : cid ∉ drawn) {manager : List String}
    {n r : String} : Client.Connection.Answered {k with
      channels := k.channels.insert cid {channelId := cid}
      manager := manager} n r ↔ k.Answered n r := by
  unfold Client.Connection.Answered
  by_cases hn : n = cid
  · subst hn
    simp [h.fresh hcid]
  · simp [AList.lookup_insert_ne hn]

theorem create (h : Ids flow k drawn) (hcid : cid ∉ drawn) (manager : List String) :
    Ids flow {k with
      channels := k.channels.insert cid {channelId := cid}
      manager := manager} (cid::drawn) where
  once := h.once
  unanswered x hx ha := h.unanswered x hx ((h.answered_create hcid).mp ha)
  calls := h.calls
  named := Table.forall_insert rfl h.named
  drawnFlow x hx := List.mem_cons_of_mem _ (h.drawnFlow x hx)
  drawnCalls c hc := List.mem_cons_of_mem _ (h.drawnCalls c hc)
  drawnAnswers n r ha := List.mem_cons_of_mem _ (h.drawnAnswers n r ((h.answered_create hcid).mp ha))
  drawnChannels n hn := by
    by_cases heq : n = cid
    · exact heq ▸ List.mem_cons_self
    · rw [AList.lookup_insert_ne heq] at hn
      exact List.mem_cons_of_mem _ (h.drawnChannels n hn)

/-- A channel object goes. -/
theorem drop (h : Ids flow k drawn) (cid : String) (held : List String) :
    Ids flow {k with channels := k.channels.erase cid, held := held} drawn := by
  have hback : ∀ {n r : String}, Client.Connection.Answered {k with
      channels := k.channels.erase cid, held := held} n r → k.Answered n r := by
    rintro n r ⟨c,ok,hl,hr⟩
    exact ⟨c,ok,(Table.lookup_erase_eq_some.mp hl).2,hr⟩
  constructor
  case once => exact h.once
  case unanswered => exact fun x hx ha => h.unanswered x hx (hback ha)
  case calls => exact h.calls
  case named => exact fun n c hl => h.named n c (Table.lookup_erase_eq_some.mp hl).2
  case drawnFlow => exact h.drawnFlow
  case drawnCalls => exact h.drawnCalls
  case drawnAnswers => exact fun n r ha => h.drawnAnswers n r (hback ha)
  case drawnChannels =>
    intro n hn
    obtain ⟨c,hl⟩ := Option.isSome_iff_exists.mp hn
    exact h.drawnChannels n (Option.isSome_of_eq_some (Table.lookup_erase_eq_some.mp hl).2)

/-- An answer to a request that was under way is one more in its table. -/
theorem answered_put (h : Ids ((cid,rid)::flow) k drawn) {ch : Client.Channel}
    (hch : k.channels.lookup cid = some ch) (ok : Bool) {n r : String} :
    Client.Connection.Answered {k with
      channels := k.channels.insert cid (ch.putBasicResponse rid ok)} n r ↔
      k.Answered n r ∨ (n,r) = (cid,rid) := by
  have hnone : ch.basicResp.lookup rid = none := by
    rw [← Option.not_isSome_iff_eq_none]
    intro hs
    obtain ⟨ok,hok⟩ := Option.isSome_iff_exists.mp hs
    exact h.unanswered (cid,rid) List.mem_cons_self ⟨ch,ok,hch,hok⟩
  unfold Client.Connection.Answered
  by_cases hn : n = cid
  · subst hn
    simp only [AList.lookup_insert,Option.some.injEq,hch,Client.Channel.putBasicResponse,
      exists_and_left,exists_eq_left',Table.lookup_emplace_eq_some,Prod.mk.injEq,true_and,hnone]
    constructor
    · rintro ⟨ok',hok | ⟨rfl,-⟩⟩
      · exact .inl ⟨ok',hok⟩
      · exact .inr rfl
    · rintro (⟨ok',hok⟩ | rfl)
      · exact ⟨ok',.inl hok⟩
      · exact ⟨ok,.inr ⟨rfl,rfl⟩⟩
  · simp [AList.lookup_insert_ne hn,hn]

/-- The oldest response reaches its channel. -/
theorem put (h : Ids ((cid,rid)::flow) k drawn) {ch : Client.Channel}
    (hch : k.channels.lookup cid = some ch) (ok : Bool) :
    Ids flow {k with channels := k.channels.insert cid (ch.putBasicResponse rid ok)} drawn := by
  have hnodup := List.nodup_cons.mp h.once
  constructor
  case once => exact hnodup.2
  case unanswered =>
    intro x hx ha
    rcases (h.answered_put hch ok).mp ha with ha | ha
    · exact h.unanswered x (List.mem_cons_of_mem _ hx) ha
    · cases ha
      exact hnodup.1 (List.mem_map_of_mem (f := Prod.snd) hx)
  case calls => exact h.calls
  case named => exact Table.forall_insert (h.named cid ch hch) h.named
  case drawnFlow => exact fun x hx => h.drawnFlow x (List.mem_cons_of_mem _ hx)
  case drawnCalls => exact h.drawnCalls
  case drawnAnswers =>
    intro n r ha
    rcases (h.answered_put hch ok).mp ha with ha | ha
    · exact h.drawnAnswers n r ha
    · cases ha
      exact h.drawnFlow (cid,rid) List.mem_cons_self
  case drawnChannels =>
    intro n hn
    exact h.drawnChannels n (Table.isSome_lookup_insert (Option.isSome_of_eq_some hch) ▸ hn)

/-- The answer that a thread takes goes from its table, and no other. -/
theorem answered_finish {i : ℕ} {call : Call} {ch : Client.Channel} {ok : Bool}
    (hch : k.channels.lookup call.cid = some ch) {n r : String} :
    Client.Connection.Answered {k with
      calls := k.calls.eraseIdx i
      channels := k.channels.insert call.cid (ch.finish call.rid ok call.pending)} n r ↔
      k.Answered n r ∧ (n,r) ≠ (call.cid,call.rid) := by
  unfold Client.Connection.Answered
  by_cases hn : n = call.cid
  · subst hn
    simp only [AList.lookup_insert,Option.some.injEq,hch,exists_and_left,exists_eq_left',
      Client.Channel.finish_basicResp,Table.lookup_erase_eq_some,ne_eq,Prod.mk.injEq,true_and]
    constructor
    · rintro ⟨hne,ok',hr⟩; exact ⟨⟨ok',hr⟩,hne⟩
    · rintro ⟨⟨ok',hr⟩,hne⟩; exact ⟨hne,ok',hr⟩
  · simp [AList.lookup_insert_ne hn,hn]

/-- The thread that ends its call was waiting, and no other one under its id. -/
theorem calls_erase (h : Ids flow k drawn) {i : ℕ} {call : Call} (hi : k.calls[i]? = some call) :
    (∀ c, c ∈ k.calls.eraseIdx i ↔ c ∈ k.calls ∧ c.rid ≠ call.rid) ∧
      ((k.calls.eraseIdx i).map Call.rid).Nodup := by
  obtain ⟨hlt,hget⟩ := List.getElem?_eq_some_iff.mp hi
  have hperm : (call :: k.calls.eraseIdx i).Perm k.calls := by
    rw [← hget]
    exact List.getElem_cons_eraseIdx_perm hlt
  have hnodup := (hperm.map Call.rid).nodup_iff.mpr h.calls
  rw [List.map_cons,List.nodup_cons] at hnodup
  refine ⟨fun c => ⟨fun hc => ?_,fun hc => ?_⟩,hnodup.2⟩
  · exact ⟨hperm.mem_iff.mp (List.mem_cons_of_mem _ hc),
      fun heq => hnodup.1 (heq ▸ List.mem_map_of_mem hc)⟩
  · exact (List.mem_cons.mp (hperm.mem_iff.mpr hc.1)).resolve_left fun heq => hc.2 (heq ▸ rfl)

/-- A thread takes its answer out of the table. -/
theorem finish (h : Ids flow k drawn) {i : ℕ} {call : Call} {ch : Client.Channel} {ok : Bool}
    (hi : k.calls[i]? = some call) (hch : k.channels.lookup call.cid = some ch) :
    Ids flow {k with
      calls := k.calls.eraseIdx i
      channels := k.channels.insert call.cid (ch.finish call.rid ok call.pending)} drawn := by
  obtain ⟨hmem,hnodup⟩ := h.calls_erase hi
  constructor
  case once => exact h.once
  case unanswered => exact fun x hx ha => h.unanswered x hx ((answered_finish hch).mp ha).1
  case calls => exact hnodup
  case named => exact Table.forall_insert (by simpa using h.named call.cid ch hch) h.named
  case drawnFlow => exact h.drawnFlow
  case drawnCalls => exact fun c hc => h.drawnCalls c ((hmem c).mp hc).1
  case drawnAnswers => exact fun n r ha => h.drawnAnswers n r ((answered_finish hch).mp ha).1
  case drawnChannels =>
    intro n hn
    exact h.drawnChannels n (Table.isSome_lookup_insert (Option.isSome_of_eq_some hch) ▸ hn)

/-- A thread wakes up and ends its call. -/
theorem resume (h : Ids flow k drawn) {i : ℕ} {k' : Client.Connection}
    (hr : k.resume i = some k') : Ids flow k' drawn := by
  obtain ⟨call,c,ok,hi,hc,-,woken,hwoken,hcases⟩ := Client.Connection.resume_cases hr
  have hf : Ids flow woken drawn := hwoken ▸ h.finish hi hc
  rcases hcases with ⟨-,rfl⟩ | ⟨-,rfl⟩ | ⟨api,-,rfl⟩ | ⟨-,rfl⟩
  · split_ifs
    · exact hf.congr rfl rfl
    · exact hf
  · exact hf.congr rfl rfl
  · exact hf
  · exact hf.drop call.cid _

/-- The event loop takes in the oldest response: its channel may be gone. -/
theorem receive {resp : Response} {responses : List Response}
    (h : Ids ((resp::responses).filterMap Response.token ++ flow) k drawn) :
    Ids (responses.filterMap Response.token ++ flow) (k.receive resp) drawn := by
  cases resp with
  | common rid cid ok =>
    simp only [List.filterMap_cons,Response.token,List.cons_append] at h
    simp only [Client.Connection.receive,Client.Connection.basicResponse]
    split_ifs
    · split
      · exact h.sublist (List.sublist_cons_self _ _)
      · next c hc => exact h.put hc ok
    · exact h.sublist (List.sublist_cons_self _ _)
  | consume cid tag body props =>
    simp only [List.filterMap_cons,Response.token] at h
    simp only [Client.Connection.receive,Client.Connection.consumeResponse]
    split_ifs
    · exact h.congr rfl rfl
    · exact h

end Ids

/-- A pushed message answers no request. -/
theorem Session.pushed_token {s : Session} {cp : Consumer} {resp : Response}
    (h : resp.token = none) : (s.pushed (some (cp,resp))).filterMap Response.token = [] := by
  simp only [pushed]
  split_ifs
  · rw [List.filterMap_cons_none h,List.filterMap_nil]
  · rfl

@[simp] theorem Session.flow_send {s : Session} {k : Client.Connection} {req : Request} :
    (s.send k req).flow = s.flow ++ [req.token] := by
  simp [flow,send]

/-- Every step of a session draws new ids and moves the others along. -/
theorem Session.step_ids {s s' : Session} {ev : LinkEvent} (h : Ids s.flow s.client s.drawn)
    (hs : s.step ev = some s') : Ids s'.flow s'.client s'.drawn := by
  have hcases := step_cases hs
  cases ev with
  | openChannel cid rid =>
    obtain ⟨hcid,hrid,hne,rfl⟩ := hcases
    rw [flow_send]
    refine (h.create hcid _).send ?_ .openChannel
    simp only [List.mem_cons,not_or]
    exact ⟨Ne.symm hne,hrid⟩
  | call cid rid api =>
    obtain ⟨hrid,c,hc,⟨-,rfl⟩ | ⟨req,hreq,rfl⟩⟩ := hcases
    · exact h
    · obtain ⟨rfl,hcid,-⟩ := Client.Channel.request_ids hreq
      simp only [flow_send,Request.token,hcid,h.named cid c hc]
      exact h.send hrid (.call api)
  | dropChannel cid rid =>
    obtain ⟨hrid,c,hc,-,-,⟨-,rfl⟩ | ⟨req,hreq,rfl⟩⟩ := hcases
    · exact h.drop cid _
    · obtain ⟨rfl,hcid,-⟩ := Client.Channel.request_ids hreq
      simp only [flow_send,Request.token,hcid,h.named cid c hc]
      exact (h.send hrid .destructor).congr rfl rfl
  | resume i =>
    obtain ⟨k,hk,rfl⟩ := hcases
    exact h.resume hk
  | receive =>
    obtain ⟨resp,rest,hresp,rfl⟩ := hcases
    simp only [flow,hresp,List.append_assoc] at h ⊢
    exact h.receive
  | work i =>
    obtain ⟨r,-,rfl⟩ := hcases
    exact h.congr rfl rfl
  | serve it uuid =>
    obtain ⟨req,rest,r,hidle,hreq,hr,rfl⟩ := hcases
    have hflow : s.flow = s.responses.filterMap Response.token ++
        (req.token::rest.map Request.token) := by simp [flow,hidle,hreq]
    rw [hflow] at h
    cases hrep : r.2 with
    | none =>
      refine h.sublist ?_
      simp only [flow,Option.toList_none,List.filterMap_nil,List.append_nil]
      exact (List.sublist_cons_self _ _).append_left _
    | some resp =>
      obtain ⟨ok,rfl⟩ := Broker.handle_answer hr hrep
      simpa [flow,hrep,Response.token,Request.token] using h
  | reply =>
    obtain ⟨resp,hresp,rfl⟩ := hcases
    simpa [flow,hresp] using h
  | choose i =>
    obtain ⟨r,hr,rfl⟩ := hcases
    obtain ⟨task,m,-,⟨-,rfl⟩ | ⟨cp,-,rfl⟩⟩ := Broker.choose_cases hr
    · simpa [flow,pushed] using h
    · have htoken : (s.pushed (some (Broker.delivery cp m))).filterMap Response.token = [] :=
        pushed_token rfl
      simp only [flow,List.filterMap_append,htoken,List.append_nil]
      exact h
  | other ev =>
    obtain ⟨-,b,-,rfl⟩ := hcases
    exact h

end MessageQueue

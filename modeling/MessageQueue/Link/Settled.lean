import MessageQueue.Base.Gathered
import MessageQueue.Broker.Routes
import MessageQueue.Link.Network
import MessageQueue.Link.Waiting

/-! Whether all calls come back. Once clients make no new calls, the event loops, the threads and the
workers on both sides have only so much left to do, in whatever order they do it; and when nothing is
left, no thread waits. -/
namespace MessageQueue
open Base Client

/-- The events that need no new call. -/
def LinkEvent.isWork : LinkEvent → Bool
  | .serve .. | .reply | .receive | .resume _ | .work _ => true
  | _ => false

def NetworkEvent.isWork : NetworkEvent → Bool
  | .link _ ev => ev.isWork
  | .take _ | .choose _ | .autoAck _ => true
  | .connect _ | .disconnect .. => false

/-- The steps that a worker still has to take for the message it holds. -/
def Running.left : Running → ℕ
  | .took .. => 2
  | .called .. => 1

namespace Network

def workSystem : Lts Network NetworkEvent := system.guarded fun _ nev => nev.isWork = true

/-! ### There is only so much to do -/

/-- What is left to do. Each step makes one of the numbers smaller, and none of those before it
greater. -/
def rank (n : Network) : ℕ × ℕ × ℕ × ℕ × ℕ × ℕ :=
  ((n.ends.gathered Ends.requests).length,n.broker.pool.length,
    (n.broker.running.map Running.left).sum,
    (n.ends.gathered fun e => e.replying.toList).length,(n.ends.gathered Ends.responses).length,
    (n.ends.gathered fun e => e.client.pool).length+
      (n.ends.gathered fun e => e.client.calls).length)

def Below : ℕ × ℕ × ℕ × ℕ × ℕ × ℕ → ℕ × ℕ × ℕ × ℕ × ℕ × ℕ → Prop :=
  Prod.Lex (· < ·) <| Prod.Lex (· < ·) <| Prod.Lex (· < ·) <| Prod.Lex (· < ·) <|
    Prod.Lex (· < ·) (· < ·)

theorem below_wf : WellFounded Below :=
  have hlt := Nat.lt_wfRel.wf
  hlt.prod_lex <| hlt.prod_lex <| hlt.prod_lex <| hlt.prod_lex <| hlt.prod_lex hlt

variable {n n' : Network} {nev : NetworkEvent} {conn i : ℕ} {e e' : Ends} {ev : LinkEvent}

/-- One connection takes a step. -/
theorem length_insert {β : Type*} (f : Ends → List β) (he : n.ends.lookup conn = some e)
    (e' : Ends) :
    (Table.gathered f (n.ends.insert conn e')).length+(f e).length =
      (n.ends.gathered f).length+(f e').length := by
  rw [Table.gathered_insert,(Table.perm_gathered he).length_eq,List.length_append,
    List.length_append]
  omega

theorem left_eraseIdx {rs : List Running} {r : Running} (h : rs[i]? = some r) :
    ((rs.eraseIdx i).map Running.left).sum+r.left = (rs.map Running.left).sum := by
  obtain ⟨hlt,rfl⟩ := List.getElem?_eq_some_iff.mp h
  rw [← ((List.getElem_cons_eraseIdx_perm hlt).map Running.left).sum_eq,List.map_cons,
    List.sum_cons,Nat.add_comm]

theorem left_eraseIdx_lt {rs : List Running} {r : Running} (h : rs[i]? = some r) :
    ((rs.eraseIdx i).map Running.left).sum < (rs.map Running.left).sum := by
  have herase := left_eraseIdx h
  have hleft : 0 < r.left := by cases r <;> simp [Running.left]
  omega

theorem left_set {rs : List Running} {r : Running} (h : rs[i]? = some r) (r' : Running) :
    ((rs.set i r').map Running.left).sum+r.left = (rs.map Running.left).sum+r'.left := by
  obtain ⟨hlt,rfl⟩ := List.getElem?_eq_some_iff.mp h
  rw [((List.set_perm_cons_eraseIdx hlt r').map Running.left).sum_eq,List.map_cons,List.sum_cons,
    ← left_eraseIdx h]
  omega

/-- One connection has less to do, and leaves the pool of the broker as it is unless it has fewer
requests. -/
theorem below_insert {b : Broker} (he : n.ends.lookup conn = some e)
    (h : e'.requests.length < e.requests.length ∨
      e'.requests.length = e.requests.length ∧ b = n.broker ∧
        (e'.replying.toList.length < e.replying.toList.length ∨
          e'.replying.toList.length = e.replying.toList.length ∧
            (e'.responses.length < e.responses.length ∨
              e'.responses.length = e.responses.length ∧
                e'.client.pool.length+e'.client.calls.length <
                  e.client.pool.length+e.client.calls.length))) :
    Below (rank ⟨b,n.ends.insert conn e'⟩) n.rank := by
  have hreq := length_insert Ends.requests he e'
  have hreply := length_insert (fun e => e.replying.toList) he e'
  have hresp := length_insert Ends.responses he e'
  have hpool := length_insert (fun e => e.client.pool) he e'
  have hcalls := length_insert (fun e => e.client.calls) he e'
  simp only [Below,rank,Prod.lex_def]
  rcases h with h | ⟨hsame,rfl,h⟩ <;> omega

/-- Requests are served, replies sent and taken in, and threads and tasks go on. -/
theorem down_link (hev : ev.isWork = true) (hs : n.step (.link conn ev) = some n') :
    Below n'.rank n.rank := by
  obtain ⟨-,e,s,he,hstep,rfl⟩ := link_cases hs
  refine below_insert he ?_
  have hcases := Session.step_cases hstep
  cases ev with
  | serve it uuid =>
    obtain ⟨req,rest,r,-,hrest,-,rfl⟩ := hcases
    have hlen : e.requests.length = rest.length+1 := congrArg List.length hrest
    exact .inl (by rw [hlen]; exact Nat.lt_succ_self _)
  | reply =>
    obtain ⟨resp,hsome,rfl⟩ := hcases
    have hsome : e.replying = some resp := hsome
    exact .inr ⟨rfl,rfl,.inl (by rw [hsome]; exact Nat.zero_lt_one)⟩
  | receive =>
    obtain ⟨resp,rest,hrest,rfl⟩ := hcases
    have hlen : e.responses.length = rest.length+1 := congrArg List.length hrest
    exact .inr ⟨rfl,rfl,.inr ⟨rfl,.inl (by rw [hlen]; exact Nat.lt_succ_self _)⟩⟩
  | resume i =>
    obtain ⟨k,hk,rfl⟩ := hcases
    obtain ⟨call,-,-,hi,-⟩ := Connection.resume_cases hk
    have hlt : i < e.client.calls.length := (List.getElem?_eq_some_iff.mp hi).1
    have hcalls : k.calls.length = e.client.calls.length-1 := by
      rw [Connection.resume_calls hk]
      exact List.length_eraseIdx_of_lt hlt
    have hpool : k.pool = e.client.pool := Connection.resume_pool hk
    refine .inr ⟨rfl,rfl,.inr ⟨rfl,.inr ⟨rfl,?_⟩⟩⟩
    change k.pool.length+k.calls.length < _
    rw [hpool,hcalls]
    omega
  | work i =>
    obtain ⟨r,hr,rfl⟩ := hcases
    obtain ⟨_,_,hi,-⟩ := Connection.work_cases hr
    have hlt : i < e.client.pool.length := (List.getElem?_eq_some_iff.mp hi).1
    have hpool := List.length_eraseIdx_of_lt hlt
    refine .inr ⟨rfl,rfl,.inr ⟨rfl,.inr ⟨rfl,?_⟩⟩⟩
    change (e.client.pool.eraseIdx i).length+e.client.calls.length < _
    omega
  | _ => cases hev

/-- A push changes what is under way to a client only. -/
theorem rank_push (n : Network) (d : Option (Consumer × Response)) :
    (n.push d).rank.1 = n.rank.1 ∧ (n.push d).broker = n.broker := by
  cases d with
  | none => exact ⟨rfl,rfl⟩
  | some d =>
    obtain ⟨cp,resp⟩ := d
    simp only [push]
    split
    · exact ⟨rfl,rfl⟩
    · next e he =>
      have hlen := length_insert Ends.requests he {e with responses := e.responses ++ [resp]}
      exact ⟨Nat.add_right_cancel hlen,rfl⟩

/-- A worker of the broker takes a step, and may push. -/
theorem below_running {b : Broker} (d : Option (Consumer × Response))
    (hpool : b.pool = n.broker.pool)
    (h : (b.running.map Running.left).sum < (n.broker.running.map Running.left).sum) :
    Below (({n with broker := b} : Network).push d).rank n.rank := by
  obtain ⟨hreq,hbroker⟩ := rank_push {n with broker := b} d
  refine Prod.lex_def.mpr (.inr ⟨hreq,Prod.lex_def.mpr (.inr ⟨?_,Prod.lex_def.mpr (.inl ?_)⟩)⟩)
  · change (Network.broker _).pool.length = _
    rw [hbroker]
    exact congrArg List.length hpool
  · change ((Network.broker _).running.map Running.left).sum < _
    rw [hbroker]
    exact h

/-- Whoever does a step, there is less to do then. -/
theorem down (hs : workSystem.step n nev n') : Below n'.rank n.rank := by
  obtain ⟨hwork,hs⟩ := hs
  have hs : n.step nev = some n' := hs
  cases nev with
  | connect c => cases hwork
  | disconnect c it => cases hwork
  | link conn ev => exact down_link hwork hs
  | take i =>
    obtain ⟨b,hb,rfl⟩ := Option.map_eq_some_iff.mp hs
    obtain ⟨task,hi,rfl⟩ := Broker.take_cases hb
    have hlt := (List.getElem?_eq_some_iff.mp hi).1
    have hless : (n.broker.pool.eraseIdx i).length < n.broker.pool.length := by
      rw [List.length_eraseIdx_of_lt hlt]
      omega
    exact .right _ (.left _ _ hless)
  | choose i =>
    obtain ⟨⟨b,d⟩,hr,rfl⟩ := Option.map_eq_some_iff.mp hs
    obtain ⟨task,m,hi,⟨-,hb⟩ | ⟨cp,-,hb⟩⟩ := Broker.choose_cases hr
    · obtain ⟨rfl,rfl⟩ := Prod.mk.inj hb
      exact below_running none rfl (left_eraseIdx_lt hi)
    · obtain ⟨rfl,rfl⟩ := Prod.mk.inj hb
      refine below_running _ rfl ?_
      dsimp only
      split_ifs
      · have hset := left_set hi (.called task m)
        simp only [Running.left] at hset
        omega
      · exact left_eraseIdx_lt hi
  | autoAck i =>
    obtain ⟨b,hb,rfl⟩ := Option.map_eq_some_iff.mp hs
    obtain ⟨task,m,hi,rfl⟩ := Broker.autoAck_cases hb
    exact below_running none rfl (left_eraseIdx_lt hi)

end Network

/-! ### When nothing is left to do, no thread waits -/

/-- An exchange is declared with a type that there is. -/
def Client.Api.KnownType : Api → Prop
  | .declareExchange _ type .. => type.Known
  | _ => True

def Request.KnownType : Request → Prop
  | .declareExchange _ _ _ type .. => type.Known
  | _ => True

theorem Client.Channel.request_knownType {c : Channel} {rid : String} {api : Api} {req : Request}
    (h : c.request rid api = some req) (hapi : api.KnownType) : req.KnownType := by
  cases api with
  | declareExchange => cases h; exact hapi
  | basicAck => obtain ⟨sub,-,rfl⟩ := Option.map_eq_some_iff.mp h; trivial
  | basicCancel => obtain ⟨sub,-,rfl⟩ := Option.map_eq_some_iff.mp h; trivial
  | basicConsume =>
    simp only [request] at h
    split at h <;> cases h
    trivial
  | _ => cases h; trivial

namespace Session

/-- The client sends nothing on a channel after its close request, and declares exchanges with types
that there are. -/
def Mannered (s : Session) (ev : LinkEvent) : Prop :=
  s.Orderly ev ∧ ∀ cid rid api, ev = .call cid rid api → api.KnownType

theorem Mannered.free (s : Session) (ev : LinkEvent) (hown : ev.isOwn = false) :
    s.Mannered ev := by
  cases ev with
  | choose i => exact ⟨trivial,fun _ _ _ heq => by cases heq⟩
  | other ev => exact ⟨trivial,fun _ _ _ heq => by cases heq⟩
  | _ => cases hown

/-- What the sessions of mannered clients keep. -/
structure Polite (s : Session) : Prop where
  sound : s.Sound
  types : ∀ req ∈ s.requests, req.KnownType

theorem Polite.step {s s' : Session} {ev : LinkEvent} (h : s.Polite) (hm : s.Mannered ev)
    (hs : s.step ev = some s') : s'.Polite := by
  refine ⟨h.sound.step hm.1 hs,fun req hreq => ?_⟩
  rcases Network.session_requests hs hreq with hold | ⟨cid,rid,⟨-,rfl⟩ | ⟨c,api,-,hreq,hev⟩⟩
  · exact h.types req hold
  · trivial
  · rcases hev with rfl | ⟨-,rfl⟩
    · exact Channel.request_knownType hreq (hm.2 cid rid api rfl)
    · exact Channel.request_knownType hreq trivial

end Session

/-- Where routing is defined, the broker comes to an end with every request. -/
theorem Broker.handle_isSome {b : Broker} (h : b.Routed) (conn : ℕ) (req : Request)
    (it : Iteration) (uuid : String → String) : (b.handle conn req it uuid).isSome = true := by
  cases req with
  | basicPublish rid cid ename body bp => exact publish_answered h conn rid cid ename body bp it uuid
  | _ =>
    unfold handle
    split
    · rfl
    · first
        | rfl
        | simp only
          split
          · rfl
          · rfl

namespace Network
variable {n n' : Network} {nev : NetworkEvent} {nevs : List NetworkEvent} {conn : ℕ} {e : Ends}

/-- Nothing is under way, nobody works, and no thread waits. -/
structure Settled (n : Network) : Prop where
  pool : n.broker.pool = []
  running : n.broker.running = []
  ends : ∀ conn e, n.ends.lookup conn = some e → e.requests = [] ∧ e.replying = none ∧
    e.responses = [] ∧ e.client.pool = [] ∧ e.client.calls = []

/-- Routing is defined, and the clients are mannered. -/
structure Polite (n : Network) : Prop where
  typed : Typed n.broker.host
  ends : ∀ conn e, n.ends.lookup conn = some e → (e.session conn n.broker).Polite

/-- The requests that the broker serves declare known types. -/
theorem Polite.step_typed (h : n.Polite) (hs : n.step nev = some n') : Typed n'.broker.host := by
  have hb := step_broker hs
  cases hev : n.brokerEvent nev with
  | none =>
    rw [hev] at hb
    rw [hb]
    exact h.typed
  | some ev =>
    rw [hev] at hb
    refine Broker.step_typed h.typed hb ?_
    cases nev with
    | link conn lev =>
      cases lev with
      | serve it uuid =>
        simp only [brokerEvent,Option.bind_eq_some_iff,Option.map_eq_some_iff] at hev
        obtain ⟨e,he,req,hreq,rfl⟩ := hev
        have hk := (h.ends conn e he).types req (List.mem_of_mem_head? hreq)
        cases req with
        | declareExchange => exact fun _ _ => hk
        | _ => trivial
      | _ => cases hev
    | _ => cases hev; trivial

theorem polite {basedir : String} {it : Iteration} {disk : Disk} {plan : List Bool} {b₀ : Broker}
    (start : Broker.construct basedir it disk {plan := plan} = some b₀)
    (run : (system.guarded (Keeping Session.Mannered)).Run ⟨b₀,∅⟩ nevs n) : n.Polite := by
  have hends : ∀ {nevs n}, (system.guarded (Keeping Session.Mannered)).Run ⟨b₀,∅⟩ nevs n →
      ∀ conn e, n.ends.lookup conn = some e → (e.session conn n.broker).Polite := by
    intro nevs n run conn e he
    obtain ⟨bevs,b,levs,hb,hrun,-⟩ := (Sessions.run Session.Mannered.free run).2 conn e he
    have hnamed := Broker.run_named start hb
    exact hrun.invariant (P := Session.Polite) ⟨.start hnamed conn,fun req hreq => by cases hreq⟩
      fun h hs => h.step hs.1 hs.2
  refine ⟨?_,hends run⟩
  induction run with
  | nil =>
    obtain ⟨host,hhost,rfl⟩ := Option.map_eq_some_iff.mp start
    exact .construct hhost (by simp)
  | snoc before last ih => exact Polite.step_typed ⟨ih,hends before⟩ last.2

/-- Work keeps to the guard. -/
theorem keeping_of_work (hwork : nev.isWork = true) : n.Keeping Session.Mannered nev := by
  cases nev with
  | link conn ev =>
    intro e he
    cases ev with
    | call => cases hwork
    | dropChannel => cases hwork
    | _ => exact ⟨trivial,fun _ _ _ heq => by cases heq⟩
  | _ => trivial

/-- A thread that waits, or a message that is under way, gives somebody something to do. -/
theorem Polite.settled (h : n.Polite) (hend : workSystem.Ended n) : n.Settled := by
  have hstuck : ∀ nev, nev.isWork = true → n.step nev = none := by
    intro nev hwork
    rw [Option.eq_none_iff_forall_ne_some]
    exact fun n' hs => hend nev n' ⟨hwork,hs⟩
  have hreplying : ∀ conn e, n.ends.lookup conn = some e → e.replying = none := by
    intro conn e he
    by_contra hne
    obtain ⟨resp,hresp⟩ := Option.ne_none_iff_exists'.mp hne
    have hnone := hstuck (.link conn .reply) rfl
    simp [step,LinkEvent.isOwn,needsLoop,he,Session.step,Ends.session,hresp] at hnone
  have hrequests : ∀ conn e, n.ends.lookup conn = some e → e.requests = [] := by
    intro conn e he
    by_contra hne
    obtain ⟨req,rest,hreq⟩ := List.exists_cons_of_ne_nil hne
    have hidle : n.idle = true := idle_iff.mpr hreplying
    obtain ⟨r,hr⟩ := Option.isSome_iff_exists.mp (Broker.handle_isSome
      (Broker.routed_iff.mpr h.typed.registry) conn req .listed fun _ => "")
    have hnone := hstuck (.link conn (.serve .listed fun _ => "")) rfl
    simp [step,LinkEvent.isOwn,hidle,he,Session.step,Ends.session,hreplying conn e he,hreq,hr]
      at hnone
  have hresponses : ∀ conn e, n.ends.lookup conn = some e → e.responses = [] := by
    intro conn e he
    by_contra hne
    obtain ⟨resp,rest,hresp⟩ := List.exists_cons_of_ne_nil hne
    have hnone := hstuck (.link conn .receive) rfl
    simp [step,LinkEvent.isOwn,needsLoop,he,Session.step,Ends.session,hresp] at hnone
  refine ⟨?_,?_,fun conn e he => ⟨hrequests conn e he,hreplying conn e he,hresponses conn e he,?_,
    ?_⟩⟩
  · by_contra hne
    obtain ⟨task,rest,hpool⟩ := List.exists_cons_of_ne_nil hne
    have hnone := hstuck (.take 0) rfl
    simp only [step,Option.map_eq_none_iff,Broker.take,hpool,List.getElem?_cons_zero] at hnone
    split at hnone <;> cases hnone
  · by_contra hne
    obtain ⟨r,rest,hrunning⟩ := List.exists_cons_of_ne_nil hne
    cases r with
    | took task m =>
      have hnone := hstuck (.choose 0) rfl
      simp only [step,Option.map_eq_none_iff,Broker.choose,hrunning,List.getElem?_cons_zero] at hnone
      split at hnone <;> cases hnone
    | called task m =>
      have hnone := hstuck (.autoAck 0) rfl
      simp [step,Broker.autoAck,hrunning] at hnone
  · by_contra hne
    obtain ⟨t,rest,hpool⟩ := List.exists_cons_of_ne_nil hne
    have hnone := hstuck (.link conn (.work 0)) rfl
    simp [step,LinkEvent.isOwn,needsLoop,he,Session.step,Ends.session,Connection.work,hpool] at hnone
  · by_contra hne
    obtain ⟨c,rest,hcalls⟩ := List.exists_cons_of_ne_nil hne
    have hin : c ∈ (e.session conn n.broker).client.calls := by
      change c ∈ e.client.calls
      rw [hcalls]
      exact List.mem_cons_self
    -- a thread that waits has its answer, as nothing else is left that could end its wait
    rcases (h.ends conn e he).sound.awaits hin with
      ⟨req,hreq,-⟩ | ⟨cid,ok,hreply⟩ | ⟨ok,hresp,-⟩ | ⟨ch,ok,hch,hok⟩
    · change req ∈ e.requests at hreq
      rw [hrequests conn e he] at hreq
      cases hreq
    · change e.replying = _ at hreply
      rw [hreplying conn e he] at hreply
      cases hreply
    · change _ ∈ e.responses at hresp
      rw [hresponses conn e he] at hresp
      cases hresp
    · have hnone := hstuck (.link conn (.resume 0)) rfl
      have hresume : (e.client.resume 0).isSome = true := by
        have hch : e.client.channels.lookup c.cid = some ch := hch
        simp only [Connection.resume,hcalls,List.getElem?_cons_zero,hch,hok]
        split <;> rfl
      obtain ⟨k,hk⟩ := Option.isSome_iff_exists.mp hresume
      simp [step,LinkEvent.isOwn,needsLoop,he,Session.step,Ends.session,hk] at hnone

/-- If clients make no new calls, then whatever the order in which threads, event loops and workers
go on, they come to an end, and all calls have come back. -/
theorem calls_come_back {basedir : String} {it : Iteration} {disk : Disk} {plan : List Bool}
    {b₀ : Broker} (start : Broker.construct basedir it disk {plan := plan} = some b₀)
    (run : (system.guarded (Keeping Session.Mannered)).Run ⟨b₀,∅⟩ nevs n) :
    (¬ ∃ ns : ℕ → Network, ns 0 = n ∧ ∀ i, ∃ nev, workSystem.step (ns i) nev (ns (i+1))) ∧
      (∃ nevs' n', workSystem.Run n nevs' n' ∧ workSystem.Ended n') ∧
      ∀ nevs' n', workSystem.Run n nevs' n' → workSystem.Ended n' → n'.Settled := by
  refine ⟨Lts.no_endless below_wf rank down n,Lts.exists_ended below_wf rank down n,
    fun nevs' n' run' hend => ?_⟩
  have hwork : (system.guarded (Keeping Session.Mannered)).Run n nevs' n' :=
    run'.mono fun h => ⟨keeping_of_work h.1,h.2⟩
  exact (polite start (run.append hwork)).settled hend

end Network
end MessageQueue

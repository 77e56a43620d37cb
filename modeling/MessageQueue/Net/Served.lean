import MessageQueue.Net.Server

/-! The broker on its connections handles what its peers have sent: of the bytes of a connection it
takes the frames, as far as they are frames, and handles their requests in order, as if nothing else
arrived. It answers those that it answers in order, and it shuts a connection down for what is no
request. -/
namespace MessageQueue

def Event.isRequest : Event → Bool
  | .request .. => true
  | _ => false

/-- The requests that a connection has made since it came up. -/
def Event.requested (conn : ℕ) (reqs : List Request) : Event → List Request
  | .connect c => if c = conn then [] else reqs
  | .request c req .. => if c = conn then reqs ++ [req] else reqs
  | _ => reqs

def requestsOn (conn : ℕ) (evs : List Event) : List Request := evs.foldl (Event.requested conn) []

/-- The ids under which a response answers. -/
def Response.answers : Response → Option (String × String)
  | .common rid cid _ => some (rid,cid)
  | .consume .. => none

namespace Request

/-- The connection answers for itself, and for the channels that it has. -/
def answered (has : String → Bool) (req : Request) : Bool :=
  match req with
  | .openChannel .. | .closeChannel .. => true
  | req => has req.cid

theorem answered_eq {req : Request} (h : ¬ req.ForConnection) (has : String → Bool) :
    req.answered has = has req.cid := by
  cases req with
  | openChannel => exact absurd trivial h
  | closeChannel => exact absurd trivial h
  | _ => rfl

/-- The channels that are open after some requests. -/
def openAfter (reqs : List Request) : String → Bool := reqs.foldl (fun has req => req.opens has)
  fun _ => false

/-- The ids of the requests that are answered, from the channels that are open at first. -/
def answersFrom (has : String → Bool) : List Request → List (String × String)
  | [] => []
  | req::reqs => (if req.answered has then [(req.rid,req.cid)] else []) ++
      answersFrom (req.opens has) reqs

/-- On a new connection no channel is open. -/
def answersTo (reqs : List Request) : List (String × String) := answersFrom (fun _ => false) reqs

theorem answersFrom_append (has : String → Bool) (reqs : List Request) (req : Request) :
    answersFrom has (reqs ++ [req]) = answersFrom has reqs ++
      if req.answered (reqs.foldl (fun has req => req.opens has) has) then [(req.rid,req.cid)]
      else [] := by
  induction reqs generalizing has with
  | nil => exact List.append_nil _
  | cons r reqs ih =>
    rw [List.cons_append,answersFrom,ih,answersFrom,List.append_assoc]
    rfl

theorem openAfter_append (reqs : List Request) (req : Request) :
    openAfter (reqs ++ [req]) = req.opens (openAfter reqs) := List.foldl_concat ..

end Request

/-- Whether a request is answered, its connection decides by the channels that it has. -/
theorem Broker.handle_answers {b : Broker} {conn : ℕ} {req : Request} {it : Iteration}
    {uuid : String → String} {r : Broker × Option Response}
    (hknown : (b.connections.lookup conn).isSome) (h : b.handle conn req it uuid = some r) :
    (if req.answered (b.hasChannel conn) then [(req.rid,req.cid)] else []) =
      r.2.toList.filterMap Response.answers := by
  obtain ⟨channels,hch⟩ := Option.isSome_iff_exists.mp hknown
  cases hans : req.answered (b.hasChannel conn) with
  | true =>
    have hchan : ¬ req.ForConnection → b.hasChannel conn req.cid = true := fun hfor => by
      rw [← hans,Request.answered_eq hfor]
    obtain ⟨ok,hok⟩ := handle_reply hknown hchan h
    rw [hok]
    rfl
  | false =>
    simp only [handle,hch] at h
    split at h
    · cases hans
    · cases hans
    · next hopen hclose =>
      rw [Request.answered_eq (Request.not_forConnection hopen hclose),hasChannel_eq hch,
        Option.isSome_eq_false_iff,Option.isNone_iff_eq_none] at hans
      rw [hans] at h
      cases h
      rfl

namespace Net
open Base Bytes

/-- The bytes that have arrived on a connection since it came up. -/
def ServerEvent.arrived (conn : ℕ) (bs : Bytes) : ServerEvent → Bytes
  | .connect c => if c = conn then [] else bs
  | .arrive c bytes => if c = conn then bs ++ bytes else bs
  | _ => bs

def arrivedOn (conn : ℕ) (evs : List ServerEvent) : Bytes := evs.foldl (ServerEvent.arrived conn) []

/-- What the broker sees of an event beside the requests. -/
def ServerEvent.own : ServerEvent → Option Event
  | .connect conn => some (.connect conn)
  | .disconnect conn it => some (.disconnect conn it)
  | .take i => some (.take i)
  | .choose i => some (.choose i)
  | .autoAck i => some (.autoAck i)
  | .restart it => some (.restart it)
  | .arrive .. | .next .. | .reply => none

namespace Server
variable {M : Type*} {lib : Library M} {s s' : Server} {conn conn' : ℕ} {buf : Buffer}
  {arrived : Bytes} {reqs : List Request} {handled : List M} {sent : List Response}

/-- The answer that is about to be sent on a connection. -/
def pending (s : Server) (conn : ℕ) : List (String × String) :=
  if s.reading = some conn then s.replying.toList.filterMap Response.answers else []

theorem pending_none (h : s.replying = none) : s.pending conn = [] := by
  unfold pending
  rw [h]
  split <;> rfl

/-- What a connection that is up has come to: of the bytes that have arrived the messages that were
handled, the requests among them, and what was sent. -/
structure Tracks (lib : Library M) (s : Server) (conn : ℕ) (buf : Buffer)
    (arrived : Bytes) (reqs : List Request) (handled : List M) (sent : List Response) : Prop where
  reads : (Codec.reader lib.toRuntime).Reads arrived handled buf.peek
  idle : s.reading ≠ some conn → (Codec.reader lib.toRuntime).Idle buf.peek
  requests : handled.filterMap (brokerDispatcher lib).onProtobufMessage = reqs
  known : (s.broker.connections.lookup conn).isSome
  channels : ∀ cid, s.broker.hasChannel conn cid = Request.openAfter reqs cid
  shut_of : conn ∈ s.shut →
    (∃ p ∈ handled, (brokerDispatcher lib).onProtobufMessage p = none) ∨
    ∃ e, Codec.front lib.toRuntime buf.peek = .bad e
  shut_handled :
    (∃ p ∈ handled, (brokerDispatcher lib).onProtobufMessage p = none) → conn ∈ s.shut
  shut_bad : ∀ e, s.reading ≠ some conn →
    Codec.front lib.toRuntime buf.peek = .bad e → conn ∈ s.shut
  output : s.outputs.lookup conn =
    some (sent.flatMap fun resp => Codec.frame lib.toRuntime (lib.ofResponse resp))
  answers : conn ∉ s.shut →
    sent.filterMap Response.answers ++ s.pending conn = Request.answersTo reqs

namespace Tracks

/-- What happens elsewhere does not matter. -/
theorem frame (h : s.Tracks lib conn buf arrived reqs handled sent)
    (hconn : s'.broker.connections.lookup conn = s.broker.connections.lookup conn)
    (hread : s'.reading = some conn ↔ s.reading = some conn)
    (hreply : s.reading = some conn → s'.replying = s.replying)
    (hshut : conn ∈ s'.shut ↔ conn ∈ s.shut)
    (hout : s'.outputs.lookup conn = s.outputs.lookup conn) :
    s'.Tracks lib conn buf arrived reqs handled sent := by
  have hpending : s'.pending conn = s.pending conn := by
    unfold pending
    by_cases hr : s.reading = some conn
    · rw [if_pos hr,if_pos (hread.mpr hr),hreply hr]
    · rw [if_neg hr,if_neg fun hr' => hr (hread.mp hr')]
  exact {
    reads := h.reads
    idle := fun hr => h.idle fun hr' => hr (hread.mpr hr')
    requests := h.requests
    known := by rw [hconn]; exact h.known
    channels := fun cid => by
      rw [← h.channels cid]
      simp only [Broker.hasChannel,hconn]
    shut_of := fun hs => h.shut_of (hshut.mp hs)
    shut_handled := fun hs => hshut.mpr (h.shut_handled hs)
    shut_bad := fun e hr hbad => hshut.mpr (h.shut_bad e (fun hr' => hr (hread.mpr hr')) hbad)
    output := hout.trans h.output
    answers := fun hs => by
      rw [hpending]
      exact h.answers fun hs' => hs (hshut.mpr hs') }

/-- Only the broker changed, and not at this connection. -/
theorem broker (h : s.Tracks lib conn buf arrived reqs handled sent) {b : Broker}
    (hconn : b.connections.lookup conn = s.broker.connections.lookup conn) :
    ({s with broker := b} : Server).Tracks lib conn buf arrived reqs handled sent :=
  h.frame hconn Iff.rfl (fun _ => rfl) Iff.rfl rfl

theorem of_new (hconn : s.broker.connections.lookup conn = some ∅) (hshut : conn ∉ s.shut)
    (hread : s.reading ≠ some conn) (hout : s.outputs.lookup conn = some []) :
    s.Tracks lib conn (Buffer.new kInitialSize) [] [] [] [] where
  reads := by
    rw [Buffer.peek_new]
    exact .nil []
  idle _ := by
    rw [Buffer.peek_new]
    exact Codec.idle_nil
  requests := rfl
  known := Option.isSome_of_eq_some hconn
  channels cid := by simp [Broker.hasChannel,hconn,Request.openAfter]
  shut_of h := absurd h hshut
  shut_handled h := by
    obtain ⟨p,hp,-⟩ := h
    cases hp
  shut_bad e _ hbad := by
    rw [Buffer.peek_new,Codec.front_nil] at hbad
    cases hbad
  output := hout
  answers _ := by
    rw [pending,if_neg hread]
    rfl

/-- Bytes arrive, and the event loop looks at them. -/
theorem arrive (h : s.Tracks lib conn buf arrived reqs handled sent)
    (hreply : s.replying = none) (hs : s'.broker = s.broker ∧ s'.outputs = s.outputs ∧
      s'.shut = s.shut ∧ s'.reading = some conn ∧ s'.replying = none) (bytes : Bytes) :
    s'.Tracks lib conn (buf.append bytes) (arrived ++ bytes) reqs handled sent := by
  obtain ⟨hb,ho,hsh,hr,hre⟩ := hs
  exact {
    reads := by
      rw [Buffer.peek_append]
      exact h.reads.append bytes
    idle := fun hne => absurd hr hne
    requests := h.requests
    known := by rw [hb]; exact h.known
    channels := by rw [hb]; exact h.channels
    shut_of := fun hin => by
      rw [hsh] at hin
      refine (h.shut_of hin).imp_right ?_
      rintro ⟨e,hbad⟩
      rw [Buffer.peek_append]
      exact ⟨e,(Codec.reader lib.toRuntime).bad_append hbad bytes⟩
    shut_handled := by rw [hsh]; exact h.shut_handled
    shut_bad := fun e hne => absurd hr hne
    output := by rw [ho]; exact h.output
    answers := fun hin => by
      rw [hsh] at hin
      rw [← h.answers hin,pending_none hre,pending_none hreply] }

/-- The loop ends where no whole frame is in front. -/
theorem more (h : s.Tracks lib conn buf arrived reqs handled sent) (hreply : s.replying = none)
    (hfront : Codec.front lib.toRuntime buf.peek = .more) :
    ({s with reading := none} : Server).Tracks lib conn buf arrived reqs handled sent where
  reads := h.reads
  idle _ a n hitem := by cases hfront.symm.trans hitem
  requests := h.requests
  known := h.known
  channels := h.channels
  shut_of := h.shut_of
  shut_handled := h.shut_handled
  shut_bad e _ hbad := by cases hfront.symm.trans hbad
  output := h.output
  answers hin := by
    have hafter : ({s with reading := none} : Server).pending conn = [] := pending_none hreply
    rw [← h.answers hin,pending_none hreply,hafter]

/-- It ends at an error too, and the connection is shut down. -/
theorem bad (h : s.Tracks lib conn buf arrived reqs handled sent) {e : ErrorCode}
    (hfront : Codec.front lib.toRuntime buf.peek = .bad e) :
    ({s.shutdown conn with reading := none} : Server).Tracks lib conn buf arrived reqs handled
      sent where
  reads := h.reads
  idle _ a n hitem := by cases hfront.symm.trans hitem
  requests := h.requests
  known := h.known
  channels := h.channels
  shut_of _ := .inr ⟨e,hfront⟩
  shut_handled _ := List.mem_cons_self
  shut_bad _ _ _ := List.mem_cons_self
  output := h.output
  answers hin := absurd List.mem_cons_self hin

/-- A frame is taken out of the buffer. -/
theorem reads_item (h : s.Tracks lib conn buf arrived reqs handled sent) {message : M}
    {n : ℕ} (hfront : Codec.front lib.toRuntime buf.peek = .item message n)
    {buf' : Buffer} (hbuf : buf'.peek = buf.peek.drop n) :
    (Codec.reader lib.toRuntime).Reads arrived (handled ++ [message]) buf'.peek := by
  rw [hbuf]
  exact h.reads.trans (.cons hfront (.nil _))

/-- A message that is no request shuts the connection down. -/
theorem unknown (h : s.Tracks lib conn buf arrived reqs handled sent) {message : M}
    {n : ℕ} (hfront : Codec.front lib.toRuntime buf.peek = .item message n)
    {buf' : Buffer} (hbuf : buf'.peek = buf.peek.drop n) (hread : s.reading = some conn)
    (hnone : (brokerDispatcher lib).onProtobufMessage message = none) (inputs : Table ℕ Buffer) :
    (({s with inputs := inputs} : Server).shutdown conn).Tracks lib conn buf' arrived reqs
      (handled ++ [message]) sent where
  reads := h.reads_item hfront hbuf
  idle hne := absurd hread hne
  requests := by
    rw [List.filterMap_append,h.requests]
    simp [hnone]
  known := h.known
  channels := h.channels
  shut_of _ := .inl ⟨message,by simp,hnone⟩
  shut_handled _ := List.mem_cons_self
  shut_bad _ _ _ := List.mem_cons_self
  output := h.output
  answers hin := absurd List.mem_cons_self hin

/-- A request is handled. -/
theorem request (h : s.Tracks lib conn buf arrived reqs handled sent) (hn : s.broker.Named)
    {message : M} {n : ℕ}
    (hfront : Codec.front lib.toRuntime buf.peek = .item message n)
    {buf' : Buffer} (hbuf : buf'.peek = buf.peek.drop n) (hread : s.reading = some conn)
    (hreply : s.replying = none) {req : Request}
    (hreq : (brokerDispatcher lib).onProtobufMessage message = some req)
    {it : Iteration} {uuid : String → String} {r : Broker × Option Response}
    (hr : s.broker.handle conn req it uuid = some r) (inputs : Table ℕ Buffer) :
    ({s with broker := r.1, replying := r.2, inputs := inputs} : Server).Tracks lib conn buf'
      arrived (reqs ++ [req]) (handled ++ [message]) sent where
  reads := h.reads_item hfront hbuf
  idle hne := absurd hread hne
  requests := by
    rw [List.filterMap_append,h.requests]
    simp [hreq]
  known := ((Broker.handle_channels hn hr).own h.known).1
  channels cid := by
    rw [((Broker.handle_channels hn hr).own h.known).2 cid,Request.openAfter_append]
    congr 1
    exact funext h.channels
  shut_of hin := by
    rcases h.shut_of hin with ⟨p,hp,hnone⟩ | ⟨e,hbad⟩
    · exact .inl ⟨p,by simp [hp],hnone⟩
    · cases hfront.symm.trans hbad
  shut_handled := by
    rintro ⟨p,hp,hnone⟩
    rcases List.mem_append.mp hp with hp | hp
    · exact h.shut_handled ⟨p,hp,hnone⟩
    · obtain rfl := List.mem_singleton.mp hp
      cases hreq.symm.trans hnone
  shut_bad e hne := absurd hread hne
  output := h.output
  answers hin := by
    have hbefore := h.answers hin
    rw [pending_none hreply,List.append_nil] at hbefore
    have hhas : Request.openAfter reqs = s.broker.hasChannel conn :=
      funext fun cid => (h.channels cid).symm
    rw [Request.answersTo,Request.answersFrom_append,← Request.answersTo,hbefore]
    congr 1
    rw [pending,if_pos hread]
    change r.2.toList.filterMap Response.answers = _
    rw [← Broker.handle_answers h.known hr,← hhas]
    rfl

/-- What is sent goes behind what was sent, unless the connection is shut down. -/
theorem output_send (h : s.Tracks lib conn buf arrived reqs handled sent) (resp : Response) :
    ∃ sent', (s.send lib conn resp).outputs.lookup conn = some (sent'.flatMap fun resp =>
        Codec.frame lib.toRuntime (lib.ofResponse resp)) ∧
      (conn ∉ s.shut → sent' = sent ++ [resp]) := by
  obtain ⟨hno | hshut,heq⟩ | ⟨out,hout,hshut,heq⟩ := send_cases lib s conn resp
  · cases hno.symm.trans h.output
  · exact ⟨sent,by rw [heq]; exact h.output,fun hin => absurd hshut hin⟩
  · refine ⟨sent ++ [resp],?_,fun _ => rfl⟩
    cases hout.symm.trans h.output
    rw [heq]
    simp [List.flatMap_append]

/-- The answer to a request is sent. -/
theorem reply (h : s.Tracks lib conn buf arrived reqs handled sent) {resp : Response}
    (hread : s.reading = some conn) (hreply : s.replying = some resp) :
    ∃ sent', ({s.send lib conn resp with replying := none} : Server).Tracks lib conn buf
      arrived reqs handled sent' := by
  obtain ⟨sent',hout,hsent⟩ := h.output_send resp
  obtain ⟨hb,hsh,hr,-⟩ := send_same lib s conn resp
  refine ⟨sent',?_⟩
  exact {
    reads := h.reads
    idle := fun hne => absurd (hr.trans hread) hne
    requests := h.requests
    known := by rw [hb]; exact h.known
    channels := by rw [hb]; exact h.channels
    shut_of := by rw [hsh]; exact h.shut_of
    shut_handled := by rw [hsh]; exact h.shut_handled
    shut_bad := fun e hne => absurd (hr.trans hread) hne
    output := hout
    answers := fun hin => by
      rw [hsh] at hin
      rw [← h.answers hin,hsent hin,pending_none rfl,pending,if_pos hread,hreply]
      simp }

/-- A worker sends a message of a queue. -/
theorem push (h : s.Tracks lib conn buf arrived reqs handled sent) {resp : Response}
    (hresp : resp.answers = none) :
    ∃ sent', (s.send lib conn resp).Tracks lib conn buf arrived reqs handled sent' := by
  obtain ⟨sent',hout,hsent⟩ := h.output_send resp
  obtain ⟨hb,hsh,hr,hre⟩ := send_same lib s conn resp
  have hpending : (s.send lib conn resp).pending conn = s.pending conn := by
    rw [pending,pending,hr,hre]
  refine ⟨sent',?_⟩
  exact {
    reads := h.reads
    idle := by rw [hr]; exact h.idle
    requests := h.requests
    known := by rw [hb]; exact h.known
    channels := by rw [hb]; exact h.channels
    shut_of := by rw [hsh]; exact h.shut_of
    shut_handled := by rw [hsh]; exact h.shut_handled
    shut_bad := by rw [hr,hsh]; exact h.shut_bad
    output := hout
    answers := fun hin => by
      rw [hsh] at hin
      rw [← h.answers hin,hsent hin,hpending,List.filterMap_append]
      simp [hresp] }

end Tracks

/-- Every connection that is up is tracked. -/
structure Served (lib : Library M) (s : Server) (arrived : ℕ → Bytes)
    (reqs : ℕ → List Request) : Prop where
  down : ∀ conn, s.inputs.lookup conn = none → s.broker.connections.lookup conn = none
  busy : s.reading = none → s.replying = none
  tracks : ∀ conn buf, s.inputs.lookup conn = some buf →
    ∃ handled sent, s.Tracks lib conn buf (arrived conn) (reqs conn) handled sent

namespace Served
variable {arrived : ℕ → Bytes} {reqs : ℕ → List Request}

theorem connect (h : s.Served lib arrived reqs) (hread : s.reading = none)
    (hnew : s.inputs.lookup conn = none) :
    ({s with
      broker := s.broker.newConnection conn
      inputs := s.inputs.insert conn (Buffer.new kInitialSize)
      outputs := s.outputs.insert conn []
      shut := s.shut.filter (· ≠ conn)} : Server).Served lib
        (fun c => (ServerEvent.connect conn).arrived c (arrived c))
        (fun c => (Event.connect conn).requested c (reqs c)) where
  down c hc := by
    by_cases hcc : c = conn
    · subst hcc
      simp at hc
    · simp only [AList.lookup_insert_ne hcc] at hc
      exact (Table.lookup_emplace_ne hcc).trans (h.down c hc)
  busy := h.busy
  tracks c buf hc := by
    by_cases hcc : c = conn
    · subst hcc
      rw [AList.lookup_insert] at hc
      cases hc
      refine ⟨[],[],?_⟩
      simp only [ServerEvent.arrived,Event.requested,if_true]
      refine Tracks.of_new ?_ (by simp) (by simp [hread]) (AList.lookup_insert _)
      exact Table.lookup_emplace_none (h.down c hnew)
    · simp only [AList.lookup_insert_ne hcc] at hc
      obtain ⟨handled,sent,ht⟩ := h.tracks c buf hc
      refine ⟨handled,sent,?_⟩
      simp only [ServerEvent.arrived,Event.requested,if_neg (Ne.symm hcc)]
      refine ht.frame (Table.lookup_emplace_ne hcc) Iff.rfl (fun _ => rfl) ?_
        (AList.lookup_insert_ne hcc)
      simp [hcc]

theorem disconnect (h : s.Served lib arrived reqs) :
    ({s with
      broker := s.broker.delConnection conn it
      inputs := s.inputs.erase conn
      outputs := s.outputs.erase conn} : Server).Served lib arrived reqs where
  down c hc := by
    rw [Broker.delConnection_connections]
    by_cases hcc : c = conn
    · subst hcc
      exact AList.lookup_erase _ _
    · simp only [AList.lookup_erase_ne hcc] at hc ⊢
      exact h.down c hc
  busy := h.busy
  tracks c buf hc := by
    obtain ⟨hcc,hc⟩ := Table.lookup_erase_eq_some.mp hc
    obtain ⟨handled,sent,ht⟩ := h.tracks c buf hc
    refine ⟨handled,sent,ht.frame ?_ Iff.rfl (fun _ => rfl) Iff.rfl (AList.lookup_erase_ne hcc)⟩
    rw [Broker.delConnection_connections]
    exact AList.lookup_erase_ne hcc

theorem arrive (h : s.Served lib arrived reqs) (hread : s.reading = none) {buf : Buffer}
    (hbuf : s.inputs.lookup conn = some buf) (bytes : Bytes) :
    ({s with inputs := s.inputs.insert conn (buf.append bytes), reading := some conn} :
      Server).Served lib (fun c => (ServerEvent.arrive conn bytes).arrived c (arrived c))
        reqs where
  down c hc := by
    by_cases hcc : c = conn
    · subst hcc
      simp at hc
    · simp only [AList.lookup_insert_ne hcc] at hc
      exact h.down c hc
  busy hr := by cases hr
  tracks c buf' hc := by
    have hreply := h.busy hread
    by_cases hcc : c = conn
    · subst hcc
      rw [AList.lookup_insert] at hc
      cases hc
      obtain ⟨handled,sent,ht⟩ := h.tracks c buf hbuf
      refine ⟨handled,sent,?_⟩
      simp only [ServerEvent.arrived,if_true]
      refine ht.arrive hreply ?_ bytes
      exact ⟨rfl,rfl,rfl,rfl,hreply⟩
    · simp only [AList.lookup_insert_ne hcc] at hc
      obtain ⟨handled,sent,ht⟩ := h.tracks c buf' hc
      refine ⟨handled,sent,?_⟩
      simp only [ServerEvent.arrived,if_neg (Ne.symm hcc)]
      refine ht.frame rfl ?_ (fun hr => ?_) Iff.rfl rfl
      · simp [hread,Ne.symm hcc]
      · cases hread.symm.trans hr

/-- What the loop does at its own connection is all that it does. -/
theorem of_own (h : s.Served lib arrived reqs) (hread : s.reading = some conn)
    {reqs' : ℕ → List Request} {buf : Buffer}
    (hinputs : ∀ c, c ≠ conn → s'.inputs.lookup c = s.inputs.lookup c)
    (hbuf : s'.inputs.lookup conn = some buf)
    (hconn : ∀ c, c ≠ conn → s'.broker.connections.lookup c = s.broker.connections.lookup c)
    (hreading : s'.reading = none ∧ s'.replying = none ∨ s'.reading = some conn)
    (hshut : ∀ c, c ≠ conn → (c ∈ s'.shut ↔ c ∈ s.shut))
    (hout : ∀ c, c ≠ conn → s'.outputs.lookup c = s.outputs.lookup c)
    (hreqs : ∀ c, c ≠ conn → reqs' c = reqs c)
    (own : ∃ handled sent, s'.Tracks lib conn buf (arrived conn) (reqs' conn) handled sent) :
    s'.Served lib arrived reqs' where
  down c hc := by
    by_cases hcc : c = conn
    · subst hcc
      cases hbuf.symm.trans hc
    · rw [hconn c hcc]
      exact h.down c (by rwa [← hinputs c hcc])
  busy hr := by
    rcases hreading with hreading | hreading
    · exact hreading.2
    · cases hreading.symm.trans hr
  tracks c buf' hc := by
    by_cases hcc : c = conn
    · subst hcc
      cases hbuf.symm.trans hc
      exact own
    · rw [hinputs c hcc] at hc
      obtain ⟨handled,sent,ht⟩ := h.tracks c buf' hc
      rw [hreqs c hcc]
      have hne : s.reading ≠ some c := by simp [hread,Ne.symm hcc]
      refine ⟨handled,sent,ht.frame (hconn c hcc) ?_ (fun hr => absurd hr hne) (hshut c hcc)
        (hout c hcc)⟩
      rcases hreading with ⟨hr,-⟩ | hr <;> simp [hr,hread,Ne.symm hcc]

/-- One round of the loop: a request is handled at most. -/
theorem next (h : s.Served lib arrived reqs) (hn : s.broker.Named)
    (hread : s.reading = some conn) (hreply : s.replying = none) {buf : Buffer}
    (hbuf : s.inputs.lookup conn = some buf) {it : Iteration} {uuid : String → String}
    (hs : s.next lib conn buf it uuid = some s') : ∃ new,
      Broker.system.Run s.broker new s'.broker ∧ (∀ ev ∈ new, ev.isRequest = true) ∧
        s'.Served lib arrived fun c => new.foldl (Event.requested c) (reqs c) := by
  obtain ⟨handled,sent,ht⟩ := h.tracks conn buf hbuf
  have hmem : ∀ c, c ≠ conn → (c ∈ conn::s.shut ↔ c ∈ s.shut) := fun c hcc => by simp [hcc]
  have hins : ∀ (buf' : Buffer) c, c ≠ conn →
      (s.inputs.insert conn buf').lookup c = s.inputs.lookup c :=
    fun buf' c hcc => AList.lookup_insert_ne hcc
  unfold Server.next at hs
  cases hf : Codec.front lib.toRuntime buf.peek with
  | more =>
    rw [hf] at hs
    cases hs
    exact ⟨[],.nil _,by simp,h.of_own hread (fun _ _ => rfl) hbuf (fun _ _ => rfl)
      (.inl ⟨rfl,hreply⟩) (fun _ _ => Iff.rfl) (fun _ _ => rfl) (fun _ _ => rfl)
      ⟨handled,sent,ht.more hreply hf⟩⟩
  | bad e =>
    rw [hf] at hs
    cases hs
    exact ⟨[],.nil _,by simp,h.of_own hread (fun _ _ => rfl) hbuf (fun _ _ => rfl)
      (.inl ⟨rfl,hreply⟩) hmem (fun _ _ => rfl) (fun _ _ => rfl) ⟨handled,sent,ht.bad hf⟩⟩
  | item message n =>
    rw [hf] at hs
    obtain ⟨buf',hret,hs⟩ := Option.bind_eq_some_iff.mp hs
    obtain ⟨buf'',hret',hpeek,-⟩ := Buffer.retrieve_spec (Buffer.retrieve_le hret)
    cases hret.symm.trans hret'
    unfold dispatch at hs
    cases hreq : (brokerDispatcher lib).onProtobufMessage message with
    | none =>
      rw [hreq] at hs
      cases hs
      exact ⟨[],.nil _,by simp,h.of_own hread (hins buf') (AList.lookup_insert _) (fun _ _ => rfl)
        (.inr hread) hmem (fun _ _ => rfl) (fun _ _ => rfl)
        ⟨_,sent,ht.unknown hf hpeek hread hreq _⟩⟩
    | some req =>
      rw [hreq] at hs
      obtain ⟨r,hr,rfl⟩ := Option.map_eq_some_iff.mp hs
      have hstep : s.broker.step (.request conn req it uuid) = some r.1 := by
        change (s.broker.handle conn req it uuid).map Prod.fst = _
        simp only at hr
        rw [hr]
        rfl
      refine ⟨[.request conn req it uuid],.single hstep,by simp [Event.isRequest],?_⟩
      rw [if_pos ht.known]
      refine h.of_own hread (hins buf') (AList.lookup_insert _)
        (fun c hcc => (Broker.handle_channels hn hr).others c hcc) (.inr hread)
        (fun _ _ => Iff.rfl) (fun _ _ => rfl) (fun c hcc => ?_) ⟨handled ++ [message],sent,?_⟩
      · simp [Event.requested,Ne.symm hcc]
      · have hown := ht.request hn hf hpeek hread hreply hreq hr (s.inputs.insert conn buf')
        simpa [Event.requested] using hown

theorem reply (h : s.Served lib arrived reqs) (hread : s.reading = some conn) {resp : Response}
    (hreply : s.replying = some resp) :
    ({s.send lib conn resp with replying := none} : Server).Served lib arrived reqs := by
  obtain ⟨hb,hsh,hr,-⟩ := send_same lib s conn resp
  have hin := inputs_send lib s conn resp
  refine ⟨fun c hc => ?_,fun hnone => rfl,fun c buf hc => ?_⟩
  · simp only [hin] at hc
    simp only [hb]
    exact h.down c hc
  · simp only [hin] at hc
    obtain ⟨handled,sent,ht⟩ := h.tracks c buf hc
    by_cases hcc : c = conn
    · subst hcc
      obtain ⟨sent',ht'⟩ := ht.reply hread hreply
      exact ⟨handled,sent',ht'⟩
    · have hne : s.reading ≠ some c := by simp [hread,Ne.symm hcc]
      exact ⟨handled,sent,ht.frame (by simp only [hb]) (by simp only [hr]) (fun hr' => absurd hr' hne)
        (by simp only [hsh]) (outputs_send_ne lib s hcc resp)⟩

/-- A worker sends a message of a queue, on whatever connection. -/
theorem push (h : s.Served lib arrived reqs) (conn : ℕ) {resp : Response}
    (hresp : resp.answers = none) : (s.send lib conn resp).Served lib arrived reqs := by
  obtain ⟨hb,hsh,hr,hre⟩ := send_same lib s conn resp
  have hin := inputs_send lib s conn resp
  refine ⟨fun c hc => ?_,fun hnone => ?_,fun c buf hc => ?_⟩
  · rw [hb]
    exact h.down c (by rwa [hin] at hc)
  · rw [hre]
    exact h.busy (by rwa [hr] at hnone)
  · rw [hin] at hc
    obtain ⟨handled,sent,ht⟩ := h.tracks c buf hc
    by_cases hcc : c = conn
    · subst hcc
      obtain ⟨sent',ht'⟩ := ht.push hresp
      exact ⟨handled,sent',ht'⟩
    · exact ⟨handled,sent,ht.frame (by rw [hb]) (by rw [hr]) (fun _ => hre) (by rw [hsh])
        (outputs_send_ne lib s hcc resp)⟩

/-- The workers leave the connections alone. -/
theorem broker (h : s.Served lib arrived reqs) {b : Broker}
    (hb : b.connections = s.broker.connections) :
    ({s with broker := b} : Server).Served lib arrived reqs where
  down c hc := by
    simp only [hb]
    exact h.down c hc
  busy := h.busy
  tracks c buf hc := by
    obtain ⟨handled,sent,ht⟩ := h.tracks c buf hc
    exact ⟨handled,sent,ht.broker (by rw [hb])⟩

theorem restart {b : Broker} (hb : b.connections = ∅) (arrived : ℕ → Bytes)
    (reqs : ℕ → List Request) : ({broker := b} : Server).Served lib arrived reqs where
  down c _ := by simp [hb]
  busy _ := rfl
  tracks c buf hc := by simp at hc

/-- Every step keeps it. The broker does what its own events say, or handles a request. -/
theorem step (h : s.Served lib arrived reqs) (hn : s.broker.Named) {ev : ServerEvent}
    (hs : s.step lib ev = some s') : ∃ new, Broker.system.Run s.broker new s'.broker ∧
      new.filter (fun ev => !ev.isRequest) = ev.own.toList ∧
      s'.Served lib (fun c => ev.arrived c (arrived c))
        fun c => new.foldl (Event.requested c) (reqs c) := by
  cases ev with
  | connect conn =>
    simp only [Server.step] at hs
    split_ifs at hs with hc
    cases hs
    exact ⟨[.connect conn],.single rfl,rfl,h.connect hc.1 hc.2⟩
  | disconnect conn it =>
    simp only [Server.step] at hs
    split_ifs at hs with hc
    cases hs
    exact ⟨[.disconnect conn it],.single rfl,rfl,h.disconnect⟩
  | arrive conn bytes =>
    simp only [Server.step] at hs
    split_ifs at hs with hread
    obtain ⟨buf,hbuf,rfl⟩ := Option.map_eq_some_iff.mp hs
    exact ⟨[],.nil _,rfl,h.arrive hread hbuf bytes⟩
  | next it uuid =>
    simp only [Server.step] at hs
    split at hs
    · next conn hread hreply =>
      obtain ⟨buf,hbuf,hs⟩ := Option.bind_eq_some_iff.mp hs
      obtain ⟨new,hrun,hnew,hserved⟩ := h.next hn hread hreply hbuf hs
      refine ⟨new,hrun,?_,hserved⟩
      exact List.filter_eq_nil_iff.mpr fun ev hev => by simp [hnew ev hev]
    · cases hs
  | reply =>
    simp only [Server.step] at hs
    split at hs
    · next conn resp hread hreply =>
      cases hs
      refine ⟨[],?_,rfl,h.reply hread hreply⟩
      simp only [(send_same lib s conn resp).1]
      exact .nil _
    · cases hs
  | take i =>
    obtain ⟨b,hb,rfl⟩ := Option.map_eq_some_iff.mp hs
    obtain ⟨task,-,hbroker⟩ := Broker.take_cases hb
    refine ⟨[.take i],.single hb,rfl,h.broker ?_⟩
    rw [hbroker]
  | choose i =>
    obtain ⟨r,hr,rfl⟩ := Option.map_eq_some_iff.mp hs
    have hstep : s.broker.step (.choose i) = some r.1 := congrArg (Option.map Prod.fst) hr
    obtain ⟨task,m,-,⟨-,he⟩ | ⟨cp,-,he⟩⟩ := Broker.choose_cases hr
    · have hconns : r.1.connections = s.broker.connections := by rw [he]
      refine ⟨[.choose i],?_,rfl,?_⟩
      · rw [he] at hstep ⊢
        exact .single hstep
      · rw [he] at hconns ⊢
        exact h.broker hconns
    · have hconns : r.1.connections = s.broker.connections := by rw [he]
      refine ⟨[.choose i],?_,rfl,?_⟩
      · rw [he] at hstep ⊢
        simp only [sendSome,(send_same lib _ _ _).1]
        exact .single hstep
      · rw [he] at hconns ⊢
        refine (h.broker hconns).push _ ?_
        rfl
  | autoAck i =>
    obtain ⟨b,hb,rfl⟩ := Option.map_eq_some_iff.mp hs
    obtain ⟨task,m,-,hbroker⟩ := Broker.autoAck_cases hb
    refine ⟨[.autoAck i],.single hb,rfl,h.broker ?_⟩
    rw [hbroker]
  | restart it =>
    obtain ⟨b,hb,rfl⟩ := Option.map_eq_some_iff.mp hs
    obtain ⟨host,-,hbroker⟩ := Option.map_eq_some_iff.mp hb
    exact ⟨[.restart it],.single hb,rfl,restart (by rw [← hbroker]) _ _⟩

/-- What holds at the end of a run. -/
theorem run {b : Broker} (hn : b.Named) (hb : b.connections = ∅) {evs : List ServerEvent}
    (run : (system lib).Run {broker := b} evs s) : ∃ bevs, Broker.system.Run b bevs s.broker ∧
      bevs.filter (fun ev => !ev.isRequest) = evs.filterMap ServerEvent.own ∧
      s.Served lib (arrivedOn · evs) (requestsOn · bevs) := by
  induction run with
  | nil =>
    exact ⟨[],.nil _,rfl,restart hb _ _⟩
  | @snoc t u evs ev _ last ih =>
    obtain ⟨bevs,hrun,hown,hserved⟩ := ih
    have hnamed : t.broker.Named := hrun.invariant hn fun hn h => Broker.step_named hn h
    obtain ⟨new,hnew,hfilter,hserved'⟩ := hserved.step hnamed last
    refine ⟨bevs ++ new,hrun.append hnew,?_,?_⟩
    · rw [List.filter_append,hown,hfilter,List.filterMap_append]
      cases hev : ev.own <;> simp [hev]
    · simpa [arrivedOn,requestsOn,List.foldl_append] using hserved'

end Served

/-- What has been handled is what has arrived, as far as it is frames. -/
theorem Tracks.drain (h : s.Tracks lib conn buf arrived reqs handled sent) :
    (Codec.reader lib.toRuntime).drain arrived =
      (handled ++ ((Codec.reader lib.toRuntime).drain buf.peek).1,
        ((Codec.reader lib.toRuntime).drain buf.peek).2) := by
  simpa using Reader.drain_append h.reads []

theorem Tracks.drain_idle (h : s.Tracks lib conn buf arrived reqs handled sent)
    (hread : s.reading ≠ some conn) :
    (Codec.reader lib.toRuntime).drain arrived = (handled,buf.peek) :=
  Reader.drain_eq h.reads (h.idle hread)

variable {basedir : String} {it : Iteration} {disk : Disk} {db : Database} {b : Broker}
  {evs : List ServerEvent}

theorem served_run (start : Broker.construct basedir it disk db = some b)
    (run : (system lib).Run {broker := b} evs s) : ∃ bevs, Broker.system.Run b bevs s.broker ∧
      bevs.filter (fun ev => !ev.isRequest) = evs.filterMap ServerEvent.own ∧
      s.Served lib (arrivedOn · evs) (requestsOn · bevs) := by
  refine Served.run (Broker.construct_named start) ?_ run
  obtain ⟨host,-,rfl⟩ := Option.map_eq_some_iff.mp start
  rfl

/-- Whatever bytes arrive, and in whatever pieces: the broker runs on requests, and those of each
connection are the ones in the frames of its bytes, in order. When the event loop is not at the
connection, there are none that it has left out. -/
theorem requests_of_bytes (start : Broker.construct basedir it disk db = some b)
    (run : (system lib).Run {broker := b} evs s) : ∃ bevs, Broker.system.Run b bevs s.broker ∧
      bevs.filter (fun ev => !ev.isRequest) = evs.filterMap ServerEvent.own ∧
      ∀ conn buf, s.inputs.lookup conn = some buf → ∃ handled,
        handled.filterMap (brokerDispatcher lib).onProtobufMessage = requestsOn conn bevs ∧
        ((Codec.reader lib.toRuntime).drain (arrivedOn conn evs)).1 =
          handled ++ ((Codec.reader lib.toRuntime).drain buf.peek).1 ∧
        (s.reading ≠ some conn →
          ((Codec.reader lib.toRuntime).drain buf.peek).1 = []) := by
  obtain ⟨bevs,hrun,hown,hserved⟩ := served_run start run
  refine ⟨bevs,hrun,hown,fun conn buf hbuf => ?_⟩
  obtain ⟨handled,sent,ht⟩ := hserved.tracks conn buf hbuf
  refine ⟨handled,ht.requests,by rw [ht.drain],fun hread => ?_⟩
  rw [Reader.drain_eq (.nil _) (ht.idle hread)]

/-- A request arrives in two pieces. -/
def openInPieces : List ServerEvent :=
  [.connect 1,.arrive 1 (Codec.openFrame.take 9),.next .listed fun _ => "",
    .arrive 1 (Codec.openFrame.drop 9),.next .listed fun _ => "",.reply,
    .next .listed fun _ => ""]

theorem openInPieces_run :
    ((Broker.construct "/data" .listed blankDisk {}).bind fun b =>
      openInPieces.foldlM (step (library Adler.adler32)) {broker := b}).any (fun s =>
        (s.inputs.lookup 1).isSome && (s.reading.isNone && s.shut.isEmpty)) = true := by
  decide +kernel

theorem requests_of_bytes_pieces : ∃ b bevs s, Broker.system.Run b bevs s.broker ∧
    (s : Server).inputs.lookup 1 ≠ none ∧ (requestsOn 1 bevs).length = 1 := by
  obtain ⟨b,s,start,run,hs⟩ := Lts.Run.of_any openInPieces_run
  simp only [Bool.and_eq_true,Option.isNone_iff_eq_none] at hs
  obtain ⟨buf,hbuf⟩ := Option.isSome_iff_exists.mp hs.1
  obtain ⟨bevs,hrun,-,hreqs⟩ := requests_of_bytes start run
  obtain ⟨handled,hhandled,hdrain,hidle⟩ := hreqs 1 buf hbuf
  rw [hidle (by simp [hs.2.1]),List.append_nil] at hdrain
  refine ⟨b,bevs,s,hrun,by simp [hbuf],?_⟩
  rw [← hhandled,← hdrain]
  decide +kernel

/-- A connection that is not shut down has been answered: once, in order and under their ids, those
of its requests that it makes of itself or on a channel that is open then. Nothing else decides who
is answered, on this connection or elsewhere. -/
theorem answers_of_bytes (start : Broker.construct basedir it disk db = some b)
    (run : (system lib).Run {broker := b} evs s) (hconn : (s.inputs.lookup conn).isSome)
    (hread : s.reading ≠ some conn) (hshut : conn ∉ s.shut) :
    ∃ sent : List Response, s.outputs.lookup conn = some (sent.flatMap fun resp =>
        Codec.frame lib.toRuntime (lib.ofResponse resp)) ∧
      sent.filterMap Response.answers = Request.answersTo
        (((Codec.reader lib.toRuntime).drain (arrivedOn conn evs)).1.filterMap
          (brokerDispatcher lib).onProtobufMessage) := by
  obtain ⟨bevs,-,-,hserved⟩ := served_run start run
  obtain ⟨buf,hbuf⟩ := Option.isSome_iff_exists.mp hconn
  obtain ⟨handled,sent,ht⟩ := hserved.tracks conn buf hbuf
  refine ⟨sent,ht.output,?_⟩
  have hans := ht.answers hshut
  rw [pending,if_neg hread,List.append_nil] at hans
  rw [hans,ht.drain_idle hread,ht.requests]

theorem answers_of_bytes_pieces : ∃ (s : Server) (sent : List Response),
    s.outputs.lookup 1 = some (sent.flatMap fun resp =>
      Codec.frame (Codec.runtime Adler.adler32) (.response resp)) ∧
    sent.filterMap Response.answers = [("r1","c1")] := by
  obtain ⟨b,s,start,run,hs⟩ := Lts.Run.of_any openInPieces_run
  simp only [Bool.and_eq_true,Option.isNone_iff_eq_none,List.isEmpty_iff] at hs
  obtain ⟨sent,hout,hans⟩ := answers_of_bytes start run hs.1 (by simp [hs.2.1]) (by simp [hs.2.2])
  refine ⟨s,sent,hout,hans.trans ?_⟩
  decide +kernel

/-- The broker shuts a connection down exactly for a message that is no request, or for bytes that
are no frame. -/
theorem shut_iff (start : Broker.construct basedir it disk db = some b)
    (run : (system lib).Run {broker := b} evs s) (hconn : (s.inputs.lookup conn).isSome)
    (hread : s.reading ≠ some conn) : conn ∈ s.shut ↔
      (∃ p ∈ ((Codec.reader lib.toRuntime).drain (arrivedOn conn evs)).1,
        (brokerDispatcher lib).onProtobufMessage p = none) ∨
      ∃ e, Codec.front lib.toRuntime
        ((Codec.reader lib.toRuntime).drain (arrivedOn conn evs)).2 = .bad e := by
  obtain ⟨bevs,-,-,hserved⟩ := served_run start run
  obtain ⟨buf,hbuf⟩ := Option.isSome_iff_exists.mp hconn
  obtain ⟨handled,sent,ht⟩ := hserved.tracks conn buf hbuf
  rw [ht.drain_idle hread]
  constructor
  · exact ht.shut_of
  · rintro (hin | ⟨e,hbad⟩)
    · exact ht.shut_handled hin
    · exact ht.shut_bad e hread hbad

/-- Bytes arrive that are no frame. -/
def zerosArrive : List ServerEvent :=
  [.connect 1,.arrive 1 (List.replicate 14 0),.next .listed fun _ => ""]

theorem shut_iff_zeros : ∃ s : Server, 1 ∈ s.shut := by
  have hall : ((Broker.construct "/data" .listed blankDisk {}).bind fun b =>
      zerosArrive.foldlM (step (library Adler.adler32)) {broker := b}).any (fun s =>
        (s.inputs.lookup 1).isSome && s.reading.isNone) = true := by
    decide +kernel
  obtain ⟨b,s,start,run,hs⟩ := Lts.Run.of_any hall
  simp only [Bool.and_eq_true,Option.isNone_iff_eq_none] at hs
  exact ⟨s,(shut_iff start run hs.1 (by simp [hs.2])).mpr (.inr ⟨.invalidLength,rfl⟩)⟩

end Server
end Net
end MessageQueue

import MessageQueue.Link.Bytes
import MessageQueue.Link.Network

/-! A broker with all its clients, over bytes. The event loop of the broker takes the frames of one
connection out of its buffer before it turns to another one. To the clients and the broker this is a
network whose links carry messages: nothing more can happen in it, and nothing less. -/
namespace MessageQueue
open Base Net

/-- A connection with its bytes. In `core` nothing is under way. -/
structure ByteEnds where
  core : Ends := {}
  toBroker : Pipe := {}
  toClient : Pipe := {}

def ByteEnds.session (e : ByteEnds) (conn : ℕ) (b : Broker) : ByteSession where
  core := e.core.session conn b
  toBroker := e.toBroker
  toClient := e.toClient

/-- The event loop of the broker is not at the connection. -/
def ByteEnds.free (e : ByteEnds) : Bool := !e.toBroker.reading && e.core.replying.isNone

def ByteSession.ends (bs : ByteSession) : ByteEnds where
  core := bs.core.ends
  toBroker := bs.toBroker
  toClient := bs.toClient

structure ByteNetwork where
  broker : Broker
  ends : Table ℕ ByteEnds := ∅

inductive ByteNetworkEvent
  | connect (conn : ℕ)
  | disconnect (conn : ℕ) (it : Iteration)
  | link (conn : ℕ) (ev : ByteEvent)
  | take (i : ℕ)
  | choose (i : ℕ)
  | autoAck (i : ℕ)

/-- What of an event is seen where links carry messages. -/
def ByteNetworkEvent.network? : ByteNetworkEvent → Option NetworkEvent
  | .connect conn => some (.connect conn)
  | .disconnect conn it => some (.disconnect conn it)
  | .link conn ev => ev.link?.map (.link conn)
  | .take i => some (.take i)
  | .choose i => some (.choose i)
  | .autoAck i => some (.autoAck i)

namespace ByteNetwork
variable (adler32 : BitVec 32 → Bytes → BitVec 32)

/-- The event loop of the broker is at no other connection. -/
def clear (n : ByteNetwork) (conn : ℕ) : Bool :=
  n.ends.entries.all fun e => e.1 = conn || e.2.free

/-- The event loop turns to the bytes of a connection when it is at no other. -/
def admits (n : ByteNetwork) (conn : ℕ) : ByteEvent → Bool
  | .link ev => ev.isOwn
  | .toBroker (.arrive _) => n.clear conn
  | .toBroker .look => true
  | .toClient _ => true

def push (n : ByteNetwork) : Option (Consumer × Response) → ByteNetwork
  | none => n
  | some (cp,resp) =>
    match n.ends.lookup cp.callback.connection with
    | none => n
    | some e =>
      let e := {e with toClient := e.toClient.send adler32 [.response resp]}
      {n with ends := n.ends.insert cp.callback.connection e}

def step (n : ByteNetwork) : ByteNetworkEvent → Option ByteNetwork
  | .connect conn =>
    if n.clear conn ∧ n.ends.lookup conn = none then
      some ⟨n.broker.newConnection conn,n.ends.insert conn {}⟩
    else none
  | .disconnect conn it =>
    if n.clear conn ∧ (n.ends.lookup conn).any ByteEnds.free then
      some ⟨n.broker.delConnection conn it,n.ends.erase conn⟩
    else none
  | .link conn ev =>
    if n.admits conn ev then
      (n.ends.lookup conn).bind fun e => ((e.session conn n.broker).step adler32 ev).map fun bs =>
        ⟨bs.core.broker,n.ends.insert conn bs.ends⟩
    else none
  | .take i => (n.broker.take i).map fun b => {n with broker := b}
  | .choose i => (n.broker.choose i).map fun r =>
    ({n with broker := r.1} : ByteNetwork).push adler32 r.2
  | .autoAck i => (n.broker.autoAck i).map fun b => {n with broker := b}

def system : Lts ByteNetwork ByteNetworkEvent := .ofPartial (step adler32)

/-- Nothing that is too long for its receiver is sent. -/
def SendsFit (n : ByteNetwork) : ByteNetworkEvent → Prop
  | .link conn ev => ∀ e, n.ends.lookup conn = some e →
    (e.session conn n.broker).SendsFit adler32 ev
  | .choose i => ∀ r, n.broker.choose i = some r → ∀ cp resp, r.2 = some (cp,resp) →
    (n.ends.lookup cp.callback.connection).isSome →
      Codec.Fits (Codec.runtime adler32) (.response resp)
  | _ => True

variable {adler32} {n n' : ByteNetwork} {conn : ℕ} {ev : ByteEvent}

theorem clear_iff : n.clear conn = true ↔
    ∀ c e, n.ends.lookup c = some e → c ≠ conn → e.free = true := by
  simp only [clear,List.all_eq_true,Bool.or_eq_true,decide_eq_true_eq]
  constructor
  · intro h c e he hne
    exact (h ⟨c,e⟩ (AList.mem_lookup_iff.mp he)).resolve_left hne
  · intro h e he
    by_cases hc : e.1 = conn
    · exact .inl hc
    · exact .inr (h e.1 e.2 (AList.mem_lookup_iff.mpr he) hc)

theorem link_cases (h : n.step adler32 (.link conn ev) = some n') : n.admits conn ev = true ∧
    ∃ e bs, n.ends.lookup conn = some e ∧ (e.session conn n.broker).step adler32 ev = some bs ∧
      n' = ⟨bs.core.broker,n.ends.insert conn bs.ends⟩ := by
  simp only [step] at h
  split_ifs at h with hadmits
  obtain ⟨e,he,h⟩ := Option.bind_eq_some_iff.mp h
  obtain ⟨bs,hs,rfl⟩ := Option.map_eq_some_iff.mp h
  exact ⟨hadmits,e,bs,he,hs,rfl⟩

end ByteNetwork

/-- What is under way on the links is short enough for its receivers. -/
def Ends.Fits (adler32 : BitVec 32 → Bytes → BitVec 32) (e : Ends) : Prop :=
  (∀ req ∈ e.requests, Codec.Fits (Codec.runtime adler32) (.request req)) ∧
    ∀ resp ∈ e.responses, Codec.Fits (Codec.runtime adler32) (.response resp)

/-- Nothing that is too long is sent in the step. -/
def Network.SendsFit (adler32 : BitVec 32 → Bytes → BitVec 32) (n : Network)
    (nev : NetworkEvent) : Prop :=
  ∀ n', n.step nev = some n' → ∀ conn e, n'.ends.lookup conn = some e → e.Fits adler32

/-! ### The event loop of the broker is at one connection at most -/

theorem Pipe.reading_of_next {adler32 : BitVec 32 → Bytes → BitVec 32} {p : Pipe}
    {r : Option Packet × Pipe} (h : p.next adler32 = some r) : p.reading = true := by
  unfold Pipe.next at h
  split_ifs at h with hr
  exact hr

namespace ByteSession
variable {adler32 : BitVec 32 → Bytes → BitVec 32} {bs bs' : ByteSession} {ev : LinkEvent}
  {bev : ByteEvent} {r : Session × ByteSession}

theorem ends_session {conn : ℕ} (h : bs.core.conn = conn) :
    bs.ends.session conn bs.core.broker = bs := by
  obtain ⟨⟨⟩,p,q⟩ := bs
  cases h
  rfl

theorem free_iff : bs.ends.free = true ↔ bs.toBroker.reading = false ∧ bs.core.replying = none := by
  simp [ByteEnds.free,ends,Session.ends]

/-- A request is taken out by the event loop while it is at the buffer. -/
theorem take_serve {it : Iteration} {uuid : String → String}
    (h : bs.take adler32 (.serve it uuid) = some r) :
    bs.core.replying = none ∧ bs.toBroker.reading = true := by
  simp only [take] at h
  split at h
  · next hreply hnext => exact ⟨hreply,Pipe.reading_of_next hnext⟩
  · cases h

/-- Nothing else concerns the buffer of the broker. -/
theorem take_else (h : bs.take adler32 ev = some r) (hserve : ∀ it uuid, ev ≠ .serve it uuid) :
    r.1.replying = bs.core.replying ∧ r.2.toBroker = bs.toBroker := by
  cases ev with
  | serve it uuid => exact absurd rfl (hserve it uuid)
  | receive =>
    simp only [take] at h
    split at h
    · obtain ⟨resp,-,rfl⟩ := Option.map_eq_some_iff.mp h
      exact ⟨rfl,rfl⟩
    · cases h
  | _ =>
    cases h
    exact ⟨rfl,rfl⟩

/-- Bytes that arrive are what the event loop comes to a connection for. -/
theorem step_free (hs : bs.step adler32 bev = some bs') (hfree : bs.ends.free = true)
    (harrive : ∀ k, bev ≠ .toBroker (.arrive k)) : bs'.ends.free = true := by
  obtain ⟨hread,hreply⟩ := free_iff.mp hfree
  cases bev with
  | link ev =>
    obtain ⟨r,htake,hs⟩ := Option.bind_eq_some_iff.mp hs
    obtain ⟨t,ht,rfl⟩ := Option.map_eq_some_iff.mp hs
    have hserve : ∀ it uuid, ev ≠ .serve it uuid := by
      rintro it uuid rfl
      cases hread.symm.trans (take_serve htake).2
    obtain ⟨hr,hb⟩ := take_else htake hserve
    have hnone : t.replying = none := by
      rcases Session.step_replying ht hserve with hsame | hnone
      · rw [hsame,hr,hreply]
      · exact hnone
    refine free_iff.mpr ⟨?_,hnone⟩
    change r.2.toBroker.reading = false
    rw [hb]
    exact hread
  | toBroker w =>
    cases w with
    | arrive k => exact absurd rfl (harrive k)
    | look =>
      simp only [step,Pipe.wait] at hs
      split_ifs at hs
      split at hs
      · next hnext => cases hread.symm.trans (Pipe.reading_of_next hnext)
      · cases hs
  | toClient w =>
    obtain ⟨p,-,rfl⟩ := Option.map_eq_some_iff.mp hs
    exact free_iff.mpr ⟨hread,hreply⟩

end ByteSession

namespace ByteNetwork
variable {adler32 : BitVec 32 → Bytes → BitVec 32} {n n' : ByteNetwork} {conn : ℕ} {ev : ByteEvent}
  {bev : ByteNetworkEvent}

/-- The event loop is not at two connections. -/
def Alone (n : ByteNetwork) : Prop := ∀ c c' e e', n.ends.lookup c = some e →
  n.ends.lookup c' = some e' → e.free = false → e'.free = false → c = c'

namespace Alone

theorem mono (h : n.Alone) (hold : ∀ c e', n'.ends.lookup c = some e' → e'.free = false →
    ∃ e, n.ends.lookup c = some e ∧ e.free = false) : n'.Alone := by
  intro c c' e e' he he' hfree hfree'
  obtain ⟨e₁,he₁,hfree₁⟩ := hold c e he hfree
  obtain ⟨e₂,he₂,hfree₂⟩ := hold c' e' he' hfree'
  exact h c c' e₁ e₂ he₁ he₂ hfree₁ hfree₂

/-- Where the event loop is at a connection, it is at no other. -/
theorem clear {e : ByteEnds} (h : n.Alone) (he : n.ends.lookup conn = some e)
    (hfree : e.free = false) : n.clear conn = true := by
  refine clear_iff.mpr fun c e' he' hne => ?_
  by_contra hbusy
  exact hne (h c conn e' e he' he (Bool.eq_false_of_not_eq_true hbusy) hfree)

theorem link (h : n.Alone) (hs : n.step adler32 (.link conn ev) = some n') : n'.Alone := by
  obtain ⟨hadmits,e,bs,he,hbs,rfl⟩ := link_cases hs
  by_cases harrive : ∀ k, ev ≠ .toBroker (.arrive k)
  · refine h.mono fun c e' he' hfree => ?_
    rcases Table.lookup_insert_eq_some.mp he' with ⟨rfl,rfl⟩ | ⟨-,he'⟩
    · refine ⟨e,he,?_⟩
      by_contra hnot
      have hwas : (e.session c n.broker).ends.free = true := Bool.eq_true_of_not_eq_false hnot
      cases hfree.symm.trans (ByteSession.step_free hbs hwas harrive)
    · exact ⟨e',he',hfree⟩
  · -- the event loop was at no other connection
    simp only [not_forall,not_not] at harrive
    obtain ⟨k,rfl⟩ := harrive
    have hclear := clear_iff.mp hadmits
    have honly : ∀ c e', (n.ends.insert conn bs.ends).lookup c = some e' → e'.free = false →
        c = conn := by
      intro c e' he' hfree
      rcases Table.lookup_insert_eq_some.mp he' with ⟨rfl,-⟩ | ⟨hne,he'⟩
      · rfl
      · cases hfree.symm.trans (hclear c e' he' hne)
    intro c c' e₁ e₂ he₁ he₂ hfree₁ hfree₂
    rw [honly c e₁ he₁ hfree₁,honly c' e₂ he₂ hfree₂]

theorem push (h : n.Alone) (d : Option (Consumer × Response)) : (n.push adler32 d).Alone := by
  refine h.mono fun c e' he' hfree => ?_
  unfold ByteNetwork.push at he'
  split at he'
  · exact ⟨e',he',hfree⟩
  · split at he'
    · exact ⟨e',he',hfree⟩
    · next e he =>
      rcases Table.lookup_insert_eq_some.mp he' with ⟨rfl,rfl⟩ | ⟨-,he'⟩
      · exact ⟨e,he,hfree⟩
      · exact ⟨e',he',hfree⟩

theorem step (h : n.Alone) (hs : n.step adler32 bev = some n') : n'.Alone := by
  cases bev with
  | connect conn =>
    simp only [ByteNetwork.step] at hs
    split_ifs at hs
    cases hs
    refine h.mono fun c e' he' hfree => ?_
    rcases Table.lookup_insert_eq_some.mp he' with ⟨rfl,rfl⟩ | ⟨-,he'⟩
    · cases hfree
    · exact ⟨e',he',hfree⟩
  | disconnect conn it =>
    simp only [ByteNetwork.step] at hs
    split_ifs at hs
    cases hs
    exact h.mono fun c e' he' hfree => ⟨e',(Table.lookup_erase_eq_some.mp he').2,hfree⟩
  | link conn ev => exact h.link hs
  | take i =>
    obtain ⟨b,-,rfl⟩ := Option.map_eq_some_iff.mp hs
    exact h
  | choose i =>
    obtain ⟨r,-,rfl⟩ := Option.map_eq_some_iff.mp hs
    have h : ({n with broker := r.1} : ByteNetwork).Alone := h
    exact h.push r.2
  | autoAck i =>
    obtain ⟨b,-,rfl⟩ := Option.map_eq_some_iff.mp hs
    exact h

end Alone
end ByteNetwork

/-! ### Links of bytes are links of messages -/

/-- The two ends, with their bytes, and with the messages that the bytes are. -/
structure ByteEnds.Abstracts (adler32 : BitVec 32 → Bytes → BitVec 32) (be : ByteEnds) (e : Ends) :
    Prop where
  core : be.core = {e with requests := [], responses := []}
  toBroker : be.toBroker.Carries adler32 (e.requests.map .request)
  toClient : be.toClient.Carries adler32 (e.responses.map .response)

namespace ByteEnds.Abstracts
variable {adler32 : BitVec 32 → Bytes → BitVec 32} {be : ByteEnds} {e : Ends} {bs : ByteSession}
  {s : Session}

theorem start : ByteEnds.Abstracts adler32 {} {} := ⟨rfl,.start,.start⟩

theorem session (h : be.Abstracts adler32 e) (conn : ℕ) (b : Broker) :
    (be.session conn b).Abstracts adler32 (e.session conn b) :=
  ⟨congrArg (fun e : Ends => e.session conn b) h.core,h.toBroker,h.toClient⟩

theorem of_session (h : bs.Abstracts adler32 s) : bs.ends.Abstracts adler32 s.ends :=
  ⟨congrArg Session.ends h.core,h.toBroker,h.toClient⟩

theorem replying (h : be.Abstracts adler32 e) : be.core.replying = e.replying := by
  rw [h.core]

theorem fits (h : be.Abstracts adler32 e) : e.Fits adler32 :=
  ⟨fun _ hreq => h.toBroker.fits _ (List.mem_map_of_mem hreq),
    fun _ hresp => h.toClient.fits _ (List.mem_map_of_mem hresp)⟩

end ByteEnds.Abstracts

/-- The same connections are up, and their bytes are the messages under way. -/
structure ByteNetwork.Abstracts (adler32 : BitVec 32 → Bytes → BitVec 32) (bn : ByteNetwork)
    (n : Network) : Prop where
  broker : bn.broker = n.broker
  ends : ∀ conn, Option.Rel (ByteEnds.Abstracts adler32) (bn.ends.lookup conn) (n.ends.lookup conn)

namespace ByteNetwork.Abstracts
variable {adler32 : BitVec 32 → Bytes → BitVec 32} {bn bn' : ByteNetwork} {n n' : Network} {conn : ℕ}
  {be : ByteEnds} {e : Ends} {bev : ByteNetworkEvent}

theorem start (b : Broker) : ByteNetwork.Abstracts adler32 ⟨b,∅⟩ ⟨b,∅⟩ := ⟨rfl,fun _ => .none⟩

theorem of_bytes (h : bn.Abstracts adler32 n) (he : bn.ends.lookup conn = some be) :
    ∃ e, n.ends.lookup conn = some e ∧ be.Abstracts adler32 e := by
  have hrel := h.ends conn
  rw [he] at hrel
  cases hr : n.ends.lookup conn with
  | none =>
    rw [hr] at hrel
    cases hrel
  | some e =>
    rw [hr] at hrel
    cases hrel with
    | some hrel => exact ⟨e,rfl,hrel⟩

theorem of_ends (h : bn.Abstracts adler32 n) (he : n.ends.lookup conn = some e) :
    ∃ be, bn.ends.lookup conn = some be ∧ be.Abstracts adler32 e := by
  have hrel := h.ends conn
  rw [he] at hrel
  cases hr : bn.ends.lookup conn with
  | none =>
    rw [hr] at hrel
    cases hrel
  | some be =>
    rw [hr] at hrel
    cases hrel with
    | some hrel => exact ⟨be,rfl,hrel⟩

theorem none_iff (h : bn.Abstracts adler32 n) :
    bn.ends.lookup conn = none ↔ n.ends.lookup conn = none := by
  constructor
  · intro hnone
    by_contra hne
    obtain ⟨e,he⟩ := Option.ne_none_iff_exists'.mp hne
    obtain ⟨be,hbe,-⟩ := h.of_ends he
    cases hnone.symm.trans hbe
  · intro hnone
    by_contra hne
    obtain ⟨be,hbe⟩ := Option.ne_none_iff_exists'.mp hne
    obtain ⟨e,he,-⟩ := h.of_bytes hbe
    cases hnone.symm.trans he

theorem insert (h : bn.Abstracts adler32 n) (b : Broker) (conn : ℕ) (he : be.Abstracts adler32 e) :
    ByteNetwork.Abstracts adler32 ⟨b,bn.ends.insert conn be⟩ ⟨b,n.ends.insert conn e⟩ := by
  refine ⟨rfl,fun c => ?_⟩
  by_cases hc : c = conn
  · subst hc
    rw [AList.lookup_insert,AList.lookup_insert]
    exact .some he
  · rw [AList.lookup_insert_ne hc,AList.lookup_insert_ne hc]
    exact h.ends c

theorem erase (h : bn.Abstracts adler32 n) (b : Broker) (conn : ℕ) :
    ByteNetwork.Abstracts adler32 ⟨b,bn.ends.erase conn⟩ ⟨b,n.ends.erase conn⟩ := by
  refine ⟨rfl,fun c => ?_⟩
  by_cases hc : c = conn
  · subst hc
    rw [AList.lookup_erase,AList.lookup_erase]
    exact .none
  · rw [AList.lookup_erase_ne hc,AList.lookup_erase_ne hc]
    exact h.ends c

/-- The broker goes on by itself. -/
theorem goes (h : bn.Abstracts adler32 n) (b : Broker) :
    ByteNetwork.Abstracts adler32 {bn with broker := b} {n with broker := b} := ⟨rfl,h.ends⟩

/-- Bytes arrive on a connection, or the event loop looks at them. -/
theorem waits (h : bn.Abstracts adler32 n) (hn : n.ends.lookup conn = some e)
    (he : be.Abstracts adler32 e) :
    ByteNetwork.Abstracts adler32 ⟨n.broker,bn.ends.insert conn be⟩ n := by
  refine ⟨rfl,fun c => ?_⟩
  by_cases hc : c = conn
  · subst hc
    rw [AList.lookup_insert,hn]
    exact .some he
  · rw [AList.lookup_insert_ne hc]
    exact h.ends c

theorem fits (h : bn.Abstracts adler32 n) (hn : n.ends.lookup conn = some e) : e.Fits adler32 := by
  obtain ⟨be,-,he⟩ := h.of_ends hn
  exact he.fits

/-- Where the event loop of the broker is free, no handler is about to reply. -/
theorem idle (h : bn.Abstracts adler32 n) (hclear : bn.clear conn = true)
    (hown : ∀ be, bn.ends.lookup conn = some be → be.core.replying = none) : n.idle = true := by
  refine Network.idle_iff.mpr fun c e he => ?_
  obtain ⟨be,hbe,habs⟩ := h.of_ends he
  rw [← habs.replying]
  by_cases hc : c = conn
  · subst hc
    exact hown be hbe
  · have hfree := ByteNetwork.clear_iff.mp hclear c be hbe hc
    simp only [ByteEnds.free,Bool.and_eq_true,Option.isNone_iff_eq_none] at hfree
    exact hfree.2

/-- A pushed message is on its link, in bytes or as a message. -/
theorem push (h : bn.Abstracts adler32 n) {d : Option (Consumer × Response)}
    (hfit : ∀ cp resp, d = some (cp,resp) → (bn.ends.lookup cp.callback.connection).isSome →
      Codec.Fits (Codec.runtime adler32) (.response resp)) :
    (bn.push adler32 d).Abstracts adler32 (n.push d) := by
  cases d with
  | none => exact h
  | some d =>
    obtain ⟨cp,resp⟩ := d
    simp only [ByteNetwork.push,Network.push]
    cases hbe : bn.ends.lookup cp.callback.connection with
    | none =>
      rw [h.none_iff.mp hbe]
      exact h
    | some be =>
      obtain ⟨e,he,habs⟩ := h.of_bytes hbe
      rw [he,h.broker]
      refine h.insert n.broker _ ⟨habs.core,habs.toBroker,?_⟩
      rw [List.map_append]
      refine habs.toClient.send fun q hq => ?_
      rw [List.mem_singleton.mp hq]
      exact hfit cp resp rfl (by rw [hbe]; rfl)

theorem single {nev : NetworkEvent} (h : bn'.Abstracts adler32 n') (hs : n.step nev = some n') :
    (Network.system.guarded (Network.SendsFit adler32)).Run n [nev] n' := by
  refine .single ⟨fun n'' hs'' conn e he => ?_,hs⟩
  cases hs.symm.trans hs''
  exact h.fits he

/-- What happens on a connection in bytes is a step of the connection, or nothing that it sees. -/
theorem step_link {ev : ByteEvent} (h : bn.Abstracts adler32 n) (alone : bn.Alone)
    (hfit : bn.SendsFit adler32 (.link conn ev))
    (hs : bn.step adler32 (.link conn ev) = some bn') : ∃ n',
      (Network.system.guarded (Network.SendsFit adler32)).Run n
          (ByteNetworkEvent.link conn ev).network?.toList n' ∧ bn'.Abstracts adler32 n' := by
  obtain ⟨hadmits,be,bs,hbe,hbs,rfl⟩ := link_cases hs
  obtain ⟨e,he,habs⟩ := h.of_bytes hbe
  obtain ⟨s',run,habs'⟩ := (habs.session conn bn.broker).step (hfit be hbe) hbs
  have hbroker : bs.core.broker = s'.broker := by
    rw [habs'.core]
    rfl
  cases ev with
  | link lev =>
    have hstep : (e.session conn bn.broker).step lev = some s' := run.single_cases.2
    have hloop : Network.needsLoop lev = true → n.idle = true := by
      intro hneeds
      cases lev with
      | serve it uuid =>
        -- the event loop is at this connection
        obtain ⟨r,htake,-⟩ := Option.bind_eq_some_iff.mp hbs
        obtain ⟨hreply,hread⟩ := ByteSession.take_serve htake
        have hread : be.toBroker.reading = true := hread
        have hbusy : be.free = false := by simp [ByteEnds.free,hread]
        refine h.idle (alone.clear hbe hbusy) fun be' hbe' => ?_
        cases hbe.symm.trans hbe'
        exact hreply
      | _ => cases hneeds
    have habs'' : ByteNetwork.Abstracts adler32 ⟨bs.core.broker,bn.ends.insert conn bs.ends⟩
        ⟨s'.broker,n.ends.insert conn s'.ends⟩ := by
      rw [hbroker]
      exact h.insert s'.broker conn (.of_session habs')
    refine ⟨_,habs''.single ?_,habs''⟩
    rw [h.broker] at hstep
    simp only [Network.step,he,Option.bind_some,hstep,Option.map_some]
    exact if_pos ⟨hadmits,hloop⟩
  | toBroker w =>
    cases run.nil_cases
    rw [hbroker]
    change ∃ n', _ ∧ ByteNetwork.Abstracts adler32 ⟨bn.broker,_⟩ n'
    rw [h.broker]
    exact ⟨n,.nil n,h.waits he (.of_session habs')⟩
  | toClient w =>
    cases run.nil_cases
    rw [hbroker]
    change ∃ n', _ ∧ ByteNetwork.Abstracts adler32 ⟨bn.broker,_⟩ n'
    rw [h.broker]
    exact ⟨n,.nil n,h.waits he (.of_session habs')⟩

/-- Everything that happens in bytes happens in the network, or is nothing that it sees. -/
theorem step (h : bn.Abstracts adler32 n) (alone : bn.Alone) (hfit : bn.SendsFit adler32 bev)
    (hs : bn.step adler32 bev = some bn') : ∃ n',
      (Network.system.guarded (Network.SendsFit adler32)).Run n bev.network?.toList n' ∧
        bn'.Abstracts adler32 n' := by
  cases bev with
  | connect conn =>
    simp only [ByteNetwork.step] at hs
    split_ifs at hs with hguard
    cases hs
    have hidle := h.idle hguard.1 fun be hbe => by cases hguard.2.symm.trans hbe
    have habs := h.insert (bn.broker.newConnection conn) conn .start
    refine ⟨_,habs.single ?_,habs⟩
    rw [h.broker]
    exact if_pos ⟨hidle,h.none_iff.mp hguard.2⟩
  | disconnect conn it =>
    simp only [ByteNetwork.step] at hs
    split_ifs at hs with hguard
    cases hs
    obtain ⟨be,hbe,hfree⟩ : ∃ be, bn.ends.lookup conn = some be ∧ be.free = true := by
      simpa only [Option.any_eq_true] using hguard.2
    obtain ⟨e,he,-⟩ := h.of_bytes hbe
    simp only [ByteEnds.free,Bool.and_eq_true,Option.isNone_iff_eq_none] at hfree
    have hidle := h.idle hguard.1 fun be' hbe' => by
      cases hbe.symm.trans hbe'
      exact hfree.2
    have habs := h.erase (bn.broker.delConnection conn it) conn
    refine ⟨_,habs.single ?_,habs⟩
    rw [h.broker]
    exact if_pos ⟨hidle,by rw [he]; rfl⟩
  | link conn ev => exact h.step_link alone hfit hs
  | take i =>
    obtain ⟨b,hb,rfl⟩ := Option.map_eq_some_iff.mp hs
    refine ⟨_,(h.goes b).single ?_,h.goes b⟩
    rw [h.broker] at hb
    exact congrArg (Option.map _) hb
  | choose i =>
    obtain ⟨r,hr,rfl⟩ := Option.map_eq_some_iff.mp hs
    have habs := (h.goes r.1).push (d := r.2) (hfit r hr)
    refine ⟨_,habs.single ?_,habs⟩
    rw [h.broker] at hr
    exact congrArg (Option.map _) hr
  | autoAck i =>
    obtain ⟨b,hb,rfl⟩ := Option.map_eq_some_iff.mp hs
    refine ⟨_,(h.goes b).single ?_,h.goes b⟩
    rw [h.broker] at hb
    exact congrArg (Option.map _) hb

end ByteNetwork.Abstracts

/-! ### Links of messages are realised by bytes -/

theorem ByteSession.step_conn {adler32 : BitVec 32 → Bytes → BitVec 32} {bs bs' : ByteSession}
    {bev : ByteEvent} (hs : bs.step adler32 bev = some bs') : bs'.core.conn = bs.core.conn := by
  cases bev with
  | link ev =>
    obtain ⟨r,htake,hs⟩ := Option.bind_eq_some_iff.mp hs
    obtain ⟨t,ht,rfl⟩ := Option.map_eq_some_iff.mp hs
    have hr : r.1.conn = bs.core.conn := by
      unfold take at htake
      split at htake
      · split at htake
        · obtain ⟨req,-,rfl⟩ := Option.map_eq_some_iff.mp htake
          rfl
        · cases htake
      · split at htake
        · obtain ⟨resp,-,rfl⟩ := Option.map_eq_some_iff.mp htake
          rfl
        · cases htake
      · cases htake
        rfl
    exact (Network.session_conn ht).trans hr
  | toBroker w =>
    simp only [step] at hs
    split_ifs at hs
    obtain ⟨p,-,rfl⟩ := Option.map_eq_some_iff.mp hs
    rfl
  | toClient w =>
    obtain ⟨p,-,rfl⟩ := Option.map_eq_some_iff.mp hs
    rfl

namespace ByteNetwork
variable {adler32 : BitVec 32 → Bytes → BitVec 32} {bn bn' : ByteNetwork} {conn : ℕ} {be : ByteEnds}
  {bs : ByteSession} {bevs : List ByteEvent}

/-- What the event loop may do depends on the other connections only. -/
theorem admits_congr (h : ∀ c, c ≠ conn → bn'.ends.lookup c = bn.ends.lookup c) (bev : ByteEvent) :
    bn'.admits conn bev = bn.admits conn bev := by
  have hclear : bn'.clear conn = bn.clear conn := by
    rw [Bool.eq_iff_iff,clear_iff,clear_iff]
    exact ⟨fun hall c e he hne => hall c e ((h c hne).trans he) hne,
      fun hall c e he hne => hall c e ((h c hne).symm.trans he) hne⟩
  cases bev with
  | link ev => rfl
  | toBroker w => cases w <;> simp only [admits,hclear]
  | toClient w => rfl

/-- What one connection does, it does in the network, and the others stay as they are. -/
theorem lift (hbe : bn.ends.lookup conn = some be)
    (run : ((ByteSession.system adler32).guarded (ByteSession.SendsFit adler32)).Run
      (be.session conn bn.broker) bevs bs) (hadmits : ∀ bev ∈ bevs, bn.admits conn bev = true) :
    ∃ bn', ((system adler32).guarded (SendsFit adler32)).Run bn (bevs.map (.link conn)) bn' ∧
      bn'.broker = bs.core.broker ∧ bn'.ends.lookup conn = some bs.ends ∧ bs.core.conn = conn ∧
      ∀ c, c ≠ conn → bn'.ends.lookup c = bn.ends.lookup c := by
  induction run with
  | nil => exact ⟨bn,.nil bn,rfl,hbe,rfl,fun _ _ => rfl⟩
  | @snoc bs bs' bevs bev _ last ih =>
    obtain ⟨bn₁,hrun,hbroker,hlookup,hconn,hothers⟩ :=
      ih fun bev hin => hadmits bev (List.mem_append_left _ hin)
    obtain ⟨hfit,hs⟩ := last
    have hs : bs.step adler32 bev = some bs' := hs
    have hsession : bs.ends.session conn bn₁.broker = bs := by
      rw [hbroker]
      exact ByteSession.ends_session hconn
    refine ⟨⟨bs'.core.broker,bn₁.ends.insert conn bs'.ends⟩,?_,rfl,AList.lookup_insert _,
      (ByteSession.step_conn hs).trans hconn,fun c hc => ?_⟩
    · rw [List.map_append]
      refine hrun.snoc ⟨fun e he => ?_,?_⟩
      · cases hlookup.symm.trans he
        rw [hsession]
        exact hfit
      · have hadmit := hadmits bev (List.mem_append_right _ (List.mem_singleton.mpr rfl))
        rw [← admits_congr hothers] at hadmit
        refine (if_pos hadmit).trans ?_
        rw [hlookup,Option.bind_some,hsession,hs,Option.map_some]
    · exact (AList.lookup_insert_ne hc).trans (hothers c hc)

/-- Between the steps that the network sees, all connections are quiet. -/
def Quiet (bn : ByteNetwork) : Prop :=
  ∀ conn be, bn.ends.lookup conn = some be → (be.session conn bn.broker).Quiet

theorem Quiet.clear {n : Network} (h : bn.Quiet) (habs : bn.Abstracts adler32 n)
    (hidle : n.idle = true) (conn : ℕ) : bn.clear conn = true ∧
      ∀ be, bn.ends.lookup conn = some be → be.free = true := by
  have hfree : ∀ c be, bn.ends.lookup c = some be → be.free = true := by
    intro c be hbe
    obtain ⟨e,he,habse⟩ := habs.of_bytes hbe
    have hnone := habse.replying.trans (Network.idle_iff.mp hidle c e he)
    have hread : be.toBroker.reading = be.core.replying.isSome := (h c be hbe).serving
    simp [ByteEnds.free,hread,hnone]
  exact ⟨clear_iff.mpr fun c be hbe _ => hfree c be hbe,fun be hbe => hfree conn be hbe⟩

/-- The state of the broker does not matter. -/
theorem Quiet.mono (h : bn.Quiet) (hold : ∀ conn be, bn'.ends.lookup conn = some be →
    (be.session conn bn'.broker).Quiet ∨ bn.ends.lookup conn = some be) : bn'.Quiet := by
  intro conn be hbe
  rcases hold conn be hbe with hq | hq
  · exact hq
  · exact ⟨(h conn be hq).toBroker,(h conn be hq).toClient,(h conn be hq).serving,
      (h conn be hq).receiving⟩

theorem Quiet.push (h : bn.Quiet) (d : Option (Consumer × Response)) :
    (bn.push adler32 d).Quiet := by
  refine h.mono fun c be hbe => ?_
  unfold ByteNetwork.push at hbe
  split at hbe
  · exact .inr hbe
  · split at hbe
    · exact .inr hbe
    · next be₀ hbe₀ =>
      rcases Table.lookup_insert_eq_some.mp hbe with ⟨rfl,rfl⟩ | ⟨-,hbe⟩
      · have hq := h _ be₀ hbe₀
        exact .inl ⟨hq.toBroker,hq.toClient,hq.serving,hq.receiving⟩
      · exact .inr hbe

namespace Abstracts
variable {n n' : Network} {nev : NetworkEvent}

/-- A step of a connection is realised by a run of its bytes. -/
theorem realised_link {lev : LinkEvent} (h : bn.Abstracts adler32 n) (quiet : bn.Quiet)
    (hfit : n.SendsFit adler32 (.link conn lev)) (hs : n.step (.link conn lev) = some n') :
    ∃ bevs bn', ((system adler32).guarded (ByteNetwork.SendsFit adler32)).Run bn bevs bn' ∧
      bevs.filterMap ByteNetworkEvent.network? = [.link conn lev] ∧ bn'.Abstracts adler32 n' ∧
      bn'.Quiet := by
  have hguard : lev.isOwn = true ∧ (Network.needsLoop lev = true → n.idle = true) := by
    simp only [Network.step] at hs
    split_ifs at hs with hguard
    exact hguard
  obtain ⟨-,e,s,he,hstep,rfl⟩ := Network.link_cases hs
  obtain ⟨be,hbe,habs⟩ := h.of_ends he
  have hsession := habs.session conn bn.broker
  rw [h.broker] at hsession
  have hsfit : (e.session conn n.broker).SendsFit adler32 lev := by
    intro t ht
    cases hstep.symm.trans ht
    exact hfit _ hs conn s.ends (AList.lookup_insert _)
  have hquiet := quiet conn be hbe
  rw [h.broker] at hquiet
  obtain ⟨bevs,bs,run,hbevs,habs',hquiet',harrive⟩ := hsession.realised hquiet hsfit hstep
  rw [← h.broker] at run
  have hadmits : ∀ bev ∈ bevs, bn.admits conn bev = true := by
    intro bev hin
    cases bev with
    | link ev =>
      have hmem : ev ∈ bevs.filterMap ByteEvent.link? := List.mem_filterMap.mpr ⟨_,hin,rfl⟩
      rw [hbevs] at hmem
      exact List.mem_singleton.mp hmem ▸ hguard.1
    | toBroker w =>
      cases w with
      | look => rfl
      | arrive k =>
        obtain ⟨it,uuid,rfl⟩ := harrive k hin
        exact (quiet.clear h (hguard.2 rfl) conn).1
    | toClient w => rfl
  obtain ⟨bn',hrun,hbroker,hlookup,-,hothers⟩ := lift hbe run hadmits
  have hcore : bs.core.broker = s.broker := by
    rw [habs'.core]
    rfl
  refine ⟨_,bn',hrun,?_,⟨hbroker.trans hcore,fun c => ?_⟩,quiet.mono fun c be' hbe' => ?_⟩
  · rw [List.filterMap_map]
    change bevs.filterMap (fun bev => bev.link?.map (NetworkEvent.link conn)) = _
    rw [← List.map_filterMap,hbevs]
    rfl
  · by_cases hc : c = conn
    · subst hc
      rw [hlookup,AList.lookup_insert]
      exact .some (.of_session habs')
    · rw [hothers c hc,AList.lookup_insert_ne hc]
      exact h.ends c
  · by_cases hc : c = conn
    · subst hc
      cases hlookup.symm.trans hbe'
      exact .inl ⟨hquiet'.toBroker,hquiet'.toClient,hquiet'.serving,hquiet'.receiving⟩
    · exact .inr ((hothers c hc).symm.trans hbe')

/-- Every step of the network happens in bytes. -/
theorem realised (h : bn.Abstracts adler32 n) (quiet : bn.Quiet) (hfit : n.SendsFit adler32 nev)
    (hs : n.step nev = some n') : ∃ bevs bn',
      ((system adler32).guarded (ByteNetwork.SendsFit adler32)).Run bn bevs bn' ∧
        bevs.filterMap ByteNetworkEvent.network? = [nev] ∧ bn'.Abstracts adler32 n' ∧
        bn'.Quiet := by
  cases nev with
  | connect conn =>
    simp only [Network.step] at hs
    split_ifs at hs with hguard
    cases hs
    have hclear := (quiet.clear h hguard.1 conn).1
    have habs := h.insert (bn.broker.newConnection conn) conn .start
    rw [h.broker] at habs
    refine ⟨[.connect conn],_,.single ⟨trivial,?_⟩,rfl,habs,quiet.mono fun c be hbe => ?_⟩
    · rw [← h.broker]
      exact if_pos ⟨hclear,h.none_iff.mpr hguard.2⟩
    · rcases Table.lookup_insert_eq_some.mp hbe with ⟨rfl,rfl⟩ | ⟨-,hbe⟩
      · exact .inl ⟨Buffer.peek_new _,Buffer.peek_new _,rfl,rfl⟩
      · exact .inr hbe
  | disconnect conn it =>
    simp only [Network.step] at hs
    split_ifs at hs with hguard
    cases hs
    obtain ⟨hclear,hown⟩ := quiet.clear h hguard.1 conn
    obtain ⟨e,he⟩ := Option.isSome_iff_exists.mp hguard.2
    obtain ⟨be,hbe,-⟩ := h.of_ends he
    have habs := h.erase (bn.broker.delConnection conn it) conn
    rw [h.broker] at habs
    refine ⟨[.disconnect conn it],_,.single ⟨trivial,?_⟩,rfl,habs,quiet.mono fun c be hbe => ?_⟩
    · rw [← h.broker]
      exact if_pos ⟨hclear,by rw [hbe]; exact hown be hbe⟩
    · exact .inr (Table.lookup_erase_eq_some.mp hbe).2
  | link conn lev => exact h.realised_link quiet hfit hs
  | take i =>
    obtain ⟨b,hb,rfl⟩ := Option.map_eq_some_iff.mp hs
    refine ⟨[.take i],_,.single ⟨trivial,?_⟩,rfl,h.goes b,quiet.mono fun c be hbe => .inr hbe⟩
    rw [← h.broker] at hb
    exact congrArg (Option.map _) hb
  | choose i =>
    obtain ⟨r,hr,rfl⟩ := Option.map_eq_some_iff.mp hs
    have hpushed : ∀ cp resp, r.2 = some (cp,resp) →
        (bn.ends.lookup cp.callback.connection).isSome →
          Codec.Fits (Codec.runtime adler32) (.response resp) := by
      intro cp resp hd hup
      obtain ⟨be,hbe⟩ := Option.isSome_iff_exists.mp hup
      obtain ⟨e,he,-⟩ := h.of_bytes hbe
      refine (hfit _ hs cp.callback.connection {e with responses := e.responses ++ [resp]} ?_).2 resp
        (List.mem_append_right _ (List.mem_singleton.mpr rfl))
      simp only [Network.push,hd,he]
      exact AList.lookup_insert _
    rw [← h.broker] at hr
    have hgone : ({bn with broker := r.1} : ByteNetwork).Quiet := quiet.mono fun c be hbe => .inr hbe
    refine ⟨[.choose i],_,.single ⟨fun r' hr' => ?_,congrArg (Option.map _) hr⟩,rfl,
      (h.goes r.1).push hpushed,hgone.push r.2⟩
    cases hr.symm.trans hr'
    exact hpushed
  | autoAck i =>
    obtain ⟨b,hb,rfl⟩ := Option.map_eq_some_iff.mp hs
    refine ⟨[.autoAck i],_,.single ⟨trivial,?_⟩,rfl,h.goes b,quiet.mono fun c be hbe => .inr hbe⟩
    rw [← h.broker] at hb
    exact congrArg (Option.map _) hb

end Abstracts
end ByteNetwork

/-- A broker and its clients do over bytes exactly what they do over links that carry messages, with
the same messages under way. -/
theorem network_of_bytes (adler32 : BitVec 32 → Bytes → BitVec 32) (b : Broker) :
    (∀ bevs bn, ((ByteNetwork.system adler32).guarded (ByteNetwork.SendsFit adler32)).Run ⟨b,∅⟩
        bevs bn → ∃ n, (Network.system.guarded (Network.SendsFit adler32)).Run ⟨b,∅⟩
          (bevs.filterMap ByteNetworkEvent.network?) n ∧ bn.Abstracts adler32 n) ∧
      ∀ nevs n, (Network.system.guarded (Network.SendsFit adler32)).Run ⟨b,∅⟩ nevs n →
        ∃ bevs bn, ((ByteNetwork.system adler32).guarded (ByteNetwork.SendsFit adler32)).Run ⟨b,∅⟩
            bevs bn ∧ bevs.filterMap ByteNetworkEvent.network? = nevs ∧ bn.Abstracts adler32 n := by
  constructor
  · intro bevs bn run
    obtain ⟨n,hrun,h,-⟩ := run.simulation_hidden ByteNetworkEvent.network?
      (R := fun (bn : ByteNetwork) n => bn.Abstracts adler32 n ∧ bn.Alone)
      ⟨.start b,fun c c' e e' he => by cases he⟩ (by
        rintro bn bev bn' n ⟨h,alone⟩ hs
        obtain ⟨n',hrun,h'⟩ := h.step alone hs.1 hs.2
        exact ⟨n',hrun,h',alone.step hs.2⟩)
    exact ⟨n,hrun,h⟩
  · intro nevs n run
    obtain ⟨bevs,bn,hrun,hbevs,h,-⟩ := run.simulation_visible ByteNetworkEvent.network?
      (R := fun n (bn : ByteNetwork) => bn.Abstracts adler32 n ∧ bn.Quiet)
      ⟨.start b,fun c be hbe => by cases hbe⟩ (by
        rintro n nev n' bn ⟨h,quiet⟩ hs
        exact h.realised quiet hs.1 hs.2)
    exact ⟨bevs,bn,hrun,hbevs,h⟩

end MessageQueue

import MessageQueue.Link.Session
import MessageQueue.Net.Delivery
import MessageQueue.Net.Dispatcher

/-! A connection with its bytes. Requests and responses travel in frames, the frames arrive in pieces,
and each event loop takes them out of its buffer one after the other. To the client and the broker
this is a link that keeps the order of what is sent: nothing more can happen, and nothing less. -/
namespace MessageQueue
open Base Net

/-- One direction: the bytes that are under way, the buffer of the receiver, and whether its event
loop is at the buffer. -/
structure Pipe where
  flying : Bytes := []
  buffer : Buffer := .new kInitialSize
  reading : Bool := false

namespace Pipe
variable (adler32 : BitVec 32 → Bytes → BitVec 32)

def send (p : Pipe) (packets : List Packet) : Pipe :=
  {p with flying := p.flying ++ packets.flatMap (Codec.frame (Codec.runtime adler32))}

def arrive (p : Pipe) (n : ℕ) : Option Pipe :=
  if p.reading = false ∧ n ≤ p.flying.length then
    some {flying := p.flying.drop n, buffer := p.buffer.append (p.flying.take n), reading := true}
  else none

/-- One round of the loop, and the message for the dispatcher, if there is one. `none` at an error,
which ends the link. -/
def next (p : Pipe) : Option (Option Packet × Pipe) :=
  if p.reading then
    match Codec.front (Codec.runtime adler32) p.buffer.peek with
    | .more => some (none,{p with reading := false})
    | .bad _ => none
    | .item message n => (p.buffer.retrieve n).map fun buf => (some message,{p with buffer := buf})
  else none

/-- What happens before a message is taken out: bytes arrive, or the loop looks in vain. -/
inductive Wait
  | arrive (n : ℕ)
  | look

def wait (p : Pipe) : Wait → Option Pipe
  | .arrive n => p.arrive n
  | .look =>
    match p.next adler32 with
    | some (none,p') => some p'
    | _ => none

/-- The bytes of these messages are in the buffer and under way. -/
structure Carries (p : Pipe) (packets : List Packet) : Prop where
  bytes : p.buffer.peek ++ p.flying = packets.flatMap (Codec.frame (Codec.runtime adler32))
  fits : ∀ q ∈ packets, Codec.Fits (Codec.runtime adler32) q
  idle : p.reading = false → (Codec.reader (Codec.runtime adler32)).Idle p.buffer.peek

variable {adler32} {p p' : Pipe} {packets new : List Packet} {q : Packet} {n : ℕ}

namespace Carries

theorem start : Carries adler32 {} [] where
  bytes := by simp
  fits := by simp
  idle _ := by
    simp only [Buffer.peek_new]
    exact Codec.idle_nil

/-- The bytes say which messages they are. -/
theorem unique {packets' : List Packet} (h : p.Carries adler32 packets)
    (h' : p.Carries adler32 packets') : packets = packets' := by
  have hdrain : ∀ {ps : List Packet}, p.Carries adler32 ps →
      ((Codec.reader (Codec.runtime adler32)).drain (p.buffer.peek ++ p.flying)).1 = ps := by
    intro ps hc
    have heq := Reader.drain_encode (Codec.front_frame (Codec.runtime adler32))
      (fun q hq => ⟨Codec.readable q,hc.fits q hq⟩) []
    rw [List.append_nil,← hc.bytes] at heq
    rw [heq,Reader.drain_eq (.nil []) Codec.idle_nil,List.append_nil]
  exact (hdrain h).symm.trans (hdrain h')

theorem send (h : p.Carries adler32 packets)
    (hnew : ∀ q ∈ new, Codec.Fits (Codec.runtime adler32) q) :
    (p.send adler32 new).Carries adler32 (packets ++ new) where
  bytes := by
    rw [List.flatMap_append,← h.bytes]
    exact (List.append_assoc _ _ _).symm
  fits q hq := (List.mem_append.mp hq).elim (h.fits q) (hnew q)
  idle := h.idle

theorem arrive (h : p.Carries adler32 packets) (hs : p.arrive n = some p') :
    p'.Carries adler32 packets := by
  unfold Pipe.arrive at hs
  split_ifs at hs
  cases hs
  refine ⟨?_,h.fits,fun hr => by cases hr⟩
  rw [Buffer.peek_append,List.append_assoc,List.take_append_drop]
  exact h.bytes

/-- What stands in front of the bytes is the first of the messages. -/
theorem front_cons (h : p.Carries adler32 (q::packets)) :
    Codec.front (Codec.runtime adler32) (p.buffer.peek ++ p.flying) =
      .item q (Codec.frame (Codec.runtime adler32) q).length := by
  rw [h.bytes,List.flatMap_cons]
  exact Codec.front_frame _ q ⟨Codec.readable q,h.fits q List.mem_cons_self⟩ _

theorem front_nil (h : p.Carries adler32 []) :
    Codec.front (Codec.runtime adler32) (p.buffer.peek ++ p.flying) = .more := by
  rw [h.bytes]
  rfl

/-- A whole frame in the buffer is the first message. -/
theorem of_item (h : p.Carries adler32 packets)
    (hf : Codec.front (Codec.runtime adler32) p.buffer.peek = .item q n) :
    ∃ rest, packets = q::rest ∧ n = (Codec.frame (Codec.runtime adler32) q).length := by
  have hall := (Codec.reader (Codec.runtime adler32)).item_append hf p.flying
  cases packets with
  | nil => cases h.front_nil.symm.trans hall
  | cons q' rest =>
    have heq := h.front_cons.symm.trans hall
    cases heq
    exact ⟨rest,rfl,rfl⟩

theorem not_bad (h : p.Carries adler32 packets) {e : ErrorCode} :
    Codec.front (Codec.runtime adler32) p.buffer.peek ≠ .bad e := by
  intro hf
  have hall := (Codec.reader (Codec.runtime adler32)).bad_append hf p.flying
  cases packets with
  | nil => cases h.front_nil.symm.trans hall
  | cons q' rest => cases h.front_cons.symm.trans hall

/-- A round that finds no whole frame leaves everything where it is; one that finds one takes the
first message out. -/
theorem next (h : p.Carries adler32 packets) {r : Option Packet × Pipe}
    (hs : p.next adler32 = some r) : (r.1 = none ∧ r.2.Carries adler32 packets) ∨
      ∃ q rest, r.1 = some q ∧ packets = q::rest ∧ r.2.Carries adler32 rest := by
  unfold Pipe.next at hs
  split_ifs at hs with hr
  cases hf : Codec.front (Codec.runtime adler32) p.buffer.peek with
  | more =>
    rw [hf] at hs
    cases hs
    exact .inl ⟨rfl,h.bytes,h.fits,fun _ a n hitem => by cases hf.symm.trans hitem⟩
  | bad e => exact absurd hf h.not_bad
  | item q n =>
    rw [hf] at hs
    obtain ⟨buf,hbuf,rfl⟩ := Option.map_eq_some_iff.mp hs
    obtain ⟨rest,rfl,rfl⟩ := h.of_item hf
    obtain ⟨buf',hbuf',hpeek,-⟩ := Buffer.retrieve_spec (Buffer.retrieve_le hbuf)
    cases hbuf.symm.trans hbuf'
    refine .inr ⟨q,rest,rfl,rfl,?_,fun q' hq' => h.fits q' (List.mem_cons_of_mem _ hq'),
      fun hf => by cases hr.symm.trans hf⟩
    have hle := Buffer.retrieve_le hbuf
    rw [← Buffer.length_peek] at hle
    change buf.peek ++ p.flying = _
    rw [hpeek,← List.drop_append_of_le_length hle,h.bytes,List.flatMap_cons,List.drop_left]

theorem wait (h : p.Carries adler32 packets) {w : Wait} (hs : p.wait adler32 w = some p') :
    p'.Carries adler32 packets := by
  cases w with
  | arrive n => exact h.arrive hs
  | look =>
    simp only [Pipe.wait] at hs
    split at hs
    · next hnext =>
      cases hs
      rcases h.next hnext with ⟨-,hc⟩ | ⟨q,rest,hq,-,-⟩
      · exact hc
      · cases hq
    · cases hs

/-- Where the buffer is empty, a frame can arrive alone, and is taken out again. -/
theorem one (h : p.Carries adler32 (q::packets)) (hread : p.reading = false)
    (hempty : p.buffer.peek = []) : ∃ n p₁ p₂, p.wait adler32 (.arrive n) = some p₁ ∧
      p₁.next adler32 = some (some q,p₂) ∧ p₂.reading = true ∧ p₂.buffer.peek = [] := by
  obtain ⟨bytes,hframe⟩ : ∃ bytes, bytes = Codec.frame (Codec.runtime adler32) q := ⟨_,rfl⟩
  have hflying := h.bytes
  rw [hempty,List.nil_append,List.flatMap_cons,← hframe] at hflying
  have hlen : bytes.length ≤ p.flying.length := by
    rw [hflying,List.length_append]
    exact Nat.le_add_right _ _
  have hpeek : (p.buffer.append (p.flying.take bytes.length)).peek = bytes := by
    rw [Buffer.peek_append,hempty,List.nil_append,hflying,List.take_left]
  have hfront := Codec.front_frame (Codec.runtime adler32) q
    ⟨Codec.readable q,h.fits q List.mem_cons_self⟩ []
  rw [List.append_nil,← hframe] at hfront
  have hle : bytes.length ≤ (p.buffer.append (p.flying.take bytes.length)).readableBytes := by
    rw [← Buffer.length_peek,hpeek]
  obtain ⟨buf,hbuf,hrest,-⟩ := Buffer.retrieve_spec hle
  refine ⟨bytes.length,⟨p.flying.drop bytes.length,_,true⟩,⟨p.flying.drop bytes.length,buf,true⟩,
    if_pos ⟨hread,hlen⟩,?_,rfl,?_⟩
  · have hfront : Codec.front (Codec.runtime adler32) bytes = .item q bytes.length := hfront
    simp only [Pipe.next,if_true,hpeek,hfront,hbuf,Option.map_some]
  · rw [hrest,hpeek,List.drop_length]

end Carries

/-- The loop finds nothing, and leaves. -/
theorem wait_look (hread : p.reading = true) (hempty : p.buffer.peek = []) :
    p.wait adler32 .look = some {p with reading := false} := by
  have hnext : p.next adler32 = some (none,{p with reading := false}) := by
    rw [next,if_pos hread,hempty]
    rfl
  simp only [wait,hnext]

end Pipe

namespace Session

/-- The session with nothing under way. -/
def bare (s : Session) : Session := {s with requests := [], responses := []}

/-- What is sent goes behind what is under way. -/
def behind (s t : Session) : Session :=
  {t with requests := s.requests ++ t.requests, responses := s.responses ++ t.responses}

end Session

/-- The events in which nothing is taken off the link. -/
def LinkEvent.isLocal : LinkEvent → Bool
  | .serve .. => false
  | .receive => false
  | _ => true

namespace Session
variable {s : Session} {ev : LinkEvent}

theorem behind_sendSome (s : Session) (r : Client.Connection × Option Request) :
    s.behind (s.bare.sendSome r) = s.sendSome r := by
  obtain ⟨k,_ | req⟩ := r
  · simp [behind,bare,sendSome]
  · simp [behind,bare,sendSome,send]

/-- What is under way does not matter for the others. -/
theorem step_local (hev : ev.isLocal = true) : s.step ev = (s.bare.step ev).map s.behind := by
  cases ev with
  | serve => cases hev
  | receive => cases hev
  | openChannel cid rid =>
    change (if cid ∈ s.drawn ∨ rid ∈ s.drawn ∨ cid = rid then none else _) =
      Option.map s.behind (if cid ∈ s.drawn ∨ rid ∈ s.drawn ∨ cid = rid then none else _)
    split_ifs
    · rfl
    · exact congrArg some (by simp [behind,bare,send])
  | call cid rid api =>
    change (if rid ∈ s.drawn then none else _) =
      Option.map s.behind (if rid ∈ s.drawn then none else _)
    split_ifs
    · rfl
    · rw [Option.map_map]
      exact Option.map_congr fun r _ => (behind_sendSome s r).symm
  | dropChannel cid rid =>
    change (if rid ∈ s.drawn then none else _) =
      Option.map s.behind (if rid ∈ s.drawn then none else _)
    split_ifs
    · rfl
    · rw [Option.map_map]
      exact Option.map_congr fun r _ => (behind_sendSome s r).symm
  | resume i =>
    simp only [step,bare,Option.map_map]
    exact Option.map_congr fun k _ => by simp [behind]
  | work i =>
    simp only [step,bare,Option.map_map]
    exact Option.map_congr fun r _ => by simp [behind]
  | reply =>
    simp only [step,bare,Option.map_map]
    exact Option.map_congr fun resp _ => by simp [behind]
  | choose i =>
    simp only [step,bare,Option.map_map]
    exact Option.map_congr fun r _ => by simp [behind,pushed]
  | other ev =>
    change (if ev.Elsewhere s.conn then _ else none) =
      Option.map s.behind (if ev.Elsewhere s.conn then _ else none)
    split_ifs
    · rw [Option.map_map]
      exact Option.map_congr fun b _ => by simp [behind,bare]
    · rfl

theorem step_serve {req : Request} {rest : List Request} (h : s.requests = req::rest)
    {it : Iteration} {uuid : String → String} : s.step (.serve it uuid) =
      (({s.bare with requests := [req]} : Session).step (.serve it uuid)).map
        ({s with requests := rest} : Session).behind := by
  simp only [step,bare,h]
  cases s.replying with
  | some resp => rfl
  | none =>
    simp only [Option.map_map]
    exact Option.map_congr fun r _ => by simp [behind]

theorem step_receive {resp : Response} {rest : List Response} (h : s.responses = resp::rest) :
    s.step .receive = (({s.bare with responses := [resp]} : Session).step .receive).map
      ({s with responses := rest} : Session).behind := by
  simp only [step,bare,h,Option.map_some,Option.some.injEq]
  simp [behind]

end Session

/-- Only a handler is about to reply. -/
theorem Session.step_replying {s s' : Session} {ev : LinkEvent} (h : s.step ev = some s')
    (hserve : ∀ it uuid, ev ≠ .serve it uuid) :
    s'.replying = s.replying ∨ s'.replying = none := by
  have hcases := Session.step_cases h
  cases ev with
  | serve it uuid => exact absurd rfl (hserve it uuid)
  | openChannel cid rid =>
    obtain ⟨-,-,-,rfl⟩ := hcases
    exact .inl rfl
  | call cid rid api => obtain ⟨-,c,-,⟨-,rfl⟩ | ⟨req,-,rfl⟩⟩ := hcases <;> exact .inl rfl
  | dropChannel cid rid =>
    obtain ⟨-,c,-,-,-,⟨-,rfl⟩ | ⟨req,-,rfl⟩⟩ := hcases <;> exact .inl rfl
  | resume i => obtain ⟨k,-,rfl⟩ := hcases; exact .inl rfl
  | receive => obtain ⟨resp,rest,-,rfl⟩ := hcases; exact .inl rfl
  | work i => obtain ⟨r,-,rfl⟩ := hcases; exact .inl rfl
  | reply => obtain ⟨resp,-,rfl⟩ := hcases; exact .inr rfl
  | choose i => obtain ⟨r,-,rfl⟩ := hcases; exact .inl rfl
  | other ev => obtain ⟨-,b,-,rfl⟩ := hcases; exact .inl rfl

/-- A session with its bytes. In `core` nothing is under way. -/
structure ByteSession where
  core : Session
  toBroker : Pipe := {}
  toClient : Pipe := {}

inductive ByteEvent
  | link (ev : LinkEvent)
  | toBroker (w : Pipe.Wait)
  | toClient (w : Pipe.Wait)

def ByteEvent.link? : ByteEvent → Option LinkEvent
  | .link ev => some ev
  | _ => none

namespace ByteSession
variable (adler32 : BitVec 32 → Bytes → BitVec 32)

def start (b : Broker) (conn : ℕ) : ByteSession := {core := .start b conn}

/-- The message that the event takes out of a buffer goes to the session, by way of the dispatcher. -/
def take (bs : ByteSession) : LinkEvent → Option (Session × ByteSession)
  | .serve .. =>
    match bs.core.replying,bs.toBroker.next adler32 with
    | none,some (some message,p) =>
      ((brokerDispatcher (library adler32)).onProtobufMessage message).map fun req =>
      ({bs.core with requests := [req]},{bs with toBroker := p})
    | _,_ => none
  | .receive =>
    match bs.toClient.next adler32 with
    | some (some message,p) =>
      ((clientDispatcher (library adler32)).onProtobufMessage message).map fun resp =>
      ({bs.core with responses := [resp]},{bs with toClient := p})
    | _ => none
  | _ => some (bs.core,bs)

/-- What the session has put on the link is sent. -/
def flush (bs : ByteSession) (t : Session) : ByteSession where
  core := t.bare
  toBroker := bs.toBroker.send adler32 (t.requests.map .request)
  toClient := bs.toClient.send adler32 (t.responses.map .response)

/-- The event loop of the broker is not at the buffer while a handler has not sent its reply. -/
def step (bs : ByteSession) : ByteEvent → Option ByteSession
  | .link ev => (bs.take adler32 ev).bind fun r => (r.1.step ev).map (r.2.flush adler32)
  | .toBroker w =>
    if bs.core.replying = none then
      (bs.toBroker.wait adler32 w).map fun p => {bs with toBroker := p}
    else none
  | .toClient w => (bs.toClient.wait adler32 w).map fun p => {bs with toClient := p}

def system : Lts ByteSession ByteEvent := .ofPartial (step adler32)

end ByteSession

/-- What is under way is short enough for its receiver. -/
def Session.Fits (adler32 : BitVec 32 → Bytes → BitVec 32) (s : Session) : Prop :=
  (∀ req ∈ s.requests, Codec.Fits (Codec.runtime adler32) (.request req)) ∧
    ∀ resp ∈ s.responses, Codec.Fits (Codec.runtime adler32) (.response resp)

/-- Nothing that is too long is sent in the step. -/
def Session.SendsFit (adler32 : BitVec 32 → Bytes → BitVec 32) (s : Session) (ev : LinkEvent) : Prop :=
  ∀ t, s.step ev = some t → t.Fits adler32

def ByteSession.SendsFit (adler32 : BitVec 32 → Bytes → BitVec 32) (bs : ByteSession) :
    ByteEvent → Prop
  | .link ev => ∀ r, bs.take adler32 ev = some r → r.1.SendsFit adler32 ev
  | _ => True

/-- The session and its bytes agree on what is under way. -/
structure ByteSession.Abstracts (adler32 : BitVec 32 → Bytes → BitVec 32) (bs : ByteSession)
    (s : Session) : Prop where
  core : bs.core = s.bare
  toBroker : bs.toBroker.Carries adler32 (s.requests.map .request)
  toClient : bs.toClient.Carries adler32 (s.responses.map .response)

/-- Between the steps of the session, the buffers are empty, and an event loop is at its buffer only
while a handler is about to reply. -/
structure ByteSession.Quiet (bs : ByteSession) : Prop where
  toBroker : bs.toBroker.buffer.peek = []
  toClient : bs.toClient.buffer.peek = []
  serving : bs.toBroker.reading = bs.core.replying.isSome
  receiving : bs.toClient.reading = false

namespace ByteSession.Abstracts
variable {adler32 : BitVec 32 → Bytes → BitVec 32} {bs bs' : ByteSession} {s s' k : Session}
variable {ev : LinkEvent}

theorem start (b : Broker) (conn : ℕ) : (ByteSession.start b conn).Abstracts adler32 (.start b conn) :=
  ⟨rfl,.start,.start⟩

/-- The bytes say which messages are under way. -/
theorem unique (h : bs.Abstracts adler32 s) (h' : bs.Abstracts adler32 s') : s = s' := by
  have hreq := List.map_injective_iff.mpr (fun _ _ => Packet.request.inj)
    (h.toBroker.unique h'.toBroker)
  have hresp := List.map_injective_iff.mpr (fun _ _ => Packet.response.inj)
    (h.toClient.unique h'.toClient)
  have hcore : s.bare = s'.bare := h.core.symm.trans h'.core
  obtain ⟨⟩ := s
  obtain ⟨⟩ := s'
  simp only [Session.bare,Session.mk.injEq] at hcore hreq hresp ⊢
  tauto

theorem fits (h : bs.Abstracts adler32 s) : s.Fits adler32 :=
  ⟨fun _ hreq => h.toBroker.fits _ (List.mem_map_of_mem hreq),
    fun _ hresp => h.toClient.fits _ (List.mem_map_of_mem hresp)⟩

/-- What the event takes out of a buffer is what the session takes off the link. -/
theorem take (h : bs.Abstracts adler32 s) (ht : bs.take adler32 ev = some (k,bs')) :
    ∃ rest : Session, s.step ev = (k.step ev).map rest.behind ∧
      bs'.toBroker.Carries adler32 (rest.requests.map .request) ∧
      bs'.toClient.Carries adler32 (rest.responses.map .response) := by
  have hlocal : ev.isLocal = true → bs.take adler32 ev = some (bs.core,bs) := by
    intro hev
    cases ev <;> first | rfl | cases hev
  by_cases hev : ev.isLocal = true
  · cases (hlocal hev).symm.trans ht
    exact ⟨s,h.core ▸ Session.step_local hev,h.toBroker,h.toClient⟩
  cases ev with
  | serve it uuid =>
    simp only [ByteSession.take] at ht
    split at ht
    · next message p hreply hnext =>
      obtain ⟨req,hreq,heq⟩ := Option.map_eq_some_iff.mp ht
      cases heq
      rcases h.toBroker.next hnext with ⟨hnone,-⟩ | ⟨q,packets,hq,hpackets,hc⟩
      · cases hnone
      cases hq
      obtain ⟨req',rest,hreqs,rfl,rfl⟩ := List.map_eq_cons_iff.mp hpackets
      rw [brokerDispatcher_eq] at hreq
      cases hreq
      rw [h.core]
      exact ⟨_,Session.step_serve hreqs,hc,h.toClient⟩
    · cases ht
  | receive =>
    simp only [ByteSession.take] at ht
    split at ht
    · next message p hnext =>
      obtain ⟨resp,hresp,heq⟩ := Option.map_eq_some_iff.mp ht
      cases heq
      rcases h.toClient.next hnext with ⟨hnone,-⟩ | ⟨q,packets,hq,hpackets,hc⟩
      · cases hnone
      cases hq
      obtain ⟨resp',rest,hresps,rfl,rfl⟩ := List.map_eq_cons_iff.mp hpackets
      rw [clientDispatcher_eq] at hresp
      cases hresp
      rw [h.core]
      exact ⟨_,Session.step_receive hresps,h.toBroker,hc⟩
    · cases ht
  | _ => exact absurd rfl hev

/-- What is sent goes behind what is under way. -/
theorem flush {rest t : Session} (hb : bs.toBroker.Carries adler32 (rest.requests.map .request))
    (hc : bs.toClient.Carries adler32 (rest.responses.map .response)) (ht : t.Fits adler32) :
    (bs.flush adler32 t).Abstracts adler32 (rest.behind t) where
  core := rfl
  toBroker := by
    simp only [ByteSession.flush,Session.behind,List.map_append]
    exact hb.send (List.forall_mem_map.mpr ht.1)
  toClient := by
    simp only [ByteSession.flush,Session.behind,List.map_append]
    exact hc.send (List.forall_mem_map.mpr ht.2)

/-- Bytes that arrive are nothing that the session sees, and everything else is a step of it. -/
theorem step {bev : ByteEvent} (h : bs.Abstracts adler32 s) (hfit : bs.SendsFit adler32 bev)
    (hs : bs.step adler32 bev = some bs') : ∃ s',
      (Session.system.guarded (Session.SendsFit adler32)).Run s bev.link?.toList s' ∧
        bs'.Abstracts adler32 s' := by
  cases bev with
  | link ev =>
    obtain ⟨⟨k,mid⟩,htake,hk⟩ := Option.bind_eq_some_iff.mp hs
    obtain ⟨t,ht,rfl⟩ := Option.map_eq_some_iff.mp hk
    obtain ⟨rest,hstep,hb,hc⟩ := h.take htake
    rw [ht,Option.map_some] at hstep
    have habs := flush hb hc (hfit _ htake t ht)
    refine ⟨rest.behind t,.single ⟨fun s' hs' => ?_,hstep⟩,habs⟩
    cases hstep.symm.trans hs'
    exact habs.fits
  | toBroker w =>
    simp only [ByteSession.step] at hs
    split_ifs at hs
    obtain ⟨p,hp,rfl⟩ := Option.map_eq_some_iff.mp hs
    exact ⟨s,.nil s,h.core,h.toBroker.wait hp,h.toClient⟩
  | toClient w =>
    obtain ⟨p,hp,rfl⟩ := Option.map_eq_some_iff.mp hs
    exact ⟨s,.nil s,h.core,h.toBroker,h.toClient.wait hp⟩

/-- A message is taken out, and the session takes its step. -/
theorem perform (h : bs.Abstracts adler32 s) {r : Session × ByteSession}
    (htake : bs.take adler32 ev = some r) (hfit : s.SendsFit adler32 ev)
    (hs : s.step ev = some s') : ∃ t, r.1.step ev = some t ∧
      ((ByteSession.system adler32).guarded (ByteSession.SendsFit adler32)).Run bs [.link ev]
        (r.2.flush adler32 t) ∧ (r.2.flush adler32 t).Abstracts adler32 s' := by
  obtain ⟨k,mid⟩ := r
  obtain ⟨rest,hstep,hb,hc⟩ := h.take htake
  obtain ⟨t,ht,hbehind⟩ := Option.map_eq_some_iff.mp (hstep.symm.trans hs)
  have hall := hfit s' hs
  rw [← hbehind] at hall
  have htfit : t.Fits adler32 := ⟨fun req hreq => hall.1 req (List.mem_append_right _ hreq),
    fun resp hresp => hall.2 resp (List.mem_append_right _ hresp)⟩
  refine ⟨t,ht,.single ⟨?_,?_⟩,hbehind ▸ flush hb hc htfit⟩
  · intro r hr t' ht'
    cases htake.symm.trans hr
    cases ht.symm.trans ht'
    exact htfit
  · change (bs.take adler32 ev).bind _ = _
    rw [htake,Option.bind_some,ht,Option.map_some]

/-- What an event of the session takes off the link can arrive. -/
theorem ready (h : bs.Abstracts adler32 s) (quiet : bs.Quiet) (hs : s.step ev = some s') :
    ∃ bevs mid r, ((ByteSession.system adler32).guarded (ByteSession.SendsFit adler32)).Run bs bevs
        mid ∧ bevs.filterMap ByteEvent.link? = [] ∧ mid.Abstracts adler32 s ∧
      mid.take adler32 ev = some r ∧ r.2.toBroker.buffer.peek = [] ∧
      r.2.toClient.buffer.peek = [] ∧
      (∀ t, r.1.step ev = some t → t.replying.isSome = true → r.2.toBroker.reading = true) ∧
      ∀ k, .toBroker (.arrive k) ∈ bevs → ∃ it uuid, ev = .serve it uuid := by
  have hreply : bs.core.replying = s.replying := by rw [h.core]; rfl
  have hserving : (∀ it uuid, ev ≠ .serve it uuid) → ∀ k t : Session, k.replying = s.replying →
      k.step ev = some t → t.replying.isSome = true → bs.toBroker.reading = true := by
    intro hne k t hk ht hsome
    rw [quiet.serving,hreply,← hk]
    rcases Session.step_replying ht hne with hsame | hnone
    · rwa [← hsame]
    · rw [hnone] at hsome
      cases hsome
  cases ev with
  | serve it uuid =>
    obtain ⟨req,rest,-,hidle,hreq,-,-⟩ := Session.step_cases hs
    rw [hidle] at hreply
    have hc := h.toBroker
    rw [hreq,List.map_cons] at hc
    have hread : bs.toBroker.reading = false := by
      rw [quiet.serving,hreply]
      rfl
    obtain ⟨n,p₁,p₂,hwait,hnext,hp₂,hempty⟩ := hc.one hread quiet.toBroker
    refine ⟨[.toBroker (.arrive n)],{bs with toBroker := p₁},
      ({bs.core with requests := [req]},{bs with toBroker := p₂}),.single ⟨trivial,?_⟩,rfl,
      ⟨h.core,h.toBroker.wait hwait,h.toClient⟩,?_,hempty,quiet.toClient,fun _ _ _ => hp₂,
      fun _ _ => ⟨it,uuid,rfl⟩⟩
    · exact (if_pos hreply).trans (congrArg (Option.map _) hwait)
    · simp only [ByteSession.take,hreply,hnext,brokerDispatcher_eq]
      rfl
  | receive =>
    obtain ⟨resp,rest,hresp,-⟩ := Session.step_cases hs
    have hc := h.toClient
    rw [hresp,List.map_cons] at hc
    obtain ⟨n,p₁,p₂,hwait,hnext,hp₂,hempty⟩ := hc.one quiet.receiving quiet.toClient
    refine ⟨[.toClient (.arrive n)],{bs with toClient := p₁},
      ({bs.core with responses := [resp]},{bs with toClient := p₂}),.single ⟨trivial,?_⟩,rfl,
      ⟨h.core,h.toBroker,h.toClient.wait hwait⟩,?_,quiet.toBroker,hempty,
      fun t => hserving (fun _ _ => by simp) _ t hreply,fun k hin => by simp at hin⟩
    · exact congrArg (Option.map _) hwait
    · simp only [ByteSession.take,hnext,clientDispatcher_eq]
      rfl
  | _ =>
    exact ⟨[],bs,(bs.core,bs),.nil bs,rfl,h,rfl,quiet.toBroker,quiet.toClient,
      fun t => hserving (fun _ _ => by simp) _ t hreply,fun k hin => by simp at hin⟩

/-- After a step the event loops look at their buffers once more, and leave. -/
theorem settle (h : bs.Abstracts adler32 s) (hb : bs.toBroker.buffer.peek = [])
    (hc : bs.toClient.buffer.peek = [])
    (hserving : bs.core.replying.isSome = true → bs.toBroker.reading = true) : ∃ bevs bs',
      ((ByteSession.system adler32).guarded (ByteSession.SendsFit adler32)).Run bs bevs bs' ∧
        bevs.filterMap ByteEvent.link? = [] ∧ bs'.Abstracts adler32 s ∧ bs'.Quiet ∧
        ∀ k, .toBroker (.arrive k) ∉ bevs := by
  have hfirst : ∃ bevs p, ((ByteSession.system adler32).guarded
      (ByteSession.SendsFit adler32)).Run bs bevs {bs with toBroker := p} ∧
        bevs.filterMap ByteEvent.link? = [] ∧ p.Carries adler32 (s.requests.map .request) ∧
        p.buffer.peek = [] ∧ p.reading = bs.core.replying.isSome ∧
        ∀ k, .toBroker (.arrive k) ∉ bevs := by
    by_cases hsame : bs.toBroker.reading = bs.core.replying.isSome
    · exact ⟨[],bs.toBroker,.nil bs,rfl,h.toBroker,hb,hsame,by simp⟩
    · have hnone : bs.core.replying = none := by
        by_contra hne
        have hsome := Option.isSome_iff_ne_none.mpr hne
        exact hsame ((hserving hsome).trans hsome.symm)
      have hread : bs.toBroker.reading = true := by
        rw [hnone] at hsame
        exact Bool.eq_true_of_not_eq_false hsame
      have hlook : bs.toBroker.wait adler32 .look = _ := Pipe.wait_look hread hb
      refine ⟨[.toBroker .look],_,.single ⟨trivial,?_⟩,rfl,h.toBroker.wait hlook,hb,?_,by simp⟩
      · exact (if_pos hnone).trans (congrArg (Option.map _) hlook)
      · rw [hnone]
        rfl
  obtain ⟨bevs,p,run,hbevs,hp,hempty,hread,harrive⟩ := hfirst
  cases hreceive : bs.toClient.reading with
  | false =>
    exact ⟨bevs,{bs with toBroker := p},run,hbevs,⟨h.core,hp,h.toClient⟩,
      ⟨hempty,hc,hread,hreceive⟩,harrive⟩
  | true =>
    have hlook : bs.toClient.wait adler32 .look = _ := Pipe.wait_look hreceive hc
    refine ⟨bevs ++ [.toClient .look],
      {bs with toBroker := p, toClient := {bs.toClient with reading := false}},
      run.snoc (a := ByteEvent.toClient .look) ⟨trivial,congrArg (Option.map _) hlook⟩,?_,
      ⟨h.core,hp,h.toClient.wait hlook⟩,
      ⟨hempty,hc,hread,rfl⟩,?_⟩
    · rw [List.filterMap_append,hbevs]
      rfl
    · simpa using harrive

/-- Every step of the session happens in bytes. -/
theorem realised (h : bs.Abstracts adler32 s) (quiet : bs.Quiet) (hfit : s.SendsFit adler32 ev)
    (hs : s.step ev = some s') : ∃ bevs bs',
      ((ByteSession.system adler32).guarded (ByteSession.SendsFit adler32)).Run bs bevs bs' ∧
        bevs.filterMap ByteEvent.link? = [ev] ∧ bs'.Abstracts adler32 s' ∧ bs'.Quiet ∧
        ∀ k, .toBroker (.arrive k) ∈ bevs → ∃ it uuid, ev = .serve it uuid := by
  obtain ⟨front,mid,r,run,hfront,hmid,htake,hb,hc,hserving,harrive⟩ := h.ready quiet hs
  obtain ⟨t,ht,hlink,habs⟩ := hmid.perform htake hfit hs
  obtain ⟨back,bs',run',hback,habs',quiet',hnone⟩ := habs.settle hb hc (hserving t ht)
  refine ⟨front ++ [.link ev] ++ back,bs',(run.append hlink).append run',?_,habs',quiet',?_⟩
  · rw [List.filterMap_append,List.filterMap_append,hfront,hback]
    rfl
  · intro k hin
    rcases List.mem_append.mp hin with hin | hin
    · rcases List.mem_append.mp hin with hin | hin
      · exact harrive k hin
      · cases List.mem_singleton.mp hin
    · exact absurd hin (hnone k)

end ByteSession.Abstracts

/-- What is done on a connection, in which order, and the messages that are under way then, are in
bytes what they are in messages. -/
theorem link_of_bytes (adler32 : BitVec 32 → Bytes → BitVec 32) (b : Broker) (conn : ℕ)
    (evs : List LinkEvent) (s : Session) :
    (Session.system.guarded (Session.SendsFit adler32)).Run (Session.start b conn) evs s ↔
      ∃ bevs bs, ((ByteSession.system adler32).guarded (ByteSession.SendsFit adler32)).Run
          (ByteSession.start b conn) bevs bs ∧
        bevs.filterMap ByteEvent.link? = evs ∧ bs.Abstracts adler32 s := by
  have hstart : (ByteSession.start b conn).Abstracts adler32 (.start b conn) := .start b conn
  constructor
  · intro run
    have hquiet : (ByteSession.start b conn).Quiet :=
      ⟨Buffer.peek_new _,Buffer.peek_new _,rfl,rfl⟩
    obtain ⟨bevs,bs,hrun,hbevs,h,-⟩ := run.simulation_visible ByteEvent.link?
      (R := fun s (bs : ByteSession) => bs.Abstracts adler32 s ∧ bs.Quiet) ⟨hstart,hquiet⟩ (by
        rintro s ev s' bs ⟨h,quiet⟩ hs
        obtain ⟨bevs,bs',hrun,hbevs,h',quiet',-⟩ := h.realised quiet hs.1 hs.2
        exact ⟨bevs,bs',hrun,hbevs,h',quiet'⟩)
    exact ⟨bevs,bs,hrun,hbevs,h⟩
  · rintro ⟨bevs,bs,run,rfl,h⟩
    obtain ⟨t,hrun,ht⟩ := run.simulation_hidden ByteEvent.link?
      (R := fun (bs : ByteSession) s => bs.Abstracts adler32 s) hstart fun h hs => h.step hs.1 hs.2
    cases h.unique ht
    exact hrun

end MessageQueue

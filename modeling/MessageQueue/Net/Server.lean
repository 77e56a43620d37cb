import MessageQueue.Broker.Channels
import MessageQueue.Net.Dispatcher

/-! The broker on its connections. Bytes of any kind arrive on each of them in pieces; the event loop
takes the frames out of them one after the other and calls the handlers, while the workers of the
pool go on. What a handler or a worker sends goes out in frames, as long as the broker has not shut
the connection down, after which it still reads. -/
namespace MessageQueue.Net
open Base Bytes

/-- `reading` is the connection whose bytes the event loop is at, and `replying` what the handler that
it has called is about to send. -/
structure Server where
  broker : Broker
  inputs : Table ℕ Buffer := ∅
  outputs : Table ℕ Bytes := ∅
  shut : List ℕ := []
  reading : Option ℕ := none
  replying : Option Response := none

inductive ServerEvent
  | connect (conn : ℕ)
  | disconnect (conn : ℕ) (it : Iteration)
  | arrive (conn : ℕ) (bytes : Bytes)
  | next (it : Iteration) (uuid : String → String)
  | reply
  | take (i : ℕ)
  | choose (i : ℕ)
  | autoAck (i : ℕ)
  | restart (it : Iteration)

namespace Server
variable {M : Type*} (lib : Library M)

/-- `TcpConnection::send` does nothing once `shutdown` was called. -/
def send (s : Server) (conn : ℕ) (resp : Response) : Server :=
  match s.outputs.lookup conn,Codec.send lib.toRuntime (lib.ofResponse resp) with
  | some out,some bytes =>
    if conn ∈ s.shut then s else {s with outputs := s.outputs.insert conn (out ++ bytes)}
  | _,_ => s

def sendSome (s : Server) : Option (Consumer × Response) → Server
  | none => s
  | some (cp,resp) => s.send lib cp.callback.connection resp

def shutdown (s : Server) (conn : ℕ) : Server := {s with shut := conn::s.shut}

/-- A message is dispatched. A handler shuts a connection down that it does not know. -/
def dispatch (s : Server) (conn : ℕ) (message : M) (it : Iteration) (uuid : String → String) :
    Option Server :=
  match (brokerDispatcher lib).onProtobufMessage message with
  | none => some (s.shutdown conn)
  | some req => (s.broker.handle conn req it uuid).map fun r =>
    let s := if (s.broker.connections.lookup conn).isSome then s else s.shutdown conn
    {s with broker := r.1, replying := r.2}

/-- One round of the loop in `ProtobufCodec::onMessage`. -/
def next (s : Server) (conn : ℕ) (buf : Buffer) (it : Iteration) (uuid : String → String) :
    Option Server :=
  match Codec.front lib.toRuntime buf.peek with
  | .more => some {s with reading := none}
  | .bad _ => some {s.shutdown conn with reading := none}
  | .item message n => (buf.retrieve n).bind fun buf =>
    ({s with inputs := s.inputs.insert conn buf} : Server).dispatch lib conn message it uuid

/-- The event loop does one thing at a time. `none` where the event cannot happen, or the code has no
defined behaviour. -/
def step (s : Server) : ServerEvent → Option Server
  | .connect conn =>
    if s.reading = none ∧ s.inputs.lookup conn = none then
      some {s with
        broker := s.broker.newConnection conn
        inputs := s.inputs.insert conn (Buffer.new kInitialSize)
        outputs := s.outputs.insert conn []
        shut := s.shut.filter (· ≠ conn)}
    else none
  | .disconnect conn it =>
    if s.reading = none ∧ (s.inputs.lookup conn).isSome then
      some {s with
        broker := s.broker.delConnection conn it
        inputs := s.inputs.erase conn
        outputs := s.outputs.erase conn}
    else none
  | .arrive conn bytes =>
    if s.reading = none then
      (s.inputs.lookup conn).map fun buf =>
        {s with inputs := s.inputs.insert conn (buf.append bytes), reading := some conn}
    else none
  | .next it uuid =>
    match s.reading,s.replying with
    | some conn,none => (s.inputs.lookup conn).bind fun buf => s.next lib conn buf it uuid
    | _,_ => none
  | .reply =>
    match s.reading,s.replying with
    | some conn,some resp => some {s.send lib conn resp with replying := none}
    | _,_ => none
  | .take i => (s.broker.take i).map fun b => {s with broker := b}
  | .choose i => (s.broker.choose i).map fun r =>
    ({s with broker := r.1} : Server).sendSome lib r.2
  | .autoAck i => (s.broker.autoAck i).map fun b => {s with broker := b}
  | .restart it => (s.broker.restart it).map fun b => {broker := b}

def system : Lts Server ServerEvent := .ofPartial (step lib)

variable {conn conn' : ℕ}

/-! ### What is sent -/

theorem send_cases (s : Server) (conn : ℕ) (resp : Response) :
    ((s.outputs.lookup conn = none ∨ conn ∈ s.shut) ∧ s.send lib conn resp = s) ∨
      ∃ out, s.outputs.lookup conn = some out ∧ conn ∉ s.shut ∧
        s.send lib conn resp = {s with outputs := s.outputs.insert conn (out ++
          Codec.frame lib.toRuntime (lib.ofResponse resp))} := by
  unfold send
  rw [Codec.send_eq]
  cases s.outputs.lookup conn with
  | none => exact .inl ⟨.inl rfl,rfl⟩
  | some out =>
    by_cases hshut : conn ∈ s.shut
    · exact .inl ⟨.inr hshut,if_pos hshut⟩
    · exact .inr ⟨out,rfl,hshut,if_neg hshut⟩

/-- Nothing else changes. -/
theorem send_same (s : Server) (conn : ℕ) (resp : Response) :
    (s.send lib conn resp).broker = s.broker ∧ (s.send lib conn resp).shut = s.shut ∧
      (s.send lib conn resp).reading = s.reading ∧
      (s.send lib conn resp).replying = s.replying := by
  obtain ⟨-,h⟩ | ⟨out,-,-,h⟩ := send_cases lib s conn resp <;> rw [h] <;>
    exact ⟨rfl,rfl,rfl,rfl⟩

theorem inputs_send (s : Server) (conn : ℕ) (resp : Response) :
    (s.send lib conn resp).inputs = s.inputs := by
  obtain ⟨-,h⟩ | ⟨out,-,-,h⟩ := send_cases lib s conn resp <;> rw [h]

theorem outputs_send_ne (s : Server) (h : conn' ≠ conn) (resp : Response) :
    (s.send lib conn resp).outputs.lookup conn' = s.outputs.lookup conn' := by
  obtain ⟨-,he⟩ | ⟨out,-,-,he⟩ := send_cases lib s conn resp <;> rw [he]
  exact AList.lookup_insert_ne h

end Server
end MessageQueue.Net

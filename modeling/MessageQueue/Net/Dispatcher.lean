import MessageQueue.Net.Delivery

/-! `ProtobufDispatcher`: the callback for a message is found by its type. The broker registers one for
each request, and the client one for each response; anything else ends the connection. -/
namespace MessageQueue
open Base Bytes Wire MQ

namespace Packet

def request? : Packet → Option Request
  | .request req => some req
  | _ => none

def response? : Packet → Option Response
  | .response resp => some resp
  | _ => none

end Packet

namespace Net

/-- What the programs use of the protobuf library, beside what the codec uses of it: the request or
the response that the callback of its type reads in a message, and the message of a response. -/
structure Library (M : Type*) extends Runtime M where
  request : M → Request
  response : M → Response
  ofResponse : Response → M

/-- The library as far as it is about the types of the two programs. Nobody asks for the request in a
message of another type. -/
def library (adler32 : BitVec 32 → Bytes → BitVec 32) : Library Packet where
  toRuntime := Codec.runtime adler32
  request p := p.request?.getD (.openChannel "" "")
  response p := p.response?.getD (.common "" "" false)
  ofResponse := .response

/-- The callbacks by the names of the types, which stand for their descriptors. -/
structure ProtobufDispatcher (M ρ : Type*) where
  typeName : M → Bytes
  callbacks : Table Bytes (M → ρ) := ∅
  defaultCallback : M → ρ

namespace ProtobufDispatcher
variable {M ρ : Type*} (d : ProtobufDispatcher M ρ)

def registerMessageCallback (t : MessageType) (callback : M → ρ) : ProtobufDispatcher M ρ :=
  {d with callbacks := d.callbacks.insert (text t.name) callback}

def onProtobufMessage (message : M) : ρ :=
  match d.callbacks.lookup (d.typeName message) with
  | some callback => callback message
  | none => d.defaultCallback message

end ProtobufDispatcher

/-- What the broker does with a message: the handler that it calls has a request to handle, and
`onUnknownMessage` has none. -/
def brokerDispatcher {M : Type*} (lib : Library M) : ProtobufDispatcher M (Option Request) :=
  [openChannelRequest,closeChannelRequest,declareExchangeRequest,deleteExchangeRequest,
    declareQueueRequest,deleteQueueRequest,queueBindRequest,queueUnBindRequest,
    basicPublishRequest,basicAckRequest,basicConsumeRequest,basicCancelRequest].foldl
      (fun d t => d.registerMessageCallback t fun message => some (lib.request message))
        {typeName := lib.typeName, defaultCallback := fun _ => none}

def clientDispatcher {M : Type*} (lib : Library M) : ProtobufDispatcher M (Option Response) :=
  [basicCommonResponse,basicConsumeResponse].foldl
    (fun d t => d.registerMessageCallback t fun message => some (lib.response message))
      {typeName := lib.typeName, defaultCallback := fun _ => none}

variable (adler32 : BitVec 32 → Bytes → BitVec 32) (p : Packet)

/-- No request is missing, and nothing but requests is handled. -/
theorem brokerDispatcher_eq :
    (brokerDispatcher (library adler32)).onProtobufMessage p = p.request? := by
  rcases p with (_ | _ | _ | _ | _ | _ | _ | _ | _ | _ | _ | _) | (_ | _) | _ | _ | _ <;> rfl

theorem clientDispatcher_eq :
    (clientDispatcher (library adler32)).onProtobufMessage p = p.response? := by
  rcases p with (_ | _ | _ | _ | _ | _ | _ | _ | _ | _ | _ | _) | (_ | _) | _ | _ | _ <;> rfl

end Net
end MessageQueue

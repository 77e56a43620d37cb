import MessageQueue.Base.Proto
import MessageQueue.Common.Payload
import MessageQueue.Common.Request

/-! The messages of `request.proto` and `message.proto` as they travel. A peer finds the type of a
message by its name, and takes the message for what that type says. -/
namespace MessageQueue
open Base Base.Wire Base.Proto

/-- A message of one of the types that both programs are built with. -/
inductive Packet
  | request (req : Request)
  | response (resp : Response)
  | properties (properties : BasicProperties)
  | payload (payload : Payload)
  | message (payload : Option Payload) (offset length : UInt32)
  deriving DecidableEq

structure MessageType where
  name : String
  Value : Type
  format : Format Value
  wrap : Value → Packet

def ExchangeType.wire (t : ExchangeType) : ℕ := DeliveryMode.wire ⟨t.number⟩

def ExchangeType.ofWire (n : ℕ) : ExchangeType := ⟨(DeliveryMode.ofWire n).number⟩

theorem ExchangeType.ofWire_wire (t : ExchangeType) : ofWire t.wire = t :=
  congrArg (fun m : DeliveryMode => ExchangeType.mk m.number) (DeliveryMode.ofWire_wire ⟨t.number⟩)

namespace MQ

def deliveryMode : Kind DeliveryMode :=
  .number .unknownMode DeliveryMode.wire DeliveryMode.ofWire DeliveryMode.ofWire_wire

def exchangeType : Kind ExchangeType :=
  .number .unknownType ExchangeType.wire ExchangeType.ofWire ExchangeType.ofWire_wire

def propertiesFormat : Format BasicProperties :=
  .congr ⟨fun (id,mode,key,()) => ⟨id,mode,key⟩,fun p => (p.id,p.deliveryMode,p.routingKey,()),
    fun _ => rfl,fun _ => rfl⟩
  (.field 1 .string (.field 2 deliveryMode (.field 3 .string .nil)))

def payloadFormat : Format Payload :=
  .congr ⟨fun (properties,body,valid,()) => ⟨properties,body,valid⟩,
    fun p => (p.properties,p.body,p.valid,()),fun _ => rfl,fun _ => rfl⟩
  (.field 1 (.message propertiesFormat) (.field 2 .string (.field 3 .string .nil)))

/-- The entries of a map are messages of two fields, which are written even when they are empty. -/
def argsEntry : Format (String × String × Unit) :=
  .field 1 .entryString (.field 2 .entryString .nil)

def openChannelRequest : MessageType where
  name := "MQ.openChannelRequest"
  Value := String × String × Unit
  format := .field 1 .string (.field 2 .string .nil)
  wrap := fun (rid,cid,()) => .request (.openChannel rid cid)

def closeChannelRequest : MessageType where
  name := "MQ.closeChannelRequest"
  Value := String × String × Unit
  format := .field 1 .string (.field 2 .string .nil)
  wrap := fun (rid,cid,()) => .request (.closeChannel rid cid)

def declareExchangeRequest : MessageType where
  name := "MQ.declareExchangeRequest"
  Value := String × String × String × ExchangeType × Bool × Bool × Args × Unit
  format := .field 1 .string (.field 2 .string (.field 3 .string (.field 4 exchangeType
    (.field 5 .bool (.field 6 .bool (.field 7 (.map argsEntry) .nil))))))
  wrap := fun (rid,cid,name,type,durable,autoDelete,args,()) =>
    .request (.declareExchange rid cid name type durable autoDelete args)

def deleteExchangeRequest : MessageType where
  name := "MQ.deleteExchangeRequest"
  Value := String × String × String × Unit
  format := .field 1 .string (.field 2 .string (.field 3 .string .nil))
  wrap := fun (rid,cid,name,()) => .request (.deleteExchange rid cid name)

def declareQueueRequest : MessageType where
  name := "MQ.declareQueueRequest"
  Value := String × String × String × Bool × Bool × Bool × Args × Unit
  format := .field 1 .string (.field 2 .string (.field 3 .string (.field 4 .bool
    (.field 5 .bool (.field 6 .bool (.field 7 (.map argsEntry) .nil))))))
  wrap := fun (rid,cid,name,exclusive,durable,autoDelete,args,()) =>
    .request (.declareQueue rid cid name exclusive durable autoDelete args)

def deleteQueueRequest : MessageType where
  name := "MQ.deleteQueueRequest"
  Value := String × String × String × Unit
  format := .field 1 .string (.field 2 .string (.field 3 .string .nil))
  wrap := fun (rid,cid,name,()) => .request (.deleteQueue rid cid name)

def queueBindRequest : MessageType where
  name := "MQ.queueBindRequest"
  Value := String × String × String × String × String × Unit
  format := .field 1 .string (.field 2 .string (.field 3 .string (.field 4 .string
    (.field 5 .string .nil))))
  wrap := fun (rid,cid,ename,qname,key,()) => .request (.queueBind rid cid ename qname key)

def queueUnBindRequest : MessageType where
  name := "MQ.queueUnBindRequest"
  Value := String × String × String × String × Unit
  format := .field 1 .string (.field 2 .string (.field 3 .string (.field 4 .string .nil)))
  wrap := fun (rid,cid,ename,qname,()) => .request (.queueUnBind rid cid ename qname)

def basicPublishRequest : MessageType where
  name := "MQ.basicPublishRequest"
  Value := String × String × String × String × Option BasicProperties × Unit
  format := .field 1 .string (.field 2 .string (.field 3 .string (.field 4 .string
    (.field 5 (.message propertiesFormat) .nil))))
  wrap := fun (rid,cid,ename,body,properties,()) =>
    .request (.basicPublish rid cid ename body properties)

def basicAckRequest : MessageType where
  name := "MQ.basicAckRequest"
  Value := String × String × String × String × Unit
  format := .field 1 .string (.field 2 .string (.field 3 .string (.field 4 .string .nil)))
  wrap := fun (rid,cid,qname,msgId,()) => .request (.basicAck rid cid qname msgId)

def basicConsumeRequest : MessageType where
  name := "MQ.basicConsumeRequest"
  Value := String × String × String × String × Bool × Unit
  format := .field 1 .string (.field 2 .string (.field 3 .string (.field 4 .string
    (.field 5 .bool .nil))))
  wrap := fun (rid,cid,ctag,qname,autoAck,()) => .request (.basicConsume rid cid ctag qname autoAck)

def basicCancelRequest : MessageType where
  name := "MQ.basicCancelRequest"
  Value := String × String × String × String × Unit
  format := .field 1 .string (.field 2 .string (.field 3 .string (.field 4 .string .nil)))
  wrap := fun (rid,cid,ctag,qname,()) => .request (.basicCancel rid cid ctag qname)

def basicConsumeResponse : MessageType where
  name := "MQ.basicConsumeResponse"
  Value := String × String × String × Option BasicProperties × Unit
  format := .field 1 .string (.field 2 .string (.field 3 .string
    (.field 4 (.message propertiesFormat) .nil)))
  wrap := fun (cid,ctag,body,properties,()) => .response (.consume cid ctag body properties)

def basicCommonResponse : MessageType where
  name := "MQ.basicCommonResponse"
  Value := String × String × Bool × Unit
  format := .field 1 .string (.field 2 .string (.field 3 .bool .nil))
  wrap := fun (rid,cid,ok,()) => .response (.common rid cid ok)

def basicProperties : MessageType where
  name := "MQ.BasicProperties"
  Value := BasicProperties
  format := propertiesFormat
  wrap := .properties

def payload : MessageType where
  name := "MQ.Payload"
  Value := Payload
  format := payloadFormat
  wrap := .payload

def message : MessageType where
  name := "MQ.Message"
  Value := Option Payload × UInt32 × UInt32 × Unit
  format := .field 1 (.message payloadFormat) (.field 2 .uint32 (.field 3 .uint32 .nil))
  wrap := fun (payload,offset,length,()) => .message payload offset length

/-- The types of the generated files, in the order of the files. -/
def messageTypes : List MessageType :=
  [openChannelRequest,closeChannelRequest,declareExchangeRequest,deleteExchangeRequest,
    declareQueueRequest,deleteQueueRequest,queueBindRequest,queueUnBindRequest,
    basicPublishRequest,basicAckRequest,basicConsumeRequest,basicCancelRequest,
    basicConsumeResponse,basicCommonResponse,basicProperties,payload,message]

end MQ

namespace Packet
open MQ

/-- The type of a message, and its fields. -/
def unwrap : Packet → (t : MessageType) × t.Value
  | .request (.openChannel rid cid) => ⟨openChannelRequest,rid,cid,()⟩
  | .request (.closeChannel rid cid) => ⟨closeChannelRequest,rid,cid,()⟩
  | .request (.declareExchange rid cid name type durable autoDelete args) =>
    ⟨declareExchangeRequest,rid,cid,name,type,durable,autoDelete,args,()⟩
  | .request (.deleteExchange rid cid name) => ⟨deleteExchangeRequest,rid,cid,name,()⟩
  | .request (.declareQueue rid cid name exclusive durable autoDelete args) =>
    ⟨declareQueueRequest,rid,cid,name,exclusive,durable,autoDelete,args,()⟩
  | .request (.deleteQueue rid cid name) => ⟨deleteQueueRequest,rid,cid,name,()⟩
  | .request (.queueBind rid cid ename qname key) => ⟨queueBindRequest,rid,cid,ename,qname,key,()⟩
  | .request (.queueUnBind rid cid ename qname) => ⟨queueUnBindRequest,rid,cid,ename,qname,()⟩
  | .request (.basicPublish rid cid ename body bp) =>
    ⟨basicPublishRequest,rid,cid,ename,body,bp,()⟩
  | .request (.basicAck rid cid qname msgId) => ⟨basicAckRequest,rid,cid,qname,msgId,()⟩
  | .request (.basicConsume rid cid ctag qname autoAck) =>
    ⟨basicConsumeRequest,rid,cid,ctag,qname,autoAck,()⟩
  | .request (.basicCancel rid cid ctag qname) => ⟨basicCancelRequest,rid,cid,ctag,qname,()⟩
  | .response (.consume cid ctag body bp) => ⟨basicConsumeResponse,cid,ctag,body,bp,()⟩
  | .response (.common rid cid ok) => ⟨basicCommonResponse,rid,cid,ok,()⟩
  | .properties p => ⟨basicProperties,p⟩
  | .payload p => ⟨MQ.payload,p⟩
  | .message p offset length => ⟨MQ.message,p,offset,length,()⟩

/-- `GetTypeName`. -/
def typeName (p : Packet) : Bytes := text p.unwrap.1.name

def serialize (p : Packet) : Bytes := p.unwrap.1.format.serialize p.unwrap.2

/-- `ProtobufCodec::createMessage`, and `ParseFromArray` of what it creates. -/
def createMessage (name : Bytes) : Option (Bytes → Option Packet) :=
  (messageTypes.find? fun t => text t.name = name).map fun t data =>
    (t.format.parse data).map t.wrap

theorem wrap_unwrap (p : Packet) : p.unwrap.1.wrap p.unwrap.2 = p := by
  rcases p with (_ | _ | _ | _ | _ | _ | _ | _ | _ | _ | _ | _) | (_ | _) | _ | _ | _ <;> rfl

theorem unwrap_mem (p : Packet) : p.unwrap.1 ∈ messageTypes := by
  rcases p with (_ | _ | _ | _ | _ | _ | _ | _ | _ | _ | _ | _) | (_ | _) | _ | _ | _ <;>
    simp [unwrap,messageTypes]

end Packet

namespace MQ

theorem text_injective : Function.Injective text := fun s t h => by
  have hs := readText_text s
  rw [h,readText_text] at hs
  exact (Option.some.inj hs).symm

/-- No two types share a name, so a name leads to its type. -/
theorem find_name {t : MessageType} (ht : t ∈ messageTypes) :
    messageTypes.find? (fun u => text u.name = text t.name) = some t := by
  have hnames : (messageTypes.map MessageType.name).Nodup := by decide
  have hfind : ∀ ts : List MessageType, (ts.map MessageType.name).Nodup → t ∈ ts →
      ts.find? (fun u => text u.name = text t.name) = some t := by
    intro ts
    induction ts with
    | nil => simp
    | cons u us ih =>
      intro hn hmem
      rw [List.map_cons,List.nodup_cons] at hn
      rcases List.mem_cons.mp hmem with rfl | hmem
      · simp
      · have hne : u.name ≠ t.name := fun heq => hn.1 (heq ▸ List.mem_map_of_mem hmem)
        rw [List.find?_cons_of_neg (by simpa using fun h => hne (text_injective h))]
        exact ih hn.2 hmem
  exact hfind messageTypes hnames ht

end MQ

namespace Packet
open MQ

theorem createMessage_name {t : MessageType} (ht : t ∈ messageTypes) :
    createMessage (text t.name) = some fun data => (t.format.parse data).map t.wrap := by
  rw [createMessage,find_name ht]
  rfl

/-- Every message is found by its name, and read back from its bytes. -/
theorem createMessage_serialize (p : Packet) : ∃ parseFromArray,
    createMessage p.typeName = some parseFromArray ∧ parseFromArray p.serialize = some p := by
  refine ⟨_,createMessage_name p.unwrap_mem,?_⟩
  rw [serialize,Format.parse_serialize,Option.map_some,wrap_unwrap]

theorem typeName_ne_nil (p : Packet) : p.typeName ≠ [] := by
  rcases p with (_ | _ | _ | _ | _ | _ | _ | _ | _ | _ | _ | _) | (_ | _) | _ | _ | _ <;>
    exact List.cons_ne_nil _ _

end Packet
end MessageQueue

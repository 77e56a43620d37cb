import MessageQueue.Common.Request

/-! A channel of the client. Every call that talks to the broker sends one request under a new id
and waits until the response with that id is there. -/
namespace MessageQueue.Client
open Base

/-- `callback` says which function the application gave. -/
structure Subscriber where
  autoAck : Bool
  subscribeQueueName : String
  subscribeQueueTag : String
  callback : ℕ

/-- Of a basic response only the `ok` is ever read. -/
structure Channel where
  channelId : String
  subscriber : Option Subscriber := none
  basicResp : Table String Bool := ∅

/-- The calls that an application makes on a channel. -/
inductive Api
  | closeChannel
  | declareExchange (name : String) (type : ExchangeType) (durable autoDelete : Bool) (args : Args)
  | deleteExchange (name : String)
  | declareQueue (qname : String) (qdurable qexclusive qautoDelete : Bool) (qargs : Args)
  | deleteQueue (qname : String)
  | queueBind (ename qname key : String)
  | queueUnBind (ename qname : String)
  | basicPublish (ename : String) (bp : Option BasicProperties) (body : String)
  | basicAck (msgid : String)
  | basicCancel
  | basicConsume (consumerTag queueName : String) (autoAck : Bool) (cb : ℕ)

/-- What a thread waits in `waitResponse` for. -/
inductive Pending
  | openChannel
  | call (api : Api)
  | destructor

namespace Channel

/-- The request of a call; `none` where it returns without one. -/
def request (c : Channel) (rid : String) : Api → Option Request
  | .closeChannel => some (.closeChannel rid c.channelId)
  | .declareExchange name type durable autoDelete args =>
    some (.declareExchange rid c.channelId name type durable autoDelete args)
  | .deleteExchange name => some (.deleteExchange rid c.channelId name)
  | .declareQueue qname qdurable qexclusive qautoDelete qargs =>
    some (.declareQueue rid c.channelId qname qexclusive qdurable qautoDelete qargs)
  | .deleteQueue qname => some (.deleteQueue rid c.channelId qname)
  | .queueBind ename qname key => some (.queueBind rid c.channelId ename qname key)
  | .queueUnBind ename qname => some (.queueUnBind rid c.channelId ename qname)
  | .basicPublish ename bp body => some (.basicPublish rid c.channelId ename body bp)
  | .basicAck msgid =>
    c.subscriber.map fun s => .basicAck rid c.channelId s.subscribeQueueName msgid
  | .basicCancel =>
    c.subscriber.map fun s =>
      .basicCancel rid c.channelId s.subscribeQueueTag s.subscribeQueueName
  | .basicConsume consumerTag queueName autoAck _ =>
    match c.subscriber with
    | some _ => none
    | none => some (.basicConsume rid c.channelId consumerTag queueName autoAck)

def putBasicResponse (c : Channel) (rid : String) (ok : Bool) : Channel :=
  {c with basicResp := c.basicResp.emplace rid ok}

/-- The end of `waitResponse`, and what the call does with the response. -/
def finish (c : Channel) (rid : String) (ok : Bool) (pending : Pending) : Channel :=
  let c := {c with basicResp := c.basicResp.erase rid}
  match pending with
  | .call .basicCancel | .destructor => {c with subscriber := none}
  | .call (.basicConsume consumerTag queueName autoAck cb) =>
    if ok then {c with subscriber := some ⟨autoAck,queueName,consumerTag,cb⟩} else c
  | _ => c

/-- The callback that a pushed message goes to; `none` where the message is dropped. -/
def consume (c : Channel) (consumerTag : String) : Option ℕ :=
  match c.subscriber with
  | none => none
  | some s => if s.subscribeQueueTag ≠ consumerTag then none else some s.callback

end Channel
end MessageQueue.Client

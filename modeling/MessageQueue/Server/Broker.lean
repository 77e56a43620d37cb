import MessageQueue.Common.Request
import MessageQueue.Server.Consumer
import MessageQueue.Server.Route
import MessageQueue.Server.VirtualHost

/-! The broker: its connections and channels, the handler of each request, and the consume tasks
of its thread pool. Every handler runs as a whole; a task runs in the steps between which other
handlers and tasks can come. -/
namespace MessageQueue
open Base

structure Channel where
  self : ChannelRef
  consumer : Option Consumer := none

abbrev ChannelManager := Table String Channel

/-- `std::bind(&Channel::consume, this, qname)`. -/
structure Task where
  channel : ChannelRef
  qname : String

/-- A task that has begun: it holds the message it took, and looks for a consumer next, or has
called an auto-ack consumer and acknowledges next. -/
inductive Running
  | took (task : Task) (message : MessageManager.Taken)
  | called (task : Task) (message : MessageManager.Taken)

structure Broker where
  basedir : String
  host : VirtualHost
  consumers : ConsumerManager
  connections : Table ℕ ChannelManager
  /-- Channel objects from here on have never been made. -/
  fresh : ℕ
  pool : List Task
  running : List Running

namespace Broker

/-- The constructor. Consumers are kept for every queue that was recovered. -/
def construct (basedir : String) (it : Iteration) (disk : Disk) (db : Database) :
    Option Broker :=
  (VirtualHost.construct basedir it disk db).map fun host => {
    basedir := basedir
    host := host
    consumers := (it.order host.queues.keys).foldl ConsumerManager.initQueueConsumer ∅
    connections := ∅
    fresh := 0
    pool := []
    running := [] }

def setChannel (b : Broker) (c : Channel) : Broker :=
  let channels := (b.connections.lookup c.self.connection).getD ∅
  {b with connections := b.connections.insert c.self.connection (channels.insert c.self.id c)}

/-- The destructor of a channel. -/
def destroyChannel (b : Broker) (c : Channel) : Broker :=
  match c.consumer with
  | none => b
  | some cp => {b with consumers := b.consumers.removeConsumer cp.consumerTag cp.subscribeQueueName}

end Broker

namespace Channel

/-- The loop over the bindings of an exchange; `uuid` gives the id that a message without
properties draws. -/
def publishLoop (c : ChannelRef) (type : ExchangeType) (routingKey : String)
    (bp : Option BasicProperties) (body : String) (uuid : String → String) :
    List (Sigma fun _ : String => Binding) → Broker → Option Broker
  | [],b => some b
  | ⟨qname,binding⟩::rest,b =>
    match RouteManager.route type routingKey binding.bindingKey with
    | none => none
    | some false => publishLoop c type routingKey bp body uuid rest b
    | some true =>
      publishLoop c type routingKey bp body uuid rest
        {b with
          host := (b.host.basicPublish qname bp body (uuid qname)).2
          pool := b.pool ++ [⟨c,qname⟩]}

/-- `none` where the code has no defined behaviour. -/
def basicPublish (c : Channel) (b : Broker) (rid cid exchangeName body : String)
    (properties : Option BasicProperties) (it : Iteration) (uuid : String → String) :
    Option (Broker × Response) :=
  match b.host.selectExchange exchangeName with
  | none => some (b,.common rid cid false)
  | some ep =>
    let mqbm := b.host.exchangeBindings exchangeName
    let routingKey := match properties with
      | some bp => bp.routingKey
      | none => ""
    (publishLoop c.self ep.type routingKey properties body uuid (it.order mqbm.entries) b).map
      fun b => (b,.common rid cid true)

def declareQueue (b : Broker) (rid cid qname : String) (durable exclusive autoDelete : Bool)
    (args : Args) : Broker × Response :=
  let r := b.host.declareQueue qname durable exclusive autoDelete args
  if r.1 = false then ({b with host := r.2},.common rid cid false)
  else ({b with host := r.2, consumers := b.consumers.initQueueConsumer qname},
    .common rid cid true)

def deleteQueue (b : Broker) (rid cid qname : String) : Broker × Response :=
  ({b with
    consumers := b.consumers.destroyQueueConsumer qname
    host := b.host.deleteQueue qname},.common rid cid true)

/-- The reply is the same whether a consumer was created or not. -/
def basicConsume (c : Channel) (b : Broker) (rid cid consumerTag qname : String)
    (autoAck : Bool) : Broker × Response :=
  if b.host.existQueue qname = false then (b,.common rid cid false)
  else
    let r := b.consumers.createConsumer consumerTag qname autoAck c.self
    ({b with consumers := r.2}.setChannel {c with consumer := r.1},.common rid cid true)

def basicCancel (b : Broker) (rid cid consumerTag qname : String) : Broker × Response :=
  ({b with consumers := b.consumers.removeConsumer consumerTag qname},.common rid cid true)

/-- The handler of a request that a channel is to serve. -/
def serve (c : Channel) (b : Broker) (it : Iteration) (uuid : String → String) :
    Request → Option (Broker × Response)
  | .declareExchange rid cid name type durable autoDelete args =>
    let r := b.host.declareExchange name type durable autoDelete args
    some ({b with host := r.2},.common rid cid r.1)
  | .deleteExchange rid cid name =>
    some ({b with host := b.host.deleteExchange name},.common rid cid true)
  | .declareQueue rid cid name exclusive durable autoDelete args =>
    some (declareQueue b rid cid name durable exclusive autoDelete args)
  | .deleteQueue rid cid name => some (deleteQueue b rid cid name)
  | .queueBind rid cid ename qname key =>
    let r := b.host.bind ename qname key
    some ({b with host := r.2},.common rid cid r.1)
  | .queueUnBind rid cid ename qname =>
    some ({b with host := b.host.unBind ename qname},.common rid cid true)
  | .basicPublish rid cid ename body properties =>
    basicPublish c b rid cid ename body properties it uuid
  | .basicAck rid cid qname msgId =>
    some ({b with host := b.host.basicAck qname msgId},.common rid cid true)
  | .basicConsume rid cid ctag qname autoAck => some (basicConsume c b rid cid ctag qname autoAck)
  | .basicCancel rid cid ctag qname => some (basicCancel b rid cid ctag qname)
  -- opening and closing are the connection's own requests
  | .openChannel .. => none
  | .closeChannel .. => none

end Channel

namespace Broker

/-- `Connection::openChannel`. -/
def openChannel (b : Broker) (conn : ℕ) (channels : ChannelManager) (rid cid : String) :
    Broker × Response :=
  match channels.lookup cid with
  | some _ => (b,.common rid cid false)
  | none =>
    let c : Channel := {self := ⟨b.fresh,cid,conn⟩}
    ({b with
      connections := b.connections.insert conn (channels.insert cid c)
      fresh := b.fresh+1},.common rid cid true)

/-- `Connection::closeChannel`. The manager's pointer is the last one to the channel. -/
def closeChannel (b : Broker) (conn : ℕ) (channels : ChannelManager) (rid cid : String) :
    Broker × Response :=
  let b' := {b with connections := b.connections.insert conn (channels.erase cid)}
  match channels.lookup cid with
  | none => (b',.common rid cid true)
  | some c => (b'.destroyChannel c,.common rid cid true)

/-- The dispatch of a request that arrived on a connection. Without a connection or a channel for
it there is no reply. -/
def handle (b : Broker) (conn : ℕ) (req : Request) (it : Iteration) (uuid : String → String) :
    Option (Broker × Option Response) :=
  match b.connections.lookup conn with
  | none => some (b,none)
  | some channels =>
    match req with
    | .openChannel rid cid =>
      let r := b.openChannel conn channels rid cid
      some (r.1,some r.2)
    | .closeChannel rid cid =>
      let r := b.closeChannel conn channels rid cid
      some (r.1,some r.2)
    | req =>
      match channels.lookup req.cid with
      | none => some (b,none)
      | some c => (c.serve b it uuid req).map fun r => (r.1,some r.2)

/-- `onConnection` for a connection that is up. -/
def newConnection (b : Broker) (conn : ℕ) : Broker :=
  {b with connections := b.connections.emplace conn ∅}

/-- `onConnection` for one that is down: its channels go with it, in the order of the hash table. -/
def delConnection (b : Broker) (conn : ℕ) (it : Iteration) : Broker :=
  let channels := (b.connections.lookup conn).getD ∅
  (it.order channels.entries).foldl (fun b e => b.destroyChannel e.2)
    {b with connections := b.connections.erase conn}

/-- A worker begins a task: it takes the head of the queue, and ends the task when there is
none. -/
def take (b : Broker) (i : ℕ) : Option Broker :=
  match b.pool[i]? with
  | none => none
  | some task =>
    let r := b.host.basicConsume task.qname
    let b := {b with pool := b.pool.eraseIdx i, host := r.2}
    match r.1 with
    | none => some b
    | some m => some {b with running := b.running ++ [.took task m]}

/-- The task looks for a consumer, and ends without one. A consumer's callback sends the message
on the consumer's own connection. -/
def choose (b : Broker) (i : ℕ) : Option (Broker × Option (Consumer × Response)) :=
  match b.running[i]? with
  | some (.took task m) =>
    let r := b.consumers.chooseConsumer task.qname
    let b := {b with consumers := r.2}
    match r.1 with
    | none => some ({b with running := b.running.eraseIdx i},none)
    | some cp =>
      some ({b with running :=
          if cp.autoAck then b.running.set i (.called task m) else b.running.eraseIdx i},
        some (cp,.consume cp.callback.id cp.consumerTag m.payload.body (some m.payload.props)))
  | _ => none

/-- The last step of a task whose consumer acknowledges by itself. -/
def autoAck (b : Broker) (i : ℕ) : Option Broker :=
  match b.running[i]? with
  | some (.called task m) =>
    some {b with
      host := b.host.basicAck task.qname m.payload.id
      running := b.running.eraseIdx i}
  | _ => none

/-- A new process on what the old one left on disk and in the database. -/
def restart (b : Broker) (it : Iteration) : Option Broker :=
  construct b.basedir it b.host.disk b.host.db

end Broker

/-- What can happen to the broker next. -/
inductive Event
  | connect (conn : ℕ)
  | disconnect (conn : ℕ) (it : Iteration)
  | request (conn : ℕ) (req : Request) (it : Iteration) (uuid : String → String)
  | take (i : ℕ)
  | choose (i : ℕ)
  | autoAck (i : ℕ)
  | restart (it : Iteration)

namespace Broker

/-- `none` where the event cannot happen, or the code has no defined behaviour. -/
def step (b : Broker) : Event → Option Broker
  | .connect conn => some (b.newConnection conn)
  | .disconnect conn it => some (b.delConnection conn it)
  | .request conn req it uuid => (b.handle conn req it uuid).map Prod.fst
  | .take i => b.take i
  | .choose i => (b.choose i).map Prod.fst
  | .autoAck i => b.autoAck i
  | .restart it => b.restart it

end Broker
end MessageQueue

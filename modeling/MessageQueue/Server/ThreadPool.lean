import MessageQueue.Server.Broker

/-! The threads of the broker: the event loop, and the workers of its thread pool. A step is what
a thread does between two points at which other threads can come; what a handler does in one go
for the broker, the loops of publishing and of closing do here round by round. -/
namespace MessageQueue
open Base

/-- How far `Channel::consume` has come in the task that a worker executes. -/
inductive Stage
  | took (message : MessageManager.Taken)
  /-- The task holds the consumer unit of its queue: the one that the manager has, or one that the
  manager had when the queue was deleted. -/
  | found (message : MessageManager.Taken) (unit : Option ℕ)
  | chose (message : MessageManager.Taken) (consumer : Consumer)
  /-- An auto-ack consumer was called; the acknowledgement comes next. -/
  | called (message : MessageManager.Taken)

/-- A worker in the loop of `Entry`. -/
structure Worker where
  /-- The tasks of its batch that it has not begun. -/
  batch : List Task := []
  current : Option (Task × Stage) := none

/-- A worker that has found the unit of a queue keeps it when the manager drops it. -/
def Worker.detach (w : Worker) (qname : String) (k : ℕ) : Worker :=
  match w.current with
  | some (task,.found m none) =>
    if task.qname = qname then {w with current := some (task,.found m (some k))} else w
  | _ => w

/-- The loop of `Channel::basicPublish` over the bindings of an exchange. -/
structure Publishing where
  channel : ChannelRef
  type : ExchangeType
  routingKey : String
  properties : Option BasicProperties
  body : String
  uuid : String → String
  rest : List (Sigma fun _ : String => Binding)
  /-- The queue that has the message, and whose task is to be pushed next. -/
  stored : Option String := none

/-- What the event loop is in the middle of. -/
inductive Handling
  | idle
  | publishing (job : Publishing)
  | closing (channels : List Channel)

/-- A message sent by a consumer's callback. -/
structure Push where
  qname : String
  message : MessageManager.Taken
  consumer : Consumer

/-- `broker.running` is not used: the tasks in progress are those of the workers. -/
structure Threads where
  broker : Broker
  handling : Handling := .idle
  workers : List Worker
  destroyed : List ChannelRef := []
  pushed : List Push := []
  /-- The consumer units of deleted queues. -/
  detached : List QueueConsumer := []

/-- `thr_count`. -/
def thrCount : ℕ := 2

namespace Threads

def start (b : Broker) : Threads := {broker := b, workers := List.replicate thrCount {}}

/-- A handler has run that drops the unit of the queue, if it drops any. -/
def served (s : Threads) (b : Broker) (qname : String) : Threads :=
  match s.broker.consumers.lookup qname,b.consumers.lookup qname with
  | some qcp,none =>
    {s with
      broker := b
      workers := s.workers.map fun w => w.detach qname s.detached.length
      detached := s.detached ++ [qcp]}
  | _,_ => {s with broker := b}

/-- A request begins to be handled. The loops of publishing and closing have their rounds to
come; any other handler runs as a whole. -/
def request (s : Threads) (conn : ℕ) (req : Request) (it : Iteration) (uuid : String → String) :
    Option Threads :=
  match s.broker.connections.lookup conn with
  | none => some s
  | some channels =>
    match req with
    | .closeChannel _ cid =>
      some {s with
        broker := {s.broker with
          connections := s.broker.connections.insert conn (channels.erase cid)}
        handling := .closing (channels.lookup cid).toList}
    | .basicPublish _ cid ename body properties =>
      match channels.lookup cid with
      | none => some s
      | some c =>
        match s.broker.host.selectExchange ename with
        | none => some s
        | some ep =>
          some {s with handling := .publishing {
            channel := c.self
            type := ep.type
            routingKey := match properties with
              | some bp => bp.routingKey
              | none => ""
            properties := properties
            body := body
            uuid := uuid
            rest := it.order (s.broker.host.exchangeBindings ename).entries}}
    | .deleteQueue rid cid qname =>
      (s.broker.handle conn (.deleteQueue rid cid qname) it uuid).map fun r => s.served r.1 qname
    | req => (s.broker.handle conn req it uuid).map fun r => {s with broker := r.1}

/-- A lost connection: its channels are about to go. -/
def disconnect (s : Threads) (conn : ℕ) (it : Iteration) : Threads :=
  let channels := (s.broker.connections.lookup conn).getD ∅
  {s with
    broker := {s.broker with connections := s.broker.connections.erase conn}
    handling := .closing ((it.order channels.entries).map fun e => e.2)}

/-- The event loop goes on with what it is in the middle of. A message is put into its queue
before the task for it is pushed. -/
def round (s : Threads) : Option Threads :=
  match s.handling with
  | .idle => none
  | .publishing job =>
    match job.stored with
    | some qname =>
      some {s with
        broker := {s.broker with pool := s.broker.pool ++ [⟨job.channel,qname⟩]}
        handling := .publishing {job with stored := none}}
    | none =>
      match job.rest with
      | [] => some {s with handling := .idle}
      | ⟨qname,binding⟩::rest =>
        match RouteManager.route job.type job.routingKey binding.bindingKey with
        | none => none
        | some false => some {s with handling := .publishing {job with rest := rest}}
        | some true =>
          some {s with
            broker := {s.broker with host :=
              (s.broker.host.basicPublish qname job.properties job.body (job.uuid qname)).2}
            handling := .publishing {job with rest := rest, stored := some qname}}
  | .closing [] => some {s with handling := .idle}
  | .closing (c::cs) =>
    some {s with
      broker := s.broker.destroyChannel c
      handling := .closing cs
      destroyed := s.destroyed ++ [c.self]}

/-- A worker whose batch is done swaps the tasks of the pool out. -/
def swap (s : Threads) (i : ℕ) : Option Threads :=
  match s.workers[i]? with
  | some ⟨[],none⟩ =>
    if s.broker.pool.isEmpty then none
    else some {s with
      broker := {s.broker with pool := []}
      workers := s.workers.set i ⟨s.broker.pool,none⟩}
  | _ => none

/-- The next task of the batch takes the head of its queue, and ends when there is none. -/
def front (s : Threads) (i : ℕ) : Option Threads :=
  match s.workers[i]? with
  | some ⟨task::batch,none⟩ =>
    let r := s.broker.host.basicConsume task.qname
    some {s with
      broker := {s.broker with host := r.2}
      workers := s.workers.set i ⟨batch,r.1.map fun m => (task,.took m)⟩}
  | _ => none

/-- The task looks for the consumer unit of its queue, and ends without one. -/
def find (s : Threads) (i : ℕ) : Option Threads :=
  match s.workers[i]? with
  | some ⟨batch,some (task,.took m)⟩ =>
    let unit := s.broker.consumers.lookup task.qname
    some {s with workers := s.workers.set i ⟨batch,unit.map fun _ => (task,.found m none)⟩}
  | _ => none

/-- The task chooses a consumer of the unit, and ends without one. -/
def choose (s : Threads) (i : ℕ) : Option Threads :=
  match s.workers[i]? with
  | some ⟨batch,some (task,.found m none)⟩ =>
    let r := s.broker.consumers.chooseConsumer task.qname
    some {s with
      broker := {s.broker with consumers := r.2}
      workers := s.workers.set i ⟨batch,r.1.map fun cp => (task,.chose m cp)⟩}
  | some ⟨batch,some (task,.found m (some k))⟩ =>
    s.detached[k]?.map fun qcp =>
      let r := qcp.choose
      {s with
        workers := s.workers.set i ⟨batch,r.1.map fun cp => (task,.chose m cp)⟩
        detached := s.detached.set k r.2}
  | _ => none

/-- The consumer's callback sends the message on the connection of the consumer's channel. -/
def callback (s : Threads) (i : ℕ) : Option Threads :=
  match s.workers[i]? with
  | some ⟨batch,some (task,.chose m cp)⟩ =>
    some {s with
      workers := s.workers.set i ⟨batch,if cp.autoAck then some (task,.called m) else none⟩
      pushed := s.pushed ++ [⟨task.qname,m,cp⟩]}
  | _ => none

def autoAck (s : Threads) (i : ℕ) : Option Threads :=
  match s.workers[i]? with
  | some ⟨batch,some (task,.called m)⟩ =>
    some {s with
      broker := {s.broker with host := s.broker.host.basicAck task.qname m.payload.id}
      workers := s.workers.set i ⟨batch,none⟩}
  | _ => none

end Threads

/-- A step of the event loop, or of the worker with this number. -/
inductive Move
  | connect (conn : ℕ)
  | disconnect (conn : ℕ) (it : Iteration)
  | request (conn : ℕ) (req : Request) (it : Iteration) (uuid : String → String)
  | round
  | swap (i : ℕ)
  | front (i : ℕ)
  | find (i : ℕ)
  | choose (i : ℕ)
  | callback (i : ℕ)
  | autoAck (i : ℕ)

namespace Threads

/-- `none` where the step cannot happen, or the code has no defined behaviour. The event loop
begins with an event when it is done with the one before. -/
def step (s : Threads) : Move → Option Threads
  | .connect conn =>
    match s.handling with
    | .idle => some {s with broker := s.broker.newConnection conn}
    | _ => none
  | .disconnect conn it =>
    match s.handling with
    | .idle => some (s.disconnect conn it)
    | _ => none
  | .request conn req it uuid =>
    match s.handling with
    | .idle => s.request conn req it uuid
    | _ => none
  | .round => s.round
  | .swap i => s.swap i
  | .front i => s.front i
  | .find i => s.find i
  | .choose i => s.choose i
  | .callback i => s.callback i
  | .autoAck i => s.autoAck i

/-- The channels that a step of a worker executes a member function of. -/
def executes (s : Threads) : Move → List ChannelRef
  | .front i =>
    match s.workers[i]? with
    | some ⟨task::_,none⟩ => [task.channel]
    | _ => []
  | .find i =>
    match s.workers[i]? with
    | some ⟨_,some (task,.took _)⟩ => [task.channel]
    | _ => []
  | .choose i =>
    match s.workers[i]? with
    | some ⟨_,some (task,.found ..)⟩ => [task.channel]
    | _ => []
  | .callback i =>
    match s.workers[i]? with
    | some ⟨_,some (task,.chose _ cp)⟩ => [task.channel,cp.callback]
    | _ => []
  | .autoAck i =>
    match s.workers[i]? with
    | some ⟨_,some (task,.called _)⟩ => [task.channel]
    | _ => []
  | _ => []

end Threads
end MessageQueue

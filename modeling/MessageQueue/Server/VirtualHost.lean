import MessageQueue.Server.Binding
import MessageQueue.Server.Exchange
import MessageQueue.Server.MessageManager
import MessageQueue.Server.Queue

/-! `VirtualHost`: the four registries over one disk and one database. -/
namespace MessageQueue
open Base

structure VirtualHost where
  exchanges : ExchangeManager
  queues : QueueManager
  messages : MessageManager
  bindings : BindingManager
  disk : Disk
  db : Database

namespace VirtualHost

/-- The constructor. `none` is the abort of a table that cannot be created; the queues are
initialised in the order of the registry's loop. -/
def construct (basedir : String) (it : Iteration) (disk : Disk) (db : Database) :
    Option VirtualHost :=
  match ExchangeManager.construct db with
  | none => none
  | some (exchanges,db) =>
    match QueueManager.construct db with
    | none => none
    | some (queues,db) =>
      match BindingManager.construct db with
      | none => none
      | some (bindings,db) =>
        let r := (it.order queues.keys).foldl
          (fun r qname => r.1.initQueueMessage r.2 qname) (MessageManager.new basedir,disk)
        some {
          exchanges := exchanges
          queues := queues
          messages := r.1
          bindings := bindings
          disk := r.2
          db := db }

variable (h : VirtualHost)

def declareExchange (name : String) (type : ExchangeType) (durable autoDelete : Bool)
    (args : Args) : Bool × VirtualHost :=
  let r := h.exchanges.declareExchange h.db name type durable autoDelete args
  (r.1,{h with exchanges := r.2.1, db := r.2.2})

/-- The bindings of the exchange go first. -/
def deleteExchange (name : String) : VirtualHost :=
  let b := h.bindings.unbindByExchange h.db name
  let e := h.exchanges.deleteExchange b.2 name
  {h with bindings := b.1, exchanges := e.1, db := e.2}

def selectExchange (ename : String) : Option Exchange := h.exchanges.selectExchange ename

/-- The message handle is made first, whatever becomes of the declaration. -/
def declareQueue (qname : String) (durable exclusive autoDelete : Bool) (args : Args) :
    Bool × VirtualHost :=
  let m := h.messages.initQueueMessage h.disk qname
  let q := h.queues.declareQueue h.db qname durable exclusive autoDelete args
  (q.1,{h with messages := m.1, disk := m.2, queues := q.2.1, db := q.2.2})

/-- The messages go first, then the bindings. -/
def deleteQueue (name : String) : VirtualHost :=
  let m := h.messages.destroyQueueMessage h.disk name
  let b := h.bindings.unbindByQueue h.db name
  let q := h.queues.deleteQueue b.2 name
  {h with messages := m.1, disk := m.2, bindings := b.1, queues := q.1, db := q.2}

def existQueue (name : String) : Bool := h.queues.exist name

def bind (ename qname key : String) : Bool × VirtualHost :=
  match h.exchanges.selectExchange ename with
  | none => (false,h)
  | some ep =>
    match h.queues.selectQueue qname with
    | none => (false,h)
    | some mqp =>
      let b := h.bindings.bind h.db ename qname key (ep.durable && mqp.durable)
      (b.1,{h with bindings := b.2.1, db := b.2.2})

def unBind (ename qname : String) : VirtualHost :=
  let b := h.bindings.unbind h.db ename qname
  {h with bindings := b.1, db := b.2}

def exchangeBindings (ename : String) : QueueBindingMap := h.bindings.getExchangeBindings ename

def basicPublish (qname : String) (bp : Option BasicProperties) (body uuid : String) :
    Bool × VirtualHost :=
  match h.queues.selectQueue qname with
  | none => (false,h)
  | some mqp =>
    let r := h.messages.insert h.disk qname bp body mqp.durable uuid
    (r.1,{h with messages := r.2.1, disk := r.2.2})

def basicConsume (qname : String) : Option MessageManager.Taken × VirtualHost :=
  let r := h.messages.front qname
  (r.1,{h with messages := r.2})

def basicAck (qname msgId : String) : VirtualHost :=
  let r := h.messages.ack h.disk qname msgId
  {h with messages := r.1, disk := r.2}

/-- The tables are dropped and not created again, and the message handles stay. -/
def clear (it : Iteration) : Option VirtualHost :=
  match ExchangeManager.clear h.db with
  | none => none
  | some (exchanges,db) =>
    let q := QueueManager.clear db
    let b := BindingManager.clear q.2
    let m := h.messages.clear it h.disk
    some {
      exchanges := exchanges
      queues := q.1
      messages := m.1
      bindings := b.1
      disk := m.2
      db := b.2 }

end VirtualHost
end MessageQueue

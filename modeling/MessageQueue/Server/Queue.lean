import MessageQueue.Common.Helper
import MessageQueue.Common.SqliteHelper

/-! Queues: the table of `QueueMapper` and the registry of `QueueManager`. -/
namespace MessageQueue
open Base

structure Queue where
  name : String
  durable : Bool
  exclusive : Bool
  autoDelete : Bool
  args : Args

namespace Queue

/-- Stops at the first piece without `=`. -/
def setArgsLoop (args : Args) : List String → Bool × Args
  | [] => (true,args)
  | str::rest =>
    match StrHelper.find str.toList ['='] 0 with
    | none => (false,args)
    | some pos =>
      let kv := substrAt str.toList (some pos)
      setArgsLoop (args.insert kv.1 kv.2) rest

def setArgs (args : Args) (strArgs : String) : Bool × Args :=
  setArgsLoop args (StrHelper.split strArgs "&")

def row (q : Queue) : QueueRow := ⟨q.name,q.durable,q.exclusive,q.autoDelete,q.args.getArgs⟩

def ofRow (r : QueueRow) : Queue :=
  ⟨r.name,r.durable,r.exclusive,r.autoDelete,(setArgs ∅ r.args).2⟩

end Queue

namespace QueueMapper

def createTable (db : Database) : Bool × Database :=
  db.exec fun db => some {db with queueTable := some (db.queueTable.getD [])}

def removeTable (db : Database) : Bool × Database :=
  db.exec fun db => some {db with queueTable := none}

/-- The name is the primary key. -/
def insert (db : Database) (queue : Queue) : Bool × Database :=
  db.exec fun db =>
    match db.queueTable with
    | none => none
    | some rows =>
      if rows.any (·.name = queue.name) then none
      else some {db with queueTable := some (rows ++ [queue.row])}

def deleteQueue (db : Database) (name : String) : Bool × Database :=
  db.exec fun db => db.queueTable.map fun rows =>
    {db with queueTable := some (rows.filter (·.name ≠ name))}

/-- A select that fails returns no row. -/
def recovery (db : Database) : Table String Queue × Database :=
  let r := db.exec fun db => db.queueTable.map fun _ => db
  (if r.1 then (r.2.queueTable.getD []).foldl (fun m row => m.emplace row.name (.ofRow row)) ∅
    else ∅,r.2)

end QueueMapper

abbrev QueueManager := Table String Queue

namespace QueueManager

/-- `none` is the abort of a table that cannot be created. -/
def construct (db : Database) : Option (QueueManager × Database) :=
  match QueueMapper.createTable db with
  | (false,_) => none
  | (true,db) => some (QueueMapper.recovery db)

def declareQueue (m : QueueManager) (db : Database) (name : String)
    (durable exclusive autoDelete : Bool) (args : Args) : Bool × QueueManager × Database :=
  match m.lookup name with
  | some _ => (true,m,db)
  | none =>
    let pqueue : Queue := ⟨name,durable,exclusive,autoDelete,args⟩
    if durable then
      match QueueMapper.insert db pqueue with
      | (false,db) => (false,m,db)
      | (true,db) => (true,m.insert name pqueue,db)
    else (true,m.insert name pqueue,db)

def deleteQueue (m : QueueManager) (db : Database) (name : String) : QueueManager × Database :=
  match m.lookup name with
  | none => (m,db)
  | some q => (m.erase name,if q.durable then (QueueMapper.deleteQueue db name).2 else db)

def selectQueue (m : QueueManager) (name : String) : Option Queue := m.lookup name

def exist (m : QueueManager) (name : String) : Bool := (m.lookup name).isSome

/-- The result of the statement is not looked at. -/
def clear (db : Database) : QueueManager × Database := (∅,(QueueMapper.removeTable db).2)

end QueueManager
end MessageQueue

import MessageQueue.Common.Helper
import MessageQueue.Common.SqliteHelper

/-! Exchanges: the table of `ExchangeMapper` and the registry of `ExchangeManager`. -/
namespace MessageQueue
open Base

structure Exchange where
  name : String
  type : ExchangeType
  durable : Bool
  autoDelete : Bool
  args : Args

namespace Exchange

/-- A piece without `=` is its own key and its own value. -/
def setArgs (args : Args) (strArgs : String) : Args :=
  (StrHelper.split strArgs "&").foldl (fun args str =>
    let kv := substrAt str.toList (StrHelper.find str.toList ['='] 0)
    args.insert kv.1 kv.2) args

def row (e : Exchange) : ExchangeRow :=
  ⟨e.name,e.type,e.durable,e.autoDelete,e.args.getArgs⟩

def ofRow (r : ExchangeRow) : Exchange :=
  ⟨r.name,r.type,r.durable,r.autoDelete,setArgs ∅ r.args⟩

end Exchange

namespace ExchangeMapper

def createTable (db : Database) : Bool × Database :=
  db.exec fun db => some {db with exchangeTable := some (db.exchangeTable.getD [])}

/-- A table that is not there is dropped, too. -/
def removeTable (db : Database) : Bool × Database :=
  db.exec fun db => some {db with exchangeTable := none}

/-- The name is the primary key. -/
def insert (db : Database) (exp : Exchange) : Bool × Database :=
  db.exec fun db =>
    match db.exchangeTable with
    | none => none
    | some rows =>
      if rows.any (·.name = exp.name) then none
      else some {db with exchangeTable := some (rows ++ [exp.row])}

def remove (db : Database) (name : String) : Bool × Database :=
  db.exec fun db => db.exchangeTable.map fun rows =>
    {db with exchangeTable := some (rows.filter (·.name ≠ name))}

/-- A select that fails returns no row. -/
def recovery (db : Database) : Table String Exchange × Database :=
  let r := db.exec fun db => db.exchangeTable.map fun _ => db
  (if r.1 then (r.2.exchangeTable.getD []).foldl (fun m row => m.emplace row.name (.ofRow row)) ∅
    else ∅,r.2)

end ExchangeMapper

abbrev ExchangeManager := Table String Exchange

namespace ExchangeManager

/-- `none` is the abort of a table that cannot be created. -/
def construct (db : Database) : Option (ExchangeManager × Database) :=
  match ExchangeMapper.createTable db with
  | (false,_) => none
  | (true,db) => some (ExchangeMapper.recovery db)

def declareExchange (m : ExchangeManager) (db : Database) (name : String) (type : ExchangeType)
    (durable autoDelete : Bool) (args : Args) : Bool × ExchangeManager × Database :=
  match m.lookup name with
  | some _ => (true,m,db)
  | none =>
    let exp : Exchange := ⟨name,type,durable,autoDelete,args⟩
    if durable then
      match ExchangeMapper.insert db exp with
      | (false,db) => (false,m,db)
      | (true,db) => (true,m.insert name exp,db)
    else (true,m.insert name exp,db)

def deleteExchange (m : ExchangeManager) (db : Database) (name : String) :
    ExchangeManager × Database :=
  match m.lookup name with
  | none => (m,db)
  | some exp => (m.erase name,if exp.durable then (ExchangeMapper.remove db name).2 else db)

def selectExchange (m : ExchangeManager) (name : String) : Option Exchange := m.lookup name

/-- `none` is the abort of a table that cannot be dropped. -/
def clear (db : Database) : Option (ExchangeManager × Database) :=
  match ExchangeMapper.removeTable db with
  | (false,_) => none
  | (true,db) => some (∅,db)

end ExchangeManager
end MessageQueue

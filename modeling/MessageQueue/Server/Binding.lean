import MessageQueue.Common.Helper
import MessageQueue.Common.SqliteHelper

/-! Bindings: the table of `BindingMapper` and the two-level registry of `BindingManager`. -/
namespace MessageQueue
open Base

structure Binding where
  nameExchange : String
  nameQueue : String
  bindingKey : String

abbrev QueueBindingMap := Table String Binding
abbrev ExchangeQueueMap := Table String QueueBindingMap

/-- Put a binding under its exchange, with a new inner map where there is none. -/
def ExchangeQueueMap.add (m : ExchangeQueueMap) (b : Binding) : ExchangeQueueMap :=
  m.insert b.nameExchange (((m.lookup b.nameExchange).getD ∅).emplace b.nameQueue b)

namespace BindingMapper

def creatTable (db : Database) : Bool × Database :=
  db.exec fun db => some {db with bindingTable := some (db.bindingTable.getD [])}

def removeTable (db : Database) : Bool × Database :=
  db.exec fun db => some {db with bindingTable := none}

def insert (db : Database) (b : Binding) : Bool × Database :=
  db.exec fun db => db.bindingTable.map fun rows =>
    {db with bindingTable := some (rows ++ [⟨b.nameExchange,b.nameQueue,b.bindingKey⟩])}

/-- The three deletions differ in the rows they name. -/
def delete (db : Database) (named : BindingRow → Bool) : Bool × Database :=
  db.exec fun db => db.bindingTable.map fun rows =>
    {db with bindingTable := some (rows.filter fun r => !named r)}

def remove (db : Database) (nameExchange nameQueue : String) : Bool × Database :=
  delete db fun r => r.nameExchange = nameExchange ∧ r.nameQueue = nameQueue

def removeByExchange (db : Database) (nameExchange : String) : Bool × Database :=
  delete db fun r => r.nameExchange = nameExchange

def removeByQueue (db : Database) (nameQueue : String) : Bool × Database :=
  delete db fun r => r.nameQueue = nameQueue

/-- A select that fails returns no row. -/
def recover (db : Database) : ExchangeQueueMap × Database :=
  let r := db.exec fun db => db.bindingTable.map fun _ => db
  (if r.1 then (r.2.bindingTable.getD []).foldl
      (fun m row => m.add ⟨row.nameExchange,row.nameQueue,row.bindingKey⟩) ∅
    else ∅,r.2)

end BindingMapper

abbrev BindingManager := ExchangeQueueMap

namespace BindingManager

/-- `none` is the abort of a table that cannot be created. -/
def construct (db : Database) : Option (BindingManager × Database) :=
  match BindingMapper.creatTable db with
  | (false,_) => none
  | (true,db) => some (BindingMapper.recover db)

def getBinding (m : BindingManager) (nameExchange nameQueue : String) : Option Binding :=
  (m.lookup nameExchange).bind fun qs => qs.lookup nameQueue

/-- A pair that is bound already keeps its key. The result of the statement is not looked at. -/
def bind (m : BindingManager) (db : Database) (nameExchange nameQueue bindingKey : String)
    (durable : Bool) : Bool × BindingManager × Database :=
  let binding : Binding := ⟨nameExchange,nameQueue,bindingKey⟩
  match m.getBinding nameExchange nameQueue with
  | some _ => (true,m,db)
  | none =>
    (true,ExchangeQueueMap.add m binding,
      if durable then (BindingMapper.insert db binding).2 else db)

def unbind (m : BindingManager) (db : Database) (nameExchange nameQueue : String) :
    BindingManager × Database :=
  match m.lookup nameExchange with
  | none => (m,db)
  | some qs =>
    match qs.lookup nameQueue with
    | none => (m,db)
    | some _ =>
      (m.insert nameExchange (qs.erase nameQueue),
        (BindingMapper.remove db nameExchange nameQueue).2)

def unbindByExchange (m : BindingManager) (db : Database) (nameExchange : String) :
    BindingManager × Database :=
  match m.lookup nameExchange with
  | none => (m,db)
  | some _ => (m.erase nameExchange,(BindingMapper.removeByExchange db nameExchange).2)

/-- The inner maps without a queue. -/
def eraseQueue (m : ExchangeQueueMap) (nameQueue : String) : ExchangeQueueMap :=
  m.keys.foldl (fun m' e => m'.insert e (((m.lookup e).getD ∅).erase nameQueue)) m

/-- One statement for each exchange that has an inner map, all of them the same. -/
def unbindByQueue (m : BindingManager) (db : Database) (nameQueue : String) :
    BindingManager × Database :=
  (eraseQueue m nameQueue,
    m.keys.foldl (fun db _ => (BindingMapper.removeByQueue db nameQueue).2) db)

def getExchangeBindings (m : BindingManager) (nameExchange : String) : QueueBindingMap :=
  (m.lookup nameExchange).getD ∅

/-- The result of the statement is not looked at. -/
def clear (db : Database) : BindingManager × Database := (∅,(BindingMapper.removeTable db).2)

end BindingManager
end MessageQueue

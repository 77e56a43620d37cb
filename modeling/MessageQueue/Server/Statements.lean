import MessageQueue.Base.Sql
import MessageQueue.Server.Binding
import MessageQueue.Server.Exchange
import MessageQueue.Server.Queue

/-! The texts of the statements that the mappers write, with names and keys spliced in, and what a
text does to the tables when it is read as a deletion. -/
namespace MessageQueue
open Base

namespace BindingMapper

def insertText (b : Binding) : String :=
  "insert into binding_table values(" ++ "'" ++ b.nameExchange ++ "'," ++ "'" ++ b.nameQueue ++
    "'," ++ "'" ++ b.bindingKey ++ "');"

def removeText (nameExchange nameQueue : String) : String :=
  "delete from binding_table where name_exchange='" ++ nameExchange ++ "' and name_queue='" ++
    nameQueue ++ "';"

def removeByExchangeText (nameExchange : String) : String :=
  "delete from binding_table where name_exchange='" ++ nameExchange ++ "' ;"

def removeByQueueText (nameQueue : String) : String :=
  "delete from binding_table where name_queue='" ++ nameQueue ++ "';"

end BindingMapper

/-- A bool is written as a number. -/
def boolText (b : Bool) : String := if b then "1" else "0"

namespace ExchangeMapper

def insertText (exp : Exchange) : String :=
  "insert into exchange_table values(" ++ "'" ++ exp.name ++ "', " ++
    toString exp.type.number.toInt ++ ", " ++ boolText exp.durable ++ ", " ++
    boolText exp.autoDelete ++ ", " ++ "'" ++ exp.args.getArgs ++ "');"

def removeText (name : String) : String :=
  "delete from exchange_table where name=" ++ "'" ++ name ++ "';"

end ExchangeMapper

namespace QueueMapper

def insertText (queue : Queue) : String :=
  "insert into queue_table values(" ++ "'" ++ queue.name ++ "'," ++ boolText queue.durable ++
    "," ++ boolText queue.exclusive ++ "," ++ boolText queue.autoDelete ++ "," ++ "'" ++
    queue.args.getArgs ++ "');"

def deleteQueueText (name : String) : String :=
  "delete from queue_table where name = '" ++ name ++ "';"

end QueueMapper

/-- A statement of one of the mappers. -/
inductive MapperStatement
  | insertBinding (b : Binding)
  | removeBinding (nameExchange nameQueue : String)
  | removeByExchange (nameExchange : String)
  | removeByQueue (nameQueue : String)
  | insertExchange (exp : Exchange)
  | removeExchange (name : String)
  | insertQueue (queue : Queue)
  | deleteQueue (name : String)

namespace MapperStatement

def text : MapperStatement → String
  | .insertBinding b => BindingMapper.insertText b
  | .removeBinding e q => BindingMapper.removeText e q
  | .removeByExchange e => BindingMapper.removeByExchangeText e
  | .removeByQueue q => BindingMapper.removeByQueueText q
  | .insertExchange exp => ExchangeMapper.insertText exp
  | .removeExchange name => ExchangeMapper.removeText name
  | .insertQueue queue => QueueMapper.insertText queue
  | .deleteQueue name => QueueMapper.deleteQueueText name

/-- The strings that are spliced into the text, in their order. -/
def given : MapperStatement → List String
  | .insertBinding b => [b.nameExchange,b.nameQueue,b.bindingKey]
  | .removeBinding e q => [e,q]
  | .removeByExchange e => [e]
  | .removeByQueue q => [q]
  | .insertExchange exp => [exp.name,exp.args.getArgs]
  | .removeExchange name => [name]
  | .insertQueue queue => [queue.name,queue.args.getArgs]
  | .deleteQueue name => [name]

end MapperStatement

/-- The columns that hold text. -/
def ExchangeRow.column (r : ExchangeRow) (c : List Char) : Option (List Char) :=
  if c = "name".toList then some r.name.toList
  else if c = "args".toList then some r.args.toList
  else none

def QueueRow.column (r : QueueRow) (c : List Char) : Option (List Char) :=
  if c = "name".toList then some r.name.toList
  else if c = "args".toList then some r.args.toList
  else none

def BindingRow.column (r : BindingRow) (c : List Char) : Option (List Char) :=
  if c = "name_exchange".toList then some r.nameExchange.toList
  else if c = "name_queue".toList then some r.nameQueue.toList
  else if c = "binding_key".toList then some r.bindingKey.toList
  else none

namespace Database

/-- What a deletion does to the tables; one that names no column of its table is in error. -/
def actDelete (db : Database) (d : Sql.Delete) : Option Database :=
  if d.table = "binding_table".toList then
    if d.columns.all (["name_exchange","name_queue","binding_key"].map String.toList).contains then
      db.bindingTable.map fun rows =>
        {db with bindingTable := some (rows.filter fun r => !d.names r.column)}
    else none
  else if d.columns.all (["name","args"].map String.toList).contains then
    if d.table = "exchange_table".toList then
      db.exchangeTable.map fun rows =>
        {db with exchangeTable := some (rows.filter fun r => !d.names r.column)}
    else if d.table = "queue_table".toList then
      db.queueTable.map fun rows =>
        {db with queueTable := some (rows.filter fun r => !d.names r.column)}
    else none
  else none

/-- A text that is a deletion. -/
def actText (db : Database) (text : String) : Option Database :=
  ((Sql.read text.toList).bind Sql.delete).bind db.actDelete

end Database
end MessageQueue

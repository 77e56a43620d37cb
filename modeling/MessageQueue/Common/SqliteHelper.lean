import MessageQueue.Common.Payload

/-! The database behind the three managers: its tables, and statements that act on exactly the
rows they name or fail and leave their table as it is. -/
namespace MessageQueue

/-- A proto3 enum is open here, too, and the number is what the table keeps. -/
structure ExchangeType where
  number : Int32
  deriving DecidableEq, Repr

namespace ExchangeType

def unknownType : ExchangeType := ⟨0⟩
def direct : ExchangeType := ⟨1⟩
def fanout : ExchangeType := ⟨2⟩
def topic : ExchangeType := ⟨3⟩

end ExchangeType

structure ExchangeRow where
  name : String
  type : ExchangeType
  durable : Bool
  autoDelete : Bool
  args : String
  deriving DecidableEq

structure QueueRow where
  name : String
  durable : Bool
  exclusive : Bool
  autoDelete : Bool
  args : String
  deriving DecidableEq

structure BindingRow where
  nameExchange : String
  nameQueue : String
  bindingKey : String
  deriving DecidableEq

/-- A table is absent until it is created. `plan` says which of the coming statements the
environment lets succeed; an exhausted plan lets every one. -/
structure Database where
  exchangeTable : Option (List ExchangeRow) := none
  queueTable : Option (List QueueRow) := none
  bindingTable : Option (List BindingRow) := none
  plan : List Bool := []

namespace Database

/-- Run one statement: `act` is `none` where the statement is in error by itself. -/
def exec (db : Database) (act : Database → Option Database) : Bool × Database :=
  match db.plan with
  | false::rest => (false,{db with plan := rest})
  | rest =>
    let db := {db with plan := rest.tail}
    match act db with
    | none => (false,db)
    | some db => (true,db)

/-- Whether the environment lets the next statement succeed. -/
def succeeds (db : Database) : Bool := db.plan.head?.getD true

/-- The database after a statement without effect. -/
def spent (db : Database) : Database := {db with plan := db.plan.tail}

/-- Whether one of the next `n` statements succeeds. -/
def succeedsWithin (db : Database) : ℕ → Bool
  | 0 => false
  | n+1 => db.succeeds || succeedsWithin db.spent n

theorem exec_eq {db : Database} {act : Database → Option Database} :
    db.exec act = if db.succeeds then
      match act db.spent with
      | none => (false,db.spent)
      | some db' => (true,db')
    else (false,db.spent) := by
  obtain ⟨e,q,b,plan⟩ := db
  cases plan with
  | nil => rfl
  | cons ok rest => cases ok <;> rfl

/-- What spending a statement keeps and the statement keeps, its execution keeps. -/
theorem exec_keeps {P : Database → Prop} {db : Database} {act : Database → Option Database}
    (h : P db.spent) (keep : ∀ d', act db.spent = some d' → P d') : P (db.exec act).2 := by
  rw [exec_eq]
  cases hs : db.succeeds with
  | false => exact h
  | true =>
    cases ha : act db.spent with
    | none => simpa [ha] using h
    | some d' => simpa [ha] using keep d' ha

@[simp] theorem spent_exchangeTable {db : Database} : db.spent.exchangeTable = db.exchangeTable :=
  rfl
@[simp] theorem spent_queueTable {db : Database} : db.spent.queueTable = db.queueTable := rfl
@[simp] theorem spent_bindingTable {db : Database} : db.spent.bindingTable = db.bindingTable := rfl

theorem succeeds_done {db : Database} (hp : db.plan = []) : db.succeeds = true := by
  simp [succeeds,hp]

theorem succeedsWithin_done {db : Database} (hp : db.plan = []) {n : ℕ} (hn : 0 < n) :
    db.succeedsWithin n = true := by
  cases n with
  | zero => exact absurd hn (lt_irrefl 0)
  | succ n => simp [succeedsWithin,succeeds_done hp]

theorem spent_eq {db : Database} (hp : db.plan = []) : db.spent = db := by
  cases db
  simp_all [spent]

theorem spent_done {db : Database} (hp : db.plan = []) : db.spent.plan = [] := by
  rw [spent_eq hp,hp]

/-- With an exhausted plan a statement succeeds whenever it is not in error. -/
theorem exec_done {db : Database} {act : Database → Option Database} (hp : db.plan = []) :
    db.exec act = match act db with
      | none => (false,db)
      | some db' => (true,db') := by
  have hdb : {db with plan := []} = db := by cases db; simp_all
  simp only [exec,hp,List.tail_nil,hdb]

end Database
end MessageQueue

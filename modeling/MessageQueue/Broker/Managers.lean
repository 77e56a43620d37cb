import MessageQueue.Base.Mirror
import MessageQueue.Base.Run
import MessageQueue.Broker.Host

/-! The managers of exchanges, queues and bindings over their tables, when any statement can fail.
A declaration looks at the result of its statement; the deletions and `bind` do not. -/
namespace MessageQueue
open Base

namespace ExchangeMapper
variable {db : Database} {rows : List ExchangeRow}

theorem insert_eq (ht : db.exchangeTable = some rows) (exp : Exchange)
    (hno : ∀ r ∈ rows, r.name ≠ exp.name) : insert db exp = (db.succeeds,
      if db.succeeds then {db.spent with exchangeTable := some (rows ++ [exp.row])}
      else db.spent) := by
  have hany : ¬ (rows.any fun r => decide (r.name = exp.name)) = true := by
    simpa [List.any_eq_true] using hno
  simp only [insert,Database.exec_eq,Database.spent_exchangeTable,ht,if_neg hany]
  cases db.succeeds <;> rfl

theorem remove_eq (ht : db.exchangeTable = some rows) (name : String) :
    remove db name = (db.succeeds,
      if db.succeeds then
        {db.spent with exchangeTable := some (rows.filter fun r => !decide (r.name = name))}
      else db.spent) := by
  simp only [remove,Database.exec_eq,Database.spent_exchangeTable,ht,Option.map_some,decide_not]
  cases db.succeeds <;> rfl

section Keeps
variable {P : Database → Prop} (h : P db) (spend : ∀ d, P d → P d.spent)
  (write : ∀ d rows, P d → P {d with exchangeTable := rows})
include h spend write

theorem insert_keeps (exp : Exchange) : P (insert db exp).2 := by
  refine Database.exec_keeps (spend db h) fun d' hd => ?_
  split at hd
  · cases hd
  · split_ifs at hd
    cases hd
    exact write _ _ (spend db h)

theorem remove_keeps (name : String) : P (remove db name).2 := by
  refine Database.exec_keeps (spend db h) fun d' hd => ?_
  obtain ⟨rows,-,rfl⟩ := Option.map_eq_some_iff.mp hd
  exact write _ _ (spend db h)

end Keeps

end ExchangeMapper

namespace QueueMapper
variable {db : Database} {rows : List QueueRow}

theorem insert_eq (ht : db.queueTable = some rows) (queue : Queue)
    (hno : ∀ r ∈ rows, r.name ≠ queue.name) : insert db queue = (db.succeeds,
      if db.succeeds then {db.spent with queueTable := some (rows ++ [queue.row])}
      else db.spent) := by
  have hany : ¬ (rows.any fun r => decide (r.name = queue.name)) = true := by
    simpa [List.any_eq_true] using hno
  simp only [insert,Database.exec_eq,Database.spent_queueTable,ht,if_neg hany]
  cases db.succeeds <;> rfl

theorem deleteQueue_eq (ht : db.queueTable = some rows) (name : String) :
    deleteQueue db name = (db.succeeds,
      if db.succeeds then
        {db.spent with queueTable := some (rows.filter fun r => !decide (r.name = name))}
      else db.spent) := by
  simp only [deleteQueue,Database.exec_eq,Database.spent_queueTable,ht,Option.map_some,decide_not]
  cases db.succeeds <;> rfl

section Keeps
variable {P : Database → Prop} (h : P db) (spend : ∀ d, P d → P d.spent)
  (write : ∀ d rows, P d → P {d with queueTable := rows})
include h spend write

theorem insert_keeps (queue : Queue) : P (insert db queue).2 := by
  refine Database.exec_keeps (spend db h) fun d' hd => ?_
  split at hd
  · cases hd
  · split_ifs at hd
    cases hd
    exact write _ _ (spend db h)

theorem deleteQueue_keeps (name : String) : P (deleteQueue db name).2 := by
  refine Database.exec_keeps (spend db h) fun d' hd => ?_
  obtain ⟨rows,-,rfl⟩ := Option.map_eq_some_iff.mp hd
  exact write _ _ (spend db h)

end Keeps

end QueueMapper

namespace BindingMapper
variable {db : Database} {rows : List BindingRow}

theorem insert_eq (ht : db.bindingTable = some rows) (b : Binding) :
    insert db b = (db.succeeds,
      if db.succeeds then
        {db.spent with bindingTable := some (rows ++ [⟨b.nameExchange,b.nameQueue,b.bindingKey⟩])}
      else db.spent) := by
  simp only [insert,Database.exec_eq,Database.spent_bindingTable,ht,Option.map_some]
  cases db.succeeds <;> rfl

theorem delete_eq (ht : db.bindingTable = some rows) (named : BindingRow → Bool) :
    delete db named = (db.succeeds,
      if db.succeeds then
        {db.spent with bindingTable := some (rows.filter fun r => !named r)}
      else db.spent) := by
  simp only [delete,Database.exec_eq,Database.spent_bindingTable,ht,Option.map_some]
  cases db.succeeds <;> rfl

/-- Of several equal deletions one that succeeds is enough. -/
theorem foldl_delete {α : Type*} (ht : db.bindingTable = some rows) (named : BindingRow → Bool)
    (ks : List α) : (ks.foldl (fun db _ => (delete db named).2) db) = {db with
      bindingTable :=
        some (if db.succeedsWithin ks.length then rows.filter fun r => !named r else rows)
      plan := db.plan.drop ks.length} := by
  induction ks generalizing db rows with
  | nil => cases db; simp_all [Database.succeedsWithin]
  | cons k ks ih =>
    rw [List.foldl_cons,delete_eq ht,List.length_cons,Database.succeedsWithin]
    cases hs : db.succeeds with
    | true =>
      have hf : ∀ c : Bool, (if c then (rows.filter fun r => !named r).filter fun r => !named r
          else rows.filter fun r => !named r) = rows.filter fun r => !named r := by
        simp [List.filter_filter]
      simp only [↓reduceIte,Bool.true_or]
      rw [ih rfl,hf]
      simp [Database.spent]
    | false =>
      simp only [Bool.false_eq_true,↓reduceIte,Bool.false_or]
      have hspent : db.spent.bindingTable = some rows := ht
      rw [ih hspent]
      simp [Database.spent]

section Keeps
variable {P : Database → Prop} (h : P db) (spend : ∀ d, P d → P d.spent)
  (write : ∀ d rows, P d → P {d with bindingTable := rows})
include h spend write

theorem insert_keeps (b : Binding) : P (insert db b).2 := by
  refine Database.exec_keeps (spend db h) fun d' hd => ?_
  obtain ⟨rows,-,rfl⟩ := Option.map_eq_some_iff.mp hd
  exact write _ _ (spend db h)

theorem delete_keeps (named : BindingRow → Bool) : P (delete db named).2 := by
  refine Database.exec_keeps (spend db h) fun d' hd => ?_
  obtain ⟨rows,-,rfl⟩ := Option.map_eq_some_iff.mp hd
  exact write _ _ (spend db h)

end Keeps

end BindingMapper

/-- The row of a binding, and the pair that it is about. -/
def Binding.row (b : Binding) : BindingRow := ⟨b.nameExchange,b.nameQueue,b.bindingKey⟩

def BindingRow.pair (r : BindingRow) : String × String := (r.nameExchange,r.nameQueue)

/-- What the registry answers for a pair. -/
def BindingManager.look (m : BindingManager) (p : String × String) : Option Binding :=
  m.getBinding p.1 p.2

/-- How the registries are filled at a start. -/
abbrev ExchangeManager.addRow (m : ExchangeManager) (r : ExchangeRow) : ExchangeManager :=
  m.emplace r.name (.ofRow r)

abbrev QueueManager.addRow (m : QueueManager) (r : QueueRow) : QueueManager :=
  m.emplace r.name (.ofRow r)

abbrev BindingManager.addRow (m : BindingManager) (r : BindingRow) : BindingManager :=
  ExchangeQueueMap.add m ⟨r.nameExchange,r.nameQueue,r.bindingKey⟩

theorem ExchangeManager.lookup_addRow (m : ExchangeManager) (r : ExchangeRow) (k : String)
    (v : Exchange) : AList.lookup k (m.addRow r) = some v ↔
      m.lookup k = some v ∨ k = r.name ∧ m.lookup k = none ∧ v = .ofRow r :=
  Table.lookup_emplace_iff

theorem QueueManager.lookup_addRow (m : QueueManager) (r : QueueRow) (k : String) (v : Queue) :
    AList.lookup k (m.addRow r) = some v ↔
      m.lookup k = some v ∨ k = r.name ∧ m.lookup k = none ∧ v = .ofRow r :=
  Table.lookup_emplace_iff

theorem BindingManager.look_addRow (m : BindingManager) (r : BindingRow) (p : String × String)
    (b : Binding) : (m.addRow r).look p = some b ↔
      m.look p = some b ∨
        p = r.pair ∧ m.look p = none ∧ b = ⟨r.nameExchange,r.nameQueue,r.bindingKey⟩ := by
  refine getBinding_add.trans (or_congr_right ?_)
  rw [Prod.ext_iff,and_assoc]
  exact Iff.rfl

/-- The tables as mirrors of the registries. `rel` says what a row has to tell about its entry. -/
abbrev ExchangeManager.Mirrored (rel : Exchange → ExchangeRow → Prop) (m : ExchangeManager)
    (rows : List ExchangeRow) : Prop :=
  Mirrors (fun _ e => e.durable = true) rel ExchangeRow.name (fun n => m.lookup n) rows

abbrev QueueManager.Mirrored (rel : Queue → QueueRow → Prop) (m : QueueManager)
    (rows : List QueueRow) : Prop :=
  Mirrors (fun _ q => q.durable = true) rel QueueRow.name (fun n => m.lookup n) rows

abbrev BindingManager.Mirrored (keep : String × String → Prop) (m : BindingManager)
    (rows : List BindingRow) : Prop :=
  Mirrors (fun p _ => keep p) (fun b r => b.row = r) BindingRow.pair m.look rows

namespace ExchangeManager
variable {m : ExchangeManager} {db : Database} (name : String) {rows : List ExchangeRow}
  {rel : Exchange → ExchangeRow → Prop}

/-- The constructor creates the table where there is none, and reads it back. -/
theorem construct_eq (d : Database) : construct d =
    let rows := d.exchangeTable.getD []
    if d.succeeds then
      some (
        if d.spent.succeeds then rows.foldl (fun m row => m.emplace row.name (.ofRow row)) ∅ else ∅,
        {d.spent.spent with exchangeTable := some rows})
    else none := by
  simp only [construct,ExchangeMapper.createTable,Database.exec_eq,Database.spent_exchangeTable]
  cases hs : d.succeeds with
  | false => rfl
  | true =>
    have hs' : Database.succeeds {d.spent with exchangeTable := some (d.exchangeTable.getD [])} =
        d.spent.succeeds := rfl
    simp only [↓reduceIte,ExchangeMapper.recovery,Database.exec_eq,hs']
    cases d.spent.succeeds <;> rfl

/-- What was no table is an empty one, and an empty registry, whether it can be read or not. -/
theorem construct_blank {m : ExchangeManager} {d d' : Database} (h : construct d = some (m,d'))
    (ht : d.exchangeTable = none) : m = ∅ ∧ d' = {d.spent.spent with exchangeTable := some []} := by
  simp only [construct_eq,ht,Option.getD_none,List.foldl_nil,ite_self] at h
  split_ifs at h
  obtain ⟨rfl,rfl⟩ := Prod.mk.inj (Option.some.inj h)
  exact ⟨rfl,rfl⟩

theorem construct_done {d : Database} (hp : d.plan = []) (ht : d.exchangeTable = some rows) :
    construct d = some (rows.foldl addRow ∅,d) := by
  have hd : {d with exchangeTable := some rows} = d := by
    cases d
    simp_all
  simp only [construct_eq,Database.spent_eq hp,Database.succeeds_done hp,↓reduceIte,ht,
    Option.getD_some,hd]

theorem declareExchange_eq (type : ExchangeType) (durable autoDelete : Bool) (args : Args) :
    m.declareExchange db name type durable autoDelete args =
      Registry.declare m name ⟨name,type,durable,autoDelete,args⟩ durable db
        (ExchangeMapper.insert db ⟨name,type,durable,autoDelete,args⟩) := by
  unfold declareExchange Registry.declare
  cases m.lookup name with
  | some e => rfl
  | none =>
    simp only
    generalize ExchangeMapper.insert db _ = r
    obtain ⟨ok,d⟩ := r
    cases ok <;> rfl

theorem deleteExchange_eq : m.deleteExchange db name =
    Registry.delete m name Exchange.durable db (ExchangeMapper.remove db name).2 := by
  unfold deleteExchange Registry.delete
  cases m.lookup name <;> rfl

theorem declareExchange_mirrored (h : m.Mirrored rel rows) (ht : db.exchangeTable = some rows)
    (hrel : ∀ e, rel e e.row) (type : ExchangeType) (durable autoDelete : Bool) (args : Args) :
    ∃ rows', (m.declareExchange db name type durable autoDelete args).2.2.exchangeTable =
        some rows' ∧
      Mirrored rel (m.declareExchange db name type durable autoDelete args).2.1 rows' := by
  rw [declareExchange_eq]
  cases hl : m.lookup name with
  | some e =>
    exact ⟨rows,by simpa [Registry.declare,hl] using ht,by simpa [Registry.declare,hl] using h⟩
  | none =>
    rw [ExchangeMapper.insert_eq ht _ fun r hr => h.key_ne hl hr]
    refine Registry.declare_mirrors (t := Database.exchangeTable) (r := Exchange.row _) h ht ?_ ?_
      rfl Iff.rfl (hrel _)
    · intro hs
      simp only at hs ⊢
      rw [hs]
      rfl
    · intro hs
      simp only at hs ⊢
      rw [hs]
      exact ht

theorem deleteExchange_table (h : m.Mirrored rel rows) (ht : db.exchangeTable = some rows) :
    (m.deleteExchange db name).2.exchangeTable = some (if db.succeeds then
      rows.filter fun r => !decide (r.name = name) else rows) := by
  rw [deleteExchange_eq,ExchangeMapper.remove_eq ht]
  refine Registry.delete_table (t := Database.exchangeTable) h ht ?_ fun _ => Iff.rfl
  cases db.succeeds with
  | true => rfl
  | false => exact ht

section Keeps
variable {P : Database → Prop} (h : P db) (spend : ∀ d, P d → P d.spent)
  (write : ∀ d rows, P d → P {d with exchangeTable := rows})
include h spend write

theorem declareExchange_keeps (type : ExchangeType) (durable autoDelete : Bool) (args : Args) :
    P (m.declareExchange db name type durable autoDelete args).2.2 := by
  have hi := ExchangeMapper.insert_keeps h spend write ⟨name,type,durable,autoDelete,args⟩
  unfold declareExchange
  cases m.lookup name with
  | some e => exact h
  | none =>
    cases durable with
    | false => exact h
    | true =>
      simp only [↓reduceIte]
      generalize ExchangeMapper.insert db _ = r at hi
      obtain ⟨ok,d⟩ := r
      cases ok <;> exact hi

theorem deleteExchange_keeps : P (m.deleteExchange db name).2 := by
  unfold deleteExchange
  cases m.lookup name with
  | none => exact h
  | some e =>
    simp only
    split_ifs
    · exact ExchangeMapper.remove_keeps h spend write name
    · exact h

end Keeps

theorem lookup_declareExchange (h : m.Mirrored rel rows)
    (ht : db.exchangeTable = some rows) (hs : db.succeeds = true) (type : ExchangeType)
    (durable autoDelete : Bool) (args : Args) (n : String) :
    (m.declareExchange db name type durable autoDelete args).2.1.lookup n =
      if (m.lookup name).isSome then m.lookup n
      else if n = name then some ⟨name,type,durable,autoDelete,args⟩ else m.lookup n := by
  cases hl : m.lookup name with
  | some e => simp [declareExchange_eq,Registry.declare,hl]
  | none =>
    rw [declareExchange_eq,ExchangeMapper.insert_eq ht _ fun r hr => h.key_ne hl hr,
      Registry.lookup_declare hs,hl]

theorem lookup_deleteExchange (n : String) : (m.deleteExchange db name).1.lookup n =
    if n = name then none else m.lookup n := by
  rw [deleteExchange_eq]
  exact Registry.lookup_delete n

end ExchangeManager

namespace QueueManager
variable {m : QueueManager} {db : Database} (name : String) {rows : List QueueRow}
  {rel : Queue → QueueRow → Prop}

/-- The constructor creates the table where there is none, and reads it back. -/
theorem construct_eq (d : Database) : construct d =
    let rows := d.queueTable.getD []
    if d.succeeds then
      some (
        if d.spent.succeeds then rows.foldl (fun m row => m.emplace row.name (.ofRow row)) ∅ else ∅,
        {d.spent.spent with queueTable := some rows})
    else none := by
  simp only [construct,QueueMapper.createTable,Database.exec_eq,Database.spent_queueTable]
  cases hs : d.succeeds with
  | false => rfl
  | true =>
    have hs' : Database.succeeds {d.spent with queueTable := some (d.queueTable.getD [])} =
        d.spent.succeeds := rfl
    simp only [↓reduceIte,QueueMapper.recovery,Database.exec_eq,hs']
    cases d.spent.succeeds <;> rfl

/-- What was no table is an empty one, and an empty registry, whether it can be read or not. -/
theorem construct_blank {m : QueueManager} {d d' : Database} (h : construct d = some (m,d'))
    (ht : d.queueTable = none) : m = ∅ ∧ d' = {d.spent.spent with queueTable := some []} := by
  simp only [construct_eq,ht,Option.getD_none,List.foldl_nil,ite_self] at h
  split_ifs at h
  obtain ⟨rfl,rfl⟩ := Prod.mk.inj (Option.some.inj h)
  exact ⟨rfl,rfl⟩

theorem construct_done {d : Database} (hp : d.plan = []) (ht : d.queueTable = some rows) :
    construct d = some (rows.foldl addRow ∅,d) := by
  have hd : {d with queueTable := some rows} = d := by
    cases d
    simp_all
  simp only [construct_eq,Database.spent_eq hp,Database.succeeds_done hp,↓reduceIte,ht,
    Option.getD_some,hd]

theorem declareQueue_eq (durable exclusive autoDelete : Bool) (args : Args) :
    m.declareQueue db name durable exclusive autoDelete args =
      Registry.declare m name ⟨name,durable,exclusive,autoDelete,args⟩ durable db
        (QueueMapper.insert db ⟨name,durable,exclusive,autoDelete,args⟩) := by
  unfold declareQueue Registry.declare
  cases m.lookup name with
  | some q => rfl
  | none =>
    simp only
    generalize QueueMapper.insert db _ = r
    obtain ⟨ok,d⟩ := r
    cases ok <;> rfl

theorem deleteQueue_eq : m.deleteQueue db name =
    Registry.delete m name Queue.durable db (QueueMapper.deleteQueue db name).2 := by
  unfold deleteQueue Registry.delete
  cases m.lookup name <;> rfl

theorem declareQueue_mirrored (h : m.Mirrored rel rows) (ht : db.queueTable = some rows)
    (hrel : ∀ q, rel q q.row) (durable exclusive autoDelete : Bool) (args : Args) :
    ∃ rows', (m.declareQueue db name durable exclusive autoDelete args).2.2.queueTable =
        some rows' ∧
      Mirrored rel (m.declareQueue db name durable exclusive autoDelete args).2.1 rows' := by
  rw [declareQueue_eq]
  cases hl : m.lookup name with
  | some q =>
    exact ⟨rows,by simpa [Registry.declare,hl] using ht,by simpa [Registry.declare,hl] using h⟩
  | none =>
    rw [QueueMapper.insert_eq ht _ fun r hr => h.key_ne hl hr]
    refine Registry.declare_mirrors (t := Database.queueTable) (r := Queue.row _) h ht ?_ ?_
      rfl Iff.rfl (hrel _)
    · intro hs
      simp only at hs ⊢
      rw [hs]
      rfl
    · intro hs
      simp only at hs ⊢
      rw [hs]
      exact ht

theorem lookup_declareQueue (h : m.Mirrored rel rows) (ht : db.queueTable = some rows)
    (hs : db.succeeds = true) (durable exclusive autoDelete : Bool) (args : Args) (n : String) :
    (m.declareQueue db name durable exclusive autoDelete args).2.1.lookup n =
      if (m.lookup name).isSome then m.lookup n
      else if n = name then some ⟨name,durable,exclusive,autoDelete,args⟩ else m.lookup n := by
  cases hl : m.lookup name with
  | some e => simp [declareQueue_eq,Registry.declare,hl]
  | none =>
    rw [declareQueue_eq,QueueMapper.insert_eq ht _ fun r hr => h.key_ne hl hr,
      Registry.lookup_declare hs,hl]

theorem deleteQueue_table (h : m.Mirrored rel rows) (ht : db.queueTable = some rows) :
    (m.deleteQueue db name).2.queueTable = some (if db.succeeds then
      rows.filter fun r => !decide (r.name = name) else rows) := by
  rw [deleteQueue_eq,QueueMapper.deleteQueue_eq ht]
  refine Registry.delete_table (t := Database.queueTable) h ht ?_ fun _ => Iff.rfl
  cases db.succeeds with
  | true => rfl
  | false => exact ht

section Keeps
variable {P : Database → Prop} (h : P db) (spend : ∀ d, P d → P d.spent)
  (write : ∀ d rows, P d → P {d with queueTable := rows})
include h spend write

theorem declareQueue_keeps (durable exclusive autoDelete : Bool) (args : Args) :
    P (m.declareQueue db name durable exclusive autoDelete args).2.2 := by
  have hi := QueueMapper.insert_keeps h spend write ⟨name,durable,exclusive,autoDelete,args⟩
  unfold declareQueue
  cases m.lookup name with
  | some q => exact h
  | none =>
    cases durable with
    | false => exact h
    | true =>
      simp only [↓reduceIte]
      generalize QueueMapper.insert db _ = r at hi
      obtain ⟨ok,d⟩ := r
      cases ok <;> exact hi

theorem deleteQueue_keeps : P (m.deleteQueue db name).2 := by
  unfold deleteQueue
  cases m.lookup name with
  | none => exact h
  | some q =>
    simp only
    split_ifs
    · exact QueueMapper.deleteQueue_keeps h spend write name
    · exact h

end Keeps

end QueueManager

namespace BindingManager
variable {m : BindingManager} {db : Database} {e q : String} {rows : List BindingRow}
  {keep : String × String → Prop}

/-- The constructor creates the table where there is none, and reads it back. -/
theorem construct_eq (d : Database) : construct d =
    let rows := d.bindingTable.getD []
    if d.succeeds then
      some (if d.spent.succeeds then rows.foldl
          (fun m row => m.add ⟨row.nameExchange,row.nameQueue,row.bindingKey⟩) ∅ else ∅,
        {d.spent.spent with bindingTable := some rows})
    else none := by
  simp only [construct,BindingMapper.creatTable,Database.exec_eq,Database.spent_bindingTable]
  cases hs : d.succeeds with
  | false => rfl
  | true =>
    have hs' : Database.succeeds {d.spent with bindingTable := some (d.bindingTable.getD [])} =
        d.spent.succeeds := rfl
    simp only [↓reduceIte,BindingMapper.recover,Database.exec_eq,hs']
    cases d.spent.succeeds <;> rfl

/-- What was no table is an empty one, and an empty registry, whether it can be read or not. -/
theorem construct_blank {m : BindingManager} {d d' : Database} (h : construct d = some (m,d'))
    (ht : d.bindingTable = none) : m = ∅ ∧ d' = {d.spent.spent with bindingTable := some []} := by
  simp only [construct_eq,ht,Option.getD_none,List.foldl_nil,ite_self] at h
  split_ifs at h
  obtain ⟨rfl,rfl⟩ := Prod.mk.inj (Option.some.inj h)
  exact ⟨rfl,rfl⟩

theorem construct_done {d : Database} (hp : d.plan = []) (ht : d.bindingTable = some rows) :
    construct d = some (rows.foldl addRow ∅,d) := by
  have hd : {d with bindingTable := some rows} = d := by
    cases d
    simp_all
  simp only [construct_eq,Database.spent_eq hp,Database.succeeds_done hp,↓reduceIte,ht,
    Option.getD_some,hd]

theorem look_unbind (db : Database) (p : String × String) : look (m.unbind db e q).1 p =
    if p = (e,q) then none else m.look p := by
  obtain ⟨e',q'⟩ := p
  unfold unbind
  cases hl : m.lookup e with
  | none =>
    by_cases hp : (e',q') = (e,q)
    · cases hp
      simp [look,getBinding,hl]
    · simp [hp]
  | some qs =>
    simp only
    cases hq : qs.lookup q with
    | none =>
      by_cases hp : (e',q') = (e,q)
      · cases hp
        simp [look,getBinding,hl,hq]
      · simp [hp]
    | some b =>
      by_cases he : e' = e
      · subst he
        by_cases hq' : q' = q
        · subst hq'
          simp [look,getBinding]
        · simp [look,getBinding,hl,hq',AList.lookup_erase_ne hq']
      · simp [look,getBinding,he,AList.lookup_insert_ne he]

theorem look_unbindByExchange (db : Database) (p : String × String) :
    look (m.unbindByExchange db e).1 p = if p.1 = e then none else m.look p := by
  obtain ⟨e',q'⟩ := p
  unfold unbindByExchange
  by_cases he : e' = e
  · subst he
    cases hl : m.lookup e' with
    | none => simp [look,getBinding,hl]
    | some qs => simp [look,getBinding]
  · cases m.lookup e with
    | none => simp [he]
    | some qs => simp [look,getBinding,he,AList.lookup_erase_ne he]

theorem look_unbindByQueue (db : Database) (p : String × String) : look (m.unbindByQueue db q).1 p =
    if p.2 = q then none else m.look p := getBinding_eraseQueue

section Tables
variable (ht : db.bindingTable = some rows) (h : m.Mirrored keep rows)
include ht h

theorem unbind_table : (m.unbind db e q).2.bindingTable = some (if db.succeeds then
    rows.filter fun r => !decide (r.pair = (e,q)) else rows) := by
  have hsame : m.getBinding e q = none → rows = if db.succeeds then
      rows.filter fun r => !decide (r.pair = (e,q)) else rows := by
    intro hno
    have hf := h.filter_eq (p := (· = (e,q))) fun p b hp hb => by
      subst hp
      cases hno.symm.trans hb
    cases db.succeeds with
    | true => exact hf.symm
    | false => rfl
  unfold unbind
  cases hl : m.lookup e with
  | none => exact ht.trans (congrArg some (hsame (by simp [getBinding,hl])))
  | some qs =>
    simp only
    cases hq : qs.lookup q with
    | none => exact ht.trans (congrArg some (hsame (by simp [getBinding,hl,hq])))
    | some b =>
      rw [BindingMapper.remove,BindingMapper.delete_eq ht]
      cases db.succeeds with
      | true => simp [BindingRow.pair]
      | false => simpa using ht

theorem unbindByExchange_table : (m.unbindByExchange db e).2.bindingTable =
    some (if db.succeeds then rows.filter fun r => !decide (r.pair.1 = e) else rows) := by
  unfold unbindByExchange
  cases hl : m.lookup e with
  | none =>
    have hf := h.filter_eq (p := fun p => p.1 = e) fun p b hp hb => by
      subst hp
      simp [look,getBinding,hl] at hb
    cases db.succeeds with
    | true => exact ht.trans (congrArg some hf.symm)
    | false => exact ht
  | some qs =>
    simp only
    rw [BindingMapper.removeByExchange,BindingMapper.delete_eq ht]
    cases db.succeeds with
    | true => rfl
    | false => simpa using ht

omit h in
theorem unbindByQueue_table : (m.unbindByQueue db q).2.bindingTable =
    some (if db.succeedsWithin m.keys.length then rows.filter fun r => !decide (r.pair.2 = q)
      else rows) := by
  unfold unbindByQueue BindingMapper.removeByQueue
  rw [BindingMapper.foldl_delete ht]
  rfl

end Tables

/-- A pair is bound under a key of the outer map. -/
theorem keys_pos {p : String × String} {b : Binding} (hb : m.look p = some b) :
    0 < m.keys.length := by
  have hl : (m.lookup p.1).isSome := by
    cases hl : m.lookup p.1 with
    | none => simp [look,getBinding,hl] at hb
    | some qs => rfl
  exact List.length_pos_of_mem (Table.isSome_lookup.mp hl)

/-- A pair that is bound already stays as it is. -/
theorem bind_bound {key : String} {durable : Bool} {b : Binding} (hb : m.getBinding e q = some b) :
    m.bind db e q key durable = (true,m,db) := by
  simp only [bind,hb]

theorem look_bind (db : Database) (key : String) (durable : Bool) (hb : m.getBinding e q = none)
    (p : String × String) : look (m.bind db e q key durable).2.1 p =
      if p = (e,q) then some ⟨e,q,key⟩ else m.look p := by
  have hadd : ∀ x, look (m.bind db e q key durable).2.1 p = some x ↔
      m.look p = some x ∨ p.1 = e ∧ p.2 = q ∧ m.look p = none ∧ x = ⟨e,q,key⟩ := by
    intro x
    simp only [bind,hb]
    exact getBinding_add
  have hp : p = (e,q) ↔ p.1 = e ∧ p.2 = q := Prod.ext_iff
  refine Option.ext fun x => ?_
  rw [hadd]
  by_cases h : p = (e,q)
  · subst h
    have hb : m.look (e,q) = none := hb
    simp [hb,eq_comm]
  · rw [if_neg h]
    constructor
    · rintro (hx | ⟨he,hq,-⟩)
      · exact hx
      · exact absurd (hp.mpr ⟨he,hq⟩) h
    · exact .inl

theorem bind_table (key : String) (durable : Bool) (ht : db.bindingTable = some rows)
    (hb : m.getBinding e q = none) : (m.bind db e q key durable).2.2.bindingTable =
      some (if durable && db.succeeds then rows ++ [(⟨e,q,key⟩ : Binding).row] else rows) := by
  simp only [bind,hb]
  rw [BindingMapper.insert_eq ht]
  cases durable with
  | false => exact ht
  | true =>
    cases db.succeeds with
    | true => rfl
    | false => exact ht

section Keeps
variable {P : Database → Prop} (h : P db) (spend : ∀ d, P d → P d.spent)
  (write : ∀ d rows, P d → P {d with bindingTable := rows})
include h spend write

theorem bind_keeps (key : String) (durable : Bool) : P (m.bind db e q key durable).2.2 := by
  unfold bind
  cases m.getBinding e q with
  | some b => exact h
  | none =>
    simp only
    split_ifs
    · exact BindingMapper.insert_keeps h spend write _
    · exact h

theorem unbind_keeps : P (m.unbind db e q).2 := by
  unfold unbind
  cases m.lookup e with
  | none => exact h
  | some qs =>
    cases hq : qs.lookup q with
    | none => simpa [hq] using h
    | some b =>
      simp only [hq]
      exact BindingMapper.delete_keeps h spend write _

theorem unbindByExchange_keeps : P (m.unbindByExchange db e).2 := by
  unfold unbindByExchange
  cases m.lookup e with
  | none => exact h
  | some qs => exact BindingMapper.delete_keeps h spend write _

theorem unbindByQueue_keeps : P (m.unbindByQueue db q).2 := by
  exact List.foldlRecOn _ _ h fun db hdb _ _ => BindingMapper.delete_keeps hdb spend write _

end Keeps

end BindingManager

end MessageQueue

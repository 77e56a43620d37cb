import MessageQueue.Broker.Clean
import MessageQueue.Broker.Managers

/-! Memory against database. The calls on the three managers, in any order and with any statement
failing, and when exactly the durable entries in memory are the rows of the tables. -/
namespace MessageQueue
open Base

/-- A call on one of the managers. -/
inductive ManagerCall
  | declareExchange (name : String) (type : ExchangeType) (durable autoDelete : Bool) (args : Args)
  | deleteExchange (name : String)
  | declareQueue (name : String) (durable exclusive autoDelete : Bool) (args : Args)
  | deleteQueue (name : String)
  | bind (nameExchange nameQueue bindingKey : String) (durable : Bool)
  | unbind (nameExchange nameQueue : String)
  | unbindByExchange (nameExchange : String)
  | unbindByQueue (nameQueue : String)

namespace ManagerCall

/-- The statements that a call may execute. -/
def statements : ManagerCall → List MapperStatement
  | .declareExchange name type durable autoDelete args =>
    [.insertExchange ⟨name,type,durable,autoDelete,args⟩]
  | .deleteExchange name => [.removeExchange name]
  | .declareQueue name durable exclusive autoDelete args =>
    [.insertQueue ⟨name,durable,exclusive,autoDelete,args⟩]
  | .deleteQueue name => [.deleteQueue name]
  | .bind e q key _ => [.insertBinding ⟨e,q,key⟩]
  | .unbind e q => [.removeBinding e q]
  | .unbindByExchange e => [.removeByExchange e]
  | .unbindByQueue q => [.removeByQueue q]

def Clean (c : ManagerCall) : Prop := ∀ s ∈ c.statements, s.Clean

instance (c : ManagerCall) : Decidable c.Clean := inferInstanceAs (Decidable (∀ s ∈ _, _))

end ManagerCall

/-- The managers over their database. A binding does not say whether it was bound as a durable
one, so that is noted beside it. -/
structure Managers where
  exchanges : ExchangeManager
  queues : QueueManager
  bindings : BindingManager
  db : Database
  durable : String × String → Bool

namespace Managers

/-- The three constructors. `none` is the abort of a table that cannot be created. -/
def construct (db : Database) : Option Managers :=
  match ExchangeManager.construct db with
  | none => none
  | some (exchanges,db) =>
    match QueueManager.construct db with
    | none => none
    | some (queues,db) =>
      (BindingManager.construct db).map fun r => ⟨exchanges,queues,r.1,r.2,fun _ => false⟩

/-- A call, and what it returns; one that returns nothing counts as true. -/
def call (s : Managers) : ManagerCall → Bool × Managers
  | .declareExchange name type durable autoDelete args =>
    let r := s.exchanges.declareExchange s.db name type durable autoDelete args
    (r.1,{s with exchanges := r.2.1, db := r.2.2})
  | .deleteExchange name =>
    let r := s.exchanges.deleteExchange s.db name
    (true,{s with exchanges := r.1, db := r.2})
  | .declareQueue name durable exclusive autoDelete args =>
    let r := s.queues.declareQueue s.db name durable exclusive autoDelete args
    (r.1,{s with queues := r.2.1, db := r.2.2})
  | .deleteQueue name =>
    let r := s.queues.deleteQueue s.db name
    (true,{s with queues := r.1, db := r.2})
  | .bind e q key durable =>
    let r := s.bindings.bind s.db e q key durable
    (r.1,{s with
      bindings := r.2.1
      db := r.2.2
      durable := if (s.bindings.getBinding e q).isSome then s.durable
        else Function.update s.durable (e,q) durable})
  | .unbind e q =>
    let r := s.bindings.unbind s.db e q
    (true,{s with bindings := r.1, db := r.2})
  | .unbindByExchange e =>
    let r := s.bindings.unbindByExchange s.db e
    (true,{s with bindings := r.1, db := r.2})
  | .unbindByQueue q =>
    let r := s.bindings.unbindByQueue s.db q
    (true,{s with bindings := r.1, db := r.2})

def next (s : Managers) (c : ManagerCall) : Managers := (s.call c).2

/-- Each table has exactly the rows of the durable entries in memory. -/
structure Agree (s : Managers) : Prop where
  exchanges : ∃ rows, s.db.exchangeTable = some rows ∧
    SameEntries (fun _ e => e.durable = true) Exchange.row (fun n => s.exchanges.lookup n) rows
  queues : ∃ rows, s.db.queueTable = some rows ∧
    SameEntries (fun _ q => q.durable = true) Queue.row (fun n => s.queues.lookup n) rows
  bindings : ∃ rows, s.db.bindingTable = some rows ∧
    SameEntries (fun p _ => s.durable p = true) Binding.row s.bindings.look rows

/-- A call that returns true for what is a durable entry afterwards has stored it. -/
def Honest (s : Managers) (c : ManagerCall) : Prop :=
  (s.call c).1 = true →
    match c with
    | .declareExchange name .. => ∀ e, (s.next c).exchanges.lookup name = some e →
        e.durable = true → ∃ rows, (s.next c).db.exchangeTable = some rows ∧ e.row ∈ rows
    | .declareQueue name .. => ∀ q, (s.next c).queues.lookup name = some q →
        q.durable = true → ∃ rows, (s.next c).db.queueTable = some rows ∧ q.row ∈ rows
    | .bind e q .. => ∀ b, (s.next c).bindings.getBinding e q = some b →
        (s.next c).durable (e,q) = true →
          ∃ rows, (s.next c).db.bindingTable = some rows ∧ b.row ∈ rows
    | _ => True

/-- The statement that stores a durable binding, or deletes the row of a durable entry, succeeds;
of the equal statements of `unbindByQueue` one is enough. -/
def Answered (s : Managers) : ManagerCall → Prop
  | .declareExchange .. => True
  | .declareQueue .. => True
  | .deleteExchange name => ∀ e, s.exchanges.lookup name = some e → e.durable = true →
      s.db.succeeds = true
  | .deleteQueue name => ∀ q, s.queues.lookup name = some q → q.durable = true →
      s.db.succeeds = true
  | .bind e q _ durable => s.bindings.getBinding e q = none → durable = true →
      s.db.succeeds = true
  | .unbind e q => (s.bindings.getBinding e q).isSome → s.durable (e,q) = true →
      s.db.succeeds = true
  | .unbindByExchange e => ∀ q, (s.bindings.getBinding e q).isSome → s.durable (e,q) = true →
      s.db.succeeds = true
  | .unbindByQueue q => ∀ e, (s.bindings.getBinding e q).isSome → s.durable (e,q) = true →
      s.db.succeedsWithin s.bindings.keys.length = true

/-- What is behind the agreement: each table mirrors its registry. -/
structure InStep (s : Managers) : Prop where
  exchanges : ∃ rows, s.db.exchangeTable = some rows ∧
    s.exchanges.Mirrored (fun e r => e.row = r) rows
  queues : ∃ rows, s.db.queueTable = some rows ∧ s.queues.Mirrored (fun q r => q.row = r) rows
  bindings : ∃ rows, s.db.bindingTable = some rows ∧
    s.bindings.Mirrored (fun p => s.durable p = true) rows

variable {s : Managers}

theorem InStep.agree (h : s.InStep) : s.Agree := by
  obtain ⟨⟨es,he,hem⟩,⟨qs,hq,hqm⟩,bs,hb,hbm⟩ := h
  exact ⟨⟨es,he,hem.same⟩,⟨qs,hq,hqm.same⟩,bs,hb,hbm.same⟩

section Parts
variable (h : s.InStep) {d : Database}
include h

/-- A call on the exchanges is decided by the table of the exchanges. -/
theorem InStep.exchangePart (m : ExchangeManager) (hq : d.queueTable = s.db.queueTable)
    (hb : d.bindingTable = s.db.bindingTable) {rows : List ExchangeRow}
    (ht : d.exchangeTable = some rows) :
    ({s with exchanges := m, db := d}.Agree ↔
        SameEntries (fun _ e => e.durable = true) Exchange.row (fun n => m.lookup n) rows) ∧
      (m.Mirrored (fun e r => e.row = r) rows → {s with exchanges := m, db := d}.InStep) := by
  refine ⟨⟨?_,fun hs => ?_⟩,fun hm => ?_⟩
  · rintro ⟨⟨rows',ht',hs⟩,-,-⟩
    cases ht.symm.trans ht'
    exact hs
  · exact ⟨⟨rows,ht,hs⟩,hq ▸ h.agree.queues,hb ▸ h.agree.bindings⟩
  · exact ⟨⟨rows,ht,hm⟩,hq ▸ h.queues,hb ▸ h.bindings⟩

theorem InStep.queuePart (m : QueueManager) (he : d.exchangeTable = s.db.exchangeTable)
    (hb : d.bindingTable = s.db.bindingTable) {rows : List QueueRow}
    (ht : d.queueTable = some rows) :
    ({s with queues := m, db := d}.Agree ↔
        SameEntries (fun _ q => q.durable = true) Queue.row (fun n => m.lookup n) rows) ∧
      (m.Mirrored (fun q r => q.row = r) rows → {s with queues := m, db := d}.InStep) := by
  refine ⟨⟨?_,fun hs => ?_⟩,fun hm => ?_⟩
  · rintro ⟨-,⟨rows',ht',hs⟩,-⟩
    cases ht.symm.trans ht'
    exact hs
  · exact ⟨he ▸ h.agree.exchanges,⟨rows,ht,hs⟩,hb ▸ h.agree.bindings⟩
  · exact ⟨he ▸ h.exchanges,⟨rows,ht,hm⟩,hb ▸ h.bindings⟩

theorem InStep.bindingPart (m : BindingManager) (durable : String × String → Bool)
    (he : d.exchangeTable = s.db.exchangeTable) (hq : d.queueTable = s.db.queueTable)
    {rows : List BindingRow} (ht : d.bindingTable = some rows) :
    ({s with bindings := m, db := d, durable := durable}.Agree ↔
        SameEntries (fun p _ => durable p = true) Binding.row m.look rows) ∧
      (m.Mirrored (fun p => durable p = true) rows →
        {s with bindings := m, db := d, durable := durable}.InStep) := by
  refine ⟨⟨?_,fun hs => ?_⟩,fun hm => ?_⟩
  · rintro ⟨-,-,rows',ht',hs⟩
    cases ht.symm.trans ht'
    exact hs
  · exact ⟨he ▸ h.agree.exchanges,hq ▸ h.agree.queues,rows,ht,hs⟩
  · exact ⟨he ▸ h.exchanges,hq ▸ h.queues,rows,ht,hm⟩

/-- Unbinding is decided by its statement as soon as it is about an entry that is to be kept. -/
theorem InStep.unbindPart {rows : List BindingRow}
    (hm : s.bindings.Mirrored (fun p => s.durable p = true) rows) {m : BindingManager}
    {p : String × String → Prop} [DecidablePred p] {ok : Bool}
    (hlook : ∀ x, m.look x = if p x then none else s.bindings.look x)
    (he : d.exchangeTable = s.db.exchangeTable) (hq : d.queueTable = s.db.queueTable)
    (htab : d.bindingTable =
      some (if ok then rows.filter fun r => !decide (p r.pair) else rows)) :
    ({s with bindings := m, db := d}.Agree ↔
        ∀ x b, p x → s.bindings.look x = some b → s.durable x = true → ok = true) ∧
      ((∀ x b, p x → s.bindings.look x = some b → s.durable x = true → ok = true) →
        {s with bindings := m, db := d}.InStep) := by
  obtain ⟨hagree,hstep⟩ := h.bindingPart m s.durable he hq htab
  exact ⟨hagree.trans (hm.erase_if_iff hlook),fun hok => hstep (hm.erase_if hlook hok)⟩

end Parts

/-- From a state in step, the answer to a call decides whether the state after it agrees, and
then that state is in step again. -/
def Decided (s : Managers) (c : ManagerCall) : Prop :=
  ((s.next c).Agree ↔ s.Answered c) ∧ (s.Answered c → (s.next c).InStep)

section Calls
variable (h : s.InStep)
include h

theorem InStep.declareExchange (name : String) (type : ExchangeType) (durable autoDelete : Bool)
    (args : Args) :
    s.Decided (.declareExchange name type durable autoDelete args) := by
  obtain ⟨es,het,hem⟩ := h.exchanges
  obtain ⟨rows,ht,hm⟩ := s.exchanges.declareExchange_mirrored name hem het
    (fun _ => rfl) type durable autoDelete args
  have hframe := ExchangeManager.declareExchange_keeps (m := s.exchanges) name
    (P := fun d => d.queueTable = s.db.queueTable ∧ d.bindingTable = s.db.bindingTable)
    ⟨rfl,rfl⟩ (fun _ hd => hd) (fun _ _ hd => hd) type durable autoDelete args
  obtain ⟨-,hstep⟩ := h.exchangePart _ hframe.1 hframe.2 ht
  exact ⟨⟨fun _ => trivial,fun _ => (hstep hm).agree⟩,fun _ => hstep hm⟩

theorem InStep.deleteExchange (name : String) :
    s.Decided (.deleteExchange name) := by
  obtain ⟨es,het,hem⟩ := h.exchanges
  have ht := ExchangeManager.deleteExchange_table name hem het
  have hlook : ∀ n, AList.lookup n (s.exchanges.deleteExchange s.db name).1 =
      if n = name then none else s.exchanges.lookup n := fun n =>
    ExchangeManager.lookup_deleteExchange name n
  have hframe := ExchangeManager.deleteExchange_keeps (m := s.exchanges) name
    (P := fun d => d.queueTable = s.db.queueTable ∧ d.bindingTable = s.db.bindingTable)
    ⟨rfl,rfl⟩ (fun _ hd => hd) fun _ _ hd => hd
  obtain ⟨hagree,hstep⟩ := h.exchangePart _ hframe.1 hframe.2 ht
  have hiff : (∀ n e, n = name → s.exchanges.lookup n = some e → e.durable = true →
      s.db.succeeds = true) ↔ s.Answered (.deleteExchange name) :=
    ⟨fun hok e => hok name e rfl,fun hok n e hn => hn ▸ hok e⟩
  exact ⟨(hagree.trans (hem.erase_if_iff hlook)).trans hiff,
    fun hok => hstep (hem.erase_if hlook (hiff.mpr hok))⟩

theorem InStep.declareQueue (name : String) (durable exclusive autoDelete : Bool)
    (args : Args) :
    s.Decided (.declareQueue name durable exclusive autoDelete args) := by
  obtain ⟨qs,hqt,hqm⟩ := h.queues
  obtain ⟨rows,ht,hm⟩ := s.queues.declareQueue_mirrored name hqm hqt
    (fun _ => rfl) durable exclusive autoDelete args
  have hframe := QueueManager.declareQueue_keeps (m := s.queues) name
    (P := fun d => d.exchangeTable = s.db.exchangeTable ∧ d.bindingTable = s.db.bindingTable)
    ⟨rfl,rfl⟩ (fun _ hd => hd) (fun _ _ hd => hd) durable exclusive autoDelete args
  obtain ⟨-,hstep⟩ := h.queuePart _ hframe.1 hframe.2 ht
  exact ⟨⟨fun _ => trivial,fun _ => (hstep hm).agree⟩,fun _ => hstep hm⟩

theorem InStep.deleteQueue (name : String) :
    s.Decided (.deleteQueue name) := by
  obtain ⟨qs,hqt,hqm⟩ := h.queues
  have ht := QueueManager.deleteQueue_table name hqm hqt
  have hlook : ∀ n, AList.lookup n (s.queues.deleteQueue s.db name).1 =
      if n = name then none else s.queues.lookup n := fun n =>
    QueueManager.lookup_deleteQueue
  have hframe := QueueManager.deleteQueue_keeps (m := s.queues) name
    (P := fun d => d.exchangeTable = s.db.exchangeTable ∧ d.bindingTable = s.db.bindingTable)
    ⟨rfl,rfl⟩ (fun _ hd => hd) fun _ _ hd => hd
  obtain ⟨hagree,hstep⟩ := h.queuePart _ hframe.1 hframe.2 ht
  have hiff : (∀ n q, n = name → s.queues.lookup n = some q → q.durable = true →
      s.db.succeeds = true) ↔ s.Answered (.deleteQueue name) :=
    ⟨fun hok q => hok name q rfl,fun hok n q hn => hn ▸ hok q⟩
  exact ⟨(hagree.trans (hqm.erase_if_iff hlook)).trans hiff,
    fun hok => hstep (hqm.erase_if hlook (hiff.mpr hok))⟩

theorem InStep.bind (e q key : String) (durable : Bool) :
    s.Decided (.bind e q key durable) := by
  obtain ⟨bs,hbt,hbm⟩ := h.bindings
  cases hb : s.bindings.getBinding e q with
  | some b =>
    have hsame : s.next (.bind e q key durable) = s := by
      simp only [next,Managers.call,BindingManager.bind_bound hb,hb]
      rfl
    unfold Decided
    rw [hsame]
    have hok : s.Answered (.bind e q key durable) := by
      intro hno
      cases hb.symm.trans hno
    exact ⟨⟨fun _ => hok,fun _ => h.agree⟩,fun _ => h⟩
  | none =>
    let durable' := Function.update s.durable (e,q) durable
    let r := s.bindings.bind s.db e q key durable
    have hstate : s.next (.bind e q key durable) =
        {s with bindings := r.2.1, db := r.2.2, durable := durable'} := by
      simp [next,call,hb,r,durable']
    have hself : durable' (e,q) = durable := Function.update_self _ _ _
    have ht := BindingManager.bind_table key durable hbt hb
    have hlook := BindingManager.look_bind s.db key durable hb
    have hframe := BindingManager.bind_keeps (m := s.bindings) (e := e) (q := q)
      (P := fun d => d.exchangeTable = s.db.exchangeTable ∧ d.queueTable = s.db.queueTable)
      ⟨rfl,rfl⟩ (fun _ hd => hd) (fun _ _ hd => hd) key durable
    -- the entries that are there already are as durable as before
    have hbm' : s.bindings.Mirrored (fun x => durable' x = true) bs := by
      refine hbm.congr fun x b hx => ?_
      have hne : x ≠ (e,q) := by
        rintro rfl
        cases hb.symm.trans hx
      have hx' : durable' x = s.durable x := Function.update_of_ne hne _ _
      simp only [hx']
    obtain ⟨hagree,hstep⟩ := h.bindingPart r.2.1 durable' hframe.1 hframe.2 ht
    have hst : (durable && s.db.succeeds) = true → durable' (e,q) = true := fun hs =>
      hself.trans (Bool.and_eq_true_iff.mp hs).1
    have hiff : (durable' (e,q) = true → (durable && s.db.succeeds) = true) ↔
        s.Answered (.bind e q key durable) := by
      rw [hself,Bool.and_eq_true]
      exact ⟨fun hok _ hd => (hok hd).2,fun hok hd => ⟨hd,hok hb hd⟩⟩
    unfold Decided
    rw [hstate]
    have hnew : s.bindings.look (e,q) = none := hb
    refine ⟨hagree.trans ((hbm'.insert_if_iff hnew hlook rfl hst).trans hiff),fun hok => hstep ?_⟩
    exact hbm'.insert_if hnew hlook rfl rfl ⟨hst,hiff.mpr hok⟩

theorem InStep.unbind (e q : String) :
    s.Decided (.unbind e q) := by
  obtain ⟨bs,hbt,hbm⟩ := h.bindings
  have hlook := BindingManager.look_unbind (m := s.bindings) (e := e) (q := q) s.db
  have hframe := BindingManager.unbind_keeps (m := s.bindings) (e := e) (q := q)
    (P := fun d => d.exchangeTable = s.db.exchangeTable ∧ d.queueTable = s.db.queueTable)
    ⟨rfl,rfl⟩ (fun _ hd => hd) fun _ _ hd => hd
  obtain ⟨hagree,hstep⟩ := h.unbindPart hbm hlook hframe.1 hframe.2
    (BindingManager.unbind_table hbt hbm)
  have hiff : (∀ x b, x = (e,q) → s.bindings.look x = some b → s.durable x = true →
      s.db.succeeds = true) ↔ s.Answered (.unbind e q) := by
    constructor
    · intro hok hb hd
      obtain ⟨b,hb⟩ := Option.isSome_iff_exists.mp hb
      exact hok (e,q) b rfl hb hd
    · rintro hok x b rfl hb hd
      exact hok (Option.isSome_of_eq_some hb) hd
  exact ⟨hagree.trans hiff,fun hok => hstep (hiff.mpr hok)⟩

theorem InStep.unbindByExchange (e : String) :
    s.Decided (.unbindByExchange e) := by
  obtain ⟨bs,hbt,hbm⟩ := h.bindings
  have hlook := BindingManager.look_unbindByExchange (m := s.bindings) (e := e) s.db
  have hframe := BindingManager.unbindByExchange_keeps (m := s.bindings) (e := e)
    (P := fun d => d.exchangeTable = s.db.exchangeTable ∧ d.queueTable = s.db.queueTable)
    ⟨rfl,rfl⟩ (fun _ hd => hd) fun _ _ hd => hd
  obtain ⟨hagree,hstep⟩ := h.unbindPart hbm hlook hframe.1 hframe.2
    (BindingManager.unbindByExchange_table hbt hbm)
  have hiff : (∀ x : String × String, ∀ b, x.1 = e → s.bindings.look x = some b →
      s.durable x = true → s.db.succeeds = true) ↔ s.Answered (.unbindByExchange e) := by
    constructor
    · intro hok q hb hd
      obtain ⟨b,hb⟩ := Option.isSome_iff_exists.mp hb
      exact hok (e,q) b rfl hb hd
    · rintro hok ⟨e',q⟩ b rfl hb hd
      exact hok q (Option.isSome_of_eq_some hb) hd
  exact ⟨hagree.trans hiff,fun hok => hstep (hiff.mpr hok)⟩

theorem InStep.unbindByQueue (q : String) :
    s.Decided (.unbindByQueue q) := by
  obtain ⟨bs,hbt,hbm⟩ := h.bindings
  have hlook := BindingManager.look_unbindByQueue (m := s.bindings) (q := q) s.db
  have hframe := BindingManager.unbindByQueue_keeps (m := s.bindings) (q := q)
    (P := fun d => d.exchangeTable = s.db.exchangeTable ∧ d.queueTable = s.db.queueTable)
    ⟨rfl,rfl⟩ (fun _ hd => hd) fun _ _ hd => hd
  obtain ⟨hagree,hstep⟩ := h.unbindPart hbm hlook hframe.1 hframe.2
    (BindingManager.unbindByQueue_table hbt)
  have hiff : (∀ x : String × String, ∀ b, x.2 = q → s.bindings.look x = some b →
      s.durable x = true → s.db.succeedsWithin s.bindings.keys.length = true) ↔
      s.Answered (.unbindByQueue q) := by
    constructor
    · intro hok e hb hd
      obtain ⟨b,hb⟩ := Option.isSome_iff_exists.mp hb
      exact hok (e,q) b rfl hb hd
    · rintro hok ⟨e,q'⟩ b rfl hb hd
      exact hok e (Option.isSome_of_eq_some hb) hd
  exact ⟨hagree.trans hiff,fun hok => hstep (hiff.mpr hok)⟩

theorem InStep.decided (c : ManagerCall) : s.Decided c := by
  cases c with
  | declareExchange name type durable autoDelete args =>
    exact h.declareExchange name type durable autoDelete args
  | deleteExchange name => exact h.deleteExchange name
  | declareQueue name durable exclusive autoDelete args =>
    exact h.declareQueue name durable exclusive autoDelete args
  | deleteQueue name => exact h.deleteQueue name
  | bind e q key durable => exact h.bind e q key durable
  | unbind e q => exact h.unbind e q
  | unbindByExchange e => exact h.unbindByExchange e
  | unbindByQueue q => exact h.unbindByQueue q

end Calls

/-- Three managers on a blank database start in step, whichever statements fail. -/
theorem construct_inStep {plan : List Bool} {s₀ : Managers}
    (start : construct {plan := plan} = some s₀) : s₀.InStep := by
  unfold construct at start
  cases he : ExchangeManager.construct {plan := plan} with
  | none => simp [he] at start
  | some r =>
    obtain ⟨exchanges,db₁⟩ := r
    obtain ⟨rfl,hdb₁⟩ := ExchangeManager.construct_blank he rfl
    simp only [he] at start
    cases hq : QueueManager.construct db₁ with
    | none => simp [hq] at start
    | some r =>
      obtain ⟨queues,db₂⟩ := r
      obtain ⟨rfl,hdb₂⟩ := QueueManager.construct_blank hq (by rw [hdb₁]; rfl)
      simp only [hq] at start
      obtain ⟨⟨bindings,db₃⟩,hb,rfl⟩ := Option.map_eq_some_iff.mp start
      obtain ⟨rfl,hdb₃⟩ := BindingManager.construct_blank hb (by rw [hdb₂,hdb₁]; rfl)
      subst hdb₃ hdb₂ hdb₁
      exact ⟨⟨[],rfl,.empty⟩,⟨[],rfl,.empty⟩,[],rfl,.empty⟩

/-- Agreement makes every answer honest. -/
theorem Agree.honest {c : ManagerCall} (h : (s.next c).Agree) : s.Honest c := by
  intro _
  cases c with
  | declareExchange name type durable autoDelete args =>
    intro e hl hd
    obtain ⟨rows,ht,hsame⟩ := h.exchanges
    exact ⟨rows,ht,(hsame _).mpr ⟨name,e,hl,hd,rfl⟩⟩
  | declareQueue name durable exclusive autoDelete args =>
    intro q hl hd
    obtain ⟨rows,ht,hsame⟩ := h.queues
    exact ⟨rows,ht,(hsame _).mpr ⟨name,q,hl,hd,rfl⟩⟩
  | bind e q key durable =>
    intro b hl hd
    obtain ⟨rows,ht,hsame⟩ := h.bindings
    exact ⟨rows,ht,(hsame _).mpr ⟨(e,q),b,hl,hd,rfl⟩⟩
  | _ => trivial

end Managers

/-- When the strings in the statements are clean, memory and database agree after every call, and
every call is honest, exactly if every call that has to change a table is answered. -/
theorem managers_agree_iff {plan : List Bool} {s₀ : Managers}
    (start : Managers.construct {plan := plan} = some s₀) (calls : List ManagerCall)
    (_ : ∀ c ∈ calls, c.Clean) :
    ((∀ pre, pre <+: calls → (pre.foldl Managers.next s₀).Agree) ∧
        ∀ pre c, pre ++ [c] <+: calls → (pre.foldl Managers.next s₀).Honest c) ↔
      Lts.Admitted Managers.next Managers.Answered s₀ calls := by
  have hprefix : (∀ pre, pre <+: calls → (pre.foldl Managers.next s₀).Agree) ↔
      Lts.Admitted Managers.next Managers.Answered s₀ calls :=
    Lts.Admitted.iff_prefix (fun {s c} (h : s.InStep) => (h.decided c).1)
      (fun {s c} h hok => (h.decided c).2 hok) (fun {s} h => h.agree)
      (Managers.construct_inStep start)
  rw [← hprefix]
  refine ⟨And.left,fun h => ⟨h,fun pre c hp => ?_⟩⟩
  have hnext := h _ hp
  rw [List.foldl_append] at hnext
  exact Managers.Agree.honest hnext

/-- The statement of a durable binding fails: the call returns true, and nothing is stored. -/
theorem bind_unstored :
    ∃ s₀, Managers.construct {plan := [true,true,true,true,true,true,false]} = some s₀ ∧
      (s₀.call (.bind "e" "q" "k" true)).1 = true ∧
      ¬ (s₀.next (.bind "e" "q" "k" true)).Agree ∧ ¬ s₀.Honest (.bind "e" "q" "k" true) := by
  refine ⟨_,rfl,rfl,fun h => ?_,fun h => ?_⟩
  · obtain ⟨rows,ht,hsame⟩ := h.bindings
    cases ht
    have hmem : (⟨"e","q","k"⟩ : BindingRow) ∈ ([] : List BindingRow) :=
      (hsame _).mpr ⟨("e","q"),⟨"e","q","k"⟩,rfl,rfl,rfl⟩
    cases hmem
  · obtain ⟨rows,ht,hrow⟩ := h rfl _ rfl rfl
    cases ht
    cases hrow

/-- A declaration that is refused does no harm, nor does a binding that is stored. -/
theorem managers_agree_refused :
    ∃ s₀, Managers.construct {plan := [true,true,true,true,true,true,false]} = some s₀ ∧
      ∀ pre, pre <+: [.declareQueue "q" true false false ∅,.bind "e" "q" "k" true] →
        (pre.foldl Managers.next s₀).Agree := by
  obtain ⟨s₀,start⟩ : ∃ s₀,
    Managers.construct {plan := [true,true,true,true,true,true,false]} = some s₀ := ⟨_,rfl⟩
  refine ⟨s₀,start,And.left
    ((managers_agree_iff start _ (by decide)).mpr ⟨trivial,fun _ _ => ?_,trivial⟩)⟩
  cases start
  rfl

end MessageQueue

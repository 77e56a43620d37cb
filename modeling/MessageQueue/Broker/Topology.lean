import MessageQueue.Broker.Managers

/-! What has been declared, and what is left of it after a restart. The abstract topology is a
function of the operations alone; the registries of the virtual host refine it, and the tables
hold its durable part. -/
namespace MessageQueue
open Base

/-- What a declaration fixed. -/
structure DeclaredExchange where
  type : ExchangeType
  durable : Bool
  autoDelete : Bool

structure DeclaredQueue where
  durable : Bool
  exclusive : Bool
  autoDelete : Bool

/-- The operations of a virtual host, and its replacement by a new one on the same database. -/
inductive HostOp
  | declareExchange (name : String) (type : ExchangeType) (durable autoDelete : Bool) (args : Args)
  | deleteExchange (name : String)
  | declareQueue (qname : String) (durable exclusive autoDelete : Bool) (args : Args)
  | deleteQueue (name : String)
  | bind (ename qname key : String)
  | unBind (ename qname : String)
  | basicPublish (qname : String) (bp : Option BasicProperties) (body uuid : String)
  | basicConsume (qname : String)
  | basicAck (qname msgId : String)
  | restart (it : Iteration)

/-- The exchanges, the queues, and the keys of the bound pairs. -/
@[ext] structure Topology where
  exchanges : String → Option DeclaredExchange
  queues : String → Option DeclaredQueue
  bindings : String × String → Option String

namespace Topology

def empty : Topology := ⟨fun _ => none,fun _ => none,fun _ => none⟩

/-- Both ends of a pair are there and durable. -/
def durableEnds (t : Topology) (p : String × String) : Bool :=
  (t.exchanges p.1).any (·.durable) && (t.queues p.2).any (·.durable)

def durablePart (t : Topology) : Topology where
  exchanges n := (t.exchanges n).filter (·.durable)
  queues n := (t.queues n).filter (·.durable)
  bindings p := if t.durableEnds p then t.bindings p else none

/-- Only the first declaration of a name counts, and only the first binding of a pair; a deletion
takes the bindings along. -/
def apply (t : Topology) : HostOp → Topology
  | .declareExchange name type durable autoDelete _ =>
    if (t.exchanges name).isSome then t
    else {t with exchanges := fun n => if n = name then some ⟨type,durable,autoDelete⟩ else t.exchanges n}
  | .deleteExchange name => {t with
      exchanges := fun n => if n = name then none else t.exchanges n
      bindings := fun p => if p.1 = name then none else t.bindings p}
  | .declareQueue qname durable exclusive autoDelete _ =>
    if (t.queues qname).isSome then t
    else {t with queues := fun n => if n = qname then some ⟨durable,exclusive,autoDelete⟩ else t.queues n}
  | .deleteQueue name => {t with
      queues := fun n => if n = name then none else t.queues n
      bindings := fun p => if p.2 = name then none else t.bindings p}
  | .bind ename qname key =>
    if (t.exchanges ename).isSome ∧ (t.queues qname).isSome ∧ t.bindings (ename,qname) = none then
      {t with bindings := fun p => if p = (ename,qname) then some key else t.bindings p}
    else t
  | .unBind ename qname =>
    {t with bindings := fun p => if p = (ename,qname) then none else t.bindings p}
  | .basicPublish .. => t
  | .basicConsume .. => t
  | .basicAck .. => t
  | .restart _ => t.durablePart

/-- Every bound pair has both its ends. -/
def Closed (t : Topology) : Prop :=
  ∀ p, (t.bindings p).isSome → (t.exchanges p.1).isSome ∧ (t.queues p.2).isSome

variable {t : Topology}

lemma any_filter {α : Type*} (p : α → Bool) (o : Option α) : (o.filter p).any p = o.any p := by
  cases o with
  | none => rfl
  | some a => cases hp : p a <;> simp [Option.filter,hp]

theorem durableEnds_durablePart (p : String × String) :
    t.durablePart.durableEnds p = t.durableEnds p := by
  simp only [durableEnds,durablePart,any_filter]

/-- The durable part is durable. -/
theorem durablePart_durablePart : t.durablePart.durablePart = t.durablePart := by
  ext1
  · funext n
    simp [durablePart,Option.filter_filter]
  · funext n
    simp [durablePart,Option.filter_filter]
  · funext p
    change (if t.durablePart.durableEnds p then t.durablePart.bindings p else none) = _
    rw [durableEnds_durablePart]
    cases hp : t.durableEnds p <;> simp [durablePart,hp]

theorem durablePart_closed : t.durablePart.Closed := by
  intro p hp
  have hends : t.durableEnds p = true := by
    by_contra hno
    simp [Topology.durablePart,hno] at hp
  obtain ⟨he,hq⟩ := Bool.and_eq_true_iff.mp hends
  have hsome : ∀ {α : Type} (p : α → Bool) (o : Option α), o.any p = true →
      (o.filter p).isSome := by
    intro α p o ho
    cases o with
    | none => cases ho
    | some a => simpa [Option.filter] using ho
  exact ⟨hsome _ _ he,hsome _ _ hq⟩

theorem Closed.apply (h : t.Closed) (op : HostOp) : (t.apply op).Closed := by
  cases op with
  | declareExchange name type durable autoDelete args =>
    simp only [Topology.apply]
    split_ifs
    · exact h
    · intro p hp
      obtain ⟨he,hq⟩ := h p hp
      refine ⟨?_,hq⟩
      simp only
      split_ifs
      · rfl
      · exact he
  | deleteExchange name =>
    intro p hp
    simp only [Topology.apply] at hp ⊢
    split_ifs at hp with hn
    · cases hp
    · rw [if_neg hn]
      exact h p hp
  | declareQueue qname durable exclusive autoDelete args =>
    simp only [Topology.apply]
    split_ifs
    · exact h
    · intro p hp
      obtain ⟨he,hq⟩ := h p hp
      refine ⟨he,?_⟩
      simp only
      split_ifs
      · rfl
      · exact hq
  | deleteQueue name =>
    intro p hp
    simp only [Topology.apply] at hp ⊢
    split_ifs at hp with hn
    · cases hp
    · rw [if_neg hn]
      exact h p hp
  | bind ename qname key =>
    simp only [Topology.apply]
    split_ifs with hb
    · intro p hp
      simp only at hp
      split_ifs at hp with hpair
      · subst hpair
        exact ⟨hb.1,hb.2.1⟩
      · exact h p hp
    · exact h
  | unBind ename qname =>
    intro p hp
    simp only [Topology.apply] at hp
    split_ifs at hp
    · cases hp
    · exact h p hp
  | restart it => exact durablePart_closed
  | _ => exact h

/-- The ends of a bound pair stay what they were. -/
theorem Closed.durableEnds_apply (h : t.Closed) {op : HostOp} {p : String × String}
    (hp : ((t.apply op).bindings p).isSome) : (t.apply op).durableEnds p = t.durableEnds p := by
  cases op with
  | declareExchange name type durable autoDelete args =>
    simp only [Topology.apply] at hp ⊢
    split_ifs at hp ⊢ with hn
    · rfl
    · have hne : p.1 ≠ name := fun he => hn (he ▸ (h p hp).1)
      simp [durableEnds,hne]
  | deleteExchange name =>
    have hne : p.1 ≠ name := fun he => by simp [Topology.apply,he] at hp
    simp [Topology.apply,durableEnds,hne]
  | declareQueue qname durable exclusive autoDelete args =>
    simp only [Topology.apply] at hp ⊢
    split_ifs at hp ⊢ with hn
    · rfl
    · have hne : p.2 ≠ qname := fun he => hn (he ▸ (h p hp).2)
      simp [durableEnds,hne]
  | deleteQueue name =>
    have hne : p.2 ≠ name := fun he => by simp [Topology.apply,he] at hp
    simp [Topology.apply,durableEnds,hne]
  | bind ename qname key =>
    simp only [Topology.apply]
    split_ifs <;> rfl
  | restart it => exact durableEnds_durablePart p
  | _ => rfl

end Topology

def Exchange.declared (e : Exchange) : DeclaredExchange := ⟨e.type,e.durable,e.autoDelete⟩

def ExchangeRow.declared (r : ExchangeRow) : DeclaredExchange := ⟨r.type,r.durable,r.autoDelete⟩

def Queue.declared (q : Queue) : DeclaredQueue := ⟨q.durable,q.exclusive,q.autoDelete⟩

def QueueRow.declared (r : QueueRow) : DeclaredQueue := ⟨r.durable,r.exclusive,r.autoDelete⟩

namespace VirtualHost

/-- A restart is in the same directory, on what the disk and the database hold. -/
def step (h : VirtualHost) : HostOp → Option VirtualHost
  | .declareExchange name type durable autoDelete args =>
    some (h.declareExchange name type durable autoDelete args).2
  | .deleteExchange name => some (h.deleteExchange name)
  | .declareQueue qname durable exclusive autoDelete args =>
    some (h.declareQueue qname durable exclusive autoDelete args).2
  | .deleteQueue name => some (h.deleteQueue name)
  | .bind ename qname key => some (h.bind ename qname key).2
  | .unBind ename qname => some (h.unBind ename qname)
  | .basicPublish qname bp body uuid => some (h.basicPublish qname bp body uuid).2
  | .basicConsume qname => some (h.basicConsume qname).2
  | .basicAck qname msgId => some (h.basicAck qname msgId)
  | .restart it => construct h.messages.basedir it h.disk h.db

def system : Lts VirtualHost HostOp := .ofPartial step

/-- The topology that the registries hold. -/
def topology (h : VirtualHost) : Topology where
  exchanges n := (h.exchanges.lookup n).map Exchange.declared
  queues n := (h.queues.lookup n).map Queue.declared
  bindings p := (h.bindings.look p).map Binding.bindingKey

theorem durableEnds_iff {h : VirtualHost} {e q : String} :
    h.topology.durableEnds (e,q) = true ↔
      (∃ x, h.exchanges.lookup e = some x ∧ x.durable = true) ∧
        ∃ y, h.queues.lookup q = some y ∧ y.durable = true := by
  simp [Topology.durableEnds,topology,Option.any_eq_true,Exchange.declared,Queue.declared]

/-- The tables mirror the registries, and the bound pairs have their ends. The arguments of a
declaration need not survive the way through their text, so the rows tell all but these. -/
structure Kept (h : VirtualHost) : Prop where
  plan : h.db.plan = []
  exchangeRows : ∃ rows, h.db.exchangeTable = some rows ∧
    h.exchanges.Mirrored (fun e r => r.declared = e.declared) rows
  queueRows : ∃ rows, h.db.queueTable = some rows ∧
    h.queues.Mirrored (fun q r => r.declared = q.declared) rows
  bindingRows : ∃ rows, h.db.bindingTable = some rows ∧
    h.bindings.Mirrored (fun p => h.topology.durableEnds p = true) rows
  closed : h.topology.Closed

namespace Kept
variable {h h' : VirtualHost}

theorem bound (hk : Kept h) {e q : String} {b : Binding} (hb : h.bindings.getBinding e q = some b) :
    (h.exchanges.lookup e).isSome ∧ (h.queues.lookup q).isSome := by
  have hp : (h.topology.bindings (e,q)).isSome := by simp [topology,BindingManager.look,hb]
  simpa [topology] using hk.closed (e,q) hp

/-- What an operation has to show when the topology follows it. -/
theorem of_apply (hk : Kept h) {op : HostOp} (ht : h'.topology = h.topology.apply op)
    (plan : h'.db.plan = [])
    (exchangeRows : ∃ rows, h'.db.exchangeTable = some rows ∧
      h'.exchanges.Mirrored (fun e r => r.declared = e.declared) rows)
    (queueRows : ∃ rows, h'.db.queueTable = some rows ∧
      h'.queues.Mirrored (fun q r => r.declared = q.declared) rows)
    (bindingRows : ∃ rows, h'.db.bindingTable = some rows ∧
      h'.bindings.Mirrored (fun p => h.topology.durableEnds p = true) rows) : Kept h' := by
  refine ⟨plan,exchangeRows,queueRows,?_,?_⟩
  · obtain ⟨rows,hrows,hm⟩ := bindingRows
    refine ⟨rows,hrows,hm.congr fun p b hp => ?_⟩
    have hbound : ((h.topology.apply op).bindings p).isSome := by
      rw [← ht]
      simp [topology,hp]
    simp only [ht,hk.closed.durableEnds_apply hbound]
  · rw [ht]
    exact hk.closed.apply op

theorem declareExchange (hk : Kept h) (name : String) (type : ExchangeType)
    (durable autoDelete : Bool) (args : Args) :
    (h.declareExchange name type durable autoDelete args).2.topology =
        h.topology.apply (.declareExchange name type durable autoDelete args) ∧
      Kept (h.declareExchange name type durable autoDelete args).2 := by
  obtain ⟨rows,hrows,hm⟩ := hk.exchangeRows
  have hlook := ExchangeManager.lookup_declareExchange name hm hrows
    (Database.succeeds_done hk.plan) type durable autoDelete args
  have ht : (h.declareExchange name type durable autoDelete args).2.topology =
      h.topology.apply (.declareExchange name type durable autoDelete args) := by
    cases hl : h.exchanges.lookup name with
    | some e =>
      ext1
      · funext n
        simp [topology,VirtualHost.declareExchange,hlook,Topology.apply,hl]
      · simp [topology,VirtualHost.declareExchange,Topology.apply,hl]
      · simp [topology,VirtualHost.declareExchange,Topology.apply,hl]
    | none =>
      ext1
      · funext n
        simp only [topology,VirtualHost.declareExchange,hlook,Topology.apply,hl]
        by_cases hn : n = name <;> simp [hn,Exchange.declared]
      · simp [topology,VirtualHost.declareExchange,Topology.apply,hl]
      · simp [topology,VirtualHost.declareExchange,Topology.apply,hl]
  have hframe := ExchangeManager.declareExchange_keeps (m := h.exchanges) name
    (P := fun d => d.plan = [] ∧ d.queueTable = h.db.queueTable ∧
      d.bindingTable = h.db.bindingTable) ⟨hk.plan,rfl,rfl⟩
    (fun _ hd => ⟨Database.spent_done hd.1,hd.2⟩) (fun _ _ hd => hd) type durable autoDelete args
  refine ⟨ht,hk.of_apply ht hframe.1 ?_ ?_ ?_⟩
  · exact ExchangeManager.declareExchange_mirrored name hm hrows (fun _ => rfl) type durable
      autoDelete args
  · exact hframe.2.1 ▸ hk.queueRows
  · exact hframe.2.2 ▸ hk.bindingRows

theorem deleteExchange (hk : Kept h) (name : String) :
    (h.deleteExchange name).topology = h.topology.apply (.deleteExchange name) ∧
      Kept (h.deleteExchange name) := by
  obtain ⟨es,hes,hem⟩ := hk.exchangeRows
  obtain ⟨bs,hbs,hbm⟩ := hk.bindingRows
  let d := (h.bindings.unbindByExchange h.db name).2
  have hd : d.plan = [] ∧ d.exchangeTable = some es ∧ d.queueTable = h.db.queueTable :=
    BindingManager.unbindByExchange_keeps
      (P := fun d => d.plan = [] ∧ d.exchangeTable = some es ∧ d.queueTable = h.db.queueTable)
      ⟨hk.plan,hes,rfl⟩ (fun _ hd => ⟨Database.spent_done hd.1,hd.2⟩) fun _ _ hd => hd
  have hdb : d.bindingTable = some (bs.filter fun r => !decide (r.pair.1 = name)) := by
    simpa [Database.succeeds_done hk.plan] using
      BindingManager.unbindByExchange_table (e := name) hbs hbm
  have hframe := ExchangeManager.deleteExchange_keeps (m := h.exchanges) name
    (P := fun x => x.plan = [] ∧ x.queueTable = h.db.queueTable ∧
      x.bindingTable = d.bindingTable) ⟨hd.1,hd.2.2,rfl⟩
    (fun _ hx => ⟨Database.spent_done hx.1,hx.2⟩) fun _ _ hx => hx
  have hlook : ∀ n, AList.lookup n (h.deleteExchange name).exchanges =
      if n = name then none else h.exchanges.lookup n :=
    fun n => ExchangeManager.lookup_deleteExchange name n
  have hbl : ∀ p, (h.deleteExchange name).bindings.look p =
      if p.1 = name then none else h.bindings.look p := BindingManager.look_unbindByExchange _
  have ht : (h.deleteExchange name).topology = h.topology.apply (.deleteExchange name) := by
    ext1
    · funext n
      simp only [topology,hlook,Topology.apply]
      split_ifs <;> rfl
    · rfl
    · funext p
      simp only [topology,hbl,Topology.apply]
      split_ifs <;> rfl
  refine ⟨ht,hk.of_apply ht hframe.1 ?_ (hframe.2.1 ▸ hk.queueRows) ?_⟩
  · refine ⟨_,?_,hem.erase hlook⟩
    have hrows := ExchangeManager.deleteExchange_table name hem hd.2.1
    rwa [Database.succeeds_done hd.1,if_pos rfl] at hrows
  · exact ⟨_,hframe.2.2.trans hdb,hbm.erase hbl⟩

theorem declareQueue (hk : Kept h) (qname : String) (durable exclusive autoDelete : Bool)
    (args : Args) :
    (h.declareQueue qname durable exclusive autoDelete args).2.topology =
        h.topology.apply (.declareQueue qname durable exclusive autoDelete args) ∧
      Kept (h.declareQueue qname durable exclusive autoDelete args).2 := by
  obtain ⟨rows,hrows,hm⟩ := hk.queueRows
  have hlook := QueueManager.lookup_declareQueue qname hm hrows
    (Database.succeeds_done hk.plan) durable exclusive autoDelete args
  have ht : (h.declareQueue qname durable exclusive autoDelete args).2.topology =
      h.topology.apply (.declareQueue qname durable exclusive autoDelete args) := by
    cases hl : h.queues.lookup qname with
    | some q =>
      ext1
      · simp [topology,VirtualHost.declareQueue,Topology.apply,hl]
      · funext n
        simp [topology,VirtualHost.declareQueue,hlook,Topology.apply,hl]
      · simp [topology,VirtualHost.declareQueue,Topology.apply,hl]
    | none =>
      ext1
      · simp [topology,VirtualHost.declareQueue,Topology.apply,hl]
      · funext n
        simp only [topology,VirtualHost.declareQueue,hlook,Topology.apply,hl]
        by_cases hn : n = qname <;> simp [hn,Queue.declared]
      · simp [topology,VirtualHost.declareQueue,Topology.apply,hl]
  have hframe := QueueManager.declareQueue_keeps (m := h.queues) qname
    (P := fun d => d.plan = [] ∧ d.exchangeTable = h.db.exchangeTable ∧
      d.bindingTable = h.db.bindingTable) ⟨hk.plan,rfl,rfl⟩
    (fun _ hd => ⟨Database.spent_done hd.1,hd.2⟩) (fun _ _ hd => hd) durable exclusive autoDelete
    args
  refine ⟨ht,hk.of_apply ht hframe.1 ?_ ?_ ?_⟩
  · exact hframe.2.1 ▸ hk.exchangeRows
  · exact QueueManager.declareQueue_mirrored qname hm hrows (fun _ => rfl) durable exclusive
      autoDelete args
  · exact hframe.2.2 ▸ hk.bindingRows

theorem deleteQueue (hk : Kept h) (name : String) :
    (h.deleteQueue name).topology = h.topology.apply (.deleteQueue name) ∧
      Kept (h.deleteQueue name) := by
  obtain ⟨qs,hqs,hqm⟩ := hk.queueRows
  obtain ⟨bs,hbs,hbm⟩ := hk.bindingRows
  let d := (h.bindings.unbindByQueue h.db name).2
  have hd : d.plan = [] ∧ d.queueTable = some qs ∧ d.exchangeTable = h.db.exchangeTable :=
    BindingManager.unbindByQueue_keeps
      (P := fun d => d.plan = [] ∧ d.queueTable = some qs ∧ d.exchangeTable = h.db.exchangeTable)
      ⟨hk.plan,hqs,rfl⟩ (fun _ hd => ⟨Database.spent_done hd.1,hd.2⟩) fun _ _ hd => hd
  have hbl : ∀ p, (h.deleteQueue name).bindings.look p =
      if p.2 = name then none else h.bindings.look p := fun _ =>
    BindingManager.getBinding_eraseQueue
  have hframe := QueueManager.deleteQueue_keeps (m := h.queues) name
    (P := fun x => x.plan = [] ∧ x.exchangeTable = h.db.exchangeTable ∧
      x.bindingTable = d.bindingTable) ⟨hd.1,hd.2.2,rfl⟩
    (fun _ hx => ⟨Database.spent_done hx.1,hx.2⟩) fun _ _ hx => hx
  have hlook : ∀ n, AList.lookup n (h.deleteQueue name).queues =
      if n = name then none else h.queues.lookup n := fun n => QueueManager.lookup_deleteQueue
  have ht : (h.deleteQueue name).topology = h.topology.apply (.deleteQueue name) := by
    ext1
    · rfl
    · funext n
      simp only [topology,hlook,Topology.apply]
      split_ifs <;> rfl
    · funext p
      simp only [topology,hbl,Topology.apply]
      split_ifs <;> rfl
  refine ⟨ht,hk.of_apply ht hframe.1 (hframe.2.1 ▸ hk.exchangeRows) ?_ ?_⟩
  · refine ⟨_,?_,hqm.erase hlook⟩
    have hrows := QueueManager.deleteQueue_table name hqm hd.2.1
    rwa [Database.succeeds_done hd.1,if_pos rfl] at hrows
  · have hdb := BindingManager.unbindByQueue_table (m := h.bindings) (q := name) hbs
    refine ⟨_,hframe.2.2.trans hdb,hbm.erase_if hbl fun p b _ hp _ => ?_⟩
    exact Database.succeedsWithin_done hk.plan (BindingManager.keys_pos hp)

theorem unBind (hk : Kept h) (ename qname : String) :
    (h.unBind ename qname).topology = h.topology.apply (.unBind ename qname) ∧
      Kept (h.unBind ename qname) := by
  obtain ⟨bs,hbs,hbm⟩ := hk.bindingRows
  have hbl : ∀ p, (h.unBind ename qname).bindings.look p =
      if p = (ename,qname) then none else h.bindings.look p := BindingManager.look_unbind _
  have hframe := BindingManager.unbind_keeps (m := h.bindings) (e := ename) (q := qname)
    (P := fun x => x.plan = [] ∧ x.exchangeTable = h.db.exchangeTable ∧
      x.queueTable = h.db.queueTable) ⟨hk.plan,rfl,rfl⟩
    (fun _ hx => ⟨Database.spent_done hx.1,hx.2⟩) fun _ _ hx => hx
  have ht : (h.unBind ename qname).topology = h.topology.apply (.unBind ename qname) := by
    ext1
    · rfl
    · rfl
    · funext p
      simp only [topology,hbl,Topology.apply]
      split_ifs <;> rfl
  refine ⟨ht,hk.of_apply ht hframe.1 (hframe.2.1 ▸ hk.exchangeRows) (hframe.2.2 ▸ hk.queueRows) ?_⟩
  refine ⟨_,?_,hbm.erase hbl⟩
  have hrows := BindingManager.unbind_table (e := ename) (q := qname) hbs hbm
  rwa [Database.succeeds_done hk.plan,if_pos rfl] at hrows

/-- A pair whose ends are there and that is not bound. -/
theorem bindNew (hk : Kept h) {ename qname : String} (key : String) {ep : Exchange} {mqp : Queue}
    (he : h.exchanges.lookup ename = some ep) (hq : h.queues.lookup qname = some mqp)
    (hb : h.bindings.getBinding ename qname = none) :
    let r := h.bindings.bind h.db ename qname key (ep.durable && mqp.durable)
    {h with bindings := r.2.1, db := r.2.2}.topology =
        h.topology.apply (.bind ename qname key) ∧
      Kept {h with bindings := r.2.1, db := r.2.2} := by
  intro r
  obtain ⟨bs,hbs,hbm⟩ := hk.bindingRows
  have hnew : h.bindings.look (ename,qname) = none := hb
  have hends : h.topology.durableEnds (ename,qname) = (ep.durable && mqp.durable) := by
    simp [Topology.durableEnds,topology,he,hq,Exchange.declared,Queue.declared]
  have hlook : ∀ p, r.2.1.look p =
      if p = (ename,qname) then some ⟨ename,qname,key⟩ else h.bindings.look p :=
    BindingManager.look_bind _ _ _ hb
  have hframe := BindingManager.bind_keeps (m := h.bindings) (e := ename) (q := qname)
    (P := fun x => x.plan = [] ∧ x.exchangeTable = h.db.exchangeTable ∧
      x.queueTable = h.db.queueTable) ⟨hk.plan,rfl,rfl⟩
    (fun _ hx => ⟨Database.spent_done hx.1,hx.2⟩) (fun _ _ hx => hx) key
    (ep.durable && mqp.durable)
  have ht : {h with bindings := r.2.1, db := r.2.2}.topology =
      h.topology.apply (.bind ename qname key) := by
    have hopen : (h.topology.exchanges ename).isSome ∧ (h.topology.queues qname).isSome ∧
        h.topology.bindings (ename,qname) = none := by
      simp [topology,he,hq,hnew]
    simp only [Topology.apply,if_pos hopen]
    ext1
    · rfl
    · rfl
    · funext p
      simp only [topology,hlook]
      split_ifs <;> rfl
  refine ⟨ht,hk.of_apply ht hframe.1 (hframe.2.1 ▸ hk.exchangeRows) (hframe.2.2 ▸ hk.queueRows) ?_⟩
  refine ⟨_,BindingManager.bind_table _ _ hbs hb,hbm.insert_if hnew hlook rfl rfl ?_⟩
  simp only [hends,Database.succeeds_done hk.plan,Bool.and_true]

theorem bind (hk : Kept h) (ename qname key : String) :
    (h.bind ename qname key).2.topology = h.topology.apply (.bind ename qname key) ∧
      Kept (h.bind ename qname key).2 := by
  unfold VirtualHost.bind ExchangeManager.selectExchange QueueManager.selectQueue
  cases he : h.exchanges.lookup ename with
  | none =>
    have ht : h.topology.apply (.bind ename qname key) = h.topology := by
      simp [Topology.apply,topology,he]
    exact ⟨ht.symm,hk⟩
  | some ep =>
    cases hq : h.queues.lookup qname with
    | none =>
      have ht : h.topology.apply (.bind ename qname key) = h.topology := by
        simp [Topology.apply,topology,hq]
      exact ⟨ht.symm,hk⟩
    | some mqp =>
      cases hb : h.bindings.getBinding ename qname with
      | some b =>
        have ht : h.topology.apply (.bind ename qname key) = h.topology := by
          simp [Topology.apply,topology,BindingManager.look,hb]
        simp only [BindingManager.bind_bound hb]
        exact ⟨ht.symm,hk⟩
      | none => exact hk.bindNew key he hq hb

/-- A restart fills the registries from the tables, whatever the directory and the disk. -/
theorem construct_filled {es : List ExchangeRow} {qs : List QueueRow} {bs : List BindingRow}
    {db : Database} (hp : db.plan = []) (hes : db.exchangeTable = some es)
    (hqs : db.queueTable = some qs) (hbs : db.bindingTable = some bs) (basedir : String)
    (it : Iteration) (disk : Disk) :
    ∃ h', VirtualHost.construct basedir it disk db = some h' ∧ h'.db = db ∧
      h'.exchanges = es.foldl ExchangeManager.addRow ∅ ∧
      h'.queues = qs.foldl QueueManager.addRow ∅ ∧
      h'.bindings = bs.foldl BindingManager.addRow ∅ := by
  unfold VirtualHost.construct
  rw [ExchangeManager.construct_done hp hes]
  simp only [QueueManager.construct_done hp hqs,BindingManager.construct_done hp hbs]
  exact ⟨_,rfl,rfl,rfl,rfl,rfl⟩

/-- A restart reads the durable part back. -/
theorem construct (hk : Kept h) (basedir : String) (it : Iteration) (disk : Disk) :
    ∃ h', VirtualHost.construct basedir it disk h.db = some h' ∧
      h'.topology = h.topology.durablePart ∧ Kept h' := by
  obtain ⟨es,hes,hem⟩ := hk.exchangeRows
  obtain ⟨qs,hqs,hqm⟩ := hk.queueRows
  obtain ⟨bs,hbs,hbm⟩ := hk.bindingRows
  obtain ⟨h',hh,hdb,hme,hmq,hmb⟩ := construct_filled hk.plan hes hqs hbs basedir it disk
  have hexch : ∀ n, (h'.exchanges.lookup n).map Exchange.declared =
      ((h.exchanges.lookup n).map Exchange.declared).filter (·.durable) := by
    rw [hme]
    exact hem.map_fill (fun m k => AList.lookup k m) ExchangeManager.addRow Exchange.ofRow
      ExchangeManager.lookup_addRow Exchange.declared (fun _ x => x.durable) (fun _ => rfl)
      (fun _ _ => Iff.rfl) fun _ _ hr => hr
  have hqueue : ∀ n, (h'.queues.lookup n).map Queue.declared =
      ((h.queues.lookup n).map Queue.declared).filter (·.durable) := by
    rw [hmq]
    exact hqm.map_fill (fun m k => AList.lookup k m) QueueManager.addRow Queue.ofRow
      QueueManager.lookup_addRow Queue.declared (fun _ x => x.durable) (fun _ => rfl)
      (fun _ _ => Iff.rfl) fun _ _ hr => hr
  have hbind : ∀ p, (h'.bindings.look p).map Binding.bindingKey =
      ((h.bindings.look p).map Binding.bindingKey).filter fun _ => h.topology.durableEnds p := by
    rw [hmb]
    refine hbm.map_fill BindingManager.look BindingManager.addRow
      (fun r => ⟨r.nameExchange,r.nameQueue,r.bindingKey⟩) BindingManager.look_addRow
      Binding.bindingKey (fun p _ => h.topology.durableEnds p) (fun _ => rfl)
      (fun _ _ => Iff.rfl) ?_
    rintro b r rfl
    rfl
  have ht : h'.topology = h.topology.durablePart := by
    ext1
    · funext n
      exact hexch n
    · funext n
      exact hqueue n
    · funext p
      refine (hbind p).trans ?_
      change _ =
        if h.topology.durableEnds p then (h.bindings.look p).map Binding.bindingKey else none
      cases h.topology.durableEnds p <;> cases h.bindings.look p <;> rfl
  refine ⟨h',hh,ht,hdb ▸ hk.plan,?_,?_,?_,ht ▸ Topology.durablePart_closed⟩
  · refine ⟨es,hdb ▸ hes,hme ▸ ?_⟩
    refine Mirrors.fill (fun m k => AList.lookup k m) ExchangeManager.addRow Exchange.ofRow
      ExchangeManager.lookup_addRow hem.nodup (fun _ => rfl) fun r hr => ⟨?_,rfl⟩
    obtain ⟨e,-,hd,he⟩ := hem.backed r hr
    exact (congrArg DeclaredExchange.durable he).trans hd
  · refine ⟨qs,hdb ▸ hqs,hmq ▸ ?_⟩
    refine Mirrors.fill (fun m k => AList.lookup k m) QueueManager.addRow Queue.ofRow
      QueueManager.lookup_addRow hqm.nodup (fun _ => rfl) fun r hr => ⟨?_,rfl⟩
    obtain ⟨q,-,hd,hq⟩ := hqm.backed r hr
    exact (congrArg DeclaredQueue.durable hq).trans hd
  · refine ⟨bs,hdb ▸ hbs,hmb ▸ ?_⟩
    refine Mirrors.fill BindingManager.look BindingManager.addRow
      (fun r => ⟨r.nameExchange,r.nameQueue,r.bindingKey⟩) BindingManager.look_addRow hbm.nodup
      (fun _ => rfl) fun r hr => ⟨?_,rfl⟩
    obtain ⟨b,-,hd,-⟩ := hbm.backed r hr
    rw [ht,Topology.durableEnds_durablePart]
    exact hd

/-- The messages are not looked at. -/
theorem congr (hk : Kept h) (messages : MessageManager) (disk : Disk) :
    Kept {h with messages := messages, disk := disk} :=
  ⟨hk.plan,hk.exchangeRows,hk.queueRows,hk.bindingRows,hk.closed⟩

/-- Every operation follows the topology. -/
theorem step (hk : Kept h) {op : HostOp} (hs : h.step op = some h') :
    h'.topology = h.topology.apply op ∧ Kept h' := by
  cases op with
  | declareExchange name type durable autoDelete args =>
    cases hs
    exact hk.declareExchange name type durable autoDelete args
  | deleteExchange name =>
    cases hs
    exact hk.deleteExchange name
  | declareQueue qname durable exclusive autoDelete args =>
    cases hs
    exact hk.declareQueue qname durable exclusive autoDelete args
  | deleteQueue name =>
    cases hs
    exact hk.deleteQueue name
  | bind ename qname key =>
    cases hs
    exact hk.bind ename qname key
  | unBind ename qname =>
    cases hs
    exact hk.unBind ename qname
  | basicPublish qname bp body uuid =>
    cases hs
    unfold VirtualHost.basicPublish
    cases h.queues.selectQueue qname with
    | none => exact ⟨rfl,hk⟩
    | some mqp => exact ⟨rfl,hk.congr _ _⟩
  | basicConsume qname =>
    cases hs
    exact ⟨rfl,hk.congr _ _⟩
  | basicAck qname msgId =>
    cases hs
    exact ⟨rfl,hk.congr _ _⟩
  | restart it =>
    obtain ⟨x,hx,ht,hkx⟩ := hk.construct h.messages.basedir it h.disk
    cases hx.symm.trans hs
    exact ⟨ht,hkx⟩

/-- A host on a blank database. -/
theorem start {basedir : String} {it : Iteration} {disk : Disk}
    (hs : VirtualHost.construct basedir it disk {} = some h) :
    h.topology = .empty ∧ Kept h := by
  let db : Database :=
    {exchangeTable := some [], queueTable := some [], bindingTable := some []}
  have hes : db.exchangeTable = some [] := rfl
  have hqs : db.queueTable = some [] := rfl
  have hbs : db.bindingTable = some [] := rfl
  obtain ⟨x,hx,hd,he,hq,hb⟩ := construct_filled rfl hes hqs hbs basedir it disk
  have hsame : some h = some x := hs.symm.trans hx
  cases hsame
  have ht : h.topology = .empty := by
    ext1
    · funext n
      simp [topology,he,Topology.empty]
    · funext n
      simp [topology,hq,Topology.empty]
    · funext p
      simp [topology,hb,Topology.empty,BindingManager.look,BindingManager.getBinding]
  refine ⟨ht,by rw [hd],⟨[],by rw [hd],?_⟩,⟨[],by rw [hd],?_⟩,⟨[],by rw [hd],?_⟩,?_⟩
  · rw [he]
    exact .empty
  · rw [hq]
    exact .empty
  · rw [hb]
    exact .empty
  · rw [ht]
    intro p hp
    cases hp

/-- Every run follows the topology. -/
theorem run {basedir : String} {it : Iteration} {disk : Disk} {h₀ : VirtualHost}
    {ops : List HostOp} (hs : VirtualHost.construct basedir it disk {} = some h₀)
    (run : system.Run h₀ ops h) : h.topology = ops.foldl Topology.apply .empty ∧ Kept h := by
  induction run with
  | nil => exact start hs
  | snoc _ last ih =>
    obtain ⟨ht,hk⟩ := ih
    obtain ⟨ht',hk'⟩ := hk.step last
    rw [List.foldl_append,← ht]
    exact ⟨ht',hk'⟩

end Kept
end VirtualHost

section Reachable
variable {basedir : String} {it : Iteration} {disk : Disk} {h₀ h : VirtualHost}
  {ops : List HostOp}

/-- No binding refers to an exchange or a queue that is not there, and the table of the bindings
holds each bound pair of durable ends at most once; so it is after a restart. -/
theorem bindings_intact (start : VirtualHost.construct basedir it disk {} = some h₀)
    (run : VirtualHost.system.Run h₀ ops h) :
    (∀ e q b, h.bindings.getBinding e q = some b →
        (h.exchanges.lookup e).isSome ∧ (h.queues.lookup q).isSome) ∧
      (∃ rows, h.db.bindingTable = some rows ∧ (rows.map BindingRow.pair).Nodup ∧
        ∀ r ∈ rows, ∃ b e q, h.bindings.getBinding r.nameExchange r.nameQueue = some b ∧
          b.bindingKey = r.bindingKey ∧
          h.exchanges.lookup r.nameExchange = some e ∧ e.durable = true ∧
          h.queues.lookup r.nameQueue = some q ∧ q.durable = true) ∧
      ∀ basedir it disk h', VirtualHost.construct basedir it disk h.db = some h' →
        ∀ e q b, h'.bindings.getBinding e q = some b →
          (h'.exchanges.lookup e).isSome ∧ (h'.queues.lookup q).isSome := by
  obtain ⟨-,hk⟩ := VirtualHost.Kept.run start run
  refine ⟨fun e q b => hk.bound,?_,?_⟩
  · obtain ⟨rows,hrows,hm⟩ := hk.bindingRows
    refine ⟨rows,hrows,hm.nodup,fun r hr => ?_⟩
    obtain ⟨b,hb,hends,rfl⟩ := hm.backed r hr
    obtain ⟨⟨e,he,hed⟩,q,hq,hqd⟩ := VirtualHost.durableEnds_iff.mp hends
    exact ⟨b,e,q,hb,rfl,he,hed,hq,hqd⟩
  · intro basedir it disk h' hh e q b
    obtain ⟨x,hx,-,hkx⟩ := hk.construct basedir it disk
    cases hx.symm.trans hh
    exact hkx.bound

/-- A queue that is durable, one that is not, and both bound; then a restart. -/
def shopOps : List HostOp :=
  [.declareExchange "trade" .topic true false ∅,.declareQueue "orders" true false true ∅,
    .declareQueue "scratch" false false false ∅,.bind "trade" "orders" "order.#",
    .bind "trade" "scratch" "#",.restart .listed]

theorem bindings_intact_shop :
    ∃ h, (VirtualHost.construct "/data" .listed blankDisk {}).bind
        (shopOps.foldlM VirtualHost.step) = some h ∧
      h.bindings.getBinding "trade" "scratch" = none ∧
      ∃ b, h.bindings.getBinding "trade" "orders" = some b ∧
        (h.exchanges.lookup "trade").isSome ∧ (h.queues.lookup "orders").isSome := by
  obtain ⟨h₀,start⟩ := Option.isSome_iff_exists.mp
    (by decide +kernel : (VirtualHost.construct "/data" .listed blankDisk {}).isSome)
  have hall : ((VirtualHost.construct "/data" .listed blankDisk {}).bind
      (shopOps.foldlM VirtualHost.step)).any (fun h : VirtualHost =>
        (h.bindings.getBinding "trade" "scratch").isNone &&
          (h.bindings.getBinding "trade" "orders").isSome) = true := by
    decide +kernel
  simp only [Option.any_eq_true,Bool.and_eq_true,Option.isNone_iff_eq_none] at hall
  obtain ⟨h,hh,hnone,hsome⟩ := hall
  obtain ⟨b,hb⟩ := Option.isSome_iff_exists.mp hsome
  rw [start,Option.bind_some] at hh
  exact ⟨h,by rw [start]; exact hh,hnone,b,hb,
    (bindings_intact start (.of_foldlM hh)).1 "trade" "orders" b hb⟩

/-- The registries hold what the operations declared, a new host on the same database holds the
durable part of it, and another one after that holds the same. -/
theorem topology_survives (start : VirtualHost.construct basedir it disk {} = some h₀)
    (run : VirtualHost.system.Run h₀ ops h) :
    h.topology = ops.foldl Topology.apply .empty ∧
      ∀ basedir it disk, ∃ h', VirtualHost.construct basedir it disk h.db = some h' ∧
        h'.topology = h.topology.durablePart ∧
        ∀ basedir it disk, ∃ h'', VirtualHost.construct basedir it disk h'.db = some h'' ∧
          h''.topology = h'.topology := by
  obtain ⟨ht,hk⟩ := VirtualHost.Kept.run start run
  refine ⟨ht,fun basedir it disk => ?_⟩
  obtain ⟨h',hh,ht',hk'⟩ := hk.construct basedir it disk
  refine ⟨h',hh,ht',fun basedir it disk => ?_⟩
  obtain ⟨h'',hh',ht'',-⟩ := hk'.construct basedir it disk
  refine ⟨h'',hh',?_⟩
  rw [ht'',ht',Topology.durablePart_durablePart]

theorem topology_survives_shop :
    ∃ h h', (VirtualHost.construct "/data" .listed blankDisk {}).bind
        (shopOps.foldlM VirtualHost.step) = some h ∧
      VirtualHost.construct "/data" .listed blankDisk h.db = some h' ∧
      h'.topology = (shopOps.foldl Topology.apply .empty).durablePart := by
  obtain ⟨h₀,start⟩ := Option.isSome_iff_exists.mp
    (by decide +kernel : (VirtualHost.construct "/data" .listed blankDisk {}).isSome)
  obtain ⟨h,hh⟩ := Option.isSome_iff_exists.mp
    (by decide +kernel : ((VirtualHost.construct "/data" .listed blankDisk {}).bind
      (shopOps.foldlM VirtualHost.step)).isSome)
  rw [start,Option.bind_some] at hh
  obtain ⟨ht,hall⟩ := topology_survives start (.of_foldlM hh)
  obtain ⟨h',hh',ht',-⟩ := hall "/data" .listed blankDisk
  exact ⟨h,h',by rw [start]; exact hh,hh',ht ▸ ht'⟩

end Reachable
end MessageQueue

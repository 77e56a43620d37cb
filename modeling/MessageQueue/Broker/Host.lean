import MessageQueue.Broker.Handlers
import MessageQueue.Broker.Registry

/-! The registries of the virtual host over whole runs of the broker: every operation of the host
keeps them, and so does a restart, which reads them back from the database. -/
namespace MessageQueue
open Base

namespace MessageManager
variable {m : MessageManager} {d : Disk} {q n : String} {h : Handle}

/-- Replacing an object adds no handle and takes none away. -/
theorem update_isSome (hl : m.queueMsgs.lookup n = some h) (store : QueueMessage) :
    ((m.update n h store).queueMsgs.lookup q).isSome = (m.queueMsgs.lookup q).isSome :=
  Table.isSome_lookup_insert (Option.isSome_of_eq_some hl)

theorem initQueueMessage_self : ((m.initQueueMessage d n).1.queueMsgs.lookup n).isSome := by
  unfold initQueueMessage
  cases hl : m.queueMsgs.lookup n with
  | some h => simp [hl]
  | none => simp

theorem initQueueMessage_ne (hq : q ≠ n) :
    (m.initQueueMessage d n).1.queueMsgs.lookup q = m.queueMsgs.lookup q := by
  unfold initQueueMessage
  cases hl : m.queueMsgs.lookup n with
  | some h => rfl
  | none => simp [AList.lookup_insert_ne hq]

theorem initQueueMessage_isSome (hs : (m.queueMsgs.lookup q).isSome) :
    ((m.initQueueMessage d n).1.queueMsgs.lookup q).isSome := by
  by_cases hq : q = n
  · subst hq; exact initQueueMessage_self
  · rwa [initQueueMessage_ne hq]

theorem destroyQueueMessage_ne (hq : q ≠ n) :
    (m.destroyQueueMessage d n).1.queueMsgs.lookup q = m.queueMsgs.lookup q := by
  unfold destroyQueueMessage
  cases hl : m.queueMsgs.lookup n with
  | none => rfl
  | some h => exact AList.lookup_erase_ne hq

theorem insert_isSome (bp : Option BasicProperties) (body : String) (durable : Bool)
    (uuid : String) :
    ((m.insert d n bp body durable uuid).2.1.queueMsgs.lookup q).isSome =
      (m.queueMsgs.lookup q).isSome := by
  unfold insert
  cases hl : m.queueMsgs.lookup n with
  | none => rfl
  | some h => exact update_isSome hl _

theorem front_isSome :
    ((m.front n).2.queueMsgs.lookup q).isSome = (m.queueMsgs.lookup q).isSome := by
  cases hl : m.queueMsgs.lookup n with
  | none => simp only [front,hl]
  | some h => rw [front_some hl]; exact update_isSome hl _

theorem ack_isSome (msgId : String) :
    ((m.ack d n msgId).1.queueMsgs.lookup q).isSome = (m.queueMsgs.lookup q).isSome := by
  unfold ack
  cases hl : m.queueMsgs.lookup n with
  | none => rfl
  | some h => exact update_isSome hl _

/-- The loop of the constructor makes a handle for each queue of the list, and no other. -/
theorem foldl_initQueueMessage_iff (ks : List String) {r : MessageManager × Disk} :
    ((ks.foldl (fun r k => r.1.initQueueMessage r.2 k) r).1.queueMsgs.lookup q).isSome ↔
      (r.1.queueMsgs.lookup q).isSome ∨ q ∈ ks := by
  induction ks generalizing r with
  | nil => simp
  | cons k ks ih =>
    rw [List.foldl_cons,ih]
    by_cases hq : q = k
    · subst hq
      simp [initQueueMessage_self]
    · rw [initQueueMessage_ne hq]
      simp [hq]

/-- Every queue of the list has a handle after the loop of the constructor. -/
theorem foldl_initQueueMessage (ks : List String) {r : MessageManager × Disk}
    (hs : (r.1.queueMsgs.lookup q).isSome ∨ q ∈ ks) :
    ((ks.foldl (fun r k => r.1.initQueueMessage r.2 k) r).1.queueMsgs.lookup q).isSome :=
  (foldl_initQueueMessage_iff ks).mpr hs

end MessageManager

namespace BindingManager
variable {m : BindingManager} {db : Database} {e q q' n : String} {b : Binding}

/-- Unbinding adds no binding. -/
theorem getBinding_unbind (h : (m.unbind db n q).1.getBinding e q' = some b) :
    m.getBinding e q' = some b := by
  unfold unbind at h
  cases hl : m.lookup n with
  | none => simpa [hl] using h
  | some qs =>
    cases hq : qs.lookup q with
    | none => simpa [hl,hq] using h
    | some x =>
      simp only [hl,hq,getBinding] at h ⊢
      by_cases he : e = n
      · subst he
        rw [AList.lookup_insert] at h
        rw [hl]
        exact (Table.lookup_erase_eq_some.mp h).2
      · rwa [AList.lookup_insert_ne he] at h

theorem getBinding_unbindByExchange (h : (m.unbindByExchange db n).1.getBinding e q = some b) :
    m.getBinding e q = some b := by
  unfold unbindByExchange at h
  cases hl : m.lookup n with
  | none => simpa [hl] using h
  | some qs =>
    simp only [hl,getBinding] at h ⊢
    by_cases he : e = n
    · subst he; simp at h
    · rwa [AList.lookup_erase_ne he] at h

theorem getBinding_bind {key : String} {durable : Bool}
    (h : (m.bind db n q key durable).2.1.getBinding e q' = some b) :
    m.getBinding e q' = some b ∨ q' = q := by
  unfold bind at h
  cases hb : m.getBinding n q with
  | some x => exact .inl (by simpa [hb] using h)
  | none =>
    simp only [hb] at h
    rcases getBinding_add.mp h with h | ⟨-,hq,-,-⟩
    · exact .inl h
    · exact .inr hq

end BindingManager

namespace QueueManager
variable {m : QueueManager} {db : Database} {q n : String}

theorem declareQueue_isSome {durable exclusive autoDelete : Bool} {args : Args}
    (h : (m.lookup q).isSome) :
    ((m.declareQueue db n durable exclusive autoDelete args).2.1.lookup q).isSome := by
  unfold declareQueue
  cases hl : m.lookup n with
  | some x => exact h
  | none =>
    have hi : ∀ x : Queue, (AList.lookup q (m.insert n x)).isSome := by
      intro x
      by_cases hq : q = n
      · subst hq; simp
      · rwa [AList.lookup_insert_ne hq]
    simp only
    split_ifs
    · split
      · exact h
      · exact hi _
    · exact hi _

theorem isSome_of_declareQueue {durable exclusive autoDelete : Bool} {args : Args}
    (h : ((m.declareQueue db n durable exclusive autoDelete args).2.1.lookup q).isSome) :
    (m.lookup q).isSome ∨ q = n := by
  by_cases hq : q = n
  · exact .inr hq
  · refine .inl ?_
    unfold declareQueue at h
    cases hl : m.lookup n with
    | some x => simpa [hl] using h
    | none =>
      have hi : ∀ x : Queue, AList.lookup q (m.insert n x) = m.lookup q :=
        fun x => AList.lookup_insert_ne hq
      simp only [hl] at h
      split_ifs at h
      · split at h
        · exact h
        · rwa [hi] at h
      · rwa [hi] at h

theorem lookup_deleteQueue : (m.deleteQueue db n).1.lookup q = if q = n then none else m.lookup q := by
  unfold deleteQueue
  cases hl : m.lookup n with
  | none =>
    by_cases hq : q = n
    · subst hq; simp [hl]
    · simp [hq]
  | some x =>
    by_cases hq : q = n
    · subst hq; simp
    · simp [hq,AList.lookup_erase_ne hq]

end QueueManager

namespace Registered
variable {h : VirtualHost}

theorem declareExchange (hr : Registered h) (name : String) (type : ExchangeType)
    (durable autoDelete : Bool) (args : Args) :
    Registered (h.declareExchange name type durable autoDelete args).2 := by
  refine ⟨?_,hr.bound,hr.handled⟩
  change Recorded h.queues h.bindings
    (h.exchanges.declareExchange h.db name type durable autoDelete args).2.2
  unfold ExchangeManager.declareExchange
  cases h.exchanges.lookup name with
  | some x => exact hr.recorded
  | none =>
    have hi := hr.recorded.exchangeInsert ⟨name,type,durable,autoDelete,args⟩
    simp only
    split_ifs
    · split
      · next heq => rwa [heq] at hi
      · next heq => rwa [heq] at hi
    · exact hr.recorded

theorem deleteExchange (hr : Registered h) (name : String) :
    Registered (h.deleteExchange name) where
  recorded := (hr.recorded.unbindByExchange name).deleteExchange h.exchanges name
  bound _ _ _ hb := hr.bound _ _ _ (BindingManager.getBinding_unbindByExchange hb)
  handled := hr.handled

theorem declareQueue (hr : Registered h) (qname : String) (durable exclusive autoDelete : Bool)
    (args : Args) :
    (h.declareQueue qname durable exclusive autoDelete args).1 = true ∧
      Registered (h.declareQueue qname durable exclusive autoDelete args).2 := by
  obtain ⟨hok,hrec⟩ := hr.recorded.declareQueue qname durable exclusive autoDelete args
  refine ⟨hok,hrec,?_,?_⟩
  · intro e q b hb
    exact QueueManager.declareQueue_isSome (hr.bound e q b hb)
  · intro q hq
    rcases QueueManager.isSome_of_declareQueue hq with hq | rfl
    · exact MessageManager.initQueueMessage_isSome (hr.handled q hq)
    · exact MessageManager.initQueueMessage_self

theorem deleteQueue (hr : Registered h) (name : String) : Registered (h.deleteQueue name) := by
  obtain ⟨hrec,hrows⟩ := hr.recorded.unbindByQueue name
  refine ⟨hrec.deleteQueue name hrows,?_,?_⟩
  · intro e q b hb
    change BindingManager.getBinding (BindingManager.eraseQueue h.bindings name) e q = some b at hb
    rw [BindingManager.getBinding_eraseQueue] at hb
    split_ifs at hb with hq
    change (AList.lookup q (h.queues.deleteQueue _ name).1).isSome
    rw [QueueManager.lookup_deleteQueue,if_neg hq]
    exact hr.bound e q b hb
  · intro q hq
    change (AList.lookup q (h.queues.deleteQueue _ name).1).isSome at hq
    rw [QueueManager.lookup_deleteQueue] at hq
    split_ifs at hq with hne
    · cases hq
    · change ((h.messages.destroyQueueMessage h.disk name).1.queueMsgs.lookup q).isSome
      rw [MessageManager.destroyQueueMessage_ne hne]
      exact hr.handled q hq

theorem bind (hr : Registered h) (ename qname key : String) :
    Registered (h.bind ename qname key).2 := by
  unfold VirtualHost.bind
  cases h.exchanges.selectExchange ename with
  | none => exact hr
  | some ep =>
    cases hq : h.queues.selectQueue qname with
    | none => exact hr
    | some mqp =>
      refine ⟨hr.recorded.bind ename qname key _ fun hd => ⟨mqp,hq,?_⟩,?_,hr.handled⟩
      · exact (Bool.and_eq_true_iff.mp hd).2
      · intro e q b hb
        rcases BindingManager.getBinding_bind hb with hb | rfl
        · exact hr.bound e q b hb
        · exact Option.isSome_of_eq_some hq

theorem unBind (hr : Registered h) (ename qname : String) : Registered (h.unBind ename qname) where
  recorded := hr.recorded.unbind ename qname
  bound _ _ _ hb := hr.bound _ _ _ (BindingManager.getBinding_unbind hb)
  handled := hr.handled

theorem basicPublish (hr : Registered h) (qname : String) (bp : Option BasicProperties)
    (body uuid : String) : Registered (h.basicPublish qname bp body uuid).2 := by
  unfold VirtualHost.basicPublish
  cases h.queues.selectQueue qname with
  | none => exact hr
  | some mqp =>
    refine ⟨hr.recorded,hr.bound,fun q hq => ?_⟩
    rw [MessageManager.insert_isSome]
    exact hr.handled q hq

theorem basicConsume (hr : Registered h) (qname : String) :
    Registered (h.basicConsume qname).2 := by
  refine ⟨hr.recorded,hr.bound,fun q hq => ?_⟩
  change ((h.messages.front qname).2.queueMsgs.lookup q).isSome
  rw [MessageManager.front_isSome]
  exact hr.handled q hq

theorem basicAck (hr : Registered h) (qname msgId : String) :
    Registered (h.basicAck qname msgId) := by
  refine ⟨hr.recorded,hr.bound,fun q hq => ?_⟩
  change ((h.messages.ack h.disk qname msgId).1.queueMsgs.lookup q).isSome
  rw [MessageManager.ack_isSome]
  exact hr.handled q hq

/-- Every handler keeps the registries in order. -/
theorem keeps : VirtualHost.Keeps Registered where
  declareExchange name type durable autoDelete args hr :=
    hr.declareExchange name type durable autoDelete args
  deleteExchange name hr := hr.deleteExchange name
  declareQueue name durable exclusive autoDelete args hr :=
    (hr.declareQueue name durable exclusive autoDelete args).2
  deleteQueue name hr := hr.deleteQueue name
  bind ename qname key hr := hr.bind ename qname key
  unBind ename qname hr := hr.unBind ename qname
  basicPublish qname bp body uuid hr := hr.basicPublish qname bp body uuid
  basicAck qname msgId hr := hr.basicAck qname msgId

end Registered

/-- A database that a process can start from: the rows of the queues are durable, and a row of a
binding names a row of a queue. -/
structure Stored (db : Database) : Prop where
  plan : db.plan = []
  durable : ∀ r ∈ db.queueTable.getD [], r.durable = true
  bound : ∀ r ∈ db.bindingTable.getD [], ∃ s ∈ db.queueTable.getD [], s.name = r.nameQueue

/-- The rows that a process leaves are rows to start from. -/
theorem Recorded.stored {queues : QueueManager} {bindings : BindingManager} {db : Database}
    (h : Recorded queues bindings db) : Stored db := by
  obtain ⟨rows,hrows,hdur,hname⟩ := h.queueRows
  obtain ⟨brows,hbrows,hbr⟩ := h.bindingRows
  refine ⟨h.plan,?_,?_⟩
  · rw [hrows]; exact hdur
  · rw [hrows,hbrows]
    intro r hr
    exact (hname _).mpr (hbr r hr).2

namespace Stored
variable {db : Database}

theorem blank : Stored {} := ⟨rfl,by simp,by simp⟩

/-- What the constructors of the three managers read from the database. -/
theorem construct (h : Stored db) (basedir : String) (it : Iteration) (disk : Disk) :
    ∃ host, VirtualHost.construct basedir it disk db = some host ∧ Registered host := by
  let db₁ : Database := {db with exchangeTable := some (db.exchangeTable.getD [])}
  let db₂ : Database := {db₁ with queueTable := some (db.queueTable.getD [])}
  let db₃ : Database := {db₂ with bindingTable := some (db.bindingTable.getD [])}
  let qs : QueueManager :=
    (db.queueTable.getD []).foldl (fun m row => m.emplace row.name (.ofRow row)) ∅
  let bs : BindingManager := (db.bindingTable.getD []).foldl
    (fun m row => ExchangeQueueMap.add m ⟨row.nameExchange,row.nameQueue,row.bindingKey⟩) ∅
  have hexch : ∃ m, ExchangeManager.construct db = some (m,db₁) := by
    have hc : ExchangeMapper.createTable db = (true,db₁) := by
      simp only [ExchangeMapper.createTable,Database.exec_done h.plan,db₁]
    have hp : db₁.plan = [] := h.plan
    simp only [ExchangeManager.construct,hc,ExchangeMapper.recovery,Database.exec_done hp]
    exact ⟨_,rfl⟩
  have hqueue : QueueManager.construct db₁ = some (qs,db₂) := by
    have hp₁ : db₁.plan = [] := h.plan
    have hc : QueueMapper.createTable db₁ = (true,db₂) := by
      simp only [QueueMapper.createTable,Database.exec_done hp₁,db₂,db₁]
    have hp : db₂.plan = [] := h.plan
    simp only [QueueManager.construct,hc,QueueMapper.recovery,Database.exec_done hp]
    rfl
  have hbind : BindingManager.construct db₂ = some (bs,db₃) := by
    have hp₂ : db₂.plan = [] := h.plan
    have hc : BindingMapper.creatTable db₂ = (true,db₃) := by
      simp only [BindingMapper.creatTable,Database.exec_done hp₂,db₃,db₂,db₁]
    have hp : db₃.plan = [] := h.plan
    simp only [BindingManager.construct,hc,BindingMapper.recover,Database.exec_done hp]
    rfl
  obtain ⟨es,hes⟩ := hexch
  -- the queues are exactly those with a row
  have hrow : ∀ r ∈ db.queueTable.getD [], ∃ q, qs.lookup r.name = some q ∧ q.durable = true := by
    intro r hr
    obtain ⟨q,hq⟩ := Option.isSome_iff_exists.mp
      (Table.isSome_foldl_emplace QueueRow.name Queue.ofRow (m := ∅) (.inr ⟨r,hr,rfl⟩))
    refine ⟨q,hq,?_⟩
    rcases Table.lookup_foldl_emplace QueueRow.name Queue.ofRow hq with hq | ⟨s,hs,-,rfl⟩
    · simp at hq
    · exact h.durable s hs
  have hqs : ∀ n q, qs.lookup n = some q → ∃ r ∈ db.queueTable.getD [], r.name = n := by
    intro n q hq
    rcases Table.lookup_foldl_emplace QueueRow.name Queue.ofRow hq with hq | ⟨s,hs,hn,-⟩
    · simp at hq
    · exact ⟨s,hs,hn⟩
  let r := (it.order qs.keys).foldl (fun r qname => r.1.initQueueMessage r.2 qname)
    (MessageManager.new basedir,disk)
  refine ⟨⟨es,qs,r.1,bs,r.2,db₃⟩,?_,⟨⟨h.plan,⟨_,rfl,h.durable,?_⟩,_,rfl,?_⟩,?_,?_⟩⟩
  · simp only [VirtualHost.construct,hes,hqueue,hbind]
    rfl
  · intro n
    constructor
    · rintro ⟨row,hrow',rfl⟩
      exact hrow row hrow'
    · rintro ⟨q,hq,-⟩
      exact hqs n q hq
  · intro row hr
    constructor
    · exact BindingManager.getBinding_foldl_isSome
        (fun row : BindingRow => ⟨row.nameExchange,row.nameQueue,row.bindingKey⟩)
        (.inr ⟨row,hr,rfl,rfl⟩)
    · obtain ⟨s,hs,hn⟩ := h.bound row hr
      exact hn ▸ hrow s hs
  · intro e q b hb
    rcases BindingManager.getBinding_foldl
      (fun row : BindingRow => ⟨row.nameExchange,row.nameQueue,row.bindingKey⟩) hb with hb | hb
    · simp [BindingManager.getBinding] at hb
    · obtain ⟨row,hr,-,rfl⟩ := hb
      obtain ⟨s,hs,hn⟩ := h.bound row hr
      obtain ⟨x,hx,-⟩ := hrow s hs
      exact Option.isSome_of_eq_some (hn ▸ hx)
  · intro q hq
    refine MessageManager.foldl_initQueueMessage _ (.inr ?_)
    exact Iteration.mem_order.mpr (Table.isSome_lookup.mp hq)

end Stored

namespace Broker

/-- Every step keeps the registries in order. -/
theorem step_registered {b b' : Broker} {ev : Event} (hr : Registered b.host)
    (h : b.step ev = some b') : Registered b'.host := by
  refine step_keeps Registered.keeps h hr (fun qname hr => hr.basicConsume qname) ?_
  intro it host hhost
  obtain ⟨host',hhost',hreg⟩ := hr.recorded.stored.construct b.basedir it b.host.disk
  rw [hhost,Option.some.injEq] at hhost'
  exact hhost' ▸ hreg

/-- A broker that runs on what was a blank database has its registries in order. -/
theorem run_registered {basedir : String} {it : Iteration} {disk : Disk} {b₀ b : Broker}
    {evs : List Event} (start : construct basedir it disk {} = some b₀)
    (run : system.Run b₀ evs b) : Registered b.host := by
  refine run.invariant ?_ fun hr h => step_registered hr h
  obtain ⟨host,hhost,hreg⟩ := Stored.blank.construct basedir it disk
  simp only [construct,hhost,Option.map_some,Option.some.injEq] at start
  rw [← start]
  exact hreg

end Broker
end MessageQueue

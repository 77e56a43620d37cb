import MessageQueue.Broker.Channels
import MessageQueue.Broker.Clean
import MessageQueue.Broker.Managers
import MessageQueue.Broker.Publish

/-! Whether routing is defined: the types that `route` has a branch for, and the way of a type
from the wire through the registry and its table, in every run of the broker. -/
namespace MessageQueue
open Base

instance (type : ExchangeType) : Decidable type.Known :=
  inferInstanceAs (Decidable (_ ∨ _ ∨ _))

/-- Whether the row of a new exchange can be stored under this name. -/
def Database.storesExchange (db : Database) (name : String) : Bool :=
  db.succeeds && db.exchangeTable.any fun rows => !rows.any fun r => decide (r.name = name)

namespace ExchangeMapper
variable {db : Database} {exp : Exchange}

theorem insert_stored (h : db.storesExchange exp.name = true) : ∃ rows,
    db.exchangeTable = some rows ∧
      insert db exp = (true,{db.spent with exchangeTable := some (rows ++ [exp.row])}) := by
  simp only [Database.storesExchange,Bool.and_eq_true] at h
  obtain ⟨hs,h⟩ := h
  cases ht : db.exchangeTable with
  | none => simp [ht] at h
  | some rows =>
    have hno : ∀ r ∈ rows, r.name ≠ exp.name := by simpa [ht] using h
    refine ⟨rows,rfl,?_⟩
    rw [insert_eq ht exp hno,hs]
    rfl

theorem insert_refused (h : db.storesExchange exp.name = false) :
    insert db exp = (false,db.spent) := by
  simp only [insert,Database.exec_eq,Database.spent_exchangeTable]
  simp only [Database.storesExchange] at h
  cases hs : db.succeeds with
  | false => rfl
  | true =>
    rw [hs,Bool.true_and] at h
    cases ht : db.exchangeTable with
    | none => rfl
    | some rows =>
      rw [ht] at h
      have hany : (rows.any fun r => decide (r.name = exp.name)) = true := by simpa using h
      simp [hany]

end ExchangeMapper

/-- Whether a declaration under this name makes a new exchange. -/
def ExchangeManager.creates (m : ExchangeManager) (db : Database) (name : String)
    (durable : Bool) : Bool :=
  (m.lookup name).isNone && (!durable || db.storesExchange name)

namespace ExchangeManager
variable {m : ExchangeManager} {db : Database} {name : String} (type : ExchangeType)
  {durable : Bool} (autoDelete : Bool) (args : Args)

/-- A declaration that makes no exchange changes no entry and no row. -/
theorem declareExchange_same (h : m.creates db name durable = false) :
    (m.declareExchange db name type durable autoDelete args).2.1 = m ∧
      (m.declareExchange db name type durable autoDelete args).2.2.exchangeTable =
        db.exchangeTable := by
  unfold declareExchange
  simp only [creates] at h
  cases hl : m.lookup name with
  | some e => exact ⟨rfl,rfl⟩
  | none =>
    rw [hl] at h
    cases durable with
    | false => simp at h
    | true =>
      dsimp only
      rw [if_pos rfl,ExchangeMapper.insert_refused (by simpa using h)]
      exact ⟨rfl,rfl⟩

/-- A declaration that makes an exchange adds its entry, and its row if it is durable. -/
theorem declareExchange_creates (h : m.creates db name durable = true) :
    (m.declareExchange db name type durable autoDelete args).2.1 =
        m.insert name ⟨name,type,durable,autoDelete,args⟩ ∧
      ∀ rows, (m.declareExchange db name type durable autoDelete args).2.2.exchangeTable =
        some rows → ∀ r ∈ rows, r.type = type ∨
          ∃ old, db.exchangeTable = some old ∧ r ∈ old := by
  unfold declareExchange
  simp only [creates,Bool.and_eq_true,Option.isNone_iff_eq_none] at h
  rw [h.1]
  cases durable with
  | false => exact ⟨rfl,fun rows hr r hm => .inr ⟨rows,hr,hm⟩⟩
  | true =>
    have hs : db.storesExchange (Exchange.mk name type true autoDelete args).name = true := by
      simpa using h.2
    obtain ⟨old,hold,hi⟩ := ExchangeMapper.insert_stored hs
    dsimp only
    rw [if_pos rfl,hi]
    refine ⟨rfl,fun rows hr r hm => ?_⟩
    cases hr
    cases List.mem_append.mp hm with
    | inl hm => exact .inr ⟨old,hold,hm⟩
    | inr hm => exact .inl (by rw [List.mem_singleton.mp hm]; rfl)

/-- The rows after a deletion were there before. -/
theorem deleteExchange_rows {rows : List ExchangeRow}
    (h : (m.deleteExchange db name).2.exchangeTable = some rows) :
    ∃ old, db.exchangeTable = some old ∧ rows ⊆ old := by
  unfold deleteExchange at h
  cases hl : m.lookup name with
  | none =>
    rw [hl] at h
    exact ⟨rows,h,List.Subset.refl rows⟩
  | some e =>
    simp only [hl] at h
    split_ifs at h
    · cases ht : db.exchangeTable with
      | none =>
        simp only [ExchangeMapper.remove,Database.exec_eq,Database.spent_exchangeTable,ht,
          Option.map_none] at h
        split_ifs at h <;> simp [ht] at h
      | some old =>
        rw [ExchangeMapper.remove_eq ht] at h
        refine ⟨old,rfl,?_⟩
        split_ifs at h
        · cases h
          exact List.filter_subset_self _
        · rw [Database.spent_exchangeTable,ht] at h
          cases h
          exact List.Subset.refl rows
    · exact ⟨rows,h,List.Subset.refl rows⟩

end ExchangeManager

/-- Every exchange in memory and every row has a type that `route` knows. -/
structure Typed (h : VirtualHost) : Prop where
  registry : ∀ n e, h.exchanges.lookup n = some e → e.type.Known
  table : ∀ rows, h.db.exchangeTable = some rows → ∀ r ∈ rows, r.type.Known

namespace Typed
variable {h h' : VirtualHost}

theorem of_rows (hr : Typed h) (he : ∀ n e, h'.exchanges.lookup n = some e →
    h.exchanges.lookup n = some e) (ht : ∀ rows, h'.db.exchangeTable = some rows →
      ∀ r ∈ rows, ∃ old, h.db.exchangeTable = some old ∧ r ∈ old) : Typed h' := by
  refine ⟨fun n e hl => hr.registry n e (he n e hl),fun rows hrows r hm => ?_⟩
  obtain ⟨old,hold,hm⟩ := ht rows hrows r hm
  exact hr.table old hold r hm

/-- The other tables and the messages are not looked at. -/
theorem congr (hr : Typed h) (he : h'.exchanges = h.exchanges)
    (ht : h'.db.exchangeTable = h.db.exchangeTable) : Typed h' :=
  hr.of_rows (by simp [he]) fun rows hrows _ hm => ⟨rows,ht ▸ hrows,hm⟩

theorem declareExchange (hr : Typed h) {name : String} {type : ExchangeType}
    {durable autoDelete : Bool} {args : Args}
    (hk : h.exchanges.creates h.db name durable = true → type.Known) :
    Typed (h.declareExchange name type durable autoDelete args).2 := by
  cases hc : h.exchanges.creates h.db name durable with
  | false =>
    obtain ⟨he,ht⟩ := ExchangeManager.declareExchange_same type autoDelete args hc
    exact hr.congr he ht
  | true =>
    obtain ⟨he,ht⟩ := ExchangeManager.declareExchange_creates type autoDelete args hc
    constructor
    · intro n e hl
      change (h.exchanges.declareExchange h.db name type durable autoDelete args).2.1.lookup n =
        some e at hl
      rw [he] at hl
      rcases Table.lookup_insert_eq_some.mp hl with ⟨rfl,rfl⟩ | ⟨-,hl⟩
      · exact hk hc
      · exact hr.registry n e hl
    · intro rows hrows r hm
      cases ht rows hrows r hm with
      | inl e => rw [e]; exact hk hc
      | inr hold =>
        obtain ⟨old,hold,hm⟩ := hold
        exact hr.table old hold r hm

theorem keeps : VirtualHost.KeepsUndeclared Typed where
  deleteExchange {h} name hr := by
    have hdb : (h.bindings.unbindByExchange h.db name).2.exchangeTable = h.db.exchangeTable :=
      BindingManager.unbindByExchange_keeps (P := fun d => d.exchangeTable = h.db.exchangeTable)
        rfl (fun _ hd => hd) (fun _ _ hd => hd)
    refine hr.of_rows ?_ ?_
    · intro n e hl
      change (h.exchanges.deleteExchange
        (h.bindings.unbindByExchange h.db name).2 name).1.lookup n = some e at hl
      rw [ExchangeManager.lookup_deleteExchange] at hl
      split_ifs at hl
      exact hl
    · intro rows hrows r hm
      obtain ⟨old,hold,hsub⟩ := ExchangeManager.deleteExchange_rows hrows
      exact ⟨old,hdb ▸ hold,hsub hm⟩
  declareQueue {h} name durable exclusive autoDelete args hr :=
    hr.congr rfl (QueueManager.declareQueue_keeps (P := fun d => d.exchangeTable =
      h.db.exchangeTable) name rfl (fun _ hd => hd) (fun _ _ hd => hd) durable exclusive autoDelete
        args)
  deleteQueue {h} name hr :=
    hr.congr rfl (QueueManager.deleteQueue_keeps (P := fun d => d.exchangeTable =
      h.db.exchangeTable) name (BindingManager.unbindByQueue_keeps (P := fun d =>
        d.exchangeTable = h.db.exchangeTable) rfl (fun _ hd => hd) (fun _ _ hd => hd))
          (fun _ hd => hd) (fun _ _ hd => hd))
  bind {h} ename qname key hr := by
    unfold VirtualHost.bind
    split
    · exact hr
    · split
      · exact hr
      · exact hr.congr rfl (BindingManager.bind_keeps (P := fun d => d.exchangeTable =
          h.db.exchangeTable) rfl (fun _ hd => hd) (fun _ _ hd => hd) _ _)
  unBind {h} ename qname hr :=
    hr.congr rfl (BindingManager.unbind_keeps (P := fun d => d.exchangeTable =
      h.db.exchangeTable) rfl (fun _ hd => hd) (fun _ _ hd => hd))
  basicPublish {h} qname bp body uuid hr := by
    unfold VirtualHost.basicPublish
    split
    · exact hr
    · exact hr.congr rfl rfl
  basicAck {h} qname msgId hr := hr.congr rfl rfl

/-- A new host reads back what the table holds. -/
theorem construct {basedir : String} {it : Iteration} {disk : Disk} {db : Database}
    {h : VirtualHost} (hc : VirtualHost.construct basedir it disk db = some h)
    (ht : ∀ rows, db.exchangeTable = some rows → ∀ r ∈ rows, r.type.Known) : Typed h := by
  have hrows : ∀ r ∈ db.exchangeTable.getD [], r.type.Known := by
    intro r hr
    cases he : db.exchangeTable with
    | none => simp [he] at hr
    | some rows => exact ht rows he r (by simpa [he] using hr)
  obtain ⟨d₁,d₂,he,hq,hb,-⟩ := VirtualHost.construct_parts hc
  have htable : h.db.exchangeTable = some (db.exchangeTable.getD []) := by
    simp only [ExchangeManager.construct_eq,QueueManager.construct_eq,
      BindingManager.construct_eq] at he hq hb
    split_ifs at he hq hb
    all_goals
      obtain ⟨-,rfl⟩ := Prod.mk.inj (Option.some.inj he)
      obtain ⟨-,rfl⟩ := Prod.mk.inj (Option.some.inj hq)
      rw [← (Prod.mk.inj (Option.some.inj hb)).2]
      rfl
  constructor
  · intro n e hl
    rw [ExchangeManager.construct_eq] at he
    dsimp only at he
    split_ifs at he
    · rw [← (Prod.mk.inj (Option.some.inj he)).1] at hl
      cases Table.lookup_foldl_emplace ExchangeRow.name Exchange.ofRow hl with
      | inl h => simp at h
      | inr h =>
        obtain ⟨r,hr,-,rfl⟩ := h
        exact hrows r hr
    · rw [← (Prod.mk.inj (Option.some.inj he)).1] at hl
      simp at hl
  · intro rows h' r hr
    rw [htable] at h'
    cases h'
    exact hrows r hr

end Typed

namespace Broker
variable {b b' : Broker} {ev : Event}

/-- No exchange is made with a type that `route` does not know. -/
def KnownType (b : Broker) : Event → Prop
  | .request conn (.declareExchange _ cid name type durable _ _) _ _ =>
    b.hasChannel conn cid = true → b.host.exchanges.creates b.host.db name durable = true → type.Known
  | _ => True

instance (b : Broker) : ∀ ev, Decidable (b.KnownType ev)
  | .request conn (.declareExchange _ cid name type durable _ _) _ _ => inferInstanceAs (Decidable
      (b.hasChannel conn cid = true → b.host.exchanges.creates b.host.db name durable = true →
        type.Known))
  | .request _ (.openChannel ..) _ _ | .request _ (.closeChannel ..) _ _
  | .request _ (.deleteExchange ..) _ _ | .request _ (.declareQueue ..) _ _
  | .request _ (.deleteQueue ..) _ _ | .request _ (.queueBind ..) _ _
  | .request _ (.queueUnBind ..) _ _ | .request _ (.basicPublish ..) _ _
  | .request _ (.basicAck ..) _ _ | .request _ (.basicConsume ..) _ _
  | .request _ (.basicCancel ..) _ _ | .connect _ | .disconnect .. | .take _ | .choose _
  | .autoAck _ | .restart _ => .isTrue trivial

/-- Routing is defined for every exchange: whatever the keys, `route` comes to a result. -/
def Routed (b : Broker) : Prop := ∀ name e, b.host.selectExchange name = some e →
  ∀ routingKey bindingKey, (RouteManager.route e.type routingKey bindingKey).isSome = true

theorem routed_iff : b.Routed ↔ ∀ name e, b.host.exchanges.lookup name = some e → e.type.Known := by
  simp only [Routed,RouteManager.route_isSome_iff]
  exact ⟨fun h n e hl => h n e hl "" "",fun h n e hl _ _ => h n e hl⟩

/-- A declaration that reaches a channel is answered with the new registry. -/
theorem handle_declareExchange {conn : ℕ} {rid cid name : String} {type : ExchangeType}
    {durable autoDelete : Bool} {args : Args} {it : Iteration} {uuid : String → String}
    {r : Broker × Option Response}
    (h : b.handle conn (.declareExchange rid cid name type durable autoDelete args) it uuid =
      some r) : r.1.host = if b.hasChannel conn cid then
        (b.host.declareExchange name type durable autoDelete args).2 else b.host := by
  unfold handle at h
  unfold hasChannel
  cases hc : b.connections.lookup conn with
  | none =>
    simp only [hc] at h
    cases h
    rfl
  | some channels =>
    simp only [hc,Request.cid] at h
    cases hl : channels.lookup cid with
    | none =>
      simp only [hl] at h
      cases h
      simp [hl]
    | some c =>
      simp only [hl,Channel.serve,Option.map_some,Option.some.injEq] at h
      subst h
      simp [hl]

/-- An event that makes no exchange of an unknown type keeps all types known. -/
theorem step_typed (hr : Typed b.host) (h : b.step ev = some b') (hk : b.KnownType ev) :
    Typed b'.host := by
  by_cases hd : ∃ conn rid cid name type durable autoDelete args it uuid, ev =
      .request conn (.declareExchange rid cid name type durable autoDelete args) it uuid
  · obtain ⟨conn,rid,cid,name,type,durable,autoDelete,args,it,uuid,rfl⟩ := hd
    obtain ⟨r,hx,rfl⟩ := Option.map_eq_some_iff.mp h
    rw [handle_declareExchange hx]
    split_ifs with hs
    · exact hr.declareExchange (hk hs)
    · exact hr
  · refine step_keeps_of Typed.keeps h hr ?_ (fun qname hr => hr.congr rfl rfl)
      fun it host hc => .construct hc hr.table
    intro conn rid cid name type durable autoDelete args it uuid e
    exact absurd ⟨conn,rid,cid,name,type,durable,autoDelete,args,it,uuid,e⟩ hd

/-- Whether routing is defined after the next event is decided by the type that it declares. -/
theorem step_routed_iff (hr : Typed b.host) (h : b.step ev = some b') :
    b'.Routed ↔ b.KnownType ev := by
  constructor
  · intro hall
    by_cases hd : ∃ conn rid cid name type durable autoDelete args it uuid, ev =
        .request conn (.declareExchange rid cid name type durable autoDelete args) it uuid
    · obtain ⟨conn,rid,cid,name,type,durable,autoDelete,args,it,uuid,rfl⟩ := hd
      obtain ⟨r,hx,rfl⟩ := Option.map_eq_some_iff.mp h
      intro hs hc
      have hnew := (ExchangeManager.declareExchange_creates type autoDelete args hc).1
      refine routed_iff.mp hall name ⟨name,type,durable,autoDelete,args⟩ ?_
      rw [handle_declareExchange hx,if_pos hs]
      change (b.host.exchanges.declareExchange b.host.db name type durable autoDelete args).2.1.lookup
        name = _
      rw [hnew,AList.lookup_insert]
    · cases ev with
      | request conn req it uuid =>
        cases req with
        | declareExchange rid cid name type durable autoDelete args =>
          exact absurd ⟨conn,rid,cid,name,type,durable,autoDelete,args,it,uuid,rfl⟩ hd
        | _ => trivial
      | _ => trivial
  · intro hk
    exact routed_iff.mpr (step_typed hr h hk).registry

/-- Where routing is defined every publish request is answered. -/
theorem publish_answered (h : b.Routed) (conn : ℕ) (rid cid ename body : String)
    (bp : Option BasicProperties) (it : Iteration) (uuid : String → String) :
    (b.handle conn (.basicPublish rid cid ename body bp) it uuid).isSome = true := by
  have hloop : ∀ (c : ChannelRef) (type : ExchangeType), type.Known → ∀ (key : String)
      (bs : List (Sigma fun _ : String => Binding)) (b : Broker),
      (Channel.publishLoop c type key bp body uuid bs b).isSome = true := by
    intro c type ht key bs
    induction bs with
    | nil => exact fun b => rfl
    | cons x bs ih =>
      intro b
      obtain ⟨qname,binding⟩ := x
      obtain ⟨routed,hroute⟩ := Option.isSome_iff_exists.mp
        ((RouteManager.route_isSome_iff key binding.bindingKey).mpr ht)
      rw [Channel.publishLoop,hroute]
      cases routed with
      | false => exact ih b
      | true => exact ih _
  unfold handle
  split
  · rfl
  · simp only
    split
    · rfl
    · rename_i c hc
      rw [Option.isSome_map]
      change (c.basicPublish b rid cid ename body bp it uuid).isSome = true
      unfold Channel.basicPublish
      split
      · rfl
      · rename_i ep hep
        rw [Option.isSome_map]
        exact hloop _ _ (routed_iff.mp h ename ep hep) _ _ _

/-- In all states on the way of a run with clean strings, routing is defined for every exchange exactly
if no exchange was made with a type that `route` does not know, and then every publish request is
answered. -/
theorem routing_defined_iff {basedir : String} {it : Iteration} {disk : Disk} {plan : List Bool}
    {b₀ : Broker} {evs : List Event}
    (start : construct basedir it disk {plan := plan} = some b₀)
    (run : (system.guarded fun _ ev => ev.Clean).Run b₀ evs b) :
    ((system.guarded KnownType).Run b₀ evs b ↔
      ∀ pre u, pre <+: evs → system.Run b₀ pre u → u.Routed) ∧
    ((system.guarded KnownType).Run b₀ evs b → ∀ conn rid cid ename body bp it uuid,
      (b.handle conn (.basicPublish rid cid ename body bp) it uuid).isSome = true) := by
  have hstart : Typed b₀.host := by
    obtain ⟨host,hhost,rfl⟩ := Option.map_eq_some_iff.mp start
    exact .construct hhost (by simp)
  refine ⟨run.unguard.guarded_iff (fun b => Typed b.host) Lts.ofPartial_det ?_ ?_ ?_ hstart,?_⟩
  · intro s ev t hs step
    exact step_routed_iff hs step
  · intro s ev t hs hk step
    exact step_typed hs step hk
  · intro s hs
    exact routed_iff.mpr hs.registry
  · intro hguarded conn rid cid ename body bp it uuid
    have hb : Typed b.host := hguarded.invariant (P := fun b => Typed b.host) hstart
      fun hs step => step_typed hs step.2 step.1
    exact publish_answered (routed_iff.mpr hb.registry) conn rid cid ename body bp it uuid

/-- The set-up of a trade passes the guard. -/
theorem routing_defined_trade : ∃ b₀ b, construct "/data" .listed blankDisk {} = some b₀ ∧
    system.Run b₀ tradeSetup b ∧ ∀ pre u, pre <+: tradeSetup → system.Run b₀ pre u → u.Routed := by
  have hall : ((construct "/data" .listed blankDisk {}).bind fun b =>
      tradeSetup.foldlM (fun b ev => if b.KnownType ev then b.step ev else none) b).any
        (fun _ => true) = true := by
    decide +kernel
  obtain ⟨b₀,b,start,run,-⟩ := Lts.Run.of_any_guarded hall
  have clean : ∀ ev ∈ tradeSetup, ev.Clean := by decide
  have plain : system.Run b₀ tradeSetup b := run.unguard
  have hdb : ({} : Database) = {plan := []} := rfl
  have hiff := routing_defined_iff (hdb ▸ start) (plain.guard fun ev hev _ => clean ev hev)
  exact ⟨b₀,b,start,plain,hiff.1.mp run⟩

/-- A client that leaves the type of its exchange at the default of the wire format, and binds a
queue to it. -/
def untypedSetup : List Event :=
  [.connect 1,
    .request 1 (.openChannel "r1" "c1") .listed fun _ => "u1",
    .request 1 (.declareExchange "r2" "c1" "plain" .unknownType false false ∅) .listed fun _ => "u2",
    .request 1 (.declareQueue "r3" "c1" "orders" false false false ∅) .listed fun _ => "u3",
    .request 1 (.queueBind "r4" "c1" "plain" "orders" "k") .listed fun _ => "u4"]

theorem untyped_route_undefined : ¬ ∀ (basedir : String) (it : Iteration) (disk : Disk)
    (plan : List Bool) (b₀ b : Broker) (evs : List Event),
    construct basedir it disk {plan := plan} = some b₀ → system.Run b₀ evs b →
    ∀ conn rid cid ename body bp it uuid,
      (b.handle conn (.basicPublish rid cid ename body bp) it uuid).isSome = true := by
  intro h
  have hall : ((construct "/data" .listed blankDisk {}).bind (untypedSetup.foldlM step)).any
      (fun b : Broker => (b.handle 1 (.basicPublish "r5" "c1" "plain" "hello" none) .listed
        fun _ => "u5").isNone) = true := by
    decide +kernel
  obtain ⟨b₀,b,start,run,hb⟩ := Lts.Run.of_any hall
  have hsome := h "/data" .listed blankDisk [] b₀ b untypedSetup start run 1 "r5" "c1" "plain"
    "hello" none .listed fun _ => "u5"
  rw [Option.isNone_iff_eq_none] at hb
  rw [hb] at hsome
  exact absurd hsome (by decide)

end Broker
end MessageQueue

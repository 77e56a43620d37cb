import MessageQueue.Broker.Ownership

/-! What channels do to the consumers of one another. A subscription adds a consumer at most; a
cancellation and a destructor take one off by its queue and tag, whoever registered it. -/
namespace MessageQueue
open Base

instance (m : ConsumerManager) (q : String) (cp : Consumer) : Decidable (m.Holds q cp) :=
  decidable_of_iff ((m.lookup q).any fun qcp => decide (cp ∈ qcp.consumers))
    (by simp [ConsumerManager.Holds,Option.any_eq_true])

/-- A channel at work on the consumers: what it found, and what it left. -/
structure Action where
  channel : Channel
  before : ConsumerManager
  after : ConsumerManager

/-- The consumers of other channels are still there. -/
def Action.Spares (a : Action) : Prop :=
  ∀ q cp, a.before.Holds q cp → cp.callback ≠ a.channel.self → a.after.Holds q cp

namespace ConsumerManager
variable {m : ConsumerManager} {q n t : String} {cp : Consumer}

/-- The destructors of channels, one after the other. -/
def destructions : ConsumerManager → List Channel → List Action
  | _,[] => []
  | m,c::cs => ⟨c,m,m.without c⟩::(m.without c).destructions cs

/-- A subscription takes nobody off. -/
theorem holds_createConsumer {ackFlag : Bool} {cb : ChannelRef} (h : m.Holds q cp) :
    (m.createConsumer t n ackFlag cb).2.Holds q cp := by
  unfold createConsumer
  cases hl : m.lookup n with
  | none => exact h
  | some qcp =>
    refine holds_insert.mpr ?_
    split_ifs with hq
    · subst hq
      obtain ⟨qcp',hl',hcp⟩ := h
      cases hl.symm.trans hl'
      unfold QueueConsumer.create
      split_ifs
      · exact hcp
      · exact List.mem_append_left _ hcp
    · exact h

/-- A cancellation spares the others if no other channel has a consumer with the tag. -/
theorem spares_removeConsumer (h : m.DistinctTags) {c : Channel} :
    Action.Spares ⟨c,m,m.removeConsumer t n⟩ ↔
      ∀ cp, m.Holds n cp → cp.consumerTag = t → cp.callback = c.self := by
  unfold Action.Spares
  simp only [holds_removeConsumer h]
  constructor
  · intro hall cp hcp htag
    by_contra hne
    exact (hall n cp hcp hne).2 ⟨rfl,htag⟩
  · intro hall q cp hcp hne
    refine ⟨hcp,?_⟩
    rintro ⟨rfl,htag⟩
    exact hne (hall cp hcp htag)

theorem spares_without (h : m.DistinctTags) {c : Channel} :
    Action.Spares ⟨c,m,m.without c⟩ ↔
      ∀ q cp, m.Holds q cp → c.Remembers q cp.consumerTag → cp.callback = c.self := by
  unfold Action.Spares
  simp only [holds_without h]
  refine forall₂_congr fun q cp => ⟨fun hall hcp hrem => ?_,fun hall hcp hne => ⟨hcp,?_⟩⟩
  · by_contra hne
    exact (hall hcp hne).2 hrem
  · exact fun hrem => hne (hall hcp hrem)

/-- Destructors spare the others if the first of their channels that remembers a consumer's queue
and tag is the one that registered it. -/
theorem spares_destructions (cs : List Channel) (h : m.DistinctTags) :
    (∀ a ∈ m.destructions cs, a.Spares) ↔ ∀ q cp, m.Holds q cp → ∀ c,
      cs.find? (fun c => c.Remembers q cp.consumerTag) = some c → cp.callback = c.self := by
  induction cs generalizing m with
  | nil => simp [destructions]
  | cons d ds ih =>
    simp only [destructions,List.mem_cons,forall_eq_or_imp,spares_without h,
      ih (distinctTags_without h d),holds_without h,← forall_and]
    refine forall₂_congr fun q cp => ?_
    by_cases hrem : d.Remembers q cp.consumerTag
    · simp [hrem]
    · simp [hrem]

/-- What the last destructor leaves. -/
theorem destructions_after {cs : List Channel} :
    (m.destructions cs).foldl (fun _ a => a.after) m = cs.foldl without m := by
  induction cs generalizing m with
  | nil => rfl
  | cons c cs ih => exact ih

end ConsumerManager

/-- A request to subscribe or to cancel, and what closes channels. -/
def Event.Acts : Event → Prop
  | .request _ (.basicConsume ..) .. => True
  | .request _ (.basicCancel ..) .. => True
  | ev => ev.Closes

namespace Broker
variable {b b' : Broker} {conn : ℕ} {cid : String} {ev : Event}

/-- What channels do to the consumers when they subscribe, cancel and are closed. -/
def actions (b : Broker) : Event → List Action
  | .request conn (.basicConsume rid cid ctag qname autoAck) _ _ =>
    (b.channelAt conn cid).toList.map fun c =>
      ⟨c,b.consumers,(c.basicConsume b rid cid ctag qname autoAck).1.consumers⟩
  | .request conn (.basicCancel rid cid ctag qname) _ _ =>
    (b.channelAt conn cid).toList.map fun c =>
      ⟨c,b.consumers,(Channel.basicCancel b rid cid ctag qname).1.consumers⟩
  | ev => b.consumers.destructions (b.closing ev)

/-- A request that is not the connection's own goes to the channel. -/
theorem handle_channel {req : Request} {it : Iteration} {uuid : String → String}
    (h : ¬ req.ForConnection) : b.handle conn req it uuid =
      match b.channelAt conn req.cid with
      | none => some (b,none)
      | some c => (c.serve b it uuid req).map fun r => (r.1,some r.2) := by
  unfold handle channelAt
  cases b.connections.lookup conn with
  | none => rfl
  | some channels =>
    cases req with
    | openChannel rid cid => exact absurd trivial h
    | closeChannel rid cid => exact absurd trivial h
    | _ => rfl

/-- The registry goes from action to action. -/
theorem step_actions (hn : b.Named) (hev : ev.Acts) (hs : b.step ev = some b') :
    b'.consumers = (b.actions ev).foldl (fun _ a => a.after) b.consumers := by
  cases ev with
  | request conn req it uuid =>
    cases req with
    | basicConsume rid cid | basicCancel rid cid =>
      obtain ⟨x,hx,rfl⟩ := Option.map_eq_some_iff.mp hs
      rw [handle_channel id] at hx
      cases hc : b.channelAt conn cid with
      | none => simp only [Request.cid,hc] at hx; cases hx; simp [actions,hc]
      | some c => simp only [Request.cid,hc] at hx; cases hx; simp [actions,hc]
    | closeChannel rid cid =>
      have hcloses : (Event.request conn (.closeChannel rid cid) it uuid).Closes := trivial
      rw [(step_closes hn hcloses hs).1]
      exact ConsumerManager.destructions_after.symm
    | _ => exact absurd hev id
  | disconnect conn it =>
    have hcloses : (Event.disconnect conn it).Closes := trivial
    rw [(step_closes hn hcloses hs).1]
    exact ConsumerManager.destructions_after.symm
  | _ => exact absurd hev id

/-- The channel that takes a queue's consumer with the tag off: the one that cancels it, or the
first one being destroyed that remembers it. -/
def taker (b : Broker) (q t : String) : Event → Option Channel
  | .request conn (.basicCancel _ cid ctag qname) _ _ =>
    if q = qname ∧ t = ctag then b.channelAt conn cid else none
  | ev => (b.closing ev).find? fun c => c.Remembers q t

/-- Whoever takes a consumer off has registered it. -/
def SparesOthers (b : Broker) (ev : Event) : Prop :=
  ∀ q cp, b.consumers.Holds q cp → ∀ c, b.taker q cp.consumerTag ev = some c →
    cp.callback = c.self

instance (b : Broker) (ev : Event) : Decidable (b.SparesOthers ev) :=
  decidable_of_iff (∀ e ∈ b.consumers.entries,∀ cp ∈ e.2.consumers,
      (b.taker e.1 cp.consumerTag ev).all fun c => decide (cp.callback = c.self)) <| by
    simp only [Option.all_eq_true,decide_eq_true_eq]
    refine ⟨fun h q cp hq => ?_,fun h e he cp hcp => ?_⟩
    · obtain ⟨qcp,hl,hcp⟩ := hq
      exact h ⟨q,qcp⟩ (AList.mem_lookup_iff.mp hl) cp hcp
    · exact h e.1 cp ⟨e.2,AList.mem_lookup_iff.mpr he,hcp⟩

/-- Every action spares the others exactly under the condition. -/
theorem Orderly.actions_iff (h : b.Orderly) :
    (∀ a ∈ b.actions ev, a.Spares) ↔ b.SparesOthers ev := by
  have hdes := ConsumerManager.spares_destructions (b.closing ev) h.tags
  cases ev with
  | request conn req it uuid =>
    cases req with
    | basicConsume rid cid ctag qname autoAck =>
      simp only [SparesOthers,taker,closing,List.find?_nil,reduceCtorEq,false_implies,implies_true,
        iff_true,actions,List.mem_map,forall_exists_index,and_imp]
      rintro a c - rfl q cp hcp -
      simp only [Channel.basicConsume]
      split
      · exact hcp
      · exact ConsumerManager.holds_createConsumer hcp
    | basicCancel rid cid ctag qname =>
      simp only [SparesOthers,taker,actions,List.mem_map,Option.mem_toList,forall_exists_index,
        and_imp,forall_apply_eq_imp_iff₂,Channel.basicCancel,
        ConsumerManager.spares_removeConsumer h.tags]
      constructor
      · intro hall q cp hcp c hc
        split_ifs at hc with hqt
        obtain ⟨rfl,htag⟩ := hqt
        exact hall c hc cp hcp htag
      · intro hall c hc cp hcp htag
        exact hall qname cp hcp c (by rw [if_pos ⟨rfl,htag⟩,hc])
    | _ => exact hdes
  | _ => exact hdes

end Broker

section Reachable
variable {basedir : String} {it : Iteration} {disk : Disk} {db : Database} {b₀ b : Broker}
  {evs : List Event}

/-- In a run no channel takes another channel's consumer off, by a subscription, a cancellation or
its end, exactly if every event of the run spares the others. -/
theorem others_kept_iff (start : Broker.construct basedir it disk db = some b₀)
    (run : Broker.system.Run b₀ evs b) :
    (∀ pre ev s, pre ++ [ev] <+: evs → Broker.system.Run b₀ pre s → ∀ a ∈ s.actions ev,
        ∀ q cp, a.before.Holds q cp → cp.callback ≠ a.channel.self → a.after.Holds q cp) ↔
      (Broker.system.guarded Broker.SparesOthers).Run b₀ evs b :=
  (run.guarded_iff_steps Broker.Orderly Lts.ofPartial_det (fun h => h.actions_iff)
    (fun h hs => h.step hs) (Broker.construct_orderly start)).symm

/-- Two channels, each with its own tag: the first one cancels, and both close. -/
def ownTags : List Event :=
  [.connect 1,.request 1 (.openChannel "r1" "c1") .listed fun _ => "u1",
    .request 1 (.openChannel "r2" "c2") .listed fun _ => "u2",
    .request 1 (.declareQueue "r3" "c1" "orders" false true false ∅) .listed fun _ => "u3",
    .request 1 (.basicConsume "r4" "c1" "t1" "orders" true) .listed fun _ => "u4",
    .request 1 (.basicConsume "r5" "c2" "t2" "orders" true) .listed fun _ => "u5",
    .request 1 (.basicCancel "r6" "c1" "t1" "orders") .listed fun _ => "u6",
    .request 1 (.closeChannel "r7" "c1") .listed fun _ => "u7",.disconnect 1 .listed]

theorem others_kept_own : ∃ b₀ b, Broker.construct "/data" .listed blankDisk {} = some b₀ ∧
    Broker.system.Run b₀ ownTags b ∧ ∀ pre ev s, pre ++ [ev] <+: ownTags →
      Broker.system.Run b₀ pre s → ∀ a ∈ s.actions ev, a.Spares := by
  obtain ⟨b₀,start⟩ := Broker.construct_blank "/data" .listed blankDisk
  obtain ⟨b,hb⟩ := Option.isSome_iff_exists.mp
    (by decide +kernel : ((Broker.construct "/data" .listed blankDisk {}).bind
      (ownTags.foldlM fun b ev => if b.SparesOthers ev then b.step ev else none)).isSome)
  rw [start,Option.bind_some] at hb
  have guarded := Lts.Run.of_foldlM_guarded hb
  have run : Broker.system.Run b₀ ownTags b := guarded.mono fun h => h.2
  exact ⟨b₀,b,start,run,(others_kept_iff start run).mpr guarded⟩

/-- The first channel subscribes and cancels, then the second one subscribes with the same tag. -/
def sharedTag : List Event :=
  [.connect 1,.request 1 (.openChannel "r1" "c1") .listed fun _ => "u1",
    .request 1 (.openChannel "r2" "c2") .listed fun _ => "u2",
    .request 1 (.declareQueue "r3" "c1" "orders" false true false ∅) .listed fun _ => "u3",
    .request 1 (.basicConsume "r4" "c1" "t1" "orders" true) .listed fun _ => "u4",
    .request 1 (.basicCancel "r5" "c1" "t1" "orders") .listed fun _ => "u5",
    .request 1 (.basicConsume "r6" "c2" "t1" "orders" true) .listed fun _ => "u6"]

/-- Then the first channel closes, and the second one's consumer goes. -/
theorem closing_evicts : ∃ b₀ s, Broker.construct "/data" .listed blankDisk {} = some b₀ ∧
    Broker.system.Run b₀ sharedTag s ∧
      ∃ a ∈ s.actions (.request 1 (.closeChannel "r7" "c1") .listed fun _ => "u7"),
        ¬ ∀ q cp, a.before.Holds q cp → cp.callback ≠ a.channel.self → a.after.Holds q cp := by
  have hall : ((Broker.construct "/data" .listed blankDisk {}).bind
      (sharedTag.foldlM Broker.step)).any (fun s : Broker =>
        (s.actions (.request 1 (.closeChannel "r7" "c1") .listed fun _ => "u7")).any fun a =>
          decide (a.channel.self = ⟨0,"c1",1⟩ ∧
            a.before.Holds "orders" ⟨true,"orders","t1",⟨1,"c2",1⟩⟩ ∧
            ¬ a.after.Holds "orders" ⟨true,"orders","t1",⟨1,"c2",1⟩⟩)) = true := by
    decide +kernel
  obtain ⟨b₀,s,start,run,haction⟩ := Lts.Run.of_any hall
  simp only [List.any_eq_true,decide_eq_true_eq] at haction
  obtain ⟨a,ha,hself,hbefore,hafter⟩ := haction
  refine ⟨b₀,s,start,run,a,ha,fun hkept => hafter (hkept _ _ hbefore ?_)⟩
  rw [hself]
  decide

end Reachable
end MessageQueue

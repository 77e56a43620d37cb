import MessageQueue.Base.Mirror
import MessageQueue.Broker.Subscriptions

/-! Which channel a consumer belongs to, and what becomes of it. A consumer is taken off the
registry by its tag and its queue alone, and a channel remembers one consumer at most. -/
namespace MessageQueue
open Base

/-- The channel remembers a consumer of the queue with the tag. -/
def Channel.Remembers (c : Channel) (q t : String) : Prop :=
  ∃ p, c.consumer = some p ∧ p.subscribeQueueName = q ∧ p.consumerTag = t

instance (c : Channel) (q t : String) : Decidable (c.Remembers q t) :=
  decidable_of_iff
    (c.consumer.any fun p => decide (p.subscribeQueueName = q ∧ p.consumerTag = t))
    (by simp [Channel.Remembers,Option.any_eq_true])

namespace ConsumerManager

/-- The consumer is in the registry, under the queue. -/
def Holds (m : ConsumerManager) (q : String) (cp : Consumer) : Prop :=
  ∃ qcp, m.lookup q = some qcp ∧ cp ∈ qcp.consumers

/-- No two consumers of a queue have one tag. -/
def DistinctTags (m : ConsumerManager) : Prop :=
  ∀ q qcp, m.lookup q = some qcp → (qcp.consumers.map Consumer.consumerTag).Nodup

variable {m : ConsumerManager} {q n t : String} {cp : Consumer}

theorem holds_insert {qcp : QueueConsumer} : Holds (AList.insert n qcp m) q cp ↔
    if q = n then cp ∈ qcp.consumers else m.Holds q cp := by
  unfold Holds
  split_ifs with hq
  · subst hq
    simp
  · simp [AList.lookup_insert_ne hq]

theorem distinctTags_insert (h : m.DistinctTags) {qcp : QueueConsumer}
    (hq : (qcp.consumers.map Consumer.consumerTag).Nodup) :
    DistinctTags (AList.insert n qcp m) :=
  Table.forall_insert hq h

/-- Among distinct tags the first one that fits is the only one. -/
theorem mem_eraseP {cs : List Consumer} (h : (cs.map Consumer.consumerTag).Nodup) :
    cp ∈ cs.eraseP (·.consumerTag = t) ↔ cp ∈ cs ∧ cp.consumerTag ≠ t := by
  induction cs with
  | nil => simp
  | cons c cs ih =>
    rw [List.map_cons,List.nodup_cons] at h
    by_cases hc : c.consumerTag = t
    · rw [List.eraseP_cons_of_pos (by simpa using hc),List.mem_cons]
      constructor
      · intro hm
        refine ⟨.inr hm,fun hcp => h.1 ?_⟩
        rw [hc,← hcp]
        exact List.mem_map_of_mem hm
      · rintro ⟨hm,hne⟩
        cases hm with
        | inl heq => exact absurd (heq ▸ hc) hne
        | inr hm => exact hm
    · rw [List.eraseP_cons_of_neg (by simpa using hc),List.mem_cons,List.mem_cons,ih h.2]
      constructor
      · intro hm
        cases hm with
        | inl heq => exact ⟨.inl heq,heq ▸ hc⟩
        | inr hm => exact ⟨.inr hm.1,hm.2⟩
      · rintro ⟨hm,hne⟩
        cases hm with
        | inl heq => exact .inl heq
        | inr hm => exact .inr ⟨hm,hne⟩

/-- A removal takes the consumer with the tag, if there is one. -/
theorem holds_removeConsumer (h : m.DistinctTags) : (m.removeConsumer t n).Holds q cp ↔
    m.Holds q cp ∧ ¬ (q = n ∧ cp.consumerTag = t) := by
  unfold removeConsumer
  cases hl : m.lookup n with
  | none =>
    simp only [iff_self_and]
    rintro ⟨qcp,hq,-⟩ ⟨rfl,-⟩
    cases hl.symm.trans hq
  | some qcp =>
    simp only [holds_insert]
    split_ifs with hq
    · subst hq
      rw [QueueConsumer.remove,mem_eraseP (h q qcp hl)]
      simp [Holds,hl]
    · simp [hq]

theorem distinctTags_removeConsumer (h : m.DistinctTags) : (m.removeConsumer t n).DistinctTags := by
  unfold removeConsumer
  cases hl : m.lookup n with
  | none => exact h
  | some qcp =>
    exact distinctTags_insert h ((h n qcp hl).sublist (List.Sublist.map _ List.eraseP_sublist))

theorem distinctTags_keeps : ConsumerManager.Keeps (fun _ _ => True) DistinctTags where
  empty q qcp hq := by simp at hq
  init {m} qname h := by
    intro q y hy
    cases Table.lookup_emplace_eq_some.mp hy with
    | inl hy => exact h q y hy
    | inr hy => rw [hy.2.2]; exact List.nodup_nil
  destroy {m} qname h := fun q y hy => h q y (Table.lookup_erase_eq_some.mp hy).2
  create {m} ctag qname ackFlag cb _ h := by
    unfold createConsumer
    cases hl : m.lookup qname with
    | none => exact h
    | some qcp =>
      exact distinctTags_insert h (QueueConsumer.create_tags (h qname qcp hl) ..)
  remove {m} ctag qname h := distinctTags_removeConsumer h
  choose {m} qname h := by
    unfold chooseConsumer
    cases hl : m.lookup qname with
    | none => exact h
    | some qcp =>
      refine distinctTags_insert h ?_
      unfold QueueConsumer.choose
      split_ifs <;> exact h qname qcp hl

theorem all_iff {R : String → Consumer → Prop} :
    m.All R ↔ ∀ q cp, m.Holds q cp → R q cp := by
  constructor
  · rintro h q cp ⟨qcp,hq,hcp⟩
    exact h q qcp hq cp hcp
  · exact fun h q qcp hq cp hcp => h q cp ⟨qcp,hq,hcp⟩

/-- What the destructor of a channel leaves. -/
def without (m : ConsumerManager) (c : Channel) : ConsumerManager :=
  match c.consumer with
  | none => m
  | some p => m.removeConsumer p.consumerTag p.subscribeQueueName

theorem holds_without (h : m.DistinctTags) {c : Channel} : (m.without c).Holds q cp ↔
    m.Holds q cp ∧ ¬ c.Remembers q cp.consumerTag := by
  unfold without Channel.Remembers
  cases c.consumer with
  | none => simp
  | some p =>
    simp only [holds_removeConsumer h,Option.some.injEq,exists_eq_left']
    rw [eq_comm (a := q),eq_comm (a := cp.consumerTag)]

theorem distinctTags_without (h : m.DistinctTags) (c : Channel) : (m.without c).DistinctTags := by
  unfold without
  cases c.consumer with
  | none => exact h
  | some p => exact distinctTags_removeConsumer h

/-- The destructors take what one of their channels remembers. -/
theorem holds_foldl {cs : List Channel} (h : m.DistinctTags) : (cs.foldl without m).Holds q cp ↔
    m.Holds q cp ∧ ∀ c ∈ cs, ¬ c.Remembers q cp.consumerTag := by
  induction cs generalizing m with
  | nil => simp
  | cons c cs ih =>
    rw [List.foldl_cons,ih (distinctTags_without h c),holds_without h]
    simp [and_assoc]

end ConsumerManager

namespace Broker
variable {b b' : Broker} {conn : ℕ} {cid : String} {ev : Event} {r : ChannelRef}

theorem destroyChannel_consumers (c : Channel) :
    (b.destroyChannel c).consumers = b.consumers.without c := by
  unfold destroyChannel ConsumerManager.without
  cases c.consumer <;> rfl

def channelAt (b : Broker) (conn : ℕ) (cid : String) : Option Channel :=
  (b.connections.lookup conn).bind fun channels => channels.lookup cid

/-- The channel object is registered with its connection. -/
def Open (b : Broker) (r : ChannelRef) : Prop :=
  ∃ c, b.channelAt r.connection r.id = some c ∧ c.self = r

/-- The channels that an event destroys, in order. -/
def closing (b : Broker) : Event → List Channel
  | .disconnect conn it =>
    (it.order ((b.connections.lookup conn).getD ∅).entries).map fun e => e.2
  | .request conn (.closeChannel _ cid) _ _ => (b.channelAt conn cid).toList
  | _ => []

theorem delConnection_consumers (b : Broker) (conn : ℕ) (it : Iteration) :
    (b.delConnection conn it).consumers =
    (b.closing (.disconnect conn it)).foldl ConsumerManager.without b.consumers := by
  have hf : ∀ (es : List (Sigma fun _ : String => Channel)) (b : Broker),
      (es.foldl (fun b e => b.destroyChannel e.2) b).consumers =
        (es.map fun e => e.2).foldl ConsumerManager.without b.consumers := by
    intro es
    induction es with
    | nil => exact fun _ => rfl
    | cons e es ih =>
      intro b
      rw [List.foldl_cons,ih,destroyChannel_consumers,List.map_cons,List.foldl_cons]
  exact hf _ _

theorem channelAt_of_lookup {channels : ChannelManager}
    (h : b.connections.lookup conn = some channels) (cid : String) :
    b.channelAt conn cid = channels.lookup cid := by
  simp [channelAt,h]

theorem channelAt_insert {channels : ChannelManager}
    (h : b'.connections = b.connections.insert conn channels) (n : ℕ) (cid : String) :
    b'.channelAt n cid = if n = conn then channels.lookup cid else b.channelAt n cid := by
  unfold channelAt
  rw [h]
  split_ifs with hn
  · subst hn
    simp
  · rw [AList.lookup_insert_ne hn]

end Broker

/-- Losing a connection, or a request to close a channel. -/
def Event.Closes : Event → Prop
  | .disconnect .. => True
  | .request _ (.closeChannel ..) .. => True
  | _ => False

namespace Broker
variable {b b' : Broker} {conn : ℕ} {cid : String} {ev : Event} {r : ChannelRef}

/-- A request to close a channel. -/
theorem handle_close {rid : String} {it : Iteration} {uuid : String → String}
    {x : Broker × Option Response} (h : b.handle conn (.closeChannel rid cid) it uuid = some x) :
    x.1.consumers =
        (b.closing (.request conn (.closeChannel rid cid) it uuid)).foldl
          ConsumerManager.without b.consumers ∧
      ∀ n c, x.1.channelAt n c = if n = conn ∧ c = cid then none else b.channelAt n c := by
  unfold handle at h
  cases hl : b.connections.lookup conn with
  | none =>
    simp only [hl] at h
    cases h
    refine ⟨by simp [closing,channelAt,hl],fun n c => ?_⟩
    split_ifs with hn
    · rw [hn.1]
      simp [channelAt,hl]
    · rfl
  | some channels =>
    simp only [hl] at h
    cases h
    have hconn : (b.closeChannel conn channels rid cid).1.connections =
        b.connections.insert conn (channels.erase cid) := by
      unfold closeChannel
      split <;> simp
    constructor
    · simp only [closing,channelAt_of_lookup hl,closeChannel]
      cases channels.lookup cid with
      | none => rfl
      | some c => exact destroyChannel_consumers c
    · intro n c
      rw [channelAt_insert hconn]
      by_cases hn : n = conn
      · subst hn
        rw [if_pos rfl,Registry.lookup_erase,channelAt_of_lookup hl]
        simp
      · simp [hn]

theorem Named.self_eq (hn : b.Named) {c : Channel} (h : b.channelAt conn cid = some c) :
    c.self.id = cid ∧ c.self.connection = conn := by
  obtain ⟨channels,hconn,hc⟩ := Option.bind_eq_some_iff.mp h
  exact hn conn channels cid c hconn hc

/-- The open channels when those at some places are gone. -/
theorem open_gone (hn : b.Named) {P : ℕ → String → Prop} [∀ n c, Decidable (P n c)]
    {cs : List Channel}
    (hat : ∀ n c, b'.channelAt n c = if P n c then none else b.channelAt n c)
    (hcs : ∀ x, x ∈ cs ↔ ∃ n c, P n c ∧ b.channelAt n c = some x) :
    b'.Open r ↔ b.Open r ∧ ∀ c ∈ cs, c.self ≠ r := by
  constructor
  · rintro ⟨c,hc,hself⟩
    rw [hat] at hc
    split_ifs at hc with hg
    refine ⟨⟨c,hc,hself⟩,fun x hx hxr => hg ?_⟩
    obtain ⟨n,i,hgone,hx⟩ := (hcs x).mp hx
    obtain ⟨rfl,rfl⟩ := hn.self_eq hx
    exact hxr ▸ hgone
  · rintro ⟨⟨c,hc,hself⟩,hall⟩
    refine ⟨c,?_,hself⟩
    rw [hat,if_neg fun hg => hall c ((hcs c).mpr ⟨_,_,hg,hc⟩) hself]
    exact hc

/-- What closing leaves: the consumers that no closed channel remembers, and the other channels. -/
theorem step_closes (hn : b.Named) (hev : ev.Closes) (h : b.step ev = some b') :
    b'.consumers = (b.closing ev).foldl ConsumerManager.without b.consumers ∧
      ∀ r, b'.Open r ↔ b.Open r ∧ ∀ c ∈ b.closing ev, c.self ≠ r := by
  cases ev with
  | disconnect conn it =>
    cases h
    refine ⟨delConnection_consumers b conn it,fun r => ?_⟩
    refine open_gone (P := fun n _ => n = conn) hn (fun n c => ?_) fun x => ?_
    · unfold channelAt
      rw [delConnection_connections,Registry.lookup_erase]
      split_ifs <;> rfl
    · simp only [closing,channelAt,List.mem_map]
      cases hl : b.connections.lookup conn with
      | none => simp [hl]
      | some channels => simp [hl,← AList.mem_lookup_iff]
  | request conn req it uuid =>
    cases req with
    | closeChannel rid cid =>
      obtain ⟨x,hx,rfl⟩ := Option.map_eq_some_iff.mp h
      obtain ⟨hcons,hat⟩ := handle_close hx
      refine ⟨hcons,fun r => open_gone hn hat fun x => ?_⟩
      simp [closing]
    | _ => exact absurd hev id
  | _ => exact absurd hev id

/-- A channel that serves a request stays where it is. -/
theorem serve_stays {c : Channel} {it : Iteration} {uuid : String → String} {req : Request}
    {x : Broker × Response} (hn : b.Named) (hc : b.channelAt conn cid = some c)
    (h : c.serve b it uuid req = some x) (hr : b.Open r) : x.1.Open r := by
  obtain ⟨d,hd,hself⟩ := hr
  cases (Channel.serve_reply h).2 with
  | inl hsame => exact ⟨d,by simpa [channelAt,hsame] using hd,hself⟩
  | inr hset =>
    obtain ⟨c',hcself,hset⟩ := hset
    obtain ⟨hid,hconn⟩ := hn.self_eq hc
    obtain ⟨channels,hl,hcl⟩ := Option.bind_eq_some_iff.mp hc
    have hins : x.1.connections = b.connections.insert conn (channels.insert cid c') := by
      rw [hset]
      simp only [setChannel]
      rw [hcself,hid,hconn,hl,Option.getD_some]
    by_cases hplace : r.connection = conn ∧ r.id = cid
    · -- the place of the serving channel
      obtain ⟨hrc,hri⟩ := hplace
      rw [hrc,hri,hc,Option.some.injEq] at hd
      refine ⟨c',?_,hcself.trans (hd ▸ hself)⟩
      rw [channelAt_insert hins,if_pos hrc,hri,AList.lookup_insert]
    · refine ⟨d,?_,hself⟩
      rw [channelAt_insert hins]
      split_ifs with hrc
      · have hri : r.id ≠ cid := fun hri => hplace ⟨hrc,hri⟩
        rw [AList.lookup_insert_ne hri,← channelAt_of_lookup hl,← hrc]
        exact hd
      · exact hd

theorem handle_stays {req : Request} {it : Iteration} {uuid : String → String}
    {x : Broker × Option Response} (hn : b.Named) (h : b.handle conn req it uuid = some x)
    (hreq : ∀ rid cid, req ≠ .closeChannel rid cid) (hr : b.Open r) : x.1.Open r := by
  unfold handle at h
  split at h
  · cases h; exact hr
  next channels hl =>
  split at h
  · next rid cid =>
    cases h
    unfold openChannel
    cases hc : channels.lookup cid with
    | some c => exact hr
    | none =>
      obtain ⟨d,hd,hself⟩ := hr
      refine ⟨d,?_,hself⟩
      rw [channelAt_insert rfl]
      split_ifs with hrc
      · rw [hrc,channelAt_of_lookup hl] at hd
        have hri : r.id ≠ cid := fun hri => by rw [hri,hc] at hd; cases hd
        rw [AList.lookup_insert_ne hri]
        exact hd
      · exact hd
  · next rid cid => exact absurd rfl (hreq rid cid)
  · cases hc : channels.lookup req.cid with
    | none => simp only [hc] at h; cases h; exact hr
    | some c =>
      simp only [hc] at h
      obtain ⟨y,hy,rfl⟩ := Option.map_eq_some_iff.mp h
      exact serve_stays hn ((channelAt_of_lookup hl _).trans hc) hy hr

/-- Any other event leaves the open channels open. -/
theorem step_stays (hn : b.Named) (hev : ¬ ev.Closes) (hre : ∀ it, ev ≠ .restart it)
    (h : b.step ev = some b') (hr : b.Open r) : b'.Open r := by
  cases ev with
  | connect conn =>
    cases h
    obtain ⟨d,hd,hself⟩ := hr
    obtain ⟨channels,hl,hc⟩ := Option.bind_eq_some_iff.mp hd
    have hl' : (b.connections.emplace conn ∅).lookup r.connection = some channels :=
      Table.lookup_emplace_eq_some.mpr (.inl hl)
    exact ⟨d,(channelAt_of_lookup hl' _).trans hc,hself⟩
  | disconnect conn it => exact absurd trivial hev
  | request conn req it uuid =>
    obtain ⟨x,hx,rfl⟩ := Option.map_eq_some_iff.mp h
    refine handle_stays hn hx ?_ hr
    rintro rid cid rfl
    exact hev trivial
  | take i =>
    obtain ⟨task,-,rfl⟩ := take_cases h
    exact hr
  | choose i =>
    obtain ⟨x,hx,rfl⟩ := Option.map_eq_some_iff.mp h
    obtain ⟨task,m,-,⟨-,rfl⟩ | ⟨cp,-,rfl⟩⟩ := choose_cases hx <;> exact hr
  | autoAck i =>
    obtain ⟨task,m,-,rfl⟩ := autoAck_cases h
    exact hr
  | restart it => exact absurd rfl (hre it)

theorem closing_eq_nil (hev : ¬ ev.Closes) : b.closing ev = [] := by
  cases ev with
  | disconnect conn it => exact absurd trivial hev
  | request conn req it uuid =>
    cases req with
    | closeChannel rid cid => exact absurd trivial hev
    | _ => rfl
  | _ => rfl

/-- Every consumer belongs to a channel that is open. -/
def OwnersOpen (b : Broker) : Prop := b.consumers.All fun _ cp => b.Open cp.callback

/-- Each consumer of a channel that the event destroys is remembered, by its queue and its tag, by
one of the channels that it destroys. -/
def Cleared (b : Broker) (ev : Event) : Prop :=
  ∀ c ∈ b.closing ev, ∀ q cp, b.consumers.Holds q cp → cp.callback = c.self →
    ∃ d ∈ b.closing ev, d.Remembers q cp.consumerTag

instance (b : Broker) (ev : Event) : Decidable (b.Cleared ev) :=
  decidable_of_iff (∀ c ∈ b.closing ev, ∀ e ∈ b.consumers.entries, ∀ cp ∈ e.2.consumers,
      cp.callback = c.self → ∃ d ∈ b.closing ev, d.Remembers e.1 cp.consumerTag) <| by
    refine forall₂_congr fun c _ => ⟨fun h q cp hq => ?_,fun h e he cp hcp => ?_⟩
    · obtain ⟨qcp,hl,hcp⟩ := hq
      exact h ⟨q,qcp⟩ (AList.mem_lookup_iff.mp hl) cp hcp
    · exact h e.1 cp ⟨e.2,AList.mem_lookup_iff.mpr he,hcp⟩

/-- What every reachable broker keeps in any case. -/
structure Orderly (b : Broker) : Prop where
  named : b.Named
  tags : b.consumers.DistinctTags

theorem Orderly.step (h : b.Orderly) (hs : b.step ev = some b') : b'.Orderly :=
  ⟨step_named h.named hs,ConsumerManager.distinctTags_keeps.step hs
    (fun _ _ _ _ _ => allows fun _ _ => trivial) h.tags⟩

theorem construct_orderly {basedir : String} {it : Iteration} {disk : Disk} {db : Database}
    (h : construct basedir it disk db = some b) : b.Orderly :=
  ⟨construct_named h,ConsumerManager.distinctTags_keeps.construct h⟩

/-- A process that starts has no consumers. -/
theorem construct_ownersOpen {basedir : String} {it : Iteration} {disk : Disk} {db : Database}
    (h : construct basedir it disk db = some b) : b.OwnersOpen := by
  have keeps : ConsumerManager.Keeps (fun _ _ => False)
      (ConsumerManager.All fun _ cp => b.Open cp.callback) :=
    ConsumerManager.All.keeps fun _ _ _ _ hf => hf.elim
  exact keeps.construct h

/-- After an event the owners are open exactly if it cleared what it closed. -/
theorem Orderly.ownersOpen_iff (h : b.Orderly) (ho : b.OwnersOpen) (hs : b.step ev = some b') :
    b'.OwnersOpen ↔ b.Cleared ev := by
  by_cases hev : ev.Closes
  · obtain ⟨hcons,hopen⟩ := step_closes h.named hev hs
    have ho := ConsumerManager.all_iff.mp ho
    refine ConsumerManager.all_iff.trans ?_
    have hholds : ∀ q cp, b'.consumers.Holds q cp ↔ b.consumers.Holds q cp ∧
        ∀ d ∈ b.closing ev, ¬ d.Remembers q cp.consumerTag := by
      intro q cp
      rw [hcons]
      exact ConsumerManager.holds_foldl h.tags
    constructor
    · intro hall c hc q cp hq hcp
      by_contra hno
      push Not at hno
      exact ((hopen _).mp (hall q cp ((hholds q cp).mpr ⟨hq,hno⟩))).2 c hc hcp.symm
    · intro hclear q cp hq
      obtain ⟨hq,hno⟩ := (hholds q cp).mp hq
      refine (hopen _).mpr ⟨ho q cp hq,fun c hc hcp => ?_⟩
      obtain ⟨d,hd,hrem⟩ := hclear c hc q cp hq hcp.symm
      exact hno d hd hrem
  · have hclear : b.Cleared ev := by
      intro c hc
      rw [closing_eq_nil hev] at hc
      cases hc
    refine ⟨fun _ => hclear,fun _ => ?_⟩
    by_cases hre : ∃ it, ev = .restart it
    · obtain ⟨it,rfl⟩ := hre
      exact construct_ownersOpen hs
    · have hstay : ∀ r, b.Open r → b'.Open r := fun r =>
        step_stays h.named hev (fun it he => hre ⟨it,he⟩) hs
      have keeps : ConsumerManager.Keeps (fun _ cb => b'.Open cb)
          (ConsumerManager.All fun _ cp => b'.Open cp.callback) :=
        ConsumerManager.All.keeps fun _ _ _ _ hcb => hcb
      refine keeps.step hs ?_ (ho.mono fun _ cp => hstay cp.callback)
      rintro conn req it uuid rfl ctag qname channels c - - hl hc
      obtain ⟨hid,hconn⟩ := h.named conn channels _ c hl hc
      exact hstay _ ⟨c,by rw [hid,hconn,channelAt_of_lookup hl,hc],rfl⟩

end Broker

section Reachable
variable {basedir : String} {it : Iteration} {disk : Disk} {db : Database} {b₀ b : Broker}
  {evs : List Event}

/-- In all states of a run every consumer belongs to an open channel, and closing a channel takes
all its consumers, exactly if every event clears what it closes. -/
theorem consumers_owned_iff (start : Broker.construct basedir it disk db = some b₀)
    (run : Broker.system.Run b₀ evs b) :
    (∀ pre s, pre <+: evs → Broker.system.Run b₀ pre s → s.OwnersOpen ∧
        ∀ ev s', pre ++ [ev] <+: evs → s.step ev = some s' →
          ∀ c ∈ s.closing ev, ∀ q cp, s'.consumers.Holds q cp → cp.callback ≠ c.self) ↔
      (Broker.system.guarded Broker.Cleared).Run b₀ evs b := by
  have hiff := Lts.Run.guarded_iff (L := Broker.system) (fun s => s.Orderly ∧ s.OwnersOpen)
    Lts.ofPartial_det
    (fun h hs => h.1.ownersOpen_iff h.2 hs)
    (fun h hg hs => ⟨h.1.step hs,(h.1.ownersOpen_iff h.2 hs).mpr hg⟩) (fun h => h.2)
    ⟨Broker.construct_orderly start,Broker.construct_ownersOpen start⟩ run
  rw [hiff]
  refine ⟨fun h pre s hp hs => (h pre s hp hs).1,fun h pre s hp hs => ⟨h pre s hp hs,?_⟩⟩
  intro ev s' hev hstep c hc q cp hq hcp
  have hord : s.Orderly :=
    hs.invariant (Broker.construct_orderly start) fun h hs => h.step hs
  have hcloses : ev.Closes := by
    by_contra hno
    rw [Broker.closing_eq_nil hno] at hc
    cases hc
  have hopen := ConsumerManager.all_iff.mp (h _ s' hev (hs.snoc hstep)) q cp hq
  exact (((Broker.step_closes hord.named hcloses hstep).2 _).mp hopen).2 c hc hcp.symm

/-- One subscription, and the channel closes. -/
def singleSubscription : List Event :=
  [.connect 1,.request 1 (.openChannel "r1" "c1") .listed fun _ => "u1",
    .request 1 (.declareQueue "r2" "c1" "orders" false true false ∅) .listed fun _ => "u2",
    .request 1 (.basicConsume "r3" "c1" "t1" "orders" true) .listed fun _ => "u3",
    .request 1 (.closeChannel "r4" "c1") .listed fun _ => "u4"]

theorem consumers_owned_single :
    ∃ b₀ b, Broker.construct "/data" .listed blankDisk {} = some b₀ ∧
      Broker.system.Run b₀ singleSubscription b ∧ b.OwnersOpen := by
  obtain ⟨b₀,start⟩ := Broker.construct_blank "/data" .listed blankDisk
  obtain ⟨b,hb⟩ := Option.isSome_iff_exists.mp
    (by decide +kernel : ((Broker.construct "/data" .listed blankDisk {}).bind
      (singleSubscription.foldlM fun b ev => if b.Cleared ev then b.step ev else none)).isSome)
  rw [start,Option.bind_some] at hb
  have guarded := Lts.Run.of_foldlM_guarded hb
  have run : Broker.system.Run b₀ singleSubscription b := guarded.mono fun h => h.2
  exact ⟨b₀,b,start,run,
    ((consumers_owned_iff start run).mpr guarded _ b (List.prefix_refl _) run).1⟩

/-- A second subscription, and the channel closes: the consumer of the first one stays. -/
def twoSubscriptions : List Event :=
  [.connect 1,.request 1 (.openChannel "r1" "c1") .listed fun _ => "u1",
    .request 1 (.declareQueue "r2" "c1" "orders" false true false ∅) .listed fun _ => "u2",
    .request 1 (.basicConsume "r3" "c1" "t1" "orders" true) .listed fun _ => "u3",
    .request 1 (.basicConsume "r4" "c1" "t2" "orders" true) .listed fun _ => "u4",
    .request 1 (.closeChannel "r5" "c1") .listed fun _ => "u5"]

theorem consumer_outlives_channel :
    ∃ b₀ b, Broker.construct "/data" .listed blankDisk {} = some b₀ ∧
      Broker.system.Run b₀ twoSubscriptions b ∧ ¬ b.OwnersOpen := by
  have hall : ((Broker.construct "/data" .listed blankDisk {}).bind
      (twoSubscriptions.foldlM Broker.step)).any (fun b : Broker =>
        (b.consumers.lookup "orders").any (fun qcp =>
          decide (qcp.consumers.map Consumer.callback = [⟨0,"c1",1⟩])) &&
          (b.channelAt 1 "c1").isNone) = true := by
    decide +kernel
  obtain ⟨b₀,b,start,run,hleft⟩ := Lts.Run.of_any hall
  simp only [Option.any_eq_true,Bool.and_eq_true,decide_eq_true_eq,Option.isNone_iff_eq_none]
    at hleft
  obtain ⟨⟨qcp,hq,hcallbacks⟩,hnone⟩ := hleft
  refine ⟨b₀,b,start,run,fun hopen => ?_⟩
  have hmem : (⟨0,"c1",1⟩ : ChannelRef) ∈ qcp.consumers.map Consumer.callback := by
    simp [hcallbacks]
  obtain ⟨cp,hcp,hself⟩ := List.mem_map.mp hmem
  obtain ⟨c,hc,-⟩ := hopen "orders" qcp hq cp hcp
  rw [hself,hnone] at hc
  cases hc

end Reachable
end MessageQueue

import MessageQueue.Broker.Channels

/-! What the broker does to its consumers. A property of the registry is kept by every step as
soon as the five operations of the registry keep it; one that is about every consumer by itself
holds when it holds of the new ones. -/
namespace MessageQueue
open Base

/-- The operations that the broker performs on its consumers keep `P`, where consumers are created
with the tags and callbacks that are `allowed`. -/
structure ConsumerManager.Keeps (allowed : String → ChannelRef → Prop)
    (P : ConsumerManager → Prop) : Prop where
  empty : P ∅
  init : ∀ {m : ConsumerManager} qname, P m → P (m.initQueueConsumer qname)
  destroy : ∀ {m : ConsumerManager} qname, P m → P (m.destroyQueueConsumer qname)
  create : ∀ {m : ConsumerManager} ctag qname ackFlag cb, allowed ctag cb → P m →
    P (m.createConsumer ctag qname ackFlag cb).2
  remove : ∀ {m : ConsumerManager} ctag qname, P m → P (m.removeConsumer ctag qname)
  choose : ∀ {m : ConsumerManager} qname, P m → P (m.chooseConsumer qname).2

/-- The tag that a request subscribes with, and the queue it subscribes to. -/
def Request.subscribes : Request → Option (String × String)
  | .basicConsume _ _ ctag qname _ => some (ctag,qname)
  | _ => none

/-- What a request of a connection subscribes with is allowed, on the channel that serves it. -/
def Broker.Allows (allowed : String → ChannelRef → Prop) (b : Broker) (conn : ℕ)
    (req : Request) : Prop :=
  ∀ ctag qname channels c, req.subscribes = some (ctag,qname) →
    b.host.existQueue qname = true → b.connections.lookup conn = some channels →
      channels.lookup req.cid = some c → allowed ctag c.self

theorem Broker.allows {allowed : String → ChannelRef → Prop} {b : Broker} {conn : ℕ}
    {req : Request} (h : ∀ ctag cb, allowed ctag cb) : b.Allows allowed conn req :=
  fun ctag _ _ c _ _ _ _ => h ctag c.self

namespace ConsumerManager.Keeps
variable {allowed : String → ChannelRef → Prop} {P : ConsumerManager → Prop} {b b' : Broker}

theorem destroyChannel (keeps : Keeps allowed P) (c : Channel) (h : P b.consumers) :
    P (b.destroyChannel c).consumers := by
  unfold Broker.destroyChannel
  split
  · exact h
  · exact keeps.remove _ _ h

theorem delConnection (keeps : Keeps allowed P) (conn : ℕ) (it : Iteration) (h : P b.consumers) :
    P (b.delConnection conn it).consumers :=
  Broker.delConnection_keeps (P := fun b => P b.consumers) (fun _ c hb => keeps.destroyChannel c hb) h

theorem serve (keeps : Keeps allowed P) {c : Channel} {it : Iteration} {uuid : String → String}
    {req : Request} {r : Broker × Response} (hs : c.serve b it uuid req = some r)
    (hall : ∀ ctag qname, req.subscribes = some (ctag,qname) → b.host.existQueue qname = true →
      allowed ctag c.self) (h : P b.consumers) : P r.1.consumers := by
  cases req with
  | basicPublish rid cid ename body bp =>
    rcases Channel.basicPublish_cases hs with he | ⟨type,key,bs,he⟩
    · rwa [he]
    · exact Channel.publishLoop_invariant (P := fun b => P b.consumers) (fun _ _ h => h) he h
  | declareQueue rid cid name exclusive durable autoDelete args =>
    cases hs
    simp only [Channel.declareQueue]
    split
    · exact h
    · exact keeps.init _ h
  | basicConsume rid cid ctag qname autoAck =>
    cases hs
    simp only [Channel.basicConsume]
    split
    · exact h
    · next hq => exact keeps.create _ _ _ _ (hall ctag qname rfl (by simpa using hq)) h
  | deleteQueue => cases hs; exact keeps.destroy _ h
  | basicCancel => cases hs; exact keeps.remove _ _ h
  | openChannel => cases hs
  | closeChannel => cases hs
  | declareExchange => cases hs; exact h
  | deleteExchange => cases hs; exact h
  | queueBind => cases hs; exact h
  | queueUnBind => cases hs; exact h
  | basicAck => cases hs; exact h

theorem handle (keeps : Keeps allowed P) {conn : ℕ} {req : Request} {it : Iteration}
    {uuid : String → String} {r : Broker × Option Response}
    (hr : b.handle conn req it uuid = some r) (hall : b.Allows allowed conn req)
    (h : P b.consumers) : P r.1.consumers := by
  unfold Broker.handle at hr
  split at hr
  · cases hr; exact h
  next channels hconn =>
    split at hr
    · cases hr
      simp only [Broker.openChannel]
      split <;> exact h
    · cases hr
      simp only [Broker.closeChannel]
      split
      · exact h
      · exact keeps.destroyChannel _ h
    · split at hr
      · cases hr; exact h
      · next c hc =>
        obtain ⟨x,hx,rfl⟩ := Option.map_eq_some_iff.mp hr
        exact keeps.serve hx (fun ctag q hsub hq => hall ctag q channels c hsub hq hconn hc) h

/-- The constructor registers the recovered queues. -/
theorem construct (keeps : Keeps allowed P) {basedir : String} {it : Iteration} {disk : Disk}
    {db : Database} (hb : Broker.construct basedir it disk db = some b) : P b.consumers := by
  obtain ⟨host,-,rfl⟩ := Option.map_eq_some_iff.mp hb
  exact List.foldlRecOn _ _ keeps.empty fun _ hm k _ => keeps.init k hm

theorem step (keeps : Keeps allowed P) {ev : Event} (hs : b.step ev = some b')
    (hall : ∀ conn req it uuid, ev = .request conn req it uuid → b.Allows allowed conn req)
    (h : P b.consumers) : P b'.consumers := by
  cases ev with
  | connect conn => cases hs; exact h
  | disconnect conn it => cases hs; exact keeps.delConnection conn it h
  | request conn req it uuid =>
    obtain ⟨r,hr,rfl⟩ := Option.map_eq_some_iff.mp hs
    exact keeps.handle hr (hall conn req it uuid rfl) h
  | take i =>
    obtain ⟨task,-,rfl⟩ := Broker.take_cases hs
    exact h
  | choose i =>
    obtain ⟨r,hr,rfl⟩ := Option.map_eq_some_iff.mp hs
    obtain ⟨task,m,-,⟨-,rfl⟩ | ⟨cp,-,rfl⟩⟩ := Broker.choose_cases hr
    · exact keeps.choose _ h
    · exact keeps.choose _ h
  | autoAck i =>
    obtain ⟨task,m,-,rfl⟩ := Broker.autoAck_cases hs
    exact h
  | restart it => exact keeps.construct hs

end ConsumerManager.Keeps

/-- Every consumer has the property, seen from the queue it is listed under. -/
def ConsumerManager.All (R : String → Consumer → Prop) (m : ConsumerManager) : Prop :=
  ∀ q qcp, m.lookup q = some qcp → ∀ cp ∈ qcp.consumers, R q cp

namespace ConsumerManager.All
variable {R R' : String → Consumer → Prop} {m : ConsumerManager} {n : String}

theorem mono (h : m.All R) (himp : ∀ q cp, R q cp → R' q cp) : m.All R' :=
  fun q qcp hq cp hcp => himp q cp (h q qcp hq cp hcp)

theorem insert (h : m.All R) {qcp : QueueConsumer} (hq : ∀ cp ∈ qcp.consumers, R n cp) :
    ConsumerManager.All R (AList.insert n qcp m) :=
  Table.forall_insert hq h

theorem create (h : m.All R) {ctag : String} {ackFlag : Bool} {cb : ChannelRef}
    (new : R n ⟨ackFlag,n,ctag,cb⟩) : (m.createConsumer ctag n ackFlag cb).2.All R := by
  unfold ConsumerManager.createConsumer
  cases hl : m.lookup n with
  | none => exact h
  | some qcp =>
    refine h.insert ?_
    have hq := h n qcp hl
    unfold QueueConsumer.create
    split_ifs
    · exact hq
    · intro cp hcp
      rcases List.mem_append.mp hcp with hcp | hcp
      · exact hq cp hcp
      · exact List.mem_singleton.mp hcp ▸ new

/-- Only a new consumer has to be looked at. -/
theorem keeps {allowed : String → ChannelRef → Prop}
    (new : ∀ ctag q ackFlag cb, allowed ctag cb → R q ⟨ackFlag,q,ctag,cb⟩) :
    ConsumerManager.Keeps allowed (ConsumerManager.All R) where
  empty q qcp hq := by simp at hq
  init {m} qname h := by
    intro q y hy
    rcases Table.lookup_emplace_eq_some.mp hy with hy | ⟨-,-,rfl⟩
    · exact h q y hy
    · simp
  destroy {m} qname h := by
    intro q y hy
    exact h q y (Table.lookup_erase_eq_some.mp hy).2
  create {m} ctag qname ackFlag cb hall h := h.create (new ctag qname ackFlag cb hall)
  remove {m} ctag qname h := by
    unfold ConsumerManager.removeConsumer
    cases hl : m.lookup qname with
    | none => exact h
    | some qcp => exact h.insert fun cp hcp => h qname qcp hl cp (List.mem_of_mem_eraseP hcp)
  choose {m} qname h := by
    unfold ConsumerManager.chooseConsumer
    cases hl : m.lookup qname with
    | none => exact h
    | some qcp =>
      refine h.insert ?_
      rw [qcp.choose_consumers]
      exact h qname qcp hl

/-- A chosen consumer is one of the queue. -/
theorem chosen (h : m.All R) {cp : Consumer} (hc : (m.chooseConsumer n).1 = some cp) : R n cp := by
  unfold ConsumerManager.chooseConsumer at hc
  cases hl : m.lookup n with
  | none => simp [hl] at hc
  | some qcp =>
    simp only [hl] at hc
    exact h n qcp hl cp (QueueConsumer.choose_mem hc)

end ConsumerManager.All

/-- A consumer is listed under the queue it subscribed to. -/
def ConsumerManager.Subscribed (m : ConsumerManager) : Prop :=
  m.All fun q cp => cp.subscribeQueueName = q

theorem ConsumerManager.Subscribed.keeps :
    ConsumerManager.Keeps (fun _ _ => True) ConsumerManager.Subscribed :=
  All.keeps fun _ _ _ _ _ => rfl

/-- The tags of the channel's consumers satisfy `R`. -/
def ConsumerManager.Tagged (conn : ℕ) (cid : String) (R : String → Prop) (m : ConsumerManager) :
    Prop :=
  m.All fun _ cp => cp.callback.connection = conn → cp.callback.id = cid → R cp.consumerTag

theorem ConsumerManager.Tagged.keeps (conn : ℕ) (cid : String) (R : String → Prop) :
    ConsumerManager.Keeps (fun ctag cb => cb.connection = conn → cb.id = cid → R ctag)
      (ConsumerManager.Tagged conn cid R) :=
  All.keeps fun _ _ _ _ h => h

namespace Broker

/-- The broker has never heard of the connection. -/
structure Unknown (b : Broker) (conn : ℕ) : Prop where
  named : b.Named
  down : b.connections.lookup conn = none
  consumers : b.consumers.All fun _ cp => cp.callback.connection ≠ conn

variable {conn : ℕ}

theorem Unknown.keeps (conn : ℕ) : ConsumerManager.Keeps (fun _ cb => cb.connection ≠ conn)
    (ConsumerManager.All fun _ cp => cp.callback.connection ≠ conn) :=
  ConsumerManager.All.keeps fun _ _ _ _ h => h

theorem Unknown.step {b b' : Broker} {ev : Event} (h : b.Unknown conn) (hev : ev ≠ .connect conn)
    (hs : b.step ev = some b') : b'.Unknown conn := by
  refine ⟨step_named h.named hs,?_,(keeps conn).step hs ?_ h.consumers⟩
  · cases ev with
    | connect c =>
      cases hs
      have hne : conn ≠ c := fun heq => hev (heq ▸ rfl)
      exact (Table.lookup_emplace_ne hne).trans h.down
    | disconnect c it =>
      cases hs
      rw [delConnection_connections,← Option.not_isSome_iff_eq_none]
      intro hsome
      obtain ⟨channels,hl⟩ := Option.isSome_iff_exists.mp hsome
      cases h.down.symm.trans (Table.lookup_erase_eq_some.mp hl).2
    | request c req it uuid =>
      obtain ⟨r,hr,rfl⟩ := Option.map_eq_some_iff.mp hs
      by_cases heq : conn = c
      · subst heq
        simp only [handle,h.down] at hr
        cases hr
        exact h.down
      · exact ((handle_channels h.named hr).others conn heq).trans h.down
    | take i =>
      obtain ⟨task,-,rfl⟩ := take_cases hs
      exact h.down
    | choose i =>
      obtain ⟨r,hr,rfl⟩ := Option.map_eq_some_iff.mp hs
      obtain ⟨task,m,-,⟨-,rfl⟩ | ⟨cp,-,rfl⟩⟩ := choose_cases hr <;> exact h.down
    | autoAck i =>
      obtain ⟨task,m,-,rfl⟩ := autoAck_cases hs
      exact h.down
    | restart it =>
      obtain ⟨host,-,rfl⟩ := Option.map_eq_some_iff.mp hs
      rfl
  · rintro c req it uuid rfl ctag qname channels ch - - hl hch heq
    obtain ⟨-,hconn⟩ := h.named c channels _ ch hl hch
    rw [← hconn,heq,h.down] at hl
    cases hl

/-- A connection that has not come up is unknown. -/
theorem run_unknown {basedir : String} {it : Iteration} {disk : Disk} {db : Database}
    {b₀ b : Broker} {evs : List Event} (start : construct basedir it disk db = some b₀)
    (run : system.Run b₀ evs b) (new : ∀ ev ∈ evs, ev ≠ .connect conn) : b.Unknown conn := by
  refine run.invariant_mem (P := fun b => b.Unknown conn)
    ⟨construct_named start,?_,(Unknown.keeps conn).construct start⟩
    fun hm h hs => h.step (new _ hm) hs
  obtain ⟨host,-,rfl⟩ := Option.map_eq_some_iff.mp start
  rfl

end Broker

namespace ConsumerManager
variable {m : ConsumerManager} {qname : String}

def HasConsumer (m : ConsumerManager) (qname : String) : Prop :=
  ∃ qcp, m.lookup qname = some qcp ∧ 0 < qcp.consumers.length

instance : Decidable (m.HasConsumer qname) :=
  decidable_of_iff ((m.lookup qname).any fun qcp => decide (0 < qcp.consumers.length))
    (by simp [HasConsumer,Option.any_eq_true])

/-- A queue that has a consumer finds one. -/
theorem HasConsumer.chooseConsumer (h : m.HasConsumer qname) :
    ∃ cp, (m.chooseConsumer qname).1 = some cp := by
  obtain ⟨qcp,hl,hpos⟩ := h
  refine ⟨qcp.consumers.get ⟨qcp.rrSeq.toNat % qcp.consumers.length,Nat.mod_lt _ hpos⟩,?_⟩
  simp only [ConsumerManager.chooseConsumer,hl,QueueConsumer.choose,if_neg hpos.ne']
  exact List.getElem?_eq_getElem _

end ConsumerManager
end MessageQueue

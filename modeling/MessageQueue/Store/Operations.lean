import MessageQueue.Store.Consistent

/-! Every operation of a queue keeps the invariant and does to the ledger what its abstract
counterpart does. -/
namespace MessageQueue
open Base Payload MessageMapper Entry

namespace QueueMessage
variable {q : QueueMessage} {m : Message} {p : MessagePtr}

@[simp] theorem pushMessage_heap : (q.pushMessage m).heap = Function.update q.heap q.fresh m := rfl
@[simp] theorem pushMessage_msgs : (q.pushMessage m).msgs = q.msgs ++ [q.fresh] := rfl
@[simp] theorem pushMessage_fresh : (q.pushMessage m).fresh = q.fresh+1 := rfl

/-- Who waits after a message was put under an unused id. -/
theorem waits_emplace {rest : List MessagePtr}
    (h : q.waitackMsgs.lookup (q.payload p).id = none) (x : MessagePtr) :
    Waits {q with
      msgs := rest
      waitackMsgs := q.waitackMsgs.emplace (q.payload p).id p} x ↔ q.Waits x ∨ x = p := by
  simp only [Waits,Table.lookup_emplace_eq_some,h,true_and]
  constructor
  · rintro ⟨i,hi | ⟨rfl,rfl⟩⟩
    · exact .inl ⟨i,hi⟩
    · exact .inr rfl
  · rintro (⟨i,hi⟩ | rfl)
    · exact ⟨i,.inl hi⟩
    · exact ⟨_,.inr ⟨rfl,rfl⟩⟩

/-- A new object leaves the older ones alone. -/
theorem pushMessage_payload (h : p < q.fresh) : (q.pushMessage m).payload p = q.payload p := by
  simp [payload,Function.update_of_ne h.ne]

@[simp] theorem pushMessage_payload_fresh : (q.pushMessage m).payload q.fresh = m.payload := by
  simp [payload]

section Loops
variable {P : QueueMessage → Prop} (counts : ∀ q valid total, P q →
  P {q with validCount := valid, totalCount := total})
include counts

/-- A compaction keeps what the adoption of one message keeps. -/
theorem garbageCollection_keeps (adopt : ∀ q m, P q → P (q.adopt m)) (check : Policy) (d : Disk)
    (h : P q) : P (q.garbageCollection check d).1 := by
  unfold garbageCollection
  split
  · exact h
  · exact counts _ _ _ (List.foldlRecOn _ _ h fun q hq m _ => adopt q m hq)

/-- So does the recovery of a queue, with the messages of its file. -/
theorem recovery_keeps (recover : ∀ q m, P q → P (q.recover m)) (d : Disk)
    (h : P {q with msgs := []}) : P (q.recovery d).2.1 :=
  counts _ _ _ (List.foldlRecOn _ _ h fun q hq m _ => recover q m hq)

end Loops
end QueueMessage

/-- The payload that `insert` stores. -/
def insertedPayload (bp : Option BasicProperties) (body : String) (durable : Bool)
    (uuid : String) : Payload :=
  let p := (QueueMessage.newMessage bp body durable uuid).payload
  if p.deliveryMode = .durable then {p with valid := "1"} else p

/-- The file does not change what a message says. -/
theorem MessageMapper.insert_payload (d : Disk) (filename : String) (message : Message) :
    (MessageMapper.insert d filename message).2.1.payload = message.payload := by
  simp only [MessageMapper.insert]
  split
  · rfl
  · split <;> rfl

/-- An insertion is rejected and changes nothing in memory, or it appends one new object. -/
theorem QueueMessage.insert_cases (q : QueueMessage) (d : Disk) (bp : Option BasicProperties)
    (body : String) (durable : Bool) (uuid : String) :
    (∃ d', q.insert d bp body durable uuid = (false,q,d')) ∨
    ∃ q' d' m, q.insert d bp body durable uuid = (true,q',d') ∧
      m.payload = insertedPayload bp body durable uuid ∧ q'.mapper = q.mapper ∧
      q'.msgs = q.msgs ++ [q.fresh] ∧ q'.waitackMsgs = q.waitackMsgs ∧
      q'.heap = Function.update q.heap q.fresh m ∧ q'.fresh = q.fresh+1 := by
  by_cases hd : (newMessage bp body durable uuid).payload.deliveryMode = .durable
  · obtain ⟨m,hm⟩ : ∃ m : Message, m = {newMessage bp body durable uuid with
        payload := {(newMessage bp body durable uuid).payload with valid := "1"}} := ⟨_,rfl⟩
    have hpay := MessageMapper.insert_payload d q.mapper.nameDataFile m
    have hins : insertedPayload bp body durable uuid = m.payload := by
      simp [insertedPayload,hd,hm]
    simp only [insert,hd,↓reduceIte,insertDataFile,← hm]
    generalize MessageMapper.insert d q.mapper.nameDataFile m = r at hpay ⊢
    obtain ⟨ok,m',d'⟩ := r
    cases ok with
    | false => exact .inl ⟨d',rfl⟩
    | true => exact .inr ⟨_,d',m',rfl,hpay.trans hins.symm,rfl,rfl,rfl,rfl,rfl⟩
  · have hins : insertedPayload bp body durable uuid =
        (newMessage bp body durable uuid).payload := by simp [insertedPayload,hd]
    simp only [insert,hd,↓reduceIte]
    exact .inr ⟨_,d,_,rfl,hins.symm,rfl,rfl,rfl,rfl,rfl⟩

/-- The bytes that an insertion of this payload adds to the file. -/
def growth (m : Payload) : ℕ := if m.deliveryMode = .durable then m.record.length else 0

/-- A durable message needs an id that no durable message has. -/
def Unclaimed (q : QueueMessage) (m : Payload) : Prop :=
  m.deliveryMode = .durable → q.durableMsgs.lookup m.id = none

instance (q : QueueMessage) (m : Payload) : Decidable (Unclaimed q m) :=
  inferInstanceAs (Decidable (m.deliveryMode = .durable → q.durableMsgs.lookup m.id = none))

/-- The objects that a new message adds to the durable ones. -/
def ownedBy (q : QueueMessage) (m : Message) : List MessagePtr :=
  if m.payload.deliveryMode = .durable then [q.fresh] else []

namespace InMemory
variable {q : QueueMessage} {own : List MessagePtr}

theorem owner_bound (h : InMemory q own) {p : MessagePtr} (hp : p ∈ own) : p < q.fresh :=
  h.bound p ((h.held p).mp hp).1

/-- The memory part sees the payloads of the objects, not their places, and no counter. -/
theorem congr (h : InMemory q own) {q' : QueueMessage} (hm : q'.msgs = q.msgs)
    (hd : q'.durableMsgs = q.durableMsgs) (hw : q'.waitackMsgs = q.waitackMsgs)
    (hf : q'.fresh = q.fresh) (hp : q'.payload = q.payload) : InMemory q' own := by
  have hwaits : q'.Waits = q.Waits := by funext p; simp [QueueMessage.Waits,hw]
  have hheld : q'.Held = q.Held := by funext p; simp [QueueMessage.Held,hm,hwaits]
  have hdur : q'.Durable = q.Durable := by funext p; simp [QueueMessage.Durable,hp]
  refine ⟨?_,?_,?_,?_,?_,?_⟩
  · rw [hd,hp]; exact h.durable
  · rw [hheld,hdur]; exact h.held
  · rw [hm]; exact h.msgsNodup
  · rw [hw,hp]; exact h.waiting
  · rw [hm,hwaits]; exact h.apart
  · rw [hheld,hf]; exact h.bound

/-- The memory part after a message joined the list, and the durable table if it is durable. -/
theorem push (h : InMemory q own) (m : Message) (t : Table String MessagePtr)
    (ht : ∀ id p, t.lookup id = some p ↔ q.durableMsgs.lookup id = some p ∨
      p ∈ ownedBy q m ∧ m.payload.id = id) :
    InMemory {q.pushMessage m with durableMsgs := t} (own ++ ownedBy q m) := by
  have hnew : ¬ q.Held q.fresh := fun hh => (h.bound _ hh).false
  have hown : ∀ p ∈ ownedBy q m, p = q.fresh ∧ m.payload.deliveryMode = .durable := by
    intro p hp
    unfold ownedBy at hp
    split_ifs at hp with hd
    · exact ⟨by simpa using hp,hd⟩
    · simp at hp
  have hheld : ∀ p, QueueMessage.Held {q.pushMessage m with durableMsgs := t} p ↔
      q.Held p ∨ p = q.fresh := by
    intro p
    change (p ∈ q.msgs ++ [q.fresh] ∨ q.Waits p) ↔ _
    simp only [QueueMessage.Held,List.mem_append,List.mem_singleton]
    tauto
  have hpay : ∀ p, q.Held p → (q.pushMessage m).payload p = q.payload p :=
    fun p hp => QueueMessage.pushMessage_payload (h.bound p hp)
  refine ⟨?_,?_,?_,?_,?_,?_⟩
  · intro id p
    change t.lookup id = some p ↔ p ∈ own ++ ownedBy q m ∧ ((q.pushMessage m).payload p).id = id
    rw [ht,h.durable,List.mem_append,or_and_right]
    refine or_congr (and_congr_right fun hp => ?_) (and_congr_right fun hp => ?_)
    · rw [hpay p ((h.held p).mp hp).1]
    · rw [(hown p hp).1,QueueMessage.pushMessage_payload_fresh]
  · intro p
    rw [hheld,List.mem_append,h.held]
    change _ ↔ _ ∧ ((q.pushMessage m).payload p).deliveryMode = .durable
    by_cases hp : p = q.fresh
    · subst hp
      simp [hnew,ownedBy]
    · have hno : p ∉ ownedBy q m := fun hm => hp (hown p hm).1
      simp only [hno,hp,or_false]
      refine and_congr_right fun hh => ?_
      rw [QueueMessage.Durable,hpay p hh]
  · exact h.msgsNodup.append (by simp) (by simpa using fun hm => hnew (.inl hm))
  · intro id p hp
    exact (congrArg Payload.id (hpay p (.inr ⟨id,hp⟩))).trans (h.waiting id p hp)
  · intro p hp hw
    rcases List.mem_append.mp hp with hp | hp
    · exact h.apart p hp hw
    · rw [List.mem_singleton.mp hp] at hw
      exact hnew (.inr hw)
  · intro p hp
    change p < q.fresh+1
    rcases (hheld p).mp hp with hp | rfl
    · exact (h.bound p hp).trans (Nat.lt_succ_self _)
    · exact Nat.lt_succ_self _

/-- The ledger after a message joined the list. -/
theorem ledger_push {es es' : List Entry} (h : InMemory q (owners es)) (m : Message)
    (he : owners es' = owners es ++ ownedBy q m) :
    Ledger.of (q.pushMessage m) es' = (Ledger.of q es).insert m.payload := by
  have hpay : ∀ p, q.Held p → (q.pushMessage m).payload p = q.payload p :=
    fun p hp => QueueMessage.pushMessage_payload (h.bound p hp)
  have hm : q.msgs.map (q.pushMessage m).payload = q.msgs.map q.payload :=
    List.map_congr_left fun p hp => hpay p (.inl hp)
  have ho : (owners es).map (q.pushMessage m).payload = (owners es).map q.payload :=
    List.map_congr_left fun p hp => hpay p ((h.held p).mp hp).1
  ext1
  · simp [Ledger.of,Ledger.insert,hm]
  · funext id
    change (q.waitackMsgs.lookup id).map (q.pushMessage m).payload = _
    cases hw : q.waitackMsgs.lookup id with
    | none => simp [Ledger.of,Ledger.insert,hw]
    | some p => simp [Ledger.of,Ledger.insert,hw,hpay p (.inr ⟨id,hw⟩)]
  · simp only [Ledger.of,Ledger.insert,he,List.map_append,ho,ownedBy]
    split_ifs <;> simp

/-- The memory part after the head was handed out. -/
theorem hand (h : InMemory q own) {p : MessagePtr} {rest : List MessagePtr}
    (hm : q.msgs = p::rest) (hid : q.waitackMsgs.lookup (q.payload p).id = none) :
    InMemory {q with
      msgs := rest
      waitackMsgs := q.waitackMsgs.emplace (q.payload p).id p} own := by
  have hnd : p ∉ rest ∧ rest.Nodup := by
    have := h.msgsNodup
    rwa [hm,List.nodup_cons] at this
  have hwaits : ∀ x, QueueMessage.Waits {q with
      msgs := rest
      waitackMsgs := q.waitackMsgs.emplace (q.payload p).id p} x ↔ q.Waits x ∨ x = p :=
    QueueMessage.waits_emplace hid
  have hheld : ∀ x, QueueMessage.Held {q with
      msgs := rest
      waitackMsgs := q.waitackMsgs.emplace (q.payload p).id p} x ↔ q.Held x := by
    intro x
    simp only [QueueMessage.Held,hwaits,hm,List.mem_cons]
    tauto
  refine ⟨h.durable,?_,hnd.2,?_,?_,?_⟩
  · intro x; rw [hheld]; exact h.held x
  · intro i x hx
    rcases Table.lookup_emplace_eq_some.mp hx with hx | ⟨rfl,-,rfl⟩
    · exact h.waiting i x hx
    · rfl
  · intro x hx hw
    rcases (hwaits x).mp hw with hw | rfl
    · exact h.apart x (by rw [hm]; exact List.mem_cons_of_mem _ hx) hw
    · exact hnd.1 hx
  · intro x hx
    exact h.bound x ((hheld x).mp hx)

/-- Who waits after the message under an id was released. -/
theorem waits_erase (h : InMemory q own) {q' : QueueMessage} {id : String} {p : MessagePtr}
    (hw : q.waitackMsgs.lookup id = some p) (hw' : q'.waitackMsgs = q.waitackMsgs.erase id)
    (x : MessagePtr) : q'.Waits x ↔ q.Waits x ∧ x ≠ p := by
  simp only [QueueMessage.Waits,hw',Table.lookup_erase_eq_some]
  constructor
  · rintro ⟨i,hi,hx⟩
    refine ⟨⟨i,hx⟩,?_⟩
    rintro rfl
    exact hi ((h.waiting i x hx).symm.trans (h.waiting id x hw))
  · rintro ⟨⟨i,hx⟩,hne⟩
    refine ⟨i,?_,hx⟩
    rintro rfl
    exact hne (Option.some.inj (hx.symm.trans hw))

/-- The memory part after a waiting message was released. -/
theorem release (h : InMemory q own) {id : String} {p : MessagePtr}
    (hw : q.waitackMsgs.lookup id = some p) (heap' : MessagePtr → Message)
    (hp : ∀ x, x ≠ p → (heap' x).payload = q.payload x) (t : Table String MessagePtr)
    (ht : ∀ i x, t.lookup i = some x ↔ q.durableMsgs.lookup i = some x ∧ x ≠ p) :
    InMemory {q with
      heap := heap'
      durableMsgs := t
      waitackMsgs := q.waitackMsgs.erase id} (own.filter (· ≠ p)) := by
  have hwaits : ∀ x, QueueMessage.Waits {q with
      heap := heap'
      durableMsgs := t
      waitackMsgs := q.waitackMsgs.erase id} x ↔ q.Waits x ∧ x ≠ p := fun x => h.waits_erase hw rfl x
  have hheld : ∀ x, QueueMessage.Held {q with
      heap := heap'
      durableMsgs := t
      waitackMsgs := q.waitackMsgs.erase id} x ↔ q.Held x ∧ x ≠ p := by
    intro x
    simp only [QueueMessage.Held,hwaits,or_and_right]
    refine or_congr_left ⟨fun hx => ⟨hx,?_⟩,fun hx => hx.1⟩
    rintro rfl
    exact h.apart x hx ⟨id,hw⟩
  have hpay : ∀ x, x ≠ p → QueueMessage.payload {q with
      heap := heap'
      durableMsgs := t
      waitackMsgs := q.waitackMsgs.erase id} x = q.payload x := hp
  refine ⟨?_,?_,h.msgsNodup,?_,?_,?_⟩
  · intro i x
    rw [ht,h.durable,List.mem_filter,decide_eq_true_eq]
    constructor
    · rintro ⟨⟨hx,hi⟩,hne⟩
      exact ⟨⟨hx,hne⟩,by rw [hpay x hne]; exact hi⟩
    · rintro ⟨⟨hx,hne⟩,hi⟩
      exact ⟨⟨hx,by rw [← hpay x hne]; exact hi⟩,hne⟩
  · intro x
    rw [hheld,List.mem_filter,decide_eq_true_eq,h.held]
    constructor
    · rintro ⟨⟨hx,hd⟩,hne⟩
      exact ⟨⟨hx,hne⟩,by rw [QueueMessage.Durable,hpay x hne]; exact hd⟩
    · rintro ⟨⟨hx,hne⟩,hd⟩
      exact ⟨⟨hx,by rwa [QueueMessage.Durable,hpay x hne] at hd⟩,hne⟩
  · intro i x hx
    obtain ⟨hi,hx⟩ := Table.lookup_erase_eq_some.mp hx
    have hne : x ≠ p := by
      rintro rfl
      exact hi ((h.waiting i x hx).symm.trans (h.waiting id x hw))
    rw [hpay x hne]
    exact h.waiting i x hx
  · intro x hx hw'
    exact h.apart x hx ((hwaits x).mp hw').1
  · intro x hx
    exact h.bound x ((hheld x).mp hx).1

/-- The ids of the durable messages are their own. -/
theorem owner_id (h : InMemory q own) {p x : MessagePtr} (hp : p ∈ own) (hx : x ∈ own)
    (hi : (q.payload x).id = (q.payload p).id) : x = p := by
  have h1 := (h.durable (q.payload p).id x).mpr ⟨hx,hi⟩
  have h2 := (h.durable (q.payload p).id p).mpr ⟨hp,rfl⟩
  exact Option.some.inj (h1.symm.trans h2)

end InMemory

lemma toNat_place {n : ℕ} (h : n < 2^32) : (UInt32.ofNat n).toNat = n := by
  simp only [UInt32.toNat_ofNat']
  exact Nat.mod_eq_of_lt h

namespace OnFile
variable {name : String} {heap : MessagePtr → Message} {d : Disk} {es : List Entry}

/-- The file part after one record was appended for an object that had none. -/
theorem append (h : OnFile name heap d es) {p : MessagePtr} (hp : p ∉ owners es) (m : Message)
    (hv : m.payload.valid = "1")
    (hs : (journal (payloads heap es)).length+m.payload.record.length < 2^32) :
    OnFile name (Function.update heap p (placedAt (journal (payloads heap es)).length m))
      (d.put (resolve name) (some (journal (payloads heap es) ++ m.payload.record)))
      (es ++ [.live p]) := by
  have hne : ∀ x ∈ owners es, x ≠ p := fun x hx e => hp (e ▸ hx)
  have hc : OnFile name (Function.update heap p (placedAt (journal (payloads heap es)).length m))
      d es := h.congr fun x hx => Function.update_of_ne (hne x hx) _ _
  have hold : payloads (Function.update heap p (placedAt (journal (payloads heap es)).length m)) es =
      payloads heap es := payloads_congr fun x hx => by rw [Function.update_of_ne (hne x hx)]
  have hpay : payloads (Function.update heap p (placedAt (journal (payloads heap es)).length m))
      (es ++ [.live p]) = payloads heap es ++ [m.payload] := by
    rw [payloads_append,hold]
    simp [payloads,Entry.payload,placedAt]
  refine ⟨h.plan,?_,?_,?_,?_,?_,?_⟩
  · simpa [hpay] using hs
  · simp [hpay]
  · intro w hw; exact h.dead w (by simpa using hw)
  · intro x hx
    rw [owners_append,List.mem_append] at hx
    rcases hx with hx | hx
    · exact hc.alive x hx
    · rw [show x = p by simpa using hx]
      simpa [placedAt] using hv
  · rw [owners_append]
    exact h.nodup.append (by simp) (by simpa using hp)
  · rw [placed_append,hold]
    refine ⟨hc.placed,?_,trivial⟩
    intro x hx
    cases hx
    rw [record_length] at hs
    rw [Function.update_self,zero_add]
    constructor
    · exact toNat_place (by omega)
    · exact toNat_place (by omega)

end OnFile

namespace Consistent
variable {q : QueueMessage} {d : Disk} {es : List Entry}

/-- An insertion is accepted. A durable message gets the next record, any other none. -/
theorem insert (h : Consistent q d es) (bp : Option BasicProperties) (body : String)
    (durable : Bool) (uuid : String)
    (hid : Unclaimed q (insertedPayload bp body durable uuid))
    (hs : (journal (payloads q.heap es)).length +
      growth (insertedPayload bp body durable uuid) < 2^32) :
    (q.insert d bp body durable uuid).1 = true ∧
    ∃ es', Consistent (q.insert d bp body durable uuid).2.1 (q.insert d bp body durable uuid).2.2 es' ∧
      Ledger.of (q.insert d bp body durable uuid).2.1 es' =
        (Ledger.of q es).insert (insertedPayload bp body durable uuid) := by
  by_cases hd : (QueueMessage.newMessage bp body durable uuid).payload.deliveryMode = .durable
  · obtain ⟨msg,hmsg⟩ : ∃ msg : Message,
        msg = {QueueMessage.newMessage bp body durable uuid with
          payload := {(QueueMessage.newMessage bp body durable uuid).payload with valid := "1"}} :=
      ⟨_,rfl⟩
    have hpay : insertedPayload bp body durable uuid = msg.payload := by
      simp [insertedPayload,hd,hmsg]
    have hmode : msg.payload.deliveryMode = .durable := by rw [hmsg]; exact hd
    rw [hpay] at hid hs ⊢
    simp only [growth,hmode,↓reduceIte] at hs
    have hins := MessageMapper.insert_done msg h.onFile.plan h.onFile.file
    have hnew : q.fresh ∉ owners es := fun hm => (h.inMemory.owner_bound hm).false
    simp only [QueueMessage.insert,hd,↓reduceIte,insertDataFile,← hmsg,hins]
    refine ⟨trivial,es ++ [.live q.fresh],⟨?_,?_,?_,?_⟩,?_⟩
    · exact h.onFile.append hnew msg (by rw [hmsg]) hs
    · rw [owners_append]
      have hp := h.inMemory.push (placedAt (journal (payloads q.heap es)).length msg)
        (q.durableMsgs.emplace msg.payload.id q.fresh)
        (fun id p => by
          rw [Table.lookup_emplace_eq_some]
          refine or_congr_right ?_
          have hnone := hid hmode
          simp only [ownedBy,placedAt,hmode,↓reduceIte,List.mem_singleton,hnone,true_and]
          exact ⟨fun h => ⟨h.2,h.1.symm⟩,fun h => ⟨h.2.symm,h.1⟩⟩)
      have hown : ownedBy q (placedAt (journal (payloads q.heap es)).length msg) =
          owners [.live q.fresh] := by simp [ownedBy,placedAt,hmode]
      rw [hown] at hp
      exact hp.congr rfl rfl rfl rfl rfl
    · have hl := h.onFile.length_lt
      have ht := h.total
      simp only [UInt64.toNat_add,ht,List.length_append]
      simp
      omega
    · have hl := h.onFile.length_lt
      have ho : (owners es).length ≤ es.length := length_owners_le
      have ht := h.valid
      simp only [UInt64.toNat_add,ht,owners_append,List.length_append]
      simp
      omega
    · exact h.inMemory.ledger_push (placedAt (journal (payloads q.heap es)).length msg)
        (by simp [ownedBy,placedAt,hmode])
  · have hpay : insertedPayload bp body durable uuid =
        (QueueMessage.newMessage bp body durable uuid).payload := by simp [insertedPayload,hd]
    have hown : ownedBy q (QueueMessage.newMessage bp body durable uuid) = [] := by
      simp [ownedBy,hd]
    have hp := h.inMemory.push (QueueMessage.newMessage bp body durable uuid) q.durableMsgs
      (by simp [hown])
    simp only [hpay,QueueMessage.insert,hd,↓reduceIte]
    rw [hown,List.append_nil] at hp
    refine ⟨trivial,es,⟨?_,hp.congr rfl rfl rfl rfl rfl,h.total,h.valid⟩,
      h.inMemory.ledger_push _ (by simp [hown])⟩
    exact h.onFile.congr fun p hp => Function.update_of_ne (h.inMemory.owner_bound hp).ne _ _

/-- An insertion makes the file longer by one record, or leaves it. -/
theorem insert_size (h : Consistent q d es) (bp : Option BasicProperties) (body : String)
    (durable : Bool) (uuid : String) :
    FileHelper.size (q.insert d bp body durable uuid).2.2
        (q.insert d bp body durable uuid).2.1.mapper.nameDataFile =
      (journal (payloads q.heap es)).length + growth (insertedPayload bp body durable uuid) := by
  by_cases hd : (QueueMessage.newMessage bp body durable uuid).payload.deliveryMode = .durable
  · have hins := MessageMapper.insert_done
      {QueueMessage.newMessage bp body durable uuid with
        payload := {(QueueMessage.newMessage bp body durable uuid).payload with valid := "1"}}
      h.onFile.plan h.onFile.file
    have hmode : (insertedPayload bp body durable uuid).deliveryMode = .durable := by
      simp only [insertedPayload,hd,↓reduceIte]
      exact hd
    simp only [growth,hmode,↓reduceIte]
    simp only [QueueMessage.insert,hd,↓reduceIte,insertDataFile,hins]
    refine (FileHelper.size_eq (d := d.put _ _) h.onFile.plan Disk.put_self).trans ?_
    simp [insertedPayload,hd]
  · have hmode : (insertedPayload bp body durable uuid).deliveryMode ≠ .durable := by
      simp only [insertedPayload,hd,↓reduceIte]
      exact hd
    simp only [growth,hmode,↓reduceIte,QueueMessage.insert,hd]
    exact FileHelper.size_eq h.onFile.plan h.onFile.file

/-- Taking the head keeps the invariant as long as no waiting message has its id. -/
theorem front (h : Consistent q d es)
    (hid : ∀ p rest, q.msgs = p::rest → q.waitackMsgs.lookup (q.payload p).id = none) :
    Consistent q.front.2 d es ∧
      Ledger.of q.front.2 es = (Ledger.of q es).front ∧
      q.front.1.map q.payload = (Ledger.of q es).available.head? := by
  cases hm : q.msgs with
  | nil =>
    rw [QueueMessage.front_nil hm]
    exact ⟨h,by simp [Ledger.front,Ledger.of,hm],by simp [Ledger.of,hm]⟩
  | cons p rest =>
    have hnone := hid p rest hm
    have hf : q.front = (some p,{q with
        msgs := rest
        waitackMsgs := q.waitackMsgs.emplace (q.payload p).id p}) := QueueMessage.front_cons hm
    rw [hf]
    refine ⟨⟨h.onFile,h.inMemory.hand hm hnone,h.total,h.valid⟩,?_,by simp [Ledger.of,hm]⟩
    ext1
    · change rest.map q.payload = _
      simp [Ledger.front,Ledger.of,hm]
    · funext id
      change ((q.waitackMsgs.emplace (q.payload p).id p).lookup id).map q.payload = _
      simp only [Ledger.front,Ledger.of,hm,List.map_cons]
      by_cases hi : id = (q.payload p).id
      · subst hi; simp [Table.lookup_emplace_none hnone]
      · simp [hi]
    · change (owners es).map q.payload = _
      simp [Ledger.front,Ledger.of,hm]

end Consistent
end MessageQueue

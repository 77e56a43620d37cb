import MessageQueue.Store.Guarantees

/-! Accepted messages when publishers choose the ids freely. The books record, beside the store,
which objects were accepted and which of them were handed out, up to their acknowledgement. -/
namespace MessageQueue
open Base Payload MessageMapper Entry

/-- A store and what its callers know: the objects whose insertion was accepted and whose
delivery is not acknowledged, and those among them that `front` returned. -/
structure Books where
  store : Store
  accepted : List MessagePtr
  delivered : List MessagePtr

namespace Books
variable (check : QueueMessage.Policy)

/-- The delivered message that an acknowledgement under this id is for. -/
def acknowledged (b : Books) (msgId : String) : Option MessagePtr :=
  b.delivered.find? fun p => (b.store.queue.payload p).id = msgId

def apply (b : Books) (op : Op) : Books :=
  match op with
  | .insert bp body durable uuid =>
    let r := b.store.queue.insert b.store.disk bp body durable uuid
    { b with
      store := b.store.apply check op
      accepted := if r.1 then b.accepted ++ [b.store.queue.fresh] else b.accepted }
  | .front =>
    { b with
      store := b.store.apply check op
      delivered := b.delivered ++ b.store.queue.front.1.toList }
  | .remove msgId =>
    match b.acknowledged msgId with
    | some p =>
      { store := b.store.apply check op
        accepted := b.accepted.filter (· ≠ p)
        delivered := b.delivered.filter (· ≠ p) }
    | none => {b with store := b.store.apply check op}
  | _ => {b with store := b.store.apply check op}

/-- A process that has just recovered: what it found on file is accepted. -/
def start (m : MessageMapper) (d : Disk) : Books :=
  let s := (Store.start m d).apply check .recovery
  {store := s, accepted := s.queue.msgs, delivered := []}

/-- The calls that the books are about. -/
def Call (_ : Books) : Op → Prop
  | .insert .. => True
  | .front => True
  | .remove _ => True
  | _ => False

/-- The calls that never meet an id in use: a durable message is inserted under an id that no
durable message has, into a file that stays below 2^32 bytes, and no message is taken while
another one waits under its id. -/
def Careful (b : Books) : Op → Prop
  | .insert bp body durable uuid =>
    Unclaimed b.store.queue (insertedPayload bp body durable uuid) ∧
      (b.store.apply check (.insert bp body durable uuid)).fileSize < 2^32
  | .front =>
    ∀ p ∈ b.store.queue.msgs.head?,
      b.store.queue.waitackMsgs.lookup (b.store.queue.payload p).id = none
  | _ => True

instance (b : Books) : ∀ op, Decidable (b.Call op)
  | .insert .. | .front | .remove _ => .isTrue trivial
  | .construct | .recovery => .isFalse id

instance (b : Books) : ∀ op, Decidable (b.Careful check op)
  | .insert bp body durable uuid => inferInstanceAs (Decidable
    (Unclaimed b.store.queue (insertedPayload bp body durable uuid) ∧
      (b.store.apply check (.insert bp body durable uuid)).fileSize < 2^32))
  | .front => inferInstanceAs (Decidable (∀ p ∈ b.store.queue.msgs.head?,
    b.store.queue.waitackMsgs.lookup (b.store.queue.payload p).id = none))
  | .construct | .recovery | .remove _ => .isTrue trivial

/-- All runs of insertions, deliveries and acknowledgements. -/
def system : Lts Books Op := (Lts.ofFun (apply check)).guarded Call

/-- The runs whose calls are careful. -/
def carefulSystem : Lts Books Op :=
  (Lts.ofFun (apply check)).guarded fun b op => b.Call op ∧ b.Careful check op

end Books

/-- The acknowledgement of `p` removes its own record and its own place among the waiting
messages, and no other. -/
def RemovesOwn (check : QueueMessage.Policy) (q : QueueMessage) (d : Disk) (p : MessagePtr) :
    Prop :=
  let r := q.remove check d (q.payload p).id
  ∃ es es', OnFile q.mapper.nameDataFile q.heap d es ∧
    OnFile r.2.1.mapper.nameDataFile r.2.1.heap r.2.2 es' ∧
    owners es' = (owners es).filter (· ≠ p) ∧
    r.2.1.msgs = q.msgs ∧ ∀ x, r.2.1.Waits x ↔ q.Waits x ∧ x ≠ p

/-- The books balance: every accepted message is at exactly one place, the durable ones are in
the durable table, and an acknowledgement is for one message only. -/
structure Balanced (check : QueueMessage.Policy) (b : Books) : Prop where
  place : ∀ p ∈ b.accepted,
    p ∈ b.store.queue.msgs ∧ ¬ b.store.queue.Waits p ∨
      p ∉ b.store.queue.msgs ∧ b.store.queue.Waits p
  once : b.store.queue.msgs.Nodup
  durable : ∀ p ∈ b.accepted, b.store.queue.Durable p →
    b.store.queue.durableMsgs.lookup (b.store.queue.payload p).id = some p
  ack : ∀ p ∈ b.delivered, RemovesOwn check b.store.queue b.store.disk p

/-- What carefulness keeps: the store is consistent, and the books list what it holds. -/
structure Audited (b : Books) : Prop where
  store : ∃ es, Consistent b.store.queue b.store.disk es
  accepted : ∀ p, p ∈ b.accepted ↔ b.store.queue.Held p
  delivered : ∀ p, p ∈ b.delivered ↔ b.store.queue.Waits p

theorem QueueMessage.waits_iff_entries {q : QueueMessage} {p : MessagePtr} :
    q.Waits p ↔ p ∈ q.waitackMsgs.entries.map Sigma.snd := by
  simp only [Waits,AList.mem_lookup_iff.symm,List.mem_map,← Option.mem_def]
  constructor
  · rintro ⟨i,hi⟩
    exact ⟨⟨i,p⟩,hi,rfl⟩
  · rintro ⟨⟨i,x⟩,hi,rfl⟩
    exact ⟨i,hi⟩

namespace InMemory
variable {q : QueueMessage} {own : List MessagePtr}

/-- A message waits under its own id. -/
theorem waits_iff (h : InMemory q own) {p : MessagePtr} :
    q.Waits p ↔ q.waitackMsgs.lookup (q.payload p).id = some p := by
  constructor
  · rintro ⟨i,hi⟩
    rw [h.waiting i p hi]
    exact hi
  · exact fun hp => ⟨_,hp⟩

end InMemory

namespace Audited
variable {check : QueueMessage.Policy} {b b' : Books}

theorem start (m : MessageMapper) {d : Disk} {ps : List Payload} (hp : d.plan = ∅)
    (he : FileHelper.contents d m.nameDataFile = journal ps) (h : Leftover ps) :
    Audited (.start check m d) := by
  obtain ⟨hplan,hfile⟩ := m.construct_done hp
  rw [he] at hfile
  obtain ⟨es,hc,hl⟩ := Consistent.recovery m hplan hfile h
  have hw : ∀ p, ¬ (Books.start check m d).store.queue.Waits p := by
    rintro p ⟨i,hi⟩
    have := congrFun (congrArg Ledger.waiting hl) i
    simp only [Ledger.of,Option.map_eq_none_iff] at this
    exact absurd (hi.symm.trans this) (by simp)
  refine ⟨⟨es,hc⟩,?_,?_⟩
  · intro p
    exact ⟨.inl,fun hh => hh.resolve_right (hw p)⟩
  · intro p
    simp only [hw p,iff_false]
    exact List.not_mem_nil

theorem insert (h : Audited b) (bp : Option BasicProperties) (body : String) (durable : Bool)
    (uuid : String) (hc : b.Careful check (.insert bp body durable uuid)) :
    Audited (b.apply check (.insert bp body durable uuid)) := by
  obtain ⟨es,hs⟩ := h.store
  obtain ⟨hid,hsize⟩ := hc
  have hgrow := hs.insert_size bp body durable uuid
  obtain ⟨hok,es',hs',-⟩ := hs.insert bp body durable uuid hid (by rw [← hgrow]; exact hsize)
  obtain ⟨d',hq⟩ | ⟨q',d',m,hq,-,-,hm,hw,-⟩ :=
    b.store.queue.insert_cases b.store.disk bp body durable uuid
  · simp [hq] at hok
  have hwaits : ∀ p, (b.apply check (.insert bp body durable uuid)).store.queue.Waits p ↔
      b.store.queue.Waits p := by
    intro p
    simp only [QueueMessage.Waits,Books.apply,Store.apply,hq,hw]
  refine ⟨⟨es',hs'⟩,?_,?_⟩
  · intro p
    rw [QueueMessage.Held,hwaits]
    simp only [Books.apply,Store.apply,hq,↓reduceIte,hm,List.mem_append,h.accepted,
      QueueMessage.Held]
    tauto
  · intro p
    rw [hwaits]
    exact h.delivered p

theorem front (h : Audited b) (hc : b.Careful check .front) :
    Audited (b.apply check .front) := by
  obtain ⟨es,hs⟩ := h.store
  have hc : ∀ p rest, b.store.queue.msgs = p::rest →
      b.store.queue.waitackMsgs.lookup (b.store.queue.payload p).id = none :=
    fun p rest hm => hc p (by simp [hm])
  obtain ⟨hs',-,-⟩ := hs.front hc
  cases hm : b.store.queue.msgs with
  | nil =>
    have hb : b.apply check .front = b := by
      simp [Books.apply,Store.apply,QueueMessage.front_nil hm]
    rw [hb]
    exact h
  | cons x rest =>
    have hnone := hc x rest hm
    have hf : b.store.queue.front = (some x,{b.store.queue with
        msgs := rest
        waitackMsgs := b.store.queue.waitackMsgs.emplace (b.store.queue.payload x).id x}) :=
      QueueMessage.front_cons hm
    have hwaits : ∀ p, (b.apply check .front).store.queue.Waits p ↔
        b.store.queue.Waits p ∨ p = x := by
      intro p
      simp only [Books.apply,Store.apply,hf]
      exact QueueMessage.waits_emplace hnone p
    refine ⟨⟨es,hs'⟩,?_,?_⟩
    · intro p
      rw [QueueMessage.Held,hwaits]
      simp only [Books.apply,Store.apply,hf,h.accepted,QueueMessage.Held,hm,List.mem_cons]
      tauto
    · intro p
      rw [hwaits]
      simp only [Books.apply,hf,List.mem_append,h.delivered,Option.toList_some,
        List.mem_singleton]

theorem remove (h : Audited b) (msgId : String) : Audited (b.apply check (.remove msgId)) := by
  obtain ⟨es,hs⟩ := h.store
  obtain ⟨-,es',hs',-,hp⟩ := hs.remove check msgId
  have hack : b.acknowledged msgId = b.store.queue.waitackMsgs.lookup msgId := by
    cases hf : b.acknowledged msgId with
    | some p =>
      have hid : (b.store.queue.payload p).id = msgId := by simpa using List.find?_some hf
      have hw := (h.delivered p).mp (List.mem_of_find?_eq_some hf)
      rw [hs.inMemory.waits_iff,hid] at hw
      exact hw.symm
    | none =>
      cases hw : b.store.queue.waitackMsgs.lookup msgId with
      | none => rfl
      | some p =>
        have hno := List.find?_eq_none.mp hf p ((h.delivered p).mpr ⟨msgId,hw⟩)
        simp [hs.inMemory.waiting msgId p hw] at hno
  cases hw : b.store.queue.waitackMsgs.lookup msgId with
  | none =>
    rw [hw] at hack
    have hr : b.store.queue.remove check b.store.disk msgId =
        (true,b.store.queue,b.store.disk) := by simp [QueueMessage.remove,hw]
    have hb : b.apply check (.remove msgId) = b := by
      simp [Books.apply,hack,Store.apply,hr]
    rw [hb]
    exact h
  | some p =>
    rw [hw] at hack
    obtain ⟨-,hm,hw'⟩ := hp p hw
    have hstore : (b.apply check (.remove msgId)).store = b.store.apply check (.remove msgId) := by
      simp [Books.apply,hack]
    have hwaits : ∀ x, (b.apply check (.remove msgId)).store.queue.Waits x ↔
        b.store.queue.Waits x ∧ x ≠ p := by
      intro x
      rw [hstore]
      exact hs.inMemory.waits_erase hw hw' x
    have hmsgs : ∀ x, x ∈ (b.apply check (.remove msgId)).store.queue.msgs ↔
        x ∈ b.store.queue.msgs ∧ x ≠ p := by
      intro x
      rw [hstore]
      change x ∈ (b.store.queue.remove check b.store.disk msgId).2.1.msgs ↔ _
      rw [hm]
      refine ⟨fun hx => ⟨hx,?_⟩,fun hx => hx.1⟩
      rintro rfl
      exact hs.inMemory.apart x hx ⟨msgId,hw⟩
    refine ⟨⟨es',by rw [hstore]; exact hs'⟩,?_,?_⟩
    · intro x
      rw [QueueMessage.Held,hwaits,hmsgs,← or_and_right]
      simp only [Books.apply,hack,List.mem_filter,decide_eq_true_eq,h.accepted]
      rfl
    · intro x
      rw [hwaits]
      simp only [Books.apply,hack,List.mem_filter,decide_eq_true_eq,h.delivered]

/-- Audited books balance. -/
theorem balanced (h : Audited b) : Balanced check b := by
  obtain ⟨es,hs⟩ := h.store
  refine ⟨?_,hs.inMemory.msgsNodup,?_,?_⟩
  · intro p hp
    rcases (h.accepted p).mp hp with hm | hw
    · exact .inl ⟨hm,hs.inMemory.apart p hm⟩
    · exact .inr ⟨fun hm => hs.inMemory.apart p hm hw,hw⟩
  · intro p hp hd
    exact (hs.inMemory.durable _ p).mpr
      ⟨(hs.inMemory.held p).mpr ⟨(h.accepted p).mp hp,hd⟩,rfl⟩
  · intro p hp
    have hw := hs.inMemory.waits_iff.mp ((h.delivered p).mp hp)
    obtain ⟨-,es',hs',-,ho⟩ := hs.remove check (b.store.queue.payload p).id
    obtain ⟨ho,hm,hw'⟩ := ho p hw
    exact ⟨es,es',hs.onFile,hs'.onFile,ho,hm,hs.inMemory.waits_erase hw hw'⟩

/-- A careful call keeps the books audited. -/
theorem step (h : Audited b) {op : Op} (step : (Books.carefulSystem check).step b op b') :
    Audited b' := by
  obtain ⟨⟨hcall,hc⟩,rfl⟩ := step
  cases op with
  | construct => exact hcall.elim
  | recovery => exact hcall.elim
  | insert bp body durable uuid => exact h.insert bp body durable uuid hc
  | front => exact h.front hc
  | remove msgId => exact h.remove msgId

end Audited

/-- No accepted message falls out of the books in a run of careful calls. -/
theorem careful_balanced {check : QueueMessage.Policy} {m : MessageMapper} {d : Disk}
    {ps : List Payload} {ops : List Op} {b : Books} (hp : d.plan = ∅)
    (he : FileHelper.contents d m.nameDataFile = journal ps) (h : Leftover ps)
    (run : (Books.carefulSystem check).Run (.start check m d) ops b) : Balanced check b :=
  (run.invariant (Audited.start m hp he h) fun h step => Audited.step h step).balanced

/-- Two messages under one id, as a publisher that names all its messages alike sends them, both
taken by consumers. -/
def twinCalls : List Op :=
  [.insert (some ⟨"m1",.durable,"news.music"⟩) "first" true "",
    .insert (some ⟨"m1",.durable,"news.music"⟩) "second" true "",.front,.front]

/-- The second message under an id is at no place once both have been taken. -/
theorem twin_lost : ¬ ∀ (m : MessageMapper) (d : Disk) (ops : List Op) (b : Books),
    d.plan = ∅ → FileHelper.contents d m.nameDataFile = [] →
    (Books.system QueueMessage.garbageCollectionCheck).Run
      (.start QueueMessage.garbageCollectionCheck m d) ops b →
    Balanced QueueMessage.garbageCollectionCheck b := by
  intro h
  have hb := h ordersMapper blankDisk twinCalls _ rfl (by decide) (Lts.Admitted.run (by decide))
  rcases hb.place 1 (by decide) with hm | hw
  · exact absurd hm.1 (by decide)
  · exact absurd hw.2 (by rw [QueueMessage.waits_iff_entries]; decide)

theorem careful_balanced_orders :
    Balanced QueueMessage.garbageCollectionCheck (orderCalls.tail.foldl
      (Books.apply QueueMessage.garbageCollectionCheck)
      (.start QueueMessage.garbageCollectionCheck ordersMapper blankDisk)) :=
  careful_balanced rfl (by decide : _ = Payload.journal []) .nil (Lts.Admitted.run (by decide))

end MessageQueue

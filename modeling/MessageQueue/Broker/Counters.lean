import MessageQueue.Broker.Isolation
import MessageQueue.Store.Garbage

/-! The two counters of a store when the ids are whatever the publishers sent. They count the
records of the file, while every durable message that the queue holds will be taken off the valid
ones once; a compaction counts anew, and must find as many records as messages are held. -/
namespace MessageQueue
open Base Payload MessageMapper Entry

/-- How many objects of a list are durable. -/
def durables (heap : MessagePtr → Message) (ps : List MessagePtr) : ℕ :=
  ps.countP fun p => (heap p).payload.deliveryMode = .durable

theorem durables_congr {heap heap' : MessagePtr → Message} {ps : List MessagePtr}
    (h : ∀ p ∈ ps, (heap' p).payload.deliveryMode = (heap p).payload.deliveryMode) :
    durables heap' ps = durables heap ps :=
  List.countP_congr fun p hp => by rw [h p hp]

@[simp] theorem durables_append (heap : MessagePtr → Message) (ps ps' : List MessagePtr) :
    durables heap (ps ++ ps') = durables heap ps + durables heap ps' := List.countP_append

@[simp] theorem durables_cons (heap : MessagePtr → Message) (p : MessagePtr)
    (ps : List MessagePtr) : durables heap (p::ps) =
      durables heap ps + if (heap p).payload.deliveryMode = .durable then 1 else 0 := by
  simp [durables,List.countP_cons]

namespace QueueMessage

/-- The objects that are available or wait. -/
def holding (q : QueueMessage) : List MessagePtr :=
  q.msgs ++ q.waitackMsgs.entries.map Sigma.snd

/-- How many of them are durable. -/
def durableHeld (q : QueueMessage) : ℕ := durables q.heap q.holding

variable {q q' : QueueMessage} {p : MessagePtr}

theorem mem_holding : p ∈ q.holding ↔ q.Held p := by
  simp only [holding,Held,Waits,List.mem_append,List.mem_map]
  refine or_congr_right ⟨fun h => ?_,fun h => ?_⟩
  · obtain ⟨⟨id,x⟩,hm,rfl⟩ := h
    exact ⟨id,AList.mem_lookup_iff.mpr hm⟩
  · obtain ⟨id,h⟩ := h
    exact ⟨⟨id,p⟩,AList.mem_lookup_iff.mp h,rfl⟩

/-- Objects that keep their mode count the same. -/
theorem durableHeld_congr (hm : q'.msgs = q.msgs) (hw : q'.waitackMsgs = q.waitackMsgs)
    (hp : ∀ p, q.Held p → (q'.payload p).deliveryMode = (q.payload p).deliveryMode) :
    q'.durableHeld = q.durableHeld := by
  have hh : q'.holding = q.holding := by rw [holding,holding,hm,hw]
  rw [durableHeld,durableHeld,hh]
  exact durables_congr fun p hmem => hp p (mem_holding.mp hmem)

/-- A new object at the tail. -/
theorem durableHeld_push (hb : q.Bounded) (m : Message) : (q.pushMessage m).durableHeld =
    q.durableHeld + if m.payload.deliveryMode = .durable then 1 else 0 := by
  have hcount : ∀ l : List MessagePtr, (∀ p ∈ l, q.Held p) →
      durables (q.pushMessage m).heap l = durables q.heap l := fun l hl =>
    durables_congr fun p hp => by rw [show (q.pushMessage m).heap p = q.heap p from
      Function.update_of_ne (hb p (hl p hp)).ne _ _]
  have hnew : ((q.pushMessage m).heap q.fresh).payload = m.payload := pushMessage_payload_fresh
  have hmsgs := hcount q.msgs fun p hp => .inl hp
  have hwaits := hcount (q.waitackMsgs.entries.map Sigma.snd) fun p hp =>
    mem_holding.mp (List.mem_append_right _ hp)
  change durables _ ((q.msgs ++ [q.fresh]) ++ q.waitackMsgs.entries.map Sigma.snd) = _
  simp only [durables_append,durables_cons,hmsgs,hwaits,hnew,durableHeld,holding]
  simp only [durables,List.countP_nil]
  omega

/-- The head joins the messages that wait, unless one waits under its id already. -/
theorem durableHeld_front : q.front.2.durableHeld ≤ q.durableHeld := by
  unfold front
  cases hm : q.msgs with
  | nil => exact le_rfl
  | cons p rest =>
    simp only [durableHeld,holding,hm]
    cases hw : q.waitackMsgs.lookup (q.heap p).payload.id with
    | some x =>
      rw [Table.emplace_some hw]
      simp only [durables_append,durables_cons]
      omega
    | none =>
      have he : (q.waitackMsgs.emplace (q.heap p).payload.id p).entries =
          ⟨(q.heap p).payload.id,p⟩::q.waitackMsgs.entries := by
        unfold Table.emplace
        rw [hw]
        exact AList.entries_insert_of_notMem (AList.lookup_eq_none.mp hw)
      simp only [he,List.map_cons,durables_append,durables_cons]
      omega

/-- A message that is released is taken off. -/
theorem durableHeld_release {id : String} (hw : q.waitackMsgs.lookup id = some p) :
    durableHeld {q with waitackMsgs := q.waitackMsgs.erase id} +
      (if (q.payload p).deliveryMode = .durable then 1 else 0) = q.durableHeld := by
  have hperm := (Table.perm_erase hw).map Sigma.snd
  have hwaits : durables q.heap (q.waitackMsgs.entries.map Sigma.snd) =
      durables q.heap ((⟨id,p⟩::(q.waitackMsgs.erase id).entries).map Sigma.snd) :=
    hperm.countP_eq _
  simp only [durableHeld,holding,durables_append,hwaits,List.map_cons,durables_cons]
  exact Nat.add_assoc _ _ _

/-- The loaded records that do not become one more durable message: `adopt` knows their id, or they
are not durable. -/
def covered (known : String → Bool) : List Payload → ℕ
  | [] => 0
  | p::ps => (if known p.id = false ∧ p.deliveryMode = .durable then 0 else 1) +
      covered (fun id => id = p.id || known id) ps

/-- The ids of the durable table. -/
def knows (q : QueueMessage) (id : String) : Bool := (q.durableMsgs.lookup id).isSome

theorem adopt_unknown {m : Message} (h : q.durableMsgs.lookup m.payload.id = none) : q.adopt m =
    {q.pushMessage m with durableMsgs := q.durableMsgs.emplace m.payload.id q.fresh} := by
  simp only [adopt,h]

/-- One round of the compaction loop: a known message stays as it is, any other is queued. -/
theorem adopt_step (hb : q.Bounded) (m : Message) :
    (q.adopt m).durableHeld = q.durableHeld +
        (if q.knows m.payload.id = false ∧ m.payload.deliveryMode = .durable then 1 else 0) ∧
      (q.adopt m).waitackMsgs = q.waitackMsgs ∧
      (q.adopt m).knows = fun id => id = m.payload.id || q.knows id := by
  unfold adopt
  cases hl : q.durableMsgs.lookup m.payload.id with
  | none =>
    have hnew : q.knows m.payload.id = false := by simp [knows,hl]
    refine ⟨?_,rfl,?_⟩
    · simp only [hnew,true_and]
      exact q.durableHeld_push hb m
    · funext id
      by_cases hid : id = m.payload.id
      · subst hid
        simp [knows,Table.lookup_emplace_none hl]
      · simp [knows,hid]
  | some x =>
    have hold : q.knows m.payload.id = true := by simp [knows,hl]
    refine ⟨?_,rfl,?_⟩
    · simp only [hold,Bool.true_eq_false,false_and,↓reduceIte,Nat.add_zero]
      refine durableHeld_congr rfl rfl fun p _ => ?_
      by_cases hp : p = x
      · subst hp; simp [payload,store]
      · simp [payload,store,hp]
    · funext id
      by_cases hid : id = m.payload.id
      · subst hid
        simp [hold,show knows (q.store x _) = q.knows from rfl]
      · simp [hid,knows,store]

/-- What is in use keeps its payload. -/
theorem adopt_payload (m : Message) (hp : p < q.fresh) :
    (q.adopt m).payload p = q.payload p ∧ p < (q.adopt m).fresh := by
  unfold adopt
  cases hl : q.durableMsgs.lookup m.payload.id with
  | none => exact ⟨pushMessage_payload hp,Nat.lt_succ_of_lt hp⟩
  | some x =>
    refine ⟨?_,hp⟩
    by_cases hx : p = x
    · subst hx; simp [payload,store]
    · simp [payload,store,hx]

/-- The loop queues the records that are not covered. -/
theorem adopt_durableHeld (ps : List Payload) (off : ℕ) (hb : q.Bounded) :
    ((placed off ps).foldl adopt q).durableHeld + covered q.knows ps =
        q.durableHeld + ps.length ∧
      ((placed off ps).foldl adopt q).waitackMsgs = q.waitackMsgs ∧
      ∀ p < q.fresh, ((placed off ps).foldl adopt q).payload p = q.payload p := by
  induction ps generalizing q off with
  | nil => exact ⟨rfl,rfl,fun _ _ => rfl⟩
  | cons w ps ih =>
    obtain ⟨hheld,hwaits,hknows⟩ := q.adopt_step hb (placedAt off {payload := w})
    obtain ⟨ihheld,ihwaits,ihpay⟩ :=
      @ih _ (off+w.record.length) (hb.adopt (placedAt off {payload := w}))
    rw [hknows,hheld] at ihheld
    refine ⟨?_,ihwaits.trans hwaits,fun p hp => ?_⟩
    rotate_left
    · obtain ⟨hpay,hlt⟩ := q.adopt_payload (placedAt off {payload := w}) hp
      exact (ihpay p hlt).trans hpay
    rw [placed,List.foldl_cons,covered,List.length_cons]
    change _ + covered (fun id => decide (id = w.id) || q.knows id) ps = q.durableHeld +
      (if q.knows w.id = false ∧ w.deliveryMode = .durable then 1 else 0) + ps.length at ihheld
    split_ifs at ihheld ⊢ <;> omega

/-- What recovery queues. -/
theorem recover_durableHeld (ms : List Message) (hb : q.Bounded) :
    (ms.foldl recover q).durableHeld ≤ q.durableHeld + ms.length := by
  induction ms generalizing q with
  | nil => exact le_rfl
  | cons m ms ih =>
    have hrest := @ih (q.recover m) (hb.pushMessage m _)
    have hstep : (q.recover m).durableHeld = q.durableHeld +
        if m.payload.deliveryMode = .durable then 1 else 0 := q.durableHeld_push hb m
    rw [List.foldl_cons,List.length_cons]
    split_ifs at hstep <;> omega

end QueueMessage

/-- Clearing the flag of a record, wherever its message believes it to be, leaves a file that is
not shorter, and longer only as far as a place reaches. -/
theorem MessageMapper.remove_file (m : MessageMapper) {d : Disk} {f : Bytes} (msg : Message)
    (hp : d.plan = ∅) (hf : d.files (resolve m.nameDataFile) = some f) :
    (m.remove d msg).2.1 = {msg with payload := {msg.payload with valid := "0"}} ∧
      (m.remove d msg).2.2.plan = ∅ ∧
      ∃ f', (m.remove d msg).2.2.files (resolve m.nameDataFile) = some f' ∧
        f.length ≤ f'.length ∧ f'.length ≤ max f.length (2^33) := by
  unfold remove
  dsimp only
  split_ifs with hlen
  · exact ⟨rfl,hp,f,hf,le_rfl,le_max_left _ _⟩
  · rw [FileHelper.write_done hp hf]
    refine ⟨rfl,hp,_,Disk.put_self,?_⟩
    have hoff := msg.offset.toNat_lt
    have hmsg := msg.length.toNat_lt
    rw [Bytes.length_splice]
    split_ifs
    · exact ⟨le_rfl,le_max_left _ _⟩
    · omega

namespace QueueMessage
variable {q : QueueMessage} {d : Disk} {f : Bytes} {msgId : String}

/-- What an acknowledgement that releases no durable message does: nothing to the counters and the
file. -/
structure Unpaid (q : QueueMessage) (d : Disk) (r : QueueMessage × Disk) : Prop where
  disk : r.2 = d
  total : r.1.totalCount = q.totalCount
  valid : r.1.validCount = q.validCount
  held : r.1.durableHeld = q.durableHeld

/-- One that releases a durable message and finds no reason for a compaction. -/
structure Paid (q : QueueMessage) (f : Bytes) (r : QueueMessage × Disk) : Prop where
  plan : r.2.plan = ∅
  file : ∃ f', r.2.files (resolve q.mapper.nameDataFile) = some f' ∧ f.length ≤ f'.length ∧
    f'.length ≤ max f.length (2^33)
  total : r.1.totalCount = q.totalCount
  valid : r.1.validCount = q.validCount-1
  held : r.1.durableHeld+1 = q.durableHeld

/-- One that releases a durable message and has the file compacted, in which it finds `ps`. -/
structure Compacted (q : QueueMessage) (msgId : String) (ps : List Payload)
    (r : QueueMessage × Disk) : Prop where
  plan : r.2.plan = ∅
  file : r.2.files (resolve q.mapper.nameDataFile) = some (journal ps)
  total : r.1.totalCount = UInt64.ofNat ps.length
  valid : r.1.validCount = UInt64.ofNat ps.length
  held : r.1.durableHeld+1+covered (fun id => ((q.durableMsgs.erase msgId).lookup id).isSome) ps =
    q.durableHeld+ps.length

theorem remove_unpaid (check : Policy) (h : ∀ p, q.waitackMsgs.lookup msgId = some p →
    (q.payload p).deliveryMode ≠ .durable) : q.Unpaid d (q.remove check d msgId).2 := by
  unfold remove
  cases hw : q.waitackMsgs.lookup msgId with
  | none => exact ⟨rfl,rfl,rfl,rfl⟩
  | some p =>
    have hmode : ¬ (q.heap p).payload.deliveryMode = .durable := h p hw
    have hrel := durableHeld_release hw
    have hmode' : ¬ (q.payload p).deliveryMode = .durable := hmode
    simp only [hmode',↓reduceIte,Nat.add_zero] at hrel
    simp only [hmode,↓reduceIte]
    exact ⟨rfl,rfl,rfl,hrel⟩

theorem settled_mode (p x : MessagePtr) :
    ((q.settled msgId p).payload x).deliveryMode = (q.payload x).deliveryMode := by
  by_cases hx : x = p
  · subst hx
    simp [settled,OnFile.cleared,payload,store,Payload.deliveryMode,Payload.props]
  · rw [settled_payload hx]

theorem settled_durableHeld (p : MessagePtr) :
    (q.settled msgId p).durableHeld = q.durableHeld :=
  durableHeld_congr rfl rfl fun x _ => settled_mode p x

/-- A compaction that takes place: the loop over the records that were loaded. -/
theorem garbageCollection_compacts {check : Policy} (hc : check q.totalCount q.validCount = true)
    (hp : d.plan = ∅) (hf : d.files (resolve q.mapper.nameDataFile) = some f) :
    q.garbageCollection check d =
      ({(placed 0 (q.mapper.loaded d)).foldl adopt q with
        validCount := UInt64.ofNat (q.mapper.loaded d).length
        totalCount := UInt64.ofNat (q.mapper.loaded d).length},
      (d.put (resolve q.mapper.nameTempFile) none).put (resolve q.mapper.nameDataFile)
        (some (journal (q.mapper.loaded d)))) := by
  unfold garbageCollection
  rw [if_neg (by simp [hc]),q.mapper.garbageCollection_loaded hp hf]
  simp only [placed_length]

section Paid
variable {p : MessagePtr} (hp : d.plan = ∅)
  (hf : d.files (resolve q.mapper.nameDataFile) = some f)
  (hw : q.waitackMsgs.lookup msgId = some p) (hmode : (q.payload p).deliveryMode = .durable)
include hp hf hw hmode

theorem remove_settled (check : Policy) :
    let s := (q.settled msgId p).garbageCollection check (q.mapper.remove d (q.heap p)).2.2
    q.remove check d msgId = (true,{s.1 with waitackMsgs := s.1.waitackMsgs.erase msgId},s.2) := by
  obtain ⟨hmsg,-,-⟩ := q.mapper.remove_file (q.heap p) hp hf
  have hrem : q.mapper.remove d (q.heap p) = ((q.mapper.remove d (q.heap p)).1,
      OnFile.cleared (q.heap p),(q.mapper.remove d (q.heap p)).2.2) := by
    rw [OnFile.cleared,← hmsg]
  exact remove_durable hw hmode check hrem

theorem remove_paid {check : Policy} (hc : check q.totalCount (q.validCount-1) = false) :
    q.Paid f (q.remove check d msgId).2 := by
  obtain ⟨-,hplan,hfile⟩ := q.mapper.remove_file (q.heap p) hp hf
  have hgc : (q.settled msgId p).garbageCollection check (q.mapper.remove d (q.heap p)).2.2 =
      (q.settled msgId p,(q.mapper.remove d (q.heap p)).2.2) := if_pos hc
  have hrel := durableHeld_release (q := q.settled msgId p) hw
  rw [if_pos ((settled_mode p p).trans hmode),settled_durableHeld] at hrel
  rw [remove_settled hp hf hw hmode check,hgc]
  exact ⟨hplan,hfile,rfl,rfl,hrel⟩

theorem remove_compacted (hb : q.Bounded) {check : Policy}
    (hc : check q.totalCount (q.validCount-1) = true) :
    q.Compacted msgId (q.mapper.loaded (q.mapper.remove d (q.heap p)).2.2)
      (q.remove check d msgId).2 := by
  obtain ⟨-,hplan,f',hf',-⟩ := q.mapper.remove_file (q.heap p) hp hf
  have hrem := remove_settled hp hf hw hmode check
  generalize (q.mapper.remove d (q.heap p)).2.2 = d' at hplan hf' hrem ⊢
  have hb' : (q.settled msgId p).Bounded := hb
  rw [garbageCollection_compacts (q := q.settled msgId p) hc hplan hf'] at hrem
  obtain ⟨hheld,hwaits,hpay⟩ := adopt_durableHeld (q.mapper.loaded d') 0 hb'
  have hin := (congrArg (AList.lookup msgId) hwaits).trans hw
  have hrel := durableHeld_release hin
  have hdur : (((placed 0 (q.mapper.loaded d')).foldl adopt (q.settled msgId p)).payload
      p).deliveryMode = .durable := by
    rw [hpay p (hb' p (.inr ⟨msgId,hw⟩)),settled_mode]
    exact hmode
  rw [if_pos hdur] at hrel
  rw [settled_durableHeld] at hheld
  rw [hrem]
  refine ⟨hplan,Disk.put_self,rfl,rfl,?_⟩
  rw [← hrel] at hheld
  exact hheld

end Paid
end QueueMessage

namespace Store

/-- Which calls a run may make next when the ids are arbitrary. -/
def Free (check : QueueMessage.Policy) (s : Store) (op : Op) : Prop :=
  s.Ready op ∧ (s.apply check op).fileSize < 2^64

/-- The runs of the store with any ids at all, in a file that a 64-bit size can express. -/
def freeSystem (check : QueueMessage.Policy) : Lts Store Op :=
  (Lts.ofFun (apply check)).guarded (Free check)

/-- When the acknowledgement of a durable message has the file compacted, the other durable
messages in memory are no more than the records on file that are not queued again. -/
def Covers (s : Store) : Op → Prop
  | .remove msgId => ∀ p ∈ s.queue.waitackMsgs.lookup msgId,
    (s.queue.payload p).deliveryMode = .durable →
    QueueMessage.garbageCollectionCheck s.queue.totalCount (s.queue.validCount-1) = true →
    s.queue.durableHeld ≤ 1 + QueueMessage.covered
      (fun id => ((s.queue.durableMsgs.erase msgId).lookup id).isSome)
      (s.queue.mapper.loaded (s.queue.mapper.remove s.disk (s.queue.heap p)).2.2)
  | _ => True

instance (check : QueueMessage.Policy) (s : Store) (op : Op) : Decidable (Free check s op) :=
  inferInstanceAs (Decidable (s.Ready op ∧ (s.apply check op).fileSize < 2^64))

instance (s : Store) : ∀ op, Decidable (s.Covers op)
  | .remove msgId => inferInstanceAs (Decidable (∀ p ∈ s.queue.waitackMsgs.lookup msgId,
    (s.queue.payload p).deliveryMode = .durable →
    QueueMessage.garbageCollectionCheck s.queue.totalCount (s.queue.validCount-1) = true →
    s.queue.durableHeld ≤ 1 + QueueMessage.covered
      (fun id => ((s.queue.durableMsgs.erase msgId).lookup id).isSome)
      (s.queue.mapper.loaded (s.queue.mapper.remove s.disk (s.queue.heap p)).2.2)))
  | .construct | .recovery | .insert .. | .front => .isTrue trivial

/-- The counters are ordered, the file is long enough for the total, and the valid ones suffice for
all durable messages that the queue holds. -/
structure Counted (s : Store) : Prop where
  plan : s.disk.plan = ∅
  bounded : s.queue.Bounded
  file : ∃ f, s.disk.files (resolve s.queue.mapper.nameDataFile) = some f ∧
    8*s.queue.totalCount.toNat ≤ f.length
  held : s.queue.durableHeld ≤ s.queue.validCount.toNat
  valid : s.queue.validCount.toNat ≤ s.queue.totalCount.toNat
  idle : s.recovered = false → s.queue = .new s.queue.mapper

namespace Counted
variable {s t : Store} {check : QueueMessage.Policy}

theorem start (m : MessageMapper) {d : Disk} (hp : d.plan = ∅) : Counted (.start m d) := by
  obtain ⟨hplan,hfile⟩ := m.construct_done hp
  exact ⟨hplan,.new m,⟨_,hfile,Nat.zero_le _⟩,le_rfl,le_rfl,fun _ => rfl⟩

theorem construct (h : Counted s) : Counted (s.apply check .construct) := by
  obtain ⟨hplan,hfile⟩ := s.queue.mapper.construct_done h.plan
  exact ⟨hplan,.new _,⟨_,hfile,Nat.zero_le _⟩,le_rfl,le_rfl,fun _ => rfl⟩

/-- The counters after the file was written anew with as many records. -/
lemma anew {ps : List Payload} (h : (journal ps).length < 2^64) :
    (UInt64.ofNat ps.length).toNat = ps.length ∧ 8*ps.length ≤ (journal ps).length := by
  have hle := length_le_journal ps
  refine ⟨?_,hle⟩
  rw [UInt64.toNat_ofNat']
  exact Nat.mod_eq_of_lt (by omega)

theorem recovery (h : Counted s) (hr : s.recovered = false)
    (hs : (s.apply check .recovery).fileSize < 2^64) : Counted (s.apply check .recovery) := by
  obtain ⟨q,d,r⟩ := s
  cases hr
  obtain ⟨f,hf,-⟩ := h.file
  have hnew : q = .new q.mapper := h.idle rfl
  have hgc := q.mapper.garbageCollection_loaded h.plan hf
  have hmap := q.recovery_mapper d
  have hfile : (q.recovery d).2.2.files (resolve q.mapper.nameDataFile) =
      some (journal (q.mapper.loaded d)) := by
    simp only [QueueMessage.recovery,hgc]
    exact Disk.put_self
  have hrplan : (q.recovery d).2.2.plan = ∅ := by
    simp only [QueueMessage.recovery,hgc]
    exact h.plan
  have hsize : (journal (q.mapper.loaded d)).length < 2^64 := by
    have hsize : FileHelper.size (q.recovery d).2.2 (q.recovery d).2.1.mapper.nameDataFile <
        2^64 := hs
    rwa [hmap,FileHelper.size_eq hrplan hfile] at hsize
  obtain ⟨hcount,hlong⟩ := anew hsize
  have hlen : (q.mapper.garbageCollection d).1.length = (q.mapper.loaded d).length := by
    rw [hgc,placed_length]
  have hempty : ({q with msgs := []} : QueueMessage) = .new q.mapper := by rw [hnew]; rfl
  have hheld := QueueMessage.recover_durableHeld (q.mapper.garbageCollection d).1
    (QueueMessage.Bounded.new q.mapper)
  rw [hlen] at hheld
  refine ⟨?_,?_,⟨journal (q.mapper.loaded d),?_,?_⟩,?_,?_,
    fun hr => absurd hr (by simp [Store.apply])⟩
  · simp only [Store.apply,QueueMessage.recovery,hgc]
    exact h.plan
  · rw [hnew]
    exact .recovery q.mapper d
  · simp only [Store.apply,hmap]
    exact hfile
  · simp only [Store.apply,QueueMessage.recovery,hlen,hcount]
    exact hlong
  · simp only [Store.apply,QueueMessage.recovery,hlen,hcount,hempty]
    exact hheld.trans (Nat.zero_add _).le
  · exact le_rfl

theorem insert (h : Counted s) (bp : Option BasicProperties) (body : String) (durable : Bool)
    (uuid : String) (hr : s.recovered = true)
    (hs : (s.apply check (.insert bp body durable uuid)).fileSize < 2^64) :
    Counted (s.apply check (.insert bp body durable uuid)) := by
  obtain ⟨q,d,r⟩ := s
  cases hr
  obtain ⟨f,hf,hlong⟩ := h.file
  have hbounded := h.bounded.insert d bp body durable uuid
  have hheld := h.held
  have hvalid := h.valid
  simp only [Store.fileSize,Store.apply] at hs hbounded hlong hheld hvalid
  by_cases hd : (QueueMessage.newMessage bp body durable uuid).payload.deliveryMode = .durable
  · obtain ⟨msg,hmsg⟩ : ∃ msg : Message,
        msg = {QueueMessage.newMessage bp body durable uuid with
          payload := {(QueueMessage.newMessage bp body durable uuid).payload with valid := "1"}} :=
      ⟨_,rfl⟩
    have hmode : msg.payload.deliveryMode = .durable := by rw [hmsg]; exact hd
    have hins := MessageMapper.insert_done msg h.plan hf
    have hpush := q.durableHeld_push h.bounded (placedAt f.length msg)
    have hmode' : (placedAt f.length msg).payload.deliveryMode = .durable := hmode
    simp only [hmode',↓reduceIte] at hpush
    have heq : q.insert d bp body durable uuid = (true,
        {q.pushMessage (placedAt f.length msg) with
          validCount := q.validCount+1
          totalCount := q.totalCount+1
          durableMsgs := q.durableMsgs.emplace (placedAt f.length msg).payload.id q.fresh},
        d.put (resolve q.mapper.nameDataFile) (some (f ++ msg.payload.record))) := by
      simp only [QueueMessage.insert,hd,↓reduceIte,insertDataFile,← hmsg,hins]
    rw [heq] at hs hbounded
    have hsize : f.length+msg.payload.record.length < 2^64 := by
      have hs : FileHelper.size (d.put (resolve q.mapper.nameDataFile)
        (some (f ++ msg.payload.record))) q.mapper.nameDataFile < 2^64 := hs
      rwa [FileHelper.size_eq (show (d.put _ _).plan = ∅ from h.plan) Disk.put_self,
        List.length_append] at hs
    rw [record_length] at hsize
    have htotal : (q.totalCount+1).toNat = q.totalCount.toNat+1 := by
      rw [UInt64.toNat_add]
      exact Nat.mod_eq_of_lt (by simp; omega)
    have hone : (q.validCount+1).toNat = q.validCount.toNat+1 := by
      rw [UInt64.toNat_add]
      exact Nat.mod_eq_of_lt (by simp; omega)
    simp only [Store.apply,heq]
    refine ⟨h.plan,hbounded,⟨_,Disk.put_self,?_⟩,?_,?_,fun hr => absurd hr (by simp)⟩
    · rw [htotal,List.length_append,record_length]
      omega
    · rw [hone]
      exact hpush.le.trans (Nat.add_le_add_right hheld 1)
    · rw [hone,htotal]
      omega
  · have heq : q.insert d bp body durable uuid =
        (true,q.pushMessage (QueueMessage.newMessage bp body durable uuid),d) := by
      simp only [QueueMessage.insert,hd,↓reduceIte]
    have hpush := q.durableHeld_push h.bounded (QueueMessage.newMessage bp body durable uuid)
    simp only [hd,↓reduceIte,Nat.add_zero] at hpush
    rw [heq] at hbounded
    simp only [Store.apply,heq]
    exact ⟨h.plan,hbounded,⟨f,hf,hlong⟩,hpush.le.trans hheld,hvalid,fun hr => absurd hr (by simp)⟩

theorem front (h : Counted s) (hr : s.recovered = true) : Counted (s.apply check .front) := by
  have hmap := s.queue.front_mapper
  have hcounts : s.queue.front.2.validCount = s.queue.validCount ∧
      s.queue.front.2.totalCount = s.queue.totalCount := by
    unfold QueueMessage.front
    split <;> exact ⟨rfl,rfl⟩
  refine ⟨h.plan,h.bounded.front,?_,?_,?_,fun hf => absurd (hr.symm.trans hf) (by simp)⟩
  · simp only [Store.apply,hmap,hcounts.2]
    exact h.file
  · simp only [Store.apply,hcounts.1]
    exact QueueMessage.durableHeld_front.trans h.held
  · simp only [Store.apply,hcounts.1,hcounts.2]
    exact h.valid

/-- An acknowledgement takes one off the valid ones for the message that it releases. A compaction
after it counts the records it found, and they have to suffice. -/
theorem remove (h : Counted s) (msgId : String) (hr : s.recovered = true)
    (hc : s.Covers (.remove msgId))
    (hs : (s.apply QueueMessage.garbageCollectionCheck (.remove msgId)).fileSize < 2^64) :
    Counted (s.apply QueueMessage.garbageCollectionCheck (.remove msgId)) := by
  obtain ⟨q,d,r⟩ := s
  cases hr
  obtain ⟨f,hf,hlong⟩ := h.file
  have hbounded := h.bounded.remove QueueMessage.garbageCollectionCheck d msgId
  have hmap := q.remove_mapper QueueMessage.garbageCollectionCheck d msgId
  have hplan₀ : d.plan = ∅ := h.plan
  have hheld := h.held
  have hvalid := h.valid
  simp only at hf hlong hheld hvalid
  simp only [Store.fileSize,Store.apply,hmap] at hs
  by_cases hpaid : ∃ p, q.waitackMsgs.lookup msgId = some p ∧ (q.payload p).deliveryMode = .durable
  · obtain ⟨p,hw,hmode⟩ := hpaid
    cases hcheck : QueueMessage.garbageCollectionCheck q.totalCount (q.validCount-1) with
    | false =>
      obtain ⟨hplan,⟨f',hf',hle,-⟩,htotal,hcount,hrel⟩ :=
        QueueMessage.remove_paid hplan₀ hf hw hmode hcheck
      have hone : (q.validCount-1).toNat = q.validCount.toNat-1 := by
        rw [UInt64.toNat_sub_of_le _ _ (by rw [UInt64.le_iff_toNat_le]; simp; omega)]
        rfl
      refine ⟨hplan,hbounded,⟨f',?_,?_⟩,?_,?_,fun hr => absurd hr (by simp [Store.apply])⟩
      · simp only [Store.apply,hmap]
        exact hf'
      · simp only [Store.apply,htotal]
        omega
      · simp only [Store.apply,hcount,hone]
        exact Nat.le_sub_of_add_le (hrel.trans_le hheld)
      · simp only [Store.apply,hcount,hone,htotal]
        omega
    | true =>
      have hcov : q.durableHeld ≤ 1 + QueueMessage.covered
          (fun id => ((q.durableMsgs.erase msgId).lookup id).isSome)
          (q.mapper.loaded (q.mapper.remove d (q.heap p)).2.2) := hc p hw hmode hcheck
      obtain ⟨hplan,hf',htotal,hcount,hrel⟩ :=
        QueueMessage.remove_compacted hplan₀ hf hw hmode h.bounded hcheck
      generalize q.mapper.loaded (q.mapper.remove d (q.heap p)).2.2 = ps at *
      rw [FileHelper.size_eq hplan hf'] at hs
      obtain ⟨hanew,hlong'⟩ := anew hs
      refine ⟨hplan,hbounded,⟨journal ps,?_,?_⟩,?_,?_,fun hr => absurd hr (by simp [Store.apply])⟩
      · simp only [Store.apply,hmap]
        exact hf'
      · simp only [Store.apply,htotal,hanew]
        exact hlong'
      · simp only [Store.apply,hcount,hanew]
        omega
      · simp only [Store.apply,hcount,htotal]
        exact le_rfl
  · obtain ⟨hdisk,htotal,hcount,hsame⟩ := QueueMessage.remove_unpaid (d := d)
      QueueMessage.garbageCollectionCheck fun p hw hmode => hpaid ⟨p,hw,hmode⟩
    refine ⟨?_,hbounded,⟨f,?_,?_⟩,?_,?_,fun hr => absurd hr (by simp [Store.apply])⟩
    · simp only [Store.apply,hdisk]
      exact h.plan
    · simp only [Store.apply,hdisk,hmap]
      exact hf
    · simp only [Store.apply,htotal]
      exact hlong
    · simp only [Store.apply,hcount,hsame]
      exact hheld
    · simp only [Store.apply,hcount,htotal]
      exact hvalid

theorem step {op : Op} (h : Counted s) (hc : s.Covers op)
    (hs : (freeSystem QueueMessage.garbageCollectionCheck).step s op t) : Counted t := by
  obtain ⟨⟨hready,hsize⟩,rfl⟩ := hs
  cases op with
  | construct => exact h.construct
  | recovery => exact h.recovery hready hsize
  | insert bp body durable uuid => exact h.insert bp body durable uuid hready hsize
  | front => exact h.front hready
  | remove msgId => exact h.remove msgId hready hc hsize

/-- A durable message that waits is one that the valid ones suffice for. -/
theorem valid_pos (h : Counted s) {msgId : String} {p : MessagePtr}
    (hw : s.queue.waitackMsgs.lookup msgId = some p)
    (hmode : (s.queue.payload p).deliveryMode = .durable) : 0 < s.queue.validCount.toNat := by
  have hrel := QueueMessage.durableHeld_release hw
  rw [if_pos hmode] at hrel
  exact (Nat.succ_pos _).trans_le (hrel.trans_le h.held)

end Counted
end Store

section Runs
variable {m : MessageMapper} {d : Disk} {ops : List Op} {s : Store}

/-- Whatever the ids are, and whatever an earlier process left in the file: as long as every
compaction finds enough records, the valid ones are at most the total, and no acknowledgement takes
one off where there is none. -/
theorem counters_ordered (hp : d.plan = ∅)
    (run : ((Store.freeSystem QueueMessage.garbageCollectionCheck).guarded Store.Covers).Run
      (.start m d) ops s) :
    s.queue.validCount ≤ s.queue.totalCount ∧
      ∀ msgId p, s.queue.waitackMsgs.lookup msgId = some p →
        (s.queue.payload p).deliveryMode = .durable → 0 < s.queue.validCount := by
  have h : s.Counted := run.invariant (Store.Counted.start m hp) fun h hs => h.step hs.1 hs.2
  exact ⟨UInt64.le_iff_toNat_le.mpr h.valid,
    fun msgId p hw hmode => UInt64.lt_iff_toNat_lt.mpr (h.valid_pos hw hmode)⟩

/-- Two messages with one id, of which the first is acknowledged. -/
def doubledCalls : List Op :=
  [.recovery,.insert (some ⟨"m1",.durable,"k"⟩) "first" true "",
    .insert (some ⟨"m1",.durable,"k"⟩) "second" true "",.front,.remove "m1",.front]

theorem counters_ordered_twins :
    let s := doubledCalls.foldl (Store.apply QueueMessage.garbageCollectionCheck)
      (.start ordersMapper blankDisk)
    s.queue.validCount ≤ s.queue.totalCount ∧
      ∀ msgId p, s.queue.waitackMsgs.lookup msgId = some p →
        (s.queue.payload p).deliveryMode = .durable → 0 < s.queue.validCount := by
  have run : ((Lts.ofFun (Store.apply QueueMessage.garbageCollectionCheck)).guarded
      fun s op => s.Free QueueMessage.garbageCollectionCheck op ∧ s.Covers op).Run
      (.start ordersMapper blankDisk) doubledCalls
      (doubledCalls.foldl (Store.apply QueueMessage.garbageCollectionCheck)
        (.start ordersMapper blankDisk)) := Lts.Admitted.run (by decide)
  exact counters_ordered rfl (run.mono fun h => ⟨h.1.2,h.1.1,h.2⟩)

end Runs

namespace QueueMessage
variable {q : QueueMessage} {d : Disk} {es : List Entry}

/-- The payload of a durable message with this id and nothing else to say. -/
def bare (id : String) : Payload :=
  {body := "", properties := some ⟨id,.durable,""⟩, valid := "1"}

/-- A durable message is inserted: it gets the next record. -/
theorem insert_bare (h : OnFile q.mapper.nameDataFile q.heap d es) (hnew : q.fresh ∉ owners es)
    (id : String)
    (hs : (journal (payloads q.heap es)).length+(bare id).record.length < 2^32) :
    let m := placedAt (journal (payloads q.heap es)).length {payload := bare id}
    ∃ d', q.insert d (some ⟨id,.durable,""⟩) "" true "" = (true,
        {q.pushMessage m with
          validCount := q.validCount+1
          totalCount := q.totalCount+1
          durableMsgs := q.durableMsgs.emplace id q.fresh},d') ∧
      OnFile q.mapper.nameDataFile (q.pushMessage m).heap d' (es ++ [.live q.fresh]) := by
  intro m
  have hins : q.mapper.insertDataFile d {payload := bare id} = _ :=
    MessageMapper.insert_done {payload := bare id} h.plan h.file
  refine ⟨_,?_,h.append hnew {payload := bare id} rfl hs⟩
  have hmsg : {newMessage (some ⟨id,.durable,""⟩) "" true "" with
      payload := {(newMessage (some ⟨id,.durable,""⟩) "" true "").payload with valid := "1"}} =
        ({payload := bare id} : Message) := rfl
  have hmode : (newMessage (some ⟨id,.durable,""⟩) "" true "").payload.deliveryMode = .durable :=
    rfl
  simp only [insert,hmode,↓reduceIte,hmsg,hins]
  rfl

/-- Every message that was inserted has been acknowledged, and nothing was compacted yet. -/
structure Spent (q : QueueMessage) (d : Disk) (es : List Entry) : Prop where
  onFile : OnFile q.mapper.nameDataFile q.heap d es
  owners : owners es = []
  total : q.totalCount = UInt64.ofNat es.length
  valid : q.validCount = 0
  msgs : q.msgs = []
  waiting : q.waitackMsgs = ∅
  durable : q.durableMsgs = ∅
  small : (journal (payloads q.heap es)).length ≤ 64*es.length

/-- The message that was inserted last is acknowledged, and no compaction follows. -/
theorem kill_last {q : QueueMessage} {d : Disk} {es : List Entry} {p : MessagePtr} {id : String}
    (h : OnFile q.mapper.nameDataFile q.heap d (es ++ [.live p]))
    (hw : q.waitackMsgs.lookup id = some p) (hmode : (q.payload p).deliveryMode = .durable)
    (hc : garbageCollectionCheck q.totalCount (q.validCount-1) = false) :
    ∃ d', q.remove garbageCollectionCheck d id = (true,
        {q.settled id p with waitackMsgs := q.waitackMsgs.erase id},d') ∧
      OnFile q.mapper.nameDataFile (q.settled id p).heap d'
        (es ++ [.dead (OnFile.cleared (q.heap p)).payload]) := by
  obtain ⟨d',hrem,hfile⟩ := h.kill
  have hset := remove_settled h.plan h.file hw hmode garbageCollectionCheck
  have hgc : (q.settled id p).garbageCollection garbageCollectionCheck d' = (q.settled id p,d') :=
    if_pos hc
  rw [hrem,hgc] at hset
  exact ⟨d',hset,hfile⟩

namespace Spent

/-- One more record does not make the file worth a compaction. -/
theorem unchecked (h : Spent q d es) (hn : es.length < 2000) :
    q.totalCount+1 = UInt64.ofNat (es.length+1) ∧
      garbageCollectionCheck (q.totalCount+1) (q.validCount+1-1) = false := by
  have htotal : (q.totalCount+1).toNat = es.length+1 := by
    rw [h.total,UInt64.toNat_add,toNat_count (by omega)]
    exact Nat.mod_eq_of_lt (by simp; omega)
  refine ⟨by rw [← UInt64.toNat_inj,htotal,toNat_count (by omega)],?_⟩
  have hv : q.validCount+1-1 = 0 := by
    rw [h.valid]
    rfl
  rw [hv,← Bool.not_eq_true]
  exact mt (garbageCollectionCheck_iff (Nat.zero_le _) (by omega)).mp (by omega)

/-- One more message comes, is handed out and acknowledged. -/
theorem cycle (h : Spent q d es) (hn : es.length < 2000) :
    ∃ q₁ d₁ q₃ d₃ es₃, q.insert d (some ⟨"u",.durable,""⟩) "" true "" = (true,q₁,d₁) ∧
      FileHelper.size d₁ q₁.mapper.nameDataFile < 2^32 ∧ q₁.front.2.mapper = q₁.mapper ∧
      q₁.front.2.remove garbageCollectionCheck d₁ "u" = (true,q₃,d₃) ∧
      es₃.length = es.length+1 ∧ Spent q₃ d₃ es₃ := by
  have hrec : (bare "u").record.length ≤ 64 := by decide
  have hsmall := h.small
  obtain ⟨d₁,hins,hfile⟩ := insert_bare h.onFile (by rw [h.owners]; simp) "u" (by omega)
  let m := placedAt (journal (payloads q.heap es)).length {payload := bare "u"}
  let q₂ : QueueMessage := {q.pushMessage m with
    msgs := []
    validCount := q.validCount+1
    totalCount := q.totalCount+1
    durableMsgs := q.durableMsgs.emplace "u" q.fresh
    waitackMsgs := q.waitackMsgs.emplace "u" q.fresh}
  have hnew : (q.pushMessage m).heap q.fresh = m := Function.update_self _ _ _
  have hfront : front {q.pushMessage m with
      validCount := q.validCount+1
      totalCount := q.totalCount+1
      durableMsgs := q.durableMsgs.emplace "u" q.fresh} = (some q.fresh,q₂) := by
    have hmsgs : (q.pushMessage m).msgs = [q.fresh] := by
      change q.msgs ++ [q.fresh] = _
      rw [h.msgs]
      rfl
    refine Eq.trans (front_cons hmsgs) ?_
    simp only [hnew]
    rfl
  have hw : q₂.waitackMsgs.lookup "u" = some q.fresh := by
    change (q.waitackMsgs.emplace "u" q.fresh).lookup "u" = _
    rw [h.waiting]
    rfl
  obtain ⟨htotal,hc⟩ := h.unchecked hn
  obtain ⟨d₃,hrem,hfile'⟩ := kill_last (q := q₂) hfile hw
    (congrArg (fun m : Message => m.payload.deliveryMode) hnew) hc
  have hold : payloads (q₂.settled "u" q.fresh).heap es = payloads q.heap es :=
    payloads_congr fun p hp => by rw [h.owners] at hp; cases hp
  have hempty : ((∅ : Table String MessagePtr).emplace "u" q.fresh).erase "u" = ∅ :=
    Table.erase_emplace_empty
  refine ⟨_,d₁,{q₂.settled "u" q.fresh with waitackMsgs := q₂.waitackMsgs.erase "u"},d₃,
    es ++ [.dead (OnFile.cleared (q₂.heap q.fresh)).payload],hins,?_,?_,?_,?_,⟨?_,?_,?_,?_,
    ?_,?_,?_,?_⟩⟩
  · exact (FileHelper.size_eq hfile.plan hfile.file).trans_lt hfile.small
  · rw [hfront]
  · rw [hfront]
    exact hrem
  · simp
  · exact hfile'
  · rw [owners_append,h.owners]
    rfl
  · rw [List.length_append]
    exact htotal
  · change q.validCount+1-1 = 0
    rw [h.valid]
    rfl
  · rfl
  · change (q.waitackMsgs.emplace "u" q.fresh).erase "u" = ∅
    rw [h.waiting,hempty]
  · change (q.durableMsgs.emplace "u" q.fresh).erase "u" = ∅
    rw [h.durable,hempty]
  · change (journal (payloads (q₂.settled "u" q.fresh).heap _)).length ≤ _
    have hlast : (OnFile.cleared (q₂.heap q.fresh)).payload = {bare "u" with valid := "0"} :=
      congrArg (fun m : Message => (OnFile.cleared m).payload) hnew
    have hdead : ({bare "u" with valid := "0"} : Payload).record.length ≤ 64 := by decide
    rw [hlast,payloads_append,hold,journal_append,List.length_append,List.length_append]
    change _ + (journal [{bare "u" with valid := "0"}]).length ≤ 64*(es.length+1)
    rw [journal_cons,journal_nil,List.append_nil]
    omega

end Spent

/-- The head is handed out and acknowledged while nothing else waits, and no compaction follows. -/
theorem ack_head {p : MessagePtr} {rest : List MessagePtr} {id : String} {f : Bytes}
    (hm : q.msgs = p::rest) (hw : q.waitackMsgs = ∅) (hid : (q.payload p).id = id)
    (hmode : (q.payload p).deliveryMode = .durable) (hp : d.plan = ∅)
    (hf : d.files (resolve q.mapper.nameDataFile) = some f)
    (hc : garbageCollectionCheck q.totalCount (q.validCount-1) = false) :
    ∃ q' d', q.front.2.remove garbageCollectionCheck d id = (true,q',d') ∧
      q.front.2.mapper = q.mapper ∧ q'.mapper = q.mapper ∧ q'.msgs = rest ∧ q'.waitackMsgs = ∅ ∧
      q'.validCount = q.validCount-1 ∧ q'.totalCount = q.totalCount ∧
      (∀ x, x ≠ p → q'.payload x = q.payload x) ∧ d'.plan = ∅ ∧
      ∃ f', d'.files (resolve q.mapper.nameDataFile) = some f' ∧
        f'.length ≤ max f.length (2^33) := by
  let q' : QueueMessage := {q with
    msgs := rest
    waitackMsgs := (∅ : Table String MessagePtr).emplace id p}
  have hfront : q.front = (some p,q') := by
    have hid' : (q.heap p).payload.id = id := hid
    rw [front_cons hm,hid',hw]
  have hwaits : q'.waitackMsgs.lookup id = some p := Table.lookup_emplace_none rfl
  obtain ⟨-,hplan,f',hf',-,hle⟩ := q'.mapper.remove_file (q'.heap p) hp hf
  have hset := remove_settled (q := q') hp hf hwaits hmode garbageCollectionCheck
  have hgc : (q'.settled id p).garbageCollection garbageCollectionCheck
      (q'.mapper.remove d (q'.heap p)).2.2 =
        (q'.settled id p,(q'.mapper.remove d (q'.heap p)).2.2) := if_pos hc
  rw [hgc] at hset
  rw [hfront]
  refine ⟨_,_,hset,rfl,rfl,rfl,Table.erase_emplace_empty,rfl,rfl,fun x hx => ?_,hplan,f',hf',hle⟩
  exact congrArg Message.payload (Function.update_of_ne hx _ _)

/-- The first of two messages with one id waits, the second is available, and the records of both
make the file one worth a compaction once the first is acknowledged. -/
structure Twins (q : QueueMessage) (d : Disk) (es : List Entry) (a b : MessagePtr) : Prop where
  onFile : OnFile q.mapper.nameDataFile q.heap d (es ++ .live a::[.live b])
  owners : owners es = []
  total : q.totalCount = 2001
  valid : q.validCount = 2
  msgs : q.msgs = [b]
  waiting : q.waitackMsgs = (∅ : Table String MessagePtr).emplace "x" a
  durable : q.durableMsgs.erase "x" = ∅
  first : q.payload a = bare "x"
  second : q.payload b = bare "x"
  apart : b ≠ a
  fresh : b < q.fresh

/-- Two messages with one id come, and the first is handed out. -/
theorem Spent.twins (h : Spent q d es) (hn : es.length = 1999) :
    ∃ q₁ d₁ q₂ d₂ a b, q.insert d (some ⟨"x",.durable,""⟩) "" true "" = (true,q₁,d₁) ∧
      FileHelper.size d₁ q₁.mapper.nameDataFile < 2^32 ∧
      q₁.insert d₁ (some ⟨"x",.durable,""⟩) "" true "" = (true,q₂,d₂) ∧
      FileHelper.size d₂ q₂.mapper.nameDataFile < 2^32 ∧ q₂.front.2.mapper = q₂.mapper ∧
      Twins q₂.front.2 d₂ es a b := by
  have hrec : (bare "x").record.length ≤ 64 := by decide
  have hsmall := h.small
  obtain ⟨d₁,hins,hfile⟩ := insert_bare h.onFile (by rw [h.owners]; simp) "x" (by omega)
  let m₁ := placedAt (journal (payloads q.heap es)).length {payload := bare "x"}
  let q₁ : QueueMessage := {q.pushMessage m₁ with
    validCount := q.validCount+1
    totalCount := q.totalCount+1
    durableMsgs := q.durableMsgs.emplace "x" q.fresh}
  have hm₁ : q₁.heap q.fresh = m₁ := Function.update_self _ _ _
  have hsize₁ : (journal (payloads q₁.heap (es ++ [.live q.fresh]))).length ≤ 64*2000 := by
    have hold : payloads q₁.heap es = payloads q.heap es :=
      payloads_congr fun p hp => by rw [h.owners] at hp; cases hp
    have hlast : Entry.payload q₁.heap (.live q.fresh) = bare "x" :=
      congrArg Message.payload hm₁
    rw [payloads_append,hold,payloads_cons,hlast,journal_append,journal_cons,List.length_append,
      List.length_append]
    change _ + (_ + 0) ≤ _
    omega
  obtain ⟨d₂,hins₂,hfile₂⟩ := insert_bare (q := q₁) hfile
    (by simp [h.owners,q₁,pushMessage,alloc]) "x" (by omega)
  let m₂ := placedAt (journal (payloads q₁.heap (es ++ [.live q.fresh]))).length
    {payload := bare "x"}
  let q₂ : QueueMessage := {q₁.pushMessage m₂ with
    validCount := q₁.validCount+1
    totalCount := q₁.totalCount+1
    durableMsgs := q₁.durableMsgs.emplace "x" q₁.fresh}
  let q₃ : QueueMessage := {q₂ with
    msgs := [q₁.fresh]
    waitackMsgs := q.waitackMsgs.emplace "x" q.fresh}
  have ha : q₂.heap q.fresh = m₁ :=
    (Function.update_of_ne (Nat.lt_succ_self q.fresh).ne _ _).trans hm₁
  have hb : q₂.heap q₁.fresh = m₂ := Function.update_self _ _ _
  have hmsgs : q₂.msgs = [q.fresh,q₁.fresh] := by
    change q.msgs ++ [q.fresh] ++ [q₁.fresh] = _
    rw [h.msgs]
    rfl
  have hfront : q₂.front = (some q.fresh,q₃) := by
    rw [front_cons hmsgs,ha]
    rfl
  refine ⟨q₁,d₁,q₂,d₂,q.fresh,q₁.fresh,hins,?_,hins₂,?_,?_,?_⟩
  · exact (FileHelper.size_eq hfile.plan hfile.file).trans_lt hfile.small
  · exact (FileHelper.size_eq hfile₂.plan hfile₂.file).trans_lt hfile₂.small
  · rw [hfront]
  · rw [hfront]
    refine ⟨?_,h.owners,?_,?_,rfl,?_,?_,congrArg Message.payload ha,congrArg Message.payload hb,
      (Nat.lt_succ_self q.fresh).ne',Nat.lt_succ_self _⟩
    · rw [List.append_cons]
      exact hfile₂
    · change q.totalCount+1+1 = 2001
      rw [h.total,hn]
      rfl
    · change q.validCount+1+1 = 2
      rw [h.valid]
      rfl
    · change q.waitackMsgs.emplace "x" q.fresh = _
      rw [h.waiting]
    · change ((q.durableMsgs.emplace "x" q.fresh).emplace "x" q₁.fresh).erase "x" = ∅
      rw [h.durable,Table.emplace_some (Table.lookup_emplace_none rfl)]
      exact Table.erase_emplace_empty

/-- The first is acknowledged: the compaction finds the record of the second, whose id the table
no longer knows, and queues it once more. -/
theorem Twins.compact {a b : MessagePtr} (h : Twins q d es a b) :
    ∃ q' d' c f, q.remove garbageCollectionCheck d "x" = (true,q',d') ∧
      q'.msgs = [b,c] ∧ c ≠ b ∧ q'.waitackMsgs = ∅ ∧ q'.validCount = 1 ∧ q'.totalCount = 1 ∧
      q'.payload b = bare "x" ∧ q'.payload c = bare "x" ∧ d'.plan = ∅ ∧
      d'.files (resolve q'.mapper.nameDataFile) = some f ∧ f.length < 2^32 := by
  have hw : q.waitackMsgs.lookup "x" = some a := by
    rw [h.waiting]
    exact Table.lookup_emplace_none rfl
  have hmode : (q.payload a).deliveryMode = .durable := by
    rw [h.first]
    rfl
  obtain ⟨d',hrem,hk⟩ := h.onFile.kill
  let s := q.settled "x" a
  have hsb : s.payload b = bare "x" :=
    (congrArg Message.payload (Function.update_of_ne h.apart _ _)).trans h.second
  have hloaded : s.mapper.loaded d' = [bare "x"] := by
    rw [s.mapper.loaded_journal _ (FileHelper.contents_eq hk.plan hk.file) hk.fits,hk.valids_payloads,
      owners_append,h.owners]
    exact congrArg (fun p => [p]) hsb
  have hc : garbageCollectionCheck s.totalCount s.validCount = true := by
    change garbageCollectionCheck q.totalCount (q.validCount-1) = true
    rw [h.total,h.valid]
    rfl
  have hset := remove_settled h.onFile.plan h.onFile.file hw hmode garbageCollectionCheck
  have hgc := garbageCollection_compacts (q := s) hc hk.plan hk.file
  rw [hloaded] at hgc
  have hadopt : (placed 0 [bare "x"]).foldl adopt s =
      {s.pushMessage (placedAt 0 {payload := bare "x"}) with
        durableMsgs := s.durableMsgs.emplace "x" s.fresh} := by
    have hnone : s.durableMsgs.lookup "x" = none := AList.lookup_erase _ _
    exact adopt_unknown hnone
  rw [hrem] at hset
  change q.remove garbageCollectionCheck d "x" = (true,
    {(s.garbageCollection garbageCollectionCheck d').1 with
      waitackMsgs := (s.garbageCollection garbageCollectionCheck d').1.waitackMsgs.erase "x"},
    (s.garbageCollection garbageCollectionCheck d').2) at hset
  rw [hgc,hadopt] at hset
  refine ⟨_,_,s.fresh,_,hset,?_,h.fresh.ne',?_,rfl,rfl,?_,?_,hk.plan,Disk.put_self,by decide⟩
  · change q.msgs ++ [s.fresh] = _
    rw [h.msgs]
    rfl
  · change q.waitackMsgs.erase "x" = ∅
    rw [h.waiting]
    exact Table.erase_emplace_empty
  · exact (congrArg Message.payload (Function.update_of_ne h.fresh.ne _ _)).trans hsb
  · have hnew : Function.update s.heap s.fresh (placedAt 0 {payload := bare "x"}) s.fresh = _ :=
      Function.update_self _ _ _
    exact congrArg Message.payload hnew

end QueueMessage
section Wrapped

/-- The steps of a run that a call makes in a store in service. -/
lemma free_insert {q q' : QueueMessage} {d d' : Disk} {bp : Option BasicProperties}
    {body uuid : String} {durable ok : Bool} (h : q.insert d bp body durable uuid = (ok,q',d'))
    (hs : FileHelper.size d' q'.mapper.nameDataFile < 2^64) :
    (Store.freeSystem QueueMessage.garbageCollectionCheck).step ⟨q,d,true⟩
      (.insert bp body durable uuid) ⟨q',d',true⟩ := by
  have heq : Store.apply QueueMessage.garbageCollectionCheck ⟨q,d,true⟩
      (.insert bp body durable uuid) = ⟨q',d',true⟩ := by
    simp only [Store.apply,h]
  refine ⟨⟨rfl,?_⟩,heq.symm⟩
  rw [heq]
  exact hs

lemma free_front {q : QueueMessage} {d : Disk}
    (hs : FileHelper.size d q.front.2.mapper.nameDataFile < 2^64) :
    (Store.freeSystem QueueMessage.garbageCollectionCheck).step ⟨q,d,true⟩ .front
      ⟨q.front.2,d,true⟩ := ⟨⟨rfl,hs⟩,rfl⟩

lemma free_remove {q q' : QueueMessage} {d d' : Disk} {id : String} {ok : Bool}
    (h : q.remove QueueMessage.garbageCollectionCheck d id = (ok,q',d'))
    (hs : FileHelper.size d' q'.mapper.nameDataFile < 2^64) :
    (Store.freeSystem QueueMessage.garbageCollectionCheck).step ⟨q,d,true⟩ (.remove id)
      ⟨q',d',true⟩ := by
  have heq : Store.apply QueueMessage.garbageCollectionCheck ⟨q,d,true⟩ (.remove id) =
      ⟨q',d',true⟩ := by
    simp only [Store.apply,h]
  refine ⟨⟨rfl,?_⟩,heq.symm⟩
  rw [heq]
  exact hs

/-- A message comes, is handed out and acknowledged, a number of times. -/
def spentCalls (n : ℕ) : List Op :=
  .recovery :: (List.replicate n
    [.insert (some ⟨"u",.durable,""⟩) "" true "",.front,.remove "u"]).flatten

theorem run_spent {n : ℕ} (hn : n ≤ 2000) : ∃ q d es, es.length = n ∧ q.Spent d es ∧
    (Store.freeSystem QueueMessage.garbageCollectionCheck).Run (.start ordersMapper blankDisk)
      (spentCalls n) ⟨q,d,true⟩ := by
  induction n with
  | zero =>
    let s := Store.apply QueueMessage.garbageCollectionCheck (.start ordersMapper blankDisk) .recovery
    refine ⟨s.queue,s.disk,[],rfl,⟨⟨rfl,by decide,?_,by simp,by simp,by simp,trivial⟩,rfl,rfl,rfl,
      rfl,rfl,rfl,Nat.zero_le _⟩,.single ⟨⟨rfl,?_⟩,rfl⟩⟩
    · decide
    · decide
  | succ n ih =>
    obtain ⟨q,d,es,hlen,h,run⟩ := ih (by omega)
    obtain ⟨q₁,d₁,q₃,d₃,es₃,hins,hsize,hmap,hrem,hlen₃,h₃⟩ := h.cycle (by omega)
    have hlast : FileHelper.size d₃ q₃.mapper.nameDataFile < 2^64 := by
      rw [FileHelper.size_eq h₃.onFile.plan h₃.onFile.file]
      exact h₃.onFile.small.trans (by norm_num)
    have hsize : FileHelper.size d₁ q₁.mapper.nameDataFile < 2^64 := hsize.trans (by norm_num)
    refine ⟨q₃,d₃,es₃,by omega,h₃,?_⟩
    have hcalls : spentCalls (n+1) = spentCalls n ++
        [.insert (some ⟨"u",.durable,""⟩) "" true ""] ++ [.front] ++ [.remove "u"] := by
      simp [spentCalls,List.replicate_succ']
    rw [hcalls]
    exact ((run.snoc (free_insert hins hsize)).snoc (free_front (by rw [hmap]; exact hsize))).snoc
      (free_remove hrem hlast)

/-- After 1999 messages that came and went, two messages with one id come. The compaction at the
acknowledgement of the first queues a second copy of the other, and each copy is acknowledged. -/
theorem counters_wrap : ¬ ∀ (m : MessageMapper) (d : Disk) (ops : List Op) (s : Store),
    d.plan = ∅ →
    (Store.freeSystem QueueMessage.garbageCollectionCheck).Run (.start m d) ops s →
    s.queue.validCount ≤ s.queue.totalCount := by
  intro hall
  obtain ⟨q,d,es,hlen,h,run⟩ := run_spent (by norm_num : 1999 ≤ 2000)
  obtain ⟨q₁,d₁,q₂,d₂,a,b,hins₁,hsize₁,hins₂,hsize₂,hmap,htwins⟩ := h.twins hlen
  have hsize₁ : FileHelper.size d₁ q₁.mapper.nameDataFile < 2^64 := hsize₁.trans (by norm_num)
  have hsize₂ : FileHelper.size d₂ q₂.mapper.nameDataFile < 2^64 := hsize₂.trans (by norm_num)
  obtain ⟨q₃,d₃,c,f,hrem₃,hm₃,hne,hw₃,hv₃,ht₃,hb,hc,hp₃,hf₃,hf⟩ := htwins.compact
  have hsize₃ : FileHelper.size d₃ q₃.mapper.nameDataFile < 2^64 := by
    rw [FileHelper.size_eq hp₃ hf₃]
    exact hf.trans (by norm_num)
  -- the message that waited all the time, and the copy that the compaction queued
  obtain ⟨q₄,d₄,hrem₄,hmap₃,hmap₄,hm₄,hw₄,hv₄,ht₄,hpay,hp₄,f₄,hf₄,hle₄⟩ :=
    QueueMessage.ack_head hm₃ hw₃ (congrArg Payload.id hb)
      (congrArg Payload.deliveryMode hb) hp₃ hf₃ (by rw [hv₃,ht₃]; rfl)
  rw [← hmap₄] at hf₄
  have hsize₄ : FileHelper.size d₄ q₄.mapper.nameDataFile < 2^64 := by
    rw [FileHelper.size_eq hp₄ hf₄]
    omega
  have hc₄ : q₄.payload c = QueueMessage.bare "x" := (hpay c hne).trans hc
  obtain ⟨q₅,d₅,hrem₅,hmap₄',hmap₅,-,-,hv₅,ht₅,-,hp₅,f₅,hf₅,hle₅⟩ :=
    QueueMessage.ack_head hm₄ hw₄ (congrArg Payload.id hc₄)
      (congrArg Payload.deliveryMode hc₄) hp₄ hf₄ (by rw [hv₄,ht₄,hv₃,ht₃]; rfl)
  rw [← hmap₅] at hf₅
  have hsize₅ : FileHelper.size d₅ q₅.mapper.nameDataFile < 2^64 := by
    rw [FileHelper.size_eq hp₅ hf₅]
    omega
  have last := (((((((run.snoc (free_insert hins₁ hsize₁)).snoc (free_insert hins₂ hsize₂)).snoc
    (free_front (by rw [hmap]; exact hsize₂))).snoc (free_remove hrem₃ hsize₃)).snoc
    (free_front (by rw [hmap₃]; exact hsize₃))).snoc (free_remove hrem₄ hsize₄)).snoc
    (free_front (by rw [hmap₄']; exact hsize₄))).snoc (free_remove hrem₅ hsize₅)
  have hbad := hall ordersMapper blankDisk _ _ rfl last
  rw [hv₅,hv₄,hv₃,ht₅,ht₄,ht₃] at hbad
  exact absurd hbad (by decide)

end Wrapped
end MessageQueue

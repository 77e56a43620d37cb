import MessageQueue.Base.Takes
import MessageQueue.Store.Guarantees

/-! Acknowledgements commute, and repeating one has no effect. Their order decides when the file is
compacted, so this is said of what memory holds and of what the next process finds, not of the
bytes on file. -/
namespace MessageQueue
open Base Payload MessageMapper Entry

/-- What a queue holds in memory, apart from the places of its records. -/
@[ext] structure Holdings where
  msgs : List MessagePtr
  durableMsgs : Table String MessagePtr
  waitackMsgs : Table String MessagePtr
  validCount : UInt64
  payload : MessagePtr → Payload

def QueueMessage.holdings (q : QueueMessage) : Holdings :=
  ⟨q.msgs,q.durableMsgs,q.waitackMsgs,q.validCount,q.payload⟩

namespace Holdings
variable {m : Holdings} {a b id : String} {p p' : MessagePtr}

/-- The objects when the valid flag of one of them is cleared. -/
def clear (payload : MessagePtr → Payload) (p x : MessagePtr) : Payload :=
  if x = p then {payload x with valid := "0"} else payload x

/-- The message `p` leaves the table of the waiting ones. -/
def release (m : Holdings) (id : String) (p : MessagePtr) : Holdings :=
  if (m.payload p).deliveryMode = .durable then
    {m with
      durableMsgs := m.durableMsgs.erase id
      waitackMsgs := m.waitackMsgs.erase id
      validCount := m.validCount-1
      payload := clear m.payload p}
  else {m with waitackMsgs := m.waitackMsgs.erase id}

/-- What an acknowledgement means for the memory. -/
def ack (m : Holdings) (id : String) : Holdings :=
  match m.waitackMsgs.lookup id with
  | none => m
  | some p => m.release id p

theorem clear_comm (payload : MessagePtr → Payload) (p p' : MessagePtr) :
    clear (clear payload p) p' = clear (clear payload p') p := by
  funext x
  unfold clear
  split_ifs <;> rfl

@[simp] theorem clear_deliveryMode (payload : MessagePtr → Payload) (p x : MessagePtr) :
    (clear payload p x).deliveryMode = (payload x).deliveryMode := by
  unfold clear
  split_ifs <;> rfl

@[simp] theorem release_waitackMsgs : (m.release id p).waitackMsgs = m.waitackMsgs.erase id := by
  unfold release
  split_ifs <;> rfl

theorem release_comm (m : Holdings) (a b : String) (p p' : MessagePtr) :
    (m.release a p).release b p' = (m.release b p').release a p := by
  have hw := AList.erase_erase a b m.waitackMsgs
  have hd := AList.erase_erase a b m.durableMsgs
  have hp := clear_comm m.payload p p'
  by_cases ha : (m.payload p).deliveryMode = .durable <;>
    by_cases hb : (m.payload p').deliveryMode = .durable <;>
      simp [release,ha,hb,hw,hd,hp]

theorem ack_none (h : m.waitackMsgs.lookup id = none) : m.ack id = m := by
  simp only [ack,h]

theorem ack_some (h : m.waitackMsgs.lookup id = some p) : m.ack id = m.release id p := by
  simp only [ack,h]

theorem ack_takes : Takes (fun m id => AList.lookup id m.waitackMsgs) ack where
  absent := ack_none
  own m id := by
    cases hp : m.waitackMsgs.lookup id with
    | none => rw [ack_none hp]; exact hp
    | some p => rw [ack_some hp,release_waitackMsgs,AList.lookup_erase]
  others m a b hab := by
    cases hp : m.waitackMsgs.lookup b with
    | none => rw [ack_none hp]
    | some p => rw [ack_some hp,release_waitackMsgs,AList.lookup_erase_ne hab]
  swap {m a b p p'} hab hp hp' := by
    have ha : (m.release b p').waitackMsgs.lookup a = some p := by
      rw [release_waitackMsgs,AList.lookup_erase_ne hab,hp]
    have hb : (m.release a p).waitackMsgs.lookup b = some p' := by
      rw [release_waitackMsgs,AList.lookup_erase_ne (Ne.symm hab),hp']
    rw [ack_some hp,ack_some hp',ack_some ha,ack_some hb,release_comm]

end Holdings

namespace Ledger
variable {l : Ledger} {a b id : String} {w : Payload}

theorem remove_none (h : l.waiting id = none) : l.remove id = l := by
  simp only [remove,h]

theorem remove_some (h : l.waiting id = some w) : l.remove id =
    {l with
      waiting := Function.update l.waiting id none
      durable :=
        if w.deliveryMode = .durable then l.durable.filter (·.id ≠ id) else l.durable} := by
  simp only [remove,h]

theorem remove_takes : Takes waiting remove where
  absent := remove_none
  own l id := by
    cases hw : l.waiting id with
    | none => rw [remove_none hw]; exact hw
    | some w => rw [remove_some hw]; exact Function.update_self _ _ _
  others l a b hab := by
    cases hw : l.waiting b with
    | none => rw [remove_none hw]
    | some w => rw [remove_some hw]; exact Function.update_of_ne hab _ _
  swap {l a b w w'} hab hw hw' := by
    have hfilter : (l.durable.filter (·.id ≠ a)).filter (·.id ≠ b) =
        (l.durable.filter (·.id ≠ b)).filter (·.id ≠ a) := List.filter_comm _ _ _
    rw [remove_some hw,remove_some hw',remove_some (w := w')
      ((Function.update_of_ne (Ne.symm hab) _ _).trans hw'),remove_some (w := w)
      ((Function.update_of_ne hab _ _).trans hw)]
    ext1
    · rfl
    · exact Function.update_comm hab _ _ _
    · simp only
      split_ifs
      · exact hfilter
      · rfl
      · rfl
      · rfl

end Ledger

namespace QueueMessage
variable {q : QueueMessage} {d : Disk} {id : String} {p : MessagePtr} {check : Policy}

/-- Without a message that waits under the id nothing is done. -/
theorem remove_none (h : q.waitackMsgs.lookup id = none) : q.remove check d id = (true,q,d) := by
  simp only [remove,h]

end QueueMessage

/-- To the memory of a consistent store an acknowledgement does what it means, whether or not the
file is compacted. -/
theorem Consistent.remove_holdings {q : QueueMessage} {d : Disk} {es : List Entry}
    (h : Consistent q d es) (check : QueueMessage.Policy) (id : String) :
    (q.remove check d id).2.1.holdings = q.holdings.ack id ∧
      (q.remove check d id).2.1.mapper = q.mapper := by
  cases hw : q.waitackMsgs.lookup id with
  | none =>
    rw [QueueMessage.remove_none hw]
    exact ⟨(Holdings.ack_none hw).symm,rfl⟩
  | some p =>
    have hack : q.holdings.ack id = q.holdings.release id p := Holdings.ack_some hw
    by_cases hd : (q.payload p).deliveryMode = .durable
    · obtain ⟨d',es',hrem,hfile,hmem,hos,hlen,-,hvalid⟩ := h.settle hw hd
      obtain ⟨heap',valid',total',d'',es'',hgc,-,ho',hp',-,hv'⟩ :=
        QueueMessage.garbageCollection_spec (q := q.settled id p) check hfile
          (fun x hx => (hmem.durable _ x).mpr ⟨hx,rfl⟩) (h.total.trans hlen.symm) hvalid
      have hcount : valid' = q.validCount-1 := by
        rw [← UInt64.toNat_inj,hv',ho',← hvalid]
      have hclear : ∀ x, (heap' x).payload = Holdings.clear q.payload p x := by
        intro x
        rw [hp' x,Holdings.clear]
        split_ifs with hx
        · subst hx
          simp [QueueMessage.settled,QueueMessage.store,QueueMessage.payload,OnFile.cleared]
        · exact QueueMessage.settled_payload hx
      rw [QueueMessage.remove_durable hw hd check hrem,hgc,hack]
      simp only [Holdings.release,QueueMessage.holdings,hd,↓reduceIte]
      exact ⟨Holdings.ext rfl rfl rfl hcount (funext hclear),rfl⟩
    · have hd' : ¬ (q.heap p).payload.deliveryMode = .durable := hd
      rw [hack]
      simp only [QueueMessage.remove,hw,hd',↓reduceIte,Holdings.release,QueueMessage.holdings,hd]
      exact ⟨rfl,trivial⟩

/-- The queue of a process that starts on a file with these valid records. -/
def QueueMessage.recovered (m : MessageMapper) (ps : List Payload) : QueueMessage :=
  {(placed 0 ps).foldl recover (.new m) with
    validCount := UInt64.ofNat ps.length
    totalCount := UInt64.ofNat ps.length}

namespace Store
variable {check : QueueMessage.Policy} {s : Store} {l : Ledger} {id : String}

/-- The acknowledgements of these ids, one after the other. -/
def acks (check : QueueMessage.Policy) (s : Store) (ids : List String) : Store :=
  ids.foldl (fun s id => s.apply check (.remove id)) s

theorem apply_remove_none (h : s.queue.waitackMsgs.lookup id = none) :
    s.apply check (.remove id) = s := by
  simp only [apply,QueueMessage.remove_none h]

end Store

namespace Represents
variable {check : QueueMessage.Policy} {s : Store} {l : Ledger} {id : String}

/-- A restart depends on the names of the files and on the durable page of the ledger. -/
theorem restart_queue (h : Represents s l) :
    (s.restart check).queue = .recovered s.queue.mapper l.durable := by
  obtain ⟨t,ht⟩ : ∃ t, t = s.apply check .construct := ⟨_,rfl⟩
  obtain ⟨k,hk⟩ : ∃ k, k = l.apply .construct := ⟨_,rfl⟩
  have hc : Represents (s.apply check .construct) (l.apply .construct) := h.construct
  rw [Store.restart,← ht]
  rw [← ht,← hk] at hc
  have hmapper : t.queue.mapper = s.queue.mapper := by rw [ht]; rfl
  have hdurable : k.durable = l.durable := by rw [hk]; rfl
  cases hc with
  | ready => cases congrArg Store.recovered ht
  | @left m d ps plan file left =>
    have hfits : ∀ p ∈ ps, p.Fits := fun p hp =>
      fits_of_journal (left.small.trans (by norm_num)) hp
    have hgc : (QueueMessage.new m).mapper.garbageCollection d = _ :=
      m.garbageCollection_done ps plan file hfits
    rw [← hmapper,← hdurable]
    simp only [Store.apply,QueueMessage.recovery,hgc,placed_length]
    rfl

/-- What waits, waits under its own id. -/
theorem waiting_id (h : Represents s l) {p : MessagePtr}
    (hp : s.queue.waitackMsgs.lookup id = some p) : (s.queue.payload p).id = id := by
  cases h with
  | ready h => exact h.inMemory.waiting id p hp
  | left => simp [QueueMessage.new] at hp

theorem available_unclaimed (h : Represents s l) (hl : l.Distinct) {p : MessagePtr}
    (hm : p ∈ s.queue.msgs) : s.queue.waitackMsgs.lookup (s.queue.payload p).id = none := by
  cases h with
  | ready => exact Consistent.available_unclaimed hl hm
  | left => simp [QueueMessage.new] at hm

/-- One acknowledgement, for the ledger and for the memory. -/
theorem ack (h : Represents s l) (check : QueueMessage.Policy) (id : String) :
    Represents (s.apply check (.remove id)) (l.remove id) ∧
      (s.apply check (.remove id)).queue.holdings = s.queue.holdings.ack id ∧
      (s.apply check (.remove id)).queue.mapper = s.queue.mapper := by
  cases h with
  | ready h =>
    obtain ⟨hmem,hmap⟩ := h.remove_holdings check id
    exact ⟨.remove h id,hmem,hmap⟩
  | @left m d ps plan file h =>
    have hnone : (QueueMessage.new m).waitackMsgs.lookup id = none := AList.lookup_empty id
    rw [Store.apply_remove_none hnone,Ledger.remove_none rfl]
    exact ⟨.left plan file h,(Holdings.ack_none hnone).symm,rfl⟩

theorem acks (h : Represents s l) (check : QueueMessage.Policy) (ids : List String) :
    Represents (s.acks check ids) (ids.foldl Ledger.remove l) ∧
      (s.acks check ids).queue.holdings = ids.foldl Holdings.ack s.queue.holdings ∧
      (s.acks check ids).queue.mapper = s.queue.mapper := by
  induction ids generalizing s l with
  | nil => exact ⟨h,rfl,rfl⟩
  | cons id ids ih =>
    obtain ⟨hstep,hmem,hmap⟩ := h.ack check id
    obtain ⟨hrep,hmems,hmaps⟩ := ih hstep
    rw [hmem] at hmems
    exact ⟨hrep,hmems,hmaps.trans hmap⟩

end Represents

section Runs
variable {check : QueueMessage.Policy} {m : MessageMapper} {d : Disk} {ops : List Op} {s : Store}

/-- What memory holds after some acknowledgements, and the queue that the next process recovers,
depend on which ids were acknowledged, and neither on the order nor on repetitions. An id has no
effect, on the file either, once it is acknowledged, or if no waiting message has it, or if it is
that of an available message. -/
theorem acks_commute (hp : d.plan = ∅) (he : FileHelper.contents d m.nameDataFile = [])
    (run : (Store.system check).Run (.start m d) ops s) :
    (∀ ids ids' : List String, (∀ id, id ∈ ids ↔ id ∈ ids') →
      (s.acks check ids).queue.holdings = (s.acks check ids').queue.holdings ∧
      ((s.acks check ids).restart check).queue = ((s.acks check ids').restart check).queue) ∧
    (∀ ids id, id ∈ ids ∨ (∀ p, s.queue.Waits p → (s.queue.payload p).id ≠ id) →
      (s.acks check ids).apply check (.remove id) = s.acks check ids) ∧
    ∀ p ∈ s.queue.msgs, s.apply check (.remove (s.queue.payload p).id) = s := by
  obtain ⟨h,hdistinct⟩ := Store.run_ledger m hp he run
  generalize ops.foldl Ledger.apply .empty = l at h hdistinct
  refine ⟨fun ids ids' hids => ?_,fun ids id hid => ?_,fun p hm => ?_⟩
  · obtain ⟨hrep,hmem,hmap⟩ := h.acks check ids
    obtain ⟨hrep',hmem',hmap'⟩ := h.acks check ids'
    refine ⟨?_,?_⟩
    · rw [hmem,hmem',Holdings.ack_takes.foldl_eq hids]
    · rw [hrep.restart_queue,hrep'.restart_queue,hmap,hmap',Ledger.remove_takes.foldl_eq hids]
  · have hmem : (s.acks check ids).queue.holdings.waitackMsgs =
        (ids.foldl Holdings.ack s.queue.holdings).waitackMsgs := by rw [(h.acks check ids).2.1]
    have hnone : (ids.foldl Holdings.ack s.queue.holdings).waitackMsgs.lookup id = none := by
      cases hid with
      | inl hin => exact Holdings.ack_takes.get_foldl_mem hin _
      | inr hnot =>
        refine Holdings.ack_takes.get_foldl_none ?_ ids
        cases hlook : s.queue.waitackMsgs.lookup id with
        | none => exact hlook
        | some p => exact absurd (h.waiting_id hlook) (hnot p ⟨id,hlook⟩)
    exact Store.apply_remove_none (by rw [← hnone,← hmem]; rfl)
  · exact Store.apply_remove_none (h.available_unclaimed hdistinct hm)

/-- Three messages of which the second is transient, the first two handed out. -/
def ackCalls : List Op :=
  [.recovery,.insert (some ⟨"m1",.durable,"k"⟩) "first" true "",
    .insert (some ⟨"m2",.undurable,"k"⟩) "second" true "",
    .insert (some ⟨"m3",.durable,"k"⟩) "third" true "",.front,.front]

/-- One of the acknowledgements comes twice, one is of the message that is still available. -/
theorem acks_commute_orders :
    ((ackCalls.foldl (Store.apply QueueMessage.garbageCollectionCheck)
        (.start ordersMapper blankDisk)).acks QueueMessage.garbageCollectionCheck
          ["m1","m2","m1","m3"]).queue.holdings =
      ((ackCalls.foldl (Store.apply QueueMessage.garbageCollectionCheck)
        (.start ordersMapper blankDisk)).acks QueueMessage.garbageCollectionCheck
          ["m3","m2","m1"]).queue.holdings :=
  ((@acks_commute QueueMessage.garbageCollectionCheck ordersMapper blankDisk ackCalls _ rfl
    (by decide) (Lts.Admitted.run (by decide))).1 _ _ (by simp; tauto)).1

end Runs
end MessageQueue

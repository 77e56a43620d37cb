import MessageQueue.Store.Guarantees
import Mathlib.Data.List.Induction

/-! The garbage on file: what the compaction threshold, which is only looked at after an
acknowledgement, guarantees about the dead records of the data file in every state. -/
namespace MessageQueue
open Base Payload MessageMapper Entry

namespace Payload

/-- The records of a file that a compaction would drop. -/
def deads (ps : List Payload) : List Payload := ps.filter fun p => p.valid = "0"

theorem length_deads (ps : List Payload) :
    (deads ps).length + (valids ps).length = ps.length := by
  have h := List.length_eq_length_filter_add (l := ps) fun p => decide (p.valid = "0")
  simp only [deads,valids,decide_not,ne_eq]
  exact h.symm

end Payload

/-- At most as many dead records as valid ones, or as the threshold lets pass. -/
def Tidy (total valid : ℕ) : Prop := total ≤ valid + max 2000 valid

namespace QueueMessage
variable {q : QueueMessage} {check : Policy} {d : Disk}

/-- The test in integers: more than 2000 records, most of them dead. -/
theorem garbageCollectionCheck_iff {total valid : UInt64} (hle : valid.toNat ≤ total.toNat)
    (hlt : total.toNat < 2^32) : garbageCollectionCheck total valid = true ↔
      2000 < total.toNat ∧ valid.toNat < total.toNat-valid.toNat := by
  have hmul : (valid*10).toNat = valid.toNat*10 := by
    rw [UInt64.toNat_mul]
    exact Nat.mod_eq_of_lt (by simp; omega)
  simp only [garbageCollectionCheck,Bool.and_eq_true,decide_eq_true_eq,gt_iff_lt,
    UInt64.lt_iff_toNat_lt,UInt64.toNat_div,hmul]
  refine and_congr_right fun h => ?_
  have h2000 : 2000 < total.toNat := h
  rw [show (5 : UInt64).toNat = 5 from rfl,Nat.div_lt_iff_lt_mul (by omega)]
  omega

/-- Where the test does not ask for a compaction, the file is tidy. -/
theorem tidy_of_check {total valid : UInt64} (hle : valid.toNat ≤ total.toNat)
    (hlt : total.toNat < 2^32) (h : garbageCollectionCheck total valid = false) :
    Tidy total.toNat valid.toNat := by
  have hno := (garbageCollectionCheck_iff hle hlt).not.mp (by simp [h])
  unfold Tidy
  omega

/-- An insertion counts one record, valid, or none. -/
theorem insert_counts (bp : Option BasicProperties) (body : String) (durable : Bool)
    (uuid : String) :
    (q.insert d bp body durable uuid).2.1.totalCount = q.totalCount ∧
      (q.insert d bp body durable uuid).2.1.validCount = q.validCount ∨
    (q.insert d bp body durable uuid).2.1.totalCount = q.totalCount+1 ∧
      (q.insert d bp body durable uuid).2.1.validCount = q.validCount+1 := by
  simp only [insert]
  split_ifs
  · split
    · exact .inl ⟨rfl,rfl⟩
    · exact .inr ⟨rfl,rfl⟩
  · exact .inl ⟨rfl,rfl⟩

/-- An acknowledgement leaves the counters, or takes one from the valid ones and finds nothing to
do, or compacts the file and counts anew. -/
theorem remove_counts (check : Policy) (d : Disk) (msgId : String) :
    ((q.remove check d msgId).2.1.totalCount = q.totalCount ∧
      (q.remove check d msgId).2.1.validCount = q.validCount) ∨
    (check q.totalCount (q.validCount-1) = false ∧
      (q.remove check d msgId).2.1.totalCount = q.totalCount ∧
      (q.remove check d msgId).2.1.validCount = q.validCount-1) ∨
    (q.remove check d msgId).2.1.totalCount = (q.remove check d msgId).2.1.validCount := by
  unfold remove
  split
  · exact .inl ⟨rfl,rfl⟩
  · split_ifs
    · right
      simp only [garbageCollection]
      split_ifs with h
      · exact .inl ⟨h,rfl,rfl⟩
      · exact .inr rfl
    · exact .inl ⟨rfl,rfl⟩

end QueueMessage

open QueueMessage

/-- The files of a store are tidy, in service as before `recovery`. -/
inductive TidyStore : Store → Prop
  | ready {q : QueueMessage} {d : Disk} {es : List Entry} (h : Consistent q d es)
      (tidy : Tidy es.length (owners es).length) : TidyStore ⟨q,d,true⟩
  | left {m : MessageMapper} {d : Disk} {ps : List Payload} (plan : d.plan = ∅)
      (file : d.files (resolve m.nameDataFile) = some (journal ps)) (h : Leftover ps)
      (tidy : Tidy ps.length (valids ps).length) : TidyStore ⟨.new m,d,false⟩

namespace TidyStore
variable {s t : Store} {q : QueueMessage} {d : Disk} {es : List Entry}

theorem start (m : MessageMapper) {d : Disk} (hp : d.plan = ∅)
    (he : FileHelper.contents d m.nameDataFile = []) : TidyStore (.start m d) := by
  obtain ⟨hplan,hfile⟩ := m.construct_done hp
  rw [he,← journal_nil] at hfile
  exact left hplan hfile .nil (by simp [Tidy])

theorem construct (check : Policy) (h : TidyStore s) : TidyStore (s.apply check .construct) := by
  cases h with
  | @ready q d es h tidy =>
    obtain ⟨hl,hv⟩ := h.leftover
    obtain ⟨hplan,hfile⟩ := q.mapper.construct_done h.onFile.plan
    rw [FileHelper.contents_eq h.onFile.plan h.onFile.file] at hfile
    refine left hplan hfile hl ?_
    rw [hv]
    simpa [payloads,Ledger.of] using tidy
  | @left m d ps plan file h tidy =>
    obtain ⟨hplan,hfile⟩ := m.construct_done plan
    rw [FileHelper.contents_eq plan file] at hfile
    exact left hplan hfile h tidy

theorem recovery (check : Policy) (h : TidyStore s) (hr : s.recovered = false) :
    TidyStore (s.apply check .recovery) := by
  cases h with
  | ready h => simp at hr
  | @left m d ps plan file h tidy =>
    obtain ⟨es,hc,-⟩ := Consistent.recovery m plan file h
    have heq : es.length = (owners es).length := by
      rw [← hc.total,← hc.valid]
      rfl
    exact ready hc (by unfold Tidy; omega)

theorem insert (h : Consistent q d es) (tidy : Tidy es.length (owners es).length)
    (bp : Option BasicProperties) (body : String) (durable : Bool) (uuid : String)
    (hid : Unclaimed q (insertedPayload bp body durable uuid))
    (hs : (journal (payloads q.heap es)).length +
      growth (insertedPayload bp body durable uuid) < 2^32) :
    TidyStore ⟨(q.insert d bp body durable uuid).2.1,(q.insert d bp body durable uuid).2.2,true⟩ := by
  obtain ⟨-,es',hc,-⟩ := h.insert bp body durable uuid hid hs
  refine ready hc ?_
  have hlt := h.onFile.length_lt
  have hle : (owners es).length ≤ es.length := length_owners_le
  have ht := h.total
  have hv := h.valid
  unfold Tidy at tidy ⊢
  rw [← hc.total,← hc.valid]
  cases insert_counts (q := q) (d := d) bp body durable uuid with
  | inl e => rw [e.1,e.2,ht,hv]; exact tidy
  | inr e =>
    rw [e.1,e.2,UInt64.toNat_add,UInt64.toNat_add,ht,hv]
    simp only [UInt64.reduceToNat]
    omega

theorem remove (h : Consistent q d es) (tidy : Tidy es.length (owners es).length)
    (msgId : String) : TidyStore ⟨(q.remove garbageCollectionCheck d msgId).2.1,
      (q.remove garbageCollectionCheck d msgId).2.2,true⟩ := by
  obtain ⟨-,es',hc,-⟩ := h.remove garbageCollectionCheck msgId
  refine ready hc ?_
  have hlt := hc.onFile.length_lt
  have hle : (owners es').length ≤ es'.length := length_owners_le
  rw [← hc.total,← hc.valid]
  rw [← hc.total] at hlt hle
  rw [← hc.valid] at hle
  rcases remove_counts (q := q) garbageCollectionCheck d msgId with e | e | e
  · rw [e.1,e.2,h.total,h.valid]
    exact tidy
  · rw [e.2.1] at hlt
    rw [e.2.1,e.2.2] at hle ⊢
    exact tidy_of_check hle hlt e.1
  · rw [e]
    unfold Tidy
    omega

theorem front (h : Consistent q d es) (tidy : Tidy es.length (owners es).length)
    (hid : ∀ p rest, q.msgs = p::rest → q.waitackMsgs.lookup (q.payload p).id = none) :
    TidyStore ⟨q.front.2,d,true⟩ := ready (h.front hid).1 tidy

/-- No call makes a tidy store untidy. -/
theorem step {op : Op} {l : Ledger} (h : TidyStore s) (hr : Represents s l) (hl : l.Distinct)
    (step : (Store.system garbageCollectionCheck).step s op t) : TidyStore t := by
  obtain ⟨⟨hready,hnew,hsize⟩,rfl⟩ := step
  cases op with
  | construct => exact h.construct _
  | recovery => exact h.recovery _ hready
  | insert bp body durable uuid =>
    cases h with
    | left => simp [Store.Ready] at hready
    | @ready q d es h tidy =>
      obtain ⟨-,-,-,ht⟩ := h.newId fun p hp => by
        cases hp with
        | inl hp => exact hnew.1 p hp
        | inr hp =>
          obtain ⟨i,hi⟩ := hp
          exact hnew.2 ⟨i,p⟩ (AList.mem_lookup_iff.mp hi)
      exact insert h tidy bp body durable uuid (fun _ => ht)
        (by rw [← h.insert_size bp body durable uuid]; exact hsize)
  | front =>
    cases h with
    | left => simp [Store.Ready] at hready
    | ready h tidy =>
      cases hr with
      | ready h₀ => exact front h tidy (Consistent.head_unclaimed hl)
  | remove msgId =>
    cases h with
    | left => simp [Store.Ready] at hready
    | ready h tidy => exact remove h tidy msgId

end TidyStore

section Runs
variable {m : MessageMapper} {d : Disk} {ops : List Op} {s : Store}

theorem run_tidy (hp : d.plan = ∅) (he : FileHelper.contents d m.nameDataFile = [])
    (run : (Store.system garbageCollectionCheck).Run (.start m d) ops s) : TidyStore s := by
  induction ops using List.reverseRecOn generalizing s with
  | nil =>
    rw [run.eq_foldl_of_guarded]
    exact .start m hp he
  | append_singleton ops op ih =>
    obtain ⟨t,before,last⟩ := run.snoc_cases
    obtain ⟨hr,hl⟩ := Store.run_ledger m hp he before
    exact (ih before).step hr hl last

/-- In every state of every run the data file holds at most 2000 dead records, or at most as many
as valid ones, and from `recovery` on the test says of the counters whether it holds more than
2000 records, most of them dead. -/
theorem garbage_bounded (hp : d.plan = ∅) (he : FileHelper.contents d m.nameDataFile = [])
    (run : (Store.system garbageCollectionCheck).Run (.start m d) ops s) :
    ∃ ps, s.disk.files (resolve s.queue.mapper.nameDataFile) = some (journal ps) ∧
      (∀ p ∈ ps, p.Fits) ∧ (deads ps).length ≤ max 2000 (valids ps).length ∧
      (s.recovered = true →
        (garbageCollectionCheck s.queue.totalCount s.queue.validCount = true ↔
          2000 < ps.length ∧ (valids ps).length < (deads ps).length)) := by
  have h := run_tidy hp he run
  cases h with
  | @ready q d es h tidy =>
    have hv : (valids (payloads q.heap es)).length = (owners es).length := by
      rw [h.onFile.valids_payloads,List.length_map]
    have hes : (payloads q.heap es).length = es.length := List.length_map _
    have hsum := length_deads (payloads q.heap es)
    have hle : (owners es).length ≤ es.length := length_owners_le
    have horder : q.validCount.toNat ≤ q.totalCount.toNat := by
      rw [h.total,h.valid]
      exact hle
    have hcheck := garbageCollectionCheck_iff horder (by rw [h.total]; exact h.onFile.length_lt)
    rw [h.total,h.valid] at hcheck
    unfold Tidy at tidy
    refine ⟨payloads q.heap es,h.onFile.file,h.onFile.fits,by omega,fun _ => ?_⟩
    rw [hcheck]
    omega
  | @left m d ps plan file h tidy =>
    have hsum := length_deads ps
    unfold Tidy at tidy
    exact ⟨ps,file,fun p hp => fits_of_journal (h.small.trans (by norm_num)) hp,by omega,
      fun hr => absurd hr (by simp)⟩

theorem garbage_bounded_orders : ∃ ps,
    (orderCalls.foldl (Store.apply garbageCollectionCheck) (.start ordersMapper blankDisk)).disk.files
        (resolve ordersMapper.nameDataFile) = some (journal ps) ∧
      (deads ps).length ≤ max 2000 (valids ps).length := by
  obtain ⟨ps,hfile,-,hle,-⟩ := garbage_bounded rfl (by decide) orders_run
  exact ⟨ps,hfile,hle⟩

end Runs
end MessageQueue

import MessageQueue.Store.Runs

/-! What the users of a queue's store can rely on in every run with distinct ids: the file and
the memory describe the same messages, a restart finds the durable ones, and no one can tell when
the file was compacted. -/
namespace MessageQueue
open Base Bytes Payload MessageMapper Entry

/-- The representation of a store, record by record. -/
structure Represented (q : QueueMessage) (d : Disk) (es : List Entry) : Prop where
  /-- The data file is a sequence of complete records. -/
  file : d.files (resolve q.mapper.nameDataFile) = some (journal (payloads q.heap es))
  fits : ∀ p ∈ payloads q.heap es, p.Fits
  /-- The records that are not dead are those of the durable table, one each. -/
  valid : ∀ e ∈ es, (e.payload q.heap).valid ≠ "0" ↔ ∃ p, e = .live p
  nodup : (owners es).Nodup
  durable : ∀ id p, q.durableMsgs.lookup id = some p ↔ .live p ∈ es ∧ (q.payload p).id = id
  /-- The durable table lists the durable messages among the available and the waiting ones. -/
  held : ∀ p, .live p ∈ es ↔ (p ∈ q.msgs ∨ q.Waits p) ∧ (q.payload p).deliveryMode = .durable
  /-- Each of them knows the place of its own record, which parses back to its payload. -/
  place : ∀ front p back, es = front ++ .live p::back →
    (q.heap p).offset.toNat = (journal (payloads q.heap front)).length+8 ∧
    (q.heap p).length.toNat = (q.payload p).serializeAsString.length ∧
    parseFromString (((FileHelper.contents d q.mapper.nameDataFile).drop
      (q.heap p).offset.toNat).take (q.heap p).length.toNat) = (q.payload p,true)
  total : q.totalCount.toNat = es.length
  count : q.validCount.toNat = (es.filter fun e => (e.payload q.heap).valid ≠ "0").length

/-- The bytes between the offset and the length of a record's owner are its payload. -/
lemma journal_place (front back : List Payload) (p : Payload) :
    ((journal (front ++ p::back)).drop ((journal front).length+8)).take
      p.serializeAsString.length = p.serializeAsString := by
  have hl : (journal front).length+8 =
      (journal front ++ leBytes 8 p.serializeAsString.length).length := by simp
  have hj : journal (front ++ p::back) =
      (journal front ++ leBytes 8 p.serializeAsString.length) ++
        (p.serializeAsString ++ journal back) := by simp [record]
  rw [hl,hj,List.drop_left,List.take_left]

/-- Without an entry in the durable table there is no valid record to load. -/
theorem Represented.load_nil {q : QueueMessage} {d : Disk} {es : List Entry}
    (h : Represented q d es) (hp : d.plan = ∅) (hd : q.durableMsgs = ∅) : q.mapper.load d = [] := by
  have hnone : valids (payloads q.heap es) = [] := by
    refine List.filter_eq_nil_iff.mpr fun w hw => ?_
    obtain ⟨e,he,rfl⟩ := List.mem_map.mp hw
    simp only [decide_eq_true_eq]
    intro hv
    obtain ⟨p,rfl⟩ := (h.valid e he).mp hv
    have hp := (h.durable _ p).mpr ⟨he,rfl⟩
    simp [hd] at hp
  rw [q.mapper.load_journal _ (FileHelper.contents_eq hp h.file) h.fits,hnone,List.map_nil]

theorem Consistent.represented {q : QueueMessage} {d : Disk} {es : List Entry}
    (h : Consistent q d es) : Represented q d es := by
  have hvalid : ∀ e ∈ es, (e.payload q.heap).valid ≠ "0" ↔ ∃ p, e = .live p := by
    intro e he
    cases e with
    | live p =>
      have hp := h.onFile.alive p (mem_owners.mpr he)
      simp [Entry.payload,hp]
    | dead w => simp [Entry.payload,h.onFile.dead w he]
  refine ⟨h.onFile.file,h.onFile.fits,hvalid,h.onFile.nodup,?_,?_,?_,h.total,?_⟩
  · intro id p; rw [← mem_owners]; exact h.inMemory.durable id p
  · intro p; rw [← mem_owners]; exact h.inMemory.held p
  · rintro front p back rfl
    obtain ⟨-,hp,-⟩ := placed_append.mp h.onFile.placed
    obtain ⟨hoff,hlen⟩ := hp p rfl
    rw [Nat.zero_add] at hoff
    refine ⟨hoff,hlen,?_⟩
    have hpay : payloads q.heap (front ++ .live p::back) =
        payloads q.heap front ++ q.payload p::payloads q.heap back := payloads_append
    rw [FileHelper.contents_eq h.onFile.plan h.onFile.file,hoff,hlen,hpay]
    exact (congrArg parseFromString (journal_place _ _ (q.payload p))).trans
      (parseFromString_serializeAsString _)
  · have hv := h.onFile.valids_payloads
    rw [h.valid,← List.length_map (f := fun p => (q.heap p).payload),← hv]
    simp only [valids,payloads,List.filter_map,List.length_map]
    rfl

/-- The files of a queue and a disk without files, for the runs on fixed calls. -/
def ordersMapper : MessageMapper := .named "/data" "orders"

/-- A durable and a transient message are inserted and taken, the durable one is acknowledged,
and another durable one inserted. -/
def orderCalls : List Op :=
  [.recovery,.insert (some ⟨"m1",.durable,"k"⟩) "first" true "",
    .insert (some ⟨"m2",.undurable,"k"⟩) "second" true "",.front,.front,.remove "m1",
    .insert none "third" true "u3"]

theorem orders_run : (Store.system QueueMessage.garbageCollectionCheck).Run
    (.start ordersMapper blankDisk) orderCalls
    (orderCalls.foldl (Store.apply QueueMessage.garbageCollectionCheck)
      (.start ordersMapper blankDisk)) := Lts.Admitted.run (by decide)

section Runs
variable {check : QueueMessage.Policy} {m : MessageMapper} {d : Disk} {ops : List Op} {s : Store}

/-- From `recovery` on, file and memory agree after every call. Before it the file is made of
complete records and the object is as the constructor left it. -/
theorem store_represented (hp : d.plan = ∅) (he : FileHelper.contents d m.nameDataFile = [])
    (run : (Store.system check).Run (.start m d) ops s) :
    (s.recovered = true → ∃ es, Represented s.queue s.disk es) ∧
    (s.recovered = false →
      (∃ ps, s.disk.files (resolve s.queue.mapper.nameDataFile) = some (journal ps) ∧
        ∀ p ∈ ps, p.Fits) ∧
      s.queue = .new s.queue.mapper) := by
  obtain ⟨h,-⟩ := Store.run_ledger m hp he run
  generalize ops.foldl Ledger.apply .empty = l at h
  cases h with
  | @ready q d es h => exact ⟨fun _ => ⟨es,h.represented⟩,fun hr => absurd hr (by simp)⟩
  | @left m d ps plan file h =>
    refine ⟨fun hr => absurd hr (by simp),fun _ => ⟨⟨ps,file,?_⟩,rfl⟩⟩
    exact fun p hp => fits_of_journal (h.small.trans (by norm_num)) hp

theorem store_represented_orders :
    ∃ es, Represented
      (orderCalls.foldl (Store.apply QueueMessage.garbageCollectionCheck)
        (.start ordersMapper blankDisk)).queue
      (orderCalls.foldl (Store.apply QueueMessage.garbageCollectionCheck)
        (.start ordersMapper blankDisk)).disk
      es :=
  (store_represented rfl (by decide) orders_run).1 (by decide)

/-- Between the constructor and `recovery` a valid record has no entry in the durable table. -/
theorem not_represented_before_recovery :
    ¬ ∀ (m : MessageMapper) (d : Disk) (ops : List Op) (s : Store), d.plan = ∅ →
      FileHelper.contents d m.nameDataFile = [] →
      (Store.system QueueMessage.garbageCollectionCheck).Run (.start m d) ops s →
      ∃ es, Represented s.queue s.disk es := by
  intro h
  obtain ⟨es,hr⟩ := h ordersMapper blankDisk (orderCalls ++ [.construct]) _ rfl (by decide)
    (Lts.Admitted.run (by decide))
  exact absurd (congrArg List.length (hr.load_nil rfl rfl)) (by decide)

/-- The store after a restart stands for the durable part of its ledger. -/
theorem Represents.restart {l : Ledger} (h : Represents s l) :
    Represents (s.restart check) l.restart := by
  have hc : Represents (s.apply check .construct) (l.apply .construct) := h.construct
  exact hc.recovery rfl

/-- Restarting any number of times brings back the durable messages that are not acknowledged,
in the order of their insertion, and no others. -/
theorem durable_recovery (hp : d.plan = ∅) (he : FileHelper.contents d m.nameDataFile = [])
    (run : (Store.system check).Run (.start m d) ops s) (n : ℕ) :
    ((Store.restart check)^[n+1] s).available = (ops.foldl Ledger.apply .empty).durable ∧
      ∀ p ∈ ((Store.restart check)^[n+1] s).available, p.deliveryMode = .durable := by
  obtain ⟨h,-⟩ := Store.run_ledger m hp he run
  generalize ops.foldl Ledger.apply .empty = l at h ⊢
  have hn : Represents ((Store.restart check)^[n+1] s) l.restart := by
    induction n with
    | zero => exact h.restart
    | succ n ih =>
      rw [Function.iterate_succ_apply']
      exact ih.restart
  have ha : ((Store.restart check)^[n+1] s).available = l.durable := hn.available_eq
  refine ⟨ha,?_⟩
  rw [ha]
  exact hn.durable_mode

theorem durable_recovery_orders :
    ((Store.restart QueueMessage.garbageCollectionCheck)^[2] (orderCalls.foldl
      (Store.apply QueueMessage.garbageCollectionCheck) (.start ordersMapper blankDisk))).available =
        (orderCalls.foldl Ledger.apply .empty).durable :=
  (durable_recovery rfl (by decide) orders_run 1).1

end Runs

/-- What the callers of a store can see of it, the list that the next process would recover
included. -/
structure Observation where
  front : Option Payload
  msgs : List Payload
  waitackMsgs : String → Option Payload
  durableMsgs : String → Option Payload
  validCount : UInt64
  recovery : List Payload

def Store.observe (check : QueueMessage.Policy) (s : Store) : Observation where
  front := s.queue.front.1.map s.queue.payload
  msgs := s.available
  waitackMsgs id := (s.queue.waitackMsgs.lookup id).map s.queue.payload
  durableMsgs id := (s.queue.durableMsgs.lookup id).map s.queue.payload
  validCount := s.queue.validCount
  recovery := (s.restart check).available

namespace Store

/-- Whether the store has recovered in this life depends on the calls alone. -/
theorem recovered_foldl (check check' : QueueMessage.Policy) (ops : List Op) {s t : Store}
    (h : s.recovered = t.recovered) :
    (ops.foldl (apply check) s).recovered = (ops.foldl (apply check') t).recovered := by
  induction ops generalizing s t with
  | nil => exact h
  | cons op ops ih => exact ih (by cases op <;> simp [apply,h])

end Store

/-- The durable table of a consistent store is its durable page, by id. -/
theorem Consistent.durable_lookup {q : QueueMessage} {d : Disk} {es : List Entry}
    (h : Consistent q d es) (id : String) (w : Payload) :
    (q.durableMsgs.lookup id).map q.payload = some w ↔
      w ∈ (Ledger.of q es).durable ∧ w.id = id := by
  simp only [Option.map_eq_some_iff,Ledger.of,List.mem_map]
  constructor
  · rintro ⟨p,hp,rfl⟩
    obtain ⟨ho,hi⟩ := (h.inMemory.durable id p).mp hp
    exact ⟨⟨p,ho,rfl⟩,hi⟩
  · rintro ⟨⟨p,ho,rfl⟩,hi⟩
    exact ⟨p,(h.inMemory.durable id p).mpr ⟨ho,hi⟩,rfl⟩

/-- The head's payload is the first of the list. -/
theorem QueueMessage.front_payload (q : QueueMessage) :
    q.front.1.map q.payload = (q.msgs.map q.payload).head? := by
  unfold front
  cases q.msgs <;> rfl

/-- Stores that stand for one ledger look the same. -/
theorem Represents.observe_eq {s t : Store} {l : Ledger} {check check' : QueueMessage.Policy}
    (hs : Represents s l) (ht : Represents t l) (hr : s.recovered = t.recovered) :
    s.observe check = t.observe check' := by
  have hrec : (s.restart check).available = (t.restart check').available :=
    hs.restart.available_eq.trans ht.restart.available_eq.symm
  have hmsgs : s.available = t.available := hs.available_eq.trans ht.available_eq.symm
  simp only [Store.observe,QueueMessage.front_payload,Observation.mk.injEq]
  refine ⟨congrArg List.head? hmsgs,hmsgs,?_⟩
  simp only [hrec,and_true]
  generalize hl : l = l' at ht
  cases hs with
  | ready h =>
    cases ht with
    | left => simp at hr
    | ready h' =>
      refine ⟨congrArg Ledger.waiting hl,?_,?_⟩
      · funext id
        ext w
        rw [h.durable_lookup,h'.durable_lookup,hl]
      · have hlen := congrArg (fun l => List.length (Ledger.durable l)) hl
        simp only [Ledger.of,List.length_map] at hlen
        rw [← UInt64.toNat_inj,h.valid,h'.valid,hlen]
  | left =>
    cases ht with
    | ready => simp at hr
    | left => exact ⟨rfl,rfl,rfl⟩

/-- Two runs of the same calls under two compaction policies end in stores that no one can tell
apart. Every result of `front` on the way is seen at the end of a shorter run. -/
theorem compaction_unobservable {check check' : QueueMessage.Policy} {m : MessageMapper}
    {d : Disk} {ops : List Op} {s t : Store} (hp : d.plan = ∅)
    (he : FileHelper.contents d m.nameDataFile = [])
    (run : (Store.system check).Run (.start m d) ops s)
    (run' : (Store.system check').Run (.start m d) ops t) :
    s.observe check = t.observe check' := by
  have hs := (Store.run_ledger m hp he run).1
  have ht := (Store.run_ledger m hp he run').1
  refine hs.observe_eq ht ?_
  rw [run.eq_foldl_of_guarded,run'.eq_foldl_of_guarded]
  exact Store.recovered_foldl check check' ops rfl

theorem compaction_unobservable_orders :
    (orderCalls.foldl (Store.apply fun _ _ => true) (.start ordersMapper blankDisk)).observe
        (fun _ _ => true) =
      (orderCalls.foldl (Store.apply QueueMessage.garbageCollectionCheck)
        (.start ordersMapper blankDisk)).observe QueueMessage.garbageCollectionCheck :=
  compaction_unobservable rfl (by decide) (Lts.Admitted.run (by decide)) orders_run

end MessageQueue

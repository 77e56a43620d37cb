import MessageQueue.Store.Guarantees

/-! A compaction that is cut short: the files after every number of its file operations, and what
the next process recovers from them. -/
namespace MessageQueue
open Base Bytes Payload FileHelper

namespace MessageMapper
variable (m : MessageMapper) {d : Disk}

/-- What a crash after `k` operations of a compaction leaves to the next process. -/
def interrupted (d : Disk) (k : ℕ) : Disk := (m.garbageCollection (d.crashAfter k)).2.reboot

/-- The list that the next process starts with: the constructor, then `recovery`. -/
def recovered (d : Disk) : List Payload :=
  let q := ((QueueMessage.new m).recovery (m.construct d)).2.1
  q.msgs.map q.payload

theorem insert_frame {name : String} {p : Path} (h : p ≠ resolve name) (msg : Message) :
    (insert d name msg).2.2.files p = d.files p := by
  have h1 := write_frame (d := d) (leBytes 8 msg.payload.serializeAsString.length)
    (size d name) h
  simp only [insert]
  split
  · rename_i e heq
    rw [heq] at h1
    exact h1
  · rename_i e heq
    rw [heq] at h1
    have h2 := write_frame (d := e) msg.payload.serializeAsString (size d name+8) h
    split <;> rename_i e' heq' <;> rw [heq'] at h2 <;> exact h2.trans h1

/-- Whatever fails, the messages stay the same but for their places. -/
theorem insertTempFiles_payload (d : Disk) (ms : List Message) :
    (m.insertTempFiles d ms).2.1.map Message.payload = ms.map Message.payload := by
  induction ms generalizing d with
  | nil => rfl
  | cons msg ms ih =>
    have hpay := insert_payload d m.nameTempFile msg
    simp only [insertTempFiles]
    generalize insert d m.nameTempFile msg = r at hpay ⊢
    obtain ⟨ok,msg',d'⟩ := r
    simp only at hpay
    cases ok with
    | false => simp [hpay]
    | true => simp [hpay,ih]

theorem garbageCollection_payload (d : Disk) :
    (m.garbageCollection d).1.map Message.payload = (m.load d).map Message.payload := by
  have hpay := m.insertTempFiles_payload (FileHelper.createFile d m.nameTempFile).2 (m.load d)
  simp only [garbageCollection]
  generalize m.insertTempFiles (FileHelper.createFile d m.nameTempFile).2 (m.load d) = r at hpay ⊢
  obtain ⟨ok,ms,d'⟩ := r
  cases ok with
  | false => exact hpay
  | true =>
    simp only
    split <;> exact hpay

/-- The two writes of an append that the environment lets succeed. -/
theorem insert_after {name : String} {f : Bytes} (k : ℕ) (plan : List Outcome) (msg : Message)
    (h : d.files (resolve name) = some f) :
    insert (d.after (k+2) plan) name msg = (true,placedAt f.length msg,
      (d.put (resolve name) (some (f ++ msg.payload.record))).after k plan) := by
  have hs : size (d.after (k+2) plan) name = f.length :=
    size_at (Disk.after_reaches _ _) h
  have h8 : f.length+8 = (f ++ leBytes 8 msg.payload.serializeAsString.length).length := by simp
  rw [insert,hs,write_next (Disk.next_after (k+1) plan) h,splice_end]
  simp only [Disk.after_put]
  rw [h8,write_next (f := f ++ leBytes 8 msg.payload.serializeAsString.length)
    (Disk.next_after k plan) (by simp),splice_end]
  simp [placedAt,record]

/-- The two writes of an append that comes before the crash. -/
theorem insert_crashAfter {name : String} {f : Bytes} (k : ℕ) (msg : Message)
    (h : d.files (resolve name) = some f) :
    insert (d.crashAfter (k+2)) name msg = (true,placedAt f.length msg,
      (d.put (resolve name) (some (f ++ msg.payload.record))).crashAfter k) :=
  insert_after k [.stops] msg h

/-- An append that meets the crash fails. -/
theorem insert_stops {name : String} {f : Bytes} {k : ℕ} (hk : k < 2) (msg : Message)
    (h : d.files (resolve name) = some f) : (insert (d.crashAfter k) name msg).1 = false := by
  obtain rfl | rfl : k = 0 ∨ k = 1 := by omega
  · simp [insert,write_stops Disk.next_stops]
  · rw [insert,write_next (Disk.next_crashAfter 0) h]
    simp only [Disk.crashAfter_put]
    rw [write_stops Disk.next_stops]

theorem insertTempFiles_frame {p : Path} (h : p ≠ resolve m.nameTempFile) (ms : List Message) :
    (m.insertTempFiles d ms).2.2.files p = d.files p := by
  induction ms generalizing d with
  | nil => rfl
  | cons msg ms ih =>
    have hi := insert_frame (d := d) h msg
    simp only [insertTempFiles]
    split <;> rename_i e heq <;> rw [heq] at hi
    · exact hi
    · exact ih.trans hi

/-- All the appends, when the environment lets them succeed. -/
theorem insertTempFiles_after (ps : List Payload) (f : Bytes) (k : ℕ) (plan : List Outcome)
    (h : d.files (resolve m.nameTempFile) = some f) :
    m.insertTempFiles (d.after (k+2*ps.length) plan) (ps.map fun p => {payload := p}) =
      (true,placed f.length ps,
        (d.put (resolve m.nameTempFile) (some (f ++ journal ps))).after k plan) := by
  induction ps generalizing d f with
  | nil => simp [insertTempFiles,placed,Disk.put,← h]
  | cons p ps ih =>
    have hlen : k+2*(p::ps).length = k+2*ps.length+2 := by simp; omega
    rw [List.map_cons,insertTempFiles,hlen,insert_after _ _ _ h]
    simp only
    rw [ih _ Disk.put_self]
    simp [placed]

/-- A crash that comes after all the appends. -/
theorem insertTempFiles_crashAfter (ps : List Payload) (f : Bytes) (k : ℕ)
    (h : d.files (resolve m.nameTempFile) = some f) :
    m.insertTempFiles (d.crashAfter (k+2*ps.length)) (ps.map fun p => {payload := p}) =
      (true,placed f.length ps,
        (d.put (resolve m.nameTempFile) (some (f ++ journal ps))).crashAfter k) :=
  m.insertTempFiles_after ps f k [.stops] h

/-- A crash among the appends makes one of them fail. -/
theorem insertTempFiles_stops (ps : List Payload) (f : Bytes) {k : ℕ} (hk : k < 2*ps.length)
    (h : d.files (resolve m.nameTempFile) = some f) :
    (m.insertTempFiles (d.crashAfter k) (ps.map fun p => {payload := p})).1 = false := by
  induction ps generalizing d f k with
  | nil => simp at hk
  | cons p ps ih =>
    rw [List.map_cons,insertTempFiles]
    by_cases hk2 : k < 2
    · have hi := insert_stops hk2 {payload := p} h
      generalize insert (d.crashAfter k) m.nameTempFile {payload := p} = r at hi ⊢
      obtain ⟨ok,msg,e⟩ := r
      simp only at hi
      subst hi
      rfl
    · obtain ⟨j,rfl⟩ : ∃ j, k = j+2 := ⟨k-2,by omega⟩
      rw [insert_crashAfter _ _ h]
      exact ih _ (by simp at hk; omega) Disk.put_self

/-- The data file after a crash: the old one until it is removed, then none, and the new one
once the temporary file has its name. -/
theorem interrupted_file (ps : List Payload) (k : ℕ)
    (h : d.files (resolve m.nameDataFile) = some (journal ps)) (hf : ∀ p ∈ ps, p.Fits) :
    (m.interrupted d k).files (resolve m.nameDataFile) =
      if k < 2*(valids ps).length+2 then some (journal ps)
      else if k = 2*(valids ps).length+2 then none
      else some (journal (valids ps)) := by
  have hne := m.distinct
  have hload : m.load (d.crashAfter k) = (valids ps).map fun p => {payload := p} :=
    m.load_journal ps (contents_at (d := d.crashAfter k) (Disk.crashAfter_reaches k) h) hf
  obtain ⟨n,hn⟩ : ∃ n, n = (valids ps).length := ⟨_,rfl⟩
  rw [← hn]
  simp only [interrupted,Disk.reboot_files,garbageCollection,hload]
  by_cases hk : k < 2*n+1
  · -- the crash comes before the last append, and the data file is not touched
    rw [if_pos (by omega)]
    cases k with
    | zero =>
      rw [createFile_stops Disk.next_stops]
      cases hv : valids ps with
      | nil => simpa [insertTempFiles,removeFile_stops Disk.next_stops] using h
      | cons p qs => simpa [insertTempFiles,insert,write_stops Disk.next_stops] using h
    | succ j =>
      rw [createFile_next (Disk.next_crashAfter j)]
      have hstop := m.insertTempFiles_stops (d := d.put (resolve m.nameTempFile) (some []))
        (valids ps) [] (k := j) (by omega) Disk.put_self
      have hframe := m.insertTempFiles_frame
        (d := (d.put (resolve m.nameTempFile) (some [])).crashAfter j) hne.symm
        ((valids ps).map fun p => {payload := p})
      simp only [Disk.crashAfter_put]
      generalize m.insertTempFiles _ _ = r at hstop hframe ⊢
      obtain ⟨ok,ms,e⟩ := r
      simp only at hstop hframe
      subst hstop
      rw [hframe]
      simpa [hne.symm] using h
  · -- all appends succeed, and the crash may come before either of the last two operations
    obtain ⟨j,rfl⟩ : ∃ j, k = j+2*n+1 := ⟨k-(2*n+1),by omega⟩
    have hdata : (d.put (resolve m.nameTempFile) (some (journal (valids ps)))).files
        (resolve m.nameDataFile) = some (journal ps) := by rw [Disk.put_ne hne.symm]; exact h
    rw [createFile_next (Disk.next_crashAfter (j+2*n)),hn]
    simp only [Disk.crashAfter_put]
    rw [m.insertTempFiles_crashAfter (valids ps) [] j Disk.put_self]
    simp only [Disk.put_put,List.nil_append]
    rcases j with - | - | i
    · rw [removeFile_stops Disk.next_stops,if_pos (by omega)]
      exact hdata
    · rw [removeFile_next (f := journal ps) (Disk.next_crashAfter 0) (by exact hdata)]
      simp only [Disk.crashAfter_put]
      rw [rename_stops Disk.next_stops,if_neg (by omega),if_pos (by omega)]
      exact Disk.put_self
    · rw [removeFile_next (f := journal ps) (Disk.next_crashAfter (i+1)) (by exact hdata)]
      simp only [Disk.crashAfter_put]
      rw [rename_next (f := journal (valids ps)) (Disk.next_crashAfter i)
        (by simp [hne]),if_neg (by omega),if_neg (by omega)]
      exact Disk.put_self

end MessageMapper

namespace QueueMessage

/-- The loop of `recovery` makes every message available, in order. -/
theorem recover_available (ms : List Message) {q : QueueMessage}
    (hb : ∀ p ∈ q.msgs, p < q.fresh) :
    (ms.foldl recover q).msgs.map (ms.foldl recover q).payload =
      q.msgs.map q.payload ++ ms.map Message.payload := by
  induction ms generalizing q with
  | nil => simp
  | cons msg ms ih =>
    have hmsgs : (recover q msg).msgs = q.msgs ++ [q.fresh] := rfl
    have hold : q.msgs.map (recover q msg).payload = q.msgs.map q.payload :=
      List.map_congr_left fun p hp => pushMessage_payload (hb p hp)
    have hnew : (recover q msg).payload q.fresh = msg.payload := pushMessage_payload_fresh
    rw [List.foldl_cons,ih,hmsgs,List.map_append,hold,List.map_singleton,hnew]
    · simp
    · intro p hp
      rw [hmsgs,List.mem_append,List.mem_singleton] at hp
      change p < q.fresh+1
      rcases hp with hp | rfl
      · exact (hb p hp).trans (Nat.lt_succ_self _)
      · exact Nat.lt_succ_self _

end QueueMessage

namespace MessageMapper
variable (m : MessageMapper) {d : Disk}

/-- A restart makes the valid records of the data file available. -/
theorem recovered_eq (ps : List Payload) (hp : d.plan = ∅)
    (h : contents d m.nameDataFile = journal ps) (hf : ∀ p ∈ ps, p.Fits) :
    m.recovered d = valids ps := by
  obtain ⟨hplan,hfile⟩ := m.construct_done hp
  rw [h] at hfile
  have hgc : (QueueMessage.new m).mapper.garbageCollection (m.construct d) = _ :=
    m.garbageCollection_done ps hplan hfile hf
  simp only [recovered,QueueMessage.recovery,hgc]
  have hr := QueueMessage.recover_available (placed 0 (valids ps))
    (q := {QueueMessage.new m with msgs := []}) (by simp)
  rw [placed_payload] at hr
  exact hr

@[simp] theorem valids_valids (ps : List Payload) : valids (valids ps) = valids ps := by
  simp [valids]

/-- A compaction that stops after `k` operations is harmless unless it stops between the removal
of the data file and the renaming of the temporary one, with a valid message to lose. -/
theorem crash_recovers_iff (d : Disk) (ps : List Payload) (k : ℕ)
    (h : d.files (resolve m.nameDataFile) = some (journal ps)) (hf : ∀ p ∈ ps, p.Fits) :
    m.recovered (m.interrupted d k) = valids ps ↔
      k ≠ 2*(valids ps).length+2 ∨ valids ps = [] := by
  have hfile := m.interrupted_file ps k h hf
  have hfv : ∀ p ∈ valids ps, p.Fits := fun p hp => hf p (List.mem_filter.mp hp).1
  rcases Nat.lt_trichotomy k (2*(valids ps).length+2) with hk | hk | hk
  · rw [if_pos hk] at hfile
    rw [m.recovered_eq ps rfl (contents_eq rfl hfile) hf]
    simp [hk.ne]
  · rw [if_neg (by omega),if_pos hk] at hfile
    rw [m.recovered_eq [] rfl (by rw [contents,Disk.file_done rfl,hfile]; rfl) (by simp)]
    exact ⟨fun e => .inr e.symm,fun e => (e.resolve_left (not_not_intro hk)).symm⟩
  · rw [if_neg (by omega),if_neg (by omega)] at hfile
    rw [m.recovered_eq (valids ps) rfl (contents_eq rfl hfile) hfv,valids_valids]
    simp [hk.ne']

/-- The data file of a queue that holds one durable message. -/
def orderPayload : Payload :=
  {properties := some ⟨"m1",.durable,"k"⟩, body := "first", valid := "1"}

def orderDisk : Disk := blankDisk.put (resolve ordersMapper.nameDataFile)
  (some (journal [orderPayload]))

theorem crash_recovers_iff_orders :
    ordersMapper.recovered (ordersMapper.interrupted orderDisk 3) = valids [orderPayload] ↔
      3 ≠ 2*(valids [orderPayload]).length+2 ∨ valids [orderPayload] = [] :=
  ordersMapper.crash_recovers_iff orderDisk [orderPayload] 3 Disk.put_self
    (by simp [Fits]; decide)

/-- After four operations the data file is gone, and the next process empties the copy. -/
theorem crash_loses_queue :
    ¬ ∀ (m : MessageMapper) (d : Disk) (ps : List Payload) (k : ℕ),
      d.files (resolve m.nameDataFile) = some (journal ps) → (∀ p ∈ ps, p.Fits) →
      m.recovered (m.interrupted d k) = valids ps := by
  intro h
  have hlost := h ordersMapper orderDisk [orderPayload] 4 Disk.put_self (by simp [Fits]; decide)
  exact absurd hlost (by decide)

end MessageMapper
end MessageQueue

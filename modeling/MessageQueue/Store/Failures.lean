import MessageQueue.Store.Torn
import MessageQueue.Store.Garbage
import Mathlib.Data.List.TakeDrop

/-! A compaction in which one file operation fails: what it returns and what it leaves, and when
the store that takes over its places and counts is still right about its file. -/
namespace MessageQueue
open Base Bytes Payload FileHelper Entry

/-- The place of the message is that of a record with its payload, in a file with these records. -/
def Message.Delimits (msg : Message) (ps : List Payload) : Prop :=
  ∃ front back, ps = front ++ msg.payload::back ∧
    msg.offset.toNat = (journal front).length+8 ∧
    msg.length.toNat = msg.payload.serializeAsString.length

/-- The file has the records `ps`, all of them valid and as many as the messages, which know where
they lie. -/
structure Settles (name : String) (d : Disk) (ms : List Message) (ps : List Payload) : Prop where
  file : d.files (resolve name) = some (journal ps)
  total : ps.length = ms.length
  valid : (valids ps).length = ms.length
  places : ∀ msg ∈ ms, msg.Delimits ps

namespace Payload

theorem journal_perm {ps qs : List Payload} (h : ps.Perm qs) :
    (journal ps).length = (journal qs).length := (h.flatMap_right record).length_eq

/-- A dead record takes at least the eight bytes of its length. -/
theorem journal_valids_room (ps : List Payload) :
    (journal (valids ps)).length+8*ps.length ≤ (journal ps).length+8*(valids ps).length := by
  induction ps with
  | nil => simp [valids]
  | cons p ps ih =>
    rw [valids_cons]
    split_ifs <;> simp only [journal_cons,List.length_append,record_length,List.length_cons] <;>
      omega

/-- What is on file of a record of which one write brought so many bytes only. The other write is
done, and a gap before the payload reads as zeros. -/
def spoilt (p : Payload) (second : Bool) (n : ℕ) : Bytes :=
  if second then leBytes 8 p.serializeAsString.length ++ p.serializeAsString.take n
  else (leBytes 8 p.serializeAsString.length).take n ++ List.replicate (8-n) 0 ++
    p.serializeAsString

/-- The record is there all the same: the missing bytes of the length are zeros, or none of the
payload's is missing. -/
def Spared (p : Payload) (second : Bool) (n : ℕ) : Prop :=
  if second then p.serializeAsString.length ≤ n else p.serializeAsString.length < 256^n

variable {p : Payload} {n : ℕ}

theorem spoilt_eq_iff (hp : p.Fits) (second : Bool) :
    p.spoilt second n = p.record ↔ p.Spared second n := by
  unfold spoilt Spared record
  cases second with
  | false =>
    simp only [Bool.false_eq_true,↓reduceIte,List.append_cancel_right_eq]
    exact leBytes_zeros_iff (by simpa [Fits] using hp) n
  | true =>
    simp only [↓reduceIte,List.append_cancel_left_eq]
    exact List.take_eq_self_iff _

theorem spoilt_length (second : Bool) : (p.spoilt second n).length =
    if second then 8+min n p.serializeAsString.length else p.record.length := by
  unfold spoilt
  split_ifs
  · simp
  · simp
    omega

end Payload

namespace Settles
variable {name : String} {d : Disk} {ms : List Message} {qs vs : List Payload}

/-- The records are those of the messages, in some order. -/
theorem perm (h : Settles name d ms qs) (hm : ms.map Message.payload = vs) (hnd : vs.Nodup) :
    qs.Perm vs := by
  have hsub : vs ⊆ qs := by
    intro v hv
    rw [← hm] at hv
    obtain ⟨msg,hmsg,rfl⟩ := List.mem_map.mp hv
    obtain ⟨front,back,rfl,-⟩ := h.places msg hmsg
    simp
  have hlen : qs.length = vs.length := by rw [h.total,← hm,List.length_map]
  exact ((List.subperm_of_subset hnd hsub).perm_of_length_le hlen.le).symm

/-- A message without a place is in none of the records. -/
theorem no_zero (h : Settles name d ms qs) : ∀ msg ∈ ms, msg.offset ≠ 0 := by
  intro msg hmsg hzero
  obtain ⟨front,back,-,hoff,-⟩ := h.places msg hmsg
  rw [hzero] at hoff
  simp at hoff

end Settles

namespace MessageMapper
variable (m : MessageMapper) {d : Disk}

/-- The messages of a new file delimit its records. -/
theorem placed_delimits (ps front : List Payload)
    (hs : (journal front).length+(journal ps).length < 2^32) :
    ∀ msg ∈ placed (journal front).length ps, msg.Delimits (front ++ ps) := by
  induction ps generalizing front with
  | nil => simp [placed]
  | cons p ps ih =>
    rw [journal_cons,List.length_append,record_length] at hs
    intro msg hmsg
    cases List.mem_cons.mp hmsg with
    | inl he =>
      subst he
      exact ⟨front,ps,rfl,toNat_place (by omega),toNat_place (by
        change p.serializeAsString.length < _
        omega)⟩
    | inr hmsg =>
      have hfront : (journal front).length+p.record.length = (journal (front ++ [p])).length := by
        simp
      rw [hfront] at hmsg
      rw [List.append_cons]
      exact ih (front ++ [p]) (by rw [← hfront,record_length]; omega) msg hmsg

/-- The messages of a new file settle it, if its records come alone and are valid. -/
theorem settles_placed {name : String} {ps : List Payload}
    (h : d.files (resolve name) = some (journal ps)) (hv : valids ps = ps)
    (hs : (journal ps).length < 2^32) : Settles name d (placed 0 ps) ps :=
  ⟨h,(placed_length _ _).symm,(congrArg List.length hv).trans (placed_length _ _).symm,
    placed_delimits ps [] (by simpa using hs)⟩

/-- Nothing may come before the new records. -/
theorem settles_behind_iff {name : String} {f : Bytes} {vs : List Payload}
    (h : d.files (resolve name) = some (f ++ journal vs)) (hv : valids vs = vs) (hnd : vs.Nodup)
    (hs : (journal vs).length < 2^32) :
    (∃ qs, Settles name d (placed f.length vs) qs) ↔ f = [] := by
  constructor
  · intro hex
    obtain ⟨qs,hset⟩ := hex
    have hlen := journal_perm (hset.perm (placed_payload _ _) hnd)
    have hjournal : journal qs = f ++ journal vs := Option.some.inj (hset.file.symm.trans h)
    rw [hjournal,List.length_append] at hlen
    exact List.length_eq_zero_iff.mp (by omega)
  · intro hf
    subst hf
    exact ⟨vs,settles_placed h hv hs⟩

theorem placed_concat (off : ℕ) (ps qs : List Payload) :
    placed off (ps ++ qs) = placed off ps ++ placed (off+(journal ps).length) qs := by
  induction ps generalizing off with
  | nil => rfl
  | cons p ps ih =>
    rw [List.cons_append,placed,ih,placed,journal_cons,List.length_append,Nat.add_assoc]
    rfl

/-- A record in which a write came short must be there in full all the same. -/
theorem settles_spoilt_iff {name : String} {front back : List Payload} {p : Payload}
    {second : Bool} {n : ℕ}
    (h : d.files (resolve name) = some (journal front ++ p.spoilt second n ++ journal back))
    (hv : valids (front ++ p::back) = front ++ p::back) (hnd : (front ++ p::back).Nodup)
    (hs : (journal (front ++ p::back)).length < 2^32) (hp : p.Fits) :
    (∃ qs, Settles name d (placed 0 front ++ placedAt (journal front).length {payload := p} ::
      placed (journal front ++ p.spoilt second n).length back) qs) ↔ p.Spared second n := by
  have hpay : (placed 0 front ++ placedAt (journal front).length {payload := p} ::
      placed (journal front ++ p.spoilt second n).length back).map Message.payload =
        front ++ p::back := by
    simp [placedAt]
  constructor
  · intro hex
    obtain ⟨qs,hset⟩ := hex
    have hjournal := Option.some.inj (hset.file.symm.trans h)
    have hlen := journal_perm (hset.perm hpay hnd)
    rw [hjournal] at hlen
    simp only [List.length_append,journal_append,journal_cons,spoilt_length,record_length] at hlen hs
    cases second with
    | true =>
      -- the file is too short, unless the payload is there
      simp only [↓reduceIte] at hlen
      change p.serializeAsString.length ≤ n
      omega
    | false =>
      -- the record that the message delimits starts where this one does
      obtain ⟨front',back',rfl,hoff,-⟩ := hset.places (placedAt (journal front).length {payload := p})
        (by simp)
      have hplace : (journal front').length = (journal front).length := by
        have hoff : (UInt32.ofNat ((journal front).length+8)).toNat = _ := hoff
        rw [toNat_place (by omega)] at hoff
        omega
      rw [journal_append,List.append_assoc] at hjournal
      have hrest := (List.append_inj hjournal hplace).2
      have hrecord : p.record = p.spoilt false n :=
        (List.append_inj hrest (by rw [spoilt_length]; rfl)).1
      exact (spoilt_eq_iff hp false).mp hrecord.symm
  · intro hspared
    have hrecord := (spoilt_eq_iff hp second).mpr hspared
    rw [hrecord] at h ⊢
    have hplaces : placed 0 front ++ placedAt (journal front).length {payload := p} ::
        placed (journal front ++ p.record).length back = placed 0 (front ++ p::back) := by
      rw [placed_concat,Nat.zero_add,placed,List.length_append]
    rw [hplaces]
    exact ⟨_,settles_placed (by simpa using h) hv hs⟩

/-- The old file has the places of the new one only if it has no dead record. -/
theorem settles_old_iff {name : String} {ps : List Payload}
    (h : d.files (resolve name) = some (journal ps)) (hnd : (valids ps).Nodup)
    (hs : (journal ps).length < 2^32) :
    (∃ qs, Settles name d (placed 0 (valids ps)) qs) ↔ valids ps = ps := by
  constructor
  · intro hex
    obtain ⟨qs,hset⟩ := hex
    have hlen := journal_perm (hset.perm (placed_payload _ _) hnd)
    rw [Option.some.inj (hset.file.symm.trans h)] at hlen
    have hroom := journal_valids_room ps
    exact List.filter_sublist.eq_of_length_le (by
      change ps.length ≤ (valids ps).length
      omega)
  · intro hall
    rw [hall]
    exact ⟨ps,settles_placed h hall hs⟩

/-- An append whose failing write the stream does not notice goes on. -/
theorem insert_unnoticed {name : String} {f : Bytes} (msg : Message) (second : Bool) (n : ℕ)
    (h : d.files (resolve name) = some f) (hb : msg.payload.serializeAsString ≠ [])
    (ha : (Outcome.fails (some n)).answers d.direct (msg.payload.part second) = true) :
    insert (d.after second.toNat [.fails (some n)]) name msg = (true,placedAt f.length msg,
      d.reboot.put (resolve name) (some (f ++ msg.payload.spoilt second n))) := by
  have hs : size (d.after second.toNat [.fails (some n)]) name = f.length :=
    size_at (Disk.after_reaches _ _) h
  have h8 : f.length+8 = (f ++ leBytes 8 msg.payload.serializeAsString.length).length := by simp
  cases second with
  | false =>
    change (Outcome.fails (some n)).answers d.direct 8 = true at ha
    rw [insert,hs,Bool.toNat_false,write_outcome (Disk.next_fails (some n)) h,splice_end,
      leBytes_length,Disk.after_direct,ha]
    simp only
    rw [write_done rfl Disk.put_self,splice_behind hb (by simp [Outcome.written])]
    have hgap : f.length+8-(f.length+min n 8) = 8-n := by omega
    simp [Outcome.written,spoilt,placedAt,hgap]
  | true =>
    change (Outcome.fails (some n)).answers d.direct msg.payload.serializeAsString.length = true
      at ha
    rw [insert,hs,Bool.toNat_true,write_next (Disk.next_after 0 [.fails (some n)]) h,splice_end]
    simp only [Disk.after_put]
    rw [h8,write_outcome (f := f ++ leBytes 8 msg.payload.serializeAsString.length)
      (Disk.next_fails (some n)) (by simp),splice_end,Disk.after_direct,Disk.put_direct,ha]
    simp [Outcome.written,spoilt,placedAt]

/-- There is no append to a file that is not there. -/
theorem insert_missing (name : String) (msg : Message) (h : d.files (resolve name) = none) :
    ∃ e, insert d name msg = (false,msg,e) := by
  have hn : (d.next [name]).2.files (resolve name) = none := by rw [d.next_files,h]
  have hwrite : ∀ body off, write d name body off = (false,(d.next [name]).2) := by
    intro body off
    unfold write
    simp only [hn]
  rw [insert,hwrite]
  exact ⟨_,rfl⟩

theorem insertTempFiles_append (d : Disk) (xs ys : List Message) :
    m.insertTempFiles d (xs ++ ys) =
      match m.insertTempFiles d xs with
      | (false,xs,d) => (false,xs ++ ys,d)
      | (true,xs,d) =>
        ((m.insertTempFiles d ys).1,xs ++ (m.insertTempFiles d ys).2.1,
          (m.insertTempFiles d ys).2.2) := by
  induction xs generalizing d with
  | nil => rfl
  | cons x xs ih =>
    rw [List.cons_append,insertTempFiles,insertTempFiles]
    generalize insert d m.nameTempFile x = r
    obtain ⟨ok,msg,e⟩ := r
    cases ok with
    | false => rfl
    | true =>
      simp only [ih]
      generalize m.insertTempFiles e xs = r
      obtain ⟨ok,ms,e⟩ := r
      cases ok <;> rfl

section Appends
variable {front back : List Payload} {p : Payload} {second : Bool} {f : Bytes}
  (h : d.files (resolve m.nameTempFile) = some f)
include h

/-- A failure among the appends that is noticed: the loop ends, and the messages from there on have
no place. -/
theorem insertTempFiles_noticed {w : Option ℕ} (back : List Payload)
    (ha : (Outcome.fails w).answers d.direct (p.part second) = false) :
    ∃ ms e, m.insertTempFiles (d.after (second.toNat+2*front.length) [.fails w])
        ((front ++ p::back).map fun p => {payload := p}) = (false,ms,e) ∧
      ∃ msg ∈ ms, msg.offset = 0 := by
  rw [List.map_append,insertTempFiles_append,m.insertTempFiles_after front f _ _ h]
  simp only [List.map_cons,insertTempFiles]
  rw [insert_noticed {payload := p} second w Disk.put_self ha]
  exact ⟨_,_,rfl,{payload := p},by simp,rfl⟩

/-- One that is not noticed: the loop goes on, behind what is on file of the record. -/
theorem insertTempFiles_unnoticed {n : ℕ} (hb : p.serializeAsString ≠ [])
    (ha : (Outcome.fails (some n)).answers d.direct (p.part second) = true) :
    m.insertTempFiles (d.after (second.toNat+2*front.length) [.fails (some n)])
        ((front ++ p::back).map fun p => {payload := p}) =
      (true,placed f.length front ++ placedAt (f ++ journal front).length {payload := p} ::
          placed (f ++ journal front ++ p.spoilt second n).length back,
        d.reboot.put (resolve m.nameTempFile)
          (some (f ++ journal front ++ p.spoilt second n ++ journal back))) := by
  rw [List.map_append,insertTempFiles_append,m.insertTempFiles_after front f _ _ h]
  simp only [List.map_cons,insertTempFiles]
  rw [insert_unnoticed {payload := p} second n Disk.put_self hb ha]
  simp only
  rw [m.insertTempFiles_done back _ rfl Disk.put_self]
  simp

end Appends

section Failing
variable (w : Option ℕ) (name new : String)

lemma createFile_failed : createFile (d.after 0 [.fails w]) name = (false,d.reboot) := by
  simp only [createFile,Disk.next_fails]

lemma removeFile_failed :
    FileHelper.removeFile (d.after 0 [.fails w]) name = (false,d.reboot) := by
  simp only [FileHelper.removeFile,Disk.next_fails]
  split <;> simp_all

lemma rename_failed : rename (d.after 0 [.fails w]) name new = (false,d.reboot) := by
  simp only [rename,Disk.next_fails]
  split <;> simp_all

end Failing

section Failed
variable {ps : List Payload} (h : d.files (resolve m.nameDataFile) = some (journal ps))
  (hf : ∀ p ∈ ps, p.Fits) (w : Option ℕ)
include h hf

lemma load_after (k : ℕ) (plan : List Outcome) :
    m.load (d.after k plan) = (valids ps).map fun p => {payload := p} :=
  m.load_journal ps (contents_at (d := d.after k plan) (Disk.after_reaches _ _) h) hf

/-- The temporary file is there and cannot be emptied: its old bytes come first in the new file. -/
theorem kept_garbageCollection {f : Bytes} (ht : d.files (resolve m.nameTempFile) = some f) :
    ∃ e, m.garbageCollection (d.after 0 [.fails w]) = (placed f.length (valids ps),e) ∧
      e.files (resolve m.nameDataFile) = some (f ++ journal (valids ps)) := by
  have hne := m.distinct
  simp only [garbageCollection,m.load_after h hf,createFile_failed]
  rw [m.insertTempFiles_done (d := d.reboot) (valids ps) f rfl ht]
  simp only
  rw [removeFile_done (f := journal ps) (by rfl) (by rw [Disk.put_ne hne.symm]; exact h)]
  simp only
  rw [rename_done (f := f ++ journal (valids ps)) (by rfl)
    (by rw [Disk.put_ne hne,Disk.put_self])]
  exact ⟨_,rfl,Disk.put_self⟩

/-- It is not there and cannot be created: the first append fails, or, when there is none, nothing
takes the place of the data file. -/
theorem missing_garbageCollection (ht : d.files (resolve m.nameTempFile) = none) :
    (∃ msg ∈ (m.garbageCollection (d.after 0 [.fails w])).1, msg.offset = 0) ∨
      (m.garbageCollection (d.after 0 [.fails w])).2.files (resolve m.nameDataFile) = none := by
  have hne := m.distinct
  simp only [garbageCollection,m.load_after h hf,createFile_failed]
  cases valids ps with
  | nil =>
    right
    simp only [List.map_nil,insertTempFiles]
    rw [removeFile_done (d := d.reboot) (f := journal ps) rfl h]
    simp only
    have hrename : rename (d.reboot.put (resolve m.nameDataFile) none) m.nameTempFile
        m.nameDataFile = (false,d.reboot.put (resolve m.nameDataFile) none) := by
      rw [rename,Disk.next_done rfl]
      simp [hne,ht]
    rw [hrename]
    exact Disk.put_self
  | cons p qs =>
    left
    obtain ⟨e,he⟩ := insert_missing m.nameTempFile {payload := p} (d := d.reboot) ht
    rw [List.map_cons,insertTempFiles,he]
    exact ⟨{payload := p},List.mem_cons_self,rfl⟩

/-- An append fails, and the loop notices it. -/
theorem noticed_garbageCollection {front back : List Payload} {p : Payload} {second : Bool}
    (hv : valids ps = front ++ p::back)
    (ha : (Outcome.fails w).answers d.direct (p.part second) = false) :
    ∃ msg ∈ (m.garbageCollection (d.after (second.toNat+2*front.length+1) [.fails w])).1,
      msg.offset = 0 := by
  simp only [garbageCollection,m.load_after h hf,hv]
  rw [createFile_next (Disk.next_after _ [.fails w])]
  simp only [Disk.after_put]
  obtain ⟨ms,e,he,hzero⟩ := m.insertTempFiles_noticed
    (d := d.put (resolve m.nameTempFile) (some [])) Disk.put_self back ha
  rw [he]
  exact hzero

/-- An append fails, and the compaction goes on. -/
theorem unnoticed_garbageCollection {front back : List Payload} {p : Payload} {second : Bool}
    {n : ℕ} (hv : valids ps = front ++ p::back) (hb : p.serializeAsString ≠ [])
    (ha : (Outcome.fails (some n)).answers d.direct (p.part second) = true) :
    ∃ e, m.garbageCollection (d.after (second.toNat+2*front.length+1) [.fails (some n)]) =
        (placed 0 front ++ placedAt (journal front).length {payload := p} ::
          placed (journal front ++ p.spoilt second n).length back,e) ∧
      e.files (resolve m.nameDataFile) =
        some (journal front ++ p.spoilt second n ++ journal back) := by
  have hne := m.distinct
  simp only [garbageCollection,m.load_after h hf,hv]
  rw [createFile_next (Disk.next_after _ [.fails (some n)])]
  simp only [Disk.after_put]
  rw [m.insertTempFiles_unnoticed (d := d.put (resolve m.nameTempFile) (some [])) Disk.put_self
    hb ha]
  simp only [Disk.reboot_put,Disk.put_put,List.nil_append,List.length_nil]
  rw [removeFile_done (f := journal ps) rfl (by rw [Disk.put_ne hne.symm]; exact h)]
  simp only
  rw [rename_done (f := journal front ++ p.spoilt second n ++ journal back) rfl
    (by rw [Disk.put_ne hne,Disk.put_self])]
  exact ⟨_,rfl,Disk.put_self⟩

/-- Everything is appended, and so many operations later one fails. -/
theorem appended_garbageCollection (j : ℕ) :
    m.garbageCollection (d.after (j+2*(valids ps).length+1) [.fails w]) =
      match FileHelper.removeFile ((d.put (resolve m.nameTempFile)
        (some (journal (valids ps)))).after j [.fails w]) m.nameDataFile with
      | (false,d) => (placed 0 (valids ps),d)
      | (true,d) => (placed 0 (valids ps),(rename d m.nameTempFile m.nameDataFile).2) := by
  simp only [garbageCollection,m.load_after h hf]
  rw [createFile_next (Disk.next_after _ [.fails w])]
  simp only [Disk.after_put]
  rw [m.insertTempFiles_after (valids ps) [] j [.fails w] Disk.put_self,Disk.put_put]
  rfl

/-- The data file cannot be removed. -/
theorem remove_garbageCollection :
    ∃ e, m.garbageCollection (d.after (2*(valids ps).length+1) [.fails w]) =
        (placed 0 (valids ps),e) ∧
      e.files (resolve m.nameDataFile) = some (journal ps) := by
  have hne := m.distinct
  have hall := m.appended_garbageCollection h hf w 0
  rw [Nat.zero_add,removeFile_failed] at hall
  exact ⟨_,hall,by simpa [hne.symm] using h⟩

/-- The data file is removed, and the new one cannot take its name. -/
theorem rename_garbageCollection :
    (m.garbageCollection (d.after (2*(valids ps).length+2) [.fails w])).2.files
      (resolve m.nameDataFile) = none := by
  have hne := m.distinct
  have hall := m.appended_garbageCollection h hf w 1
  rw [Nat.add_comm 1,removeFile_next (f := journal ps) (Disk.next_after 0 [.fails w])
    (by simp only [Disk.after_files]; rw [Disk.put_ne hne.symm]; exact h)] at hall
  rw [hall]
  simp only [Disk.after_put]
  rw [rename_failed]
  exact Disk.put_self

end Failed

/-- The failing operation is a write of an append, and does no harm: the length came short, which
the stream does not notice, and the bytes that are missing are zeros; or all of the payload is on
file. -/
def Unharmed (direct : ℕ) (vs : List Payload) (k : ℕ) (w : Option ℕ) : Prop :=
  ∃ i p n, vs[i]? = some p ∧ w = some n ∧
    ((k = 2*i+1 ∧ (8 < direct ∨ 8 ≤ n) ∧ p.serializeAsString.length < 256^n) ∨
      (k = 2*i+2 ∧ p.serializeAsString.length ≤ n))

theorem Unharmed.pos {direct k : ℕ} {vs : List Payload} {w : Option ℕ}
    (h : Unharmed direct vs k w) : 0 < k ∧ k ≤ 2*vs.length := by
  obtain ⟨i,p,n,hi,-,hk⟩ := h
  obtain ⟨hlt,-⟩ := List.getElem?_eq_some_iff.mp hi
  omega

/-- For the write that meets the failure: the stream does not notice, and the record is there. -/
theorem unharmed_iff {direct : ℕ} {front back : List Payload} {p : Payload} {second : Bool}
    {w : Option ℕ} :
    Unharmed direct (front ++ p::back) (second.toNat+2*front.length+1) w ↔
      ∃ n, w = some n ∧ (Outcome.fails w).answers direct (p.part second) = true ∧
        p.Spared second n := by
  constructor
  · intro hun
    obtain ⟨i,p',n,hi,rfl,hk⟩ := hun
    obtain rfl : i = front.length := by cases second <;> simp at hk <;> omega
    obtain rfl : p = p' := by simpa using hi
    refine ⟨n,rfl,?_⟩
    cases second with
    | false =>
      obtain ⟨-,ha,hn⟩ | ⟨hk,-⟩ := hk
      · exact ⟨decide_eq_true ha,hn⟩
      · simp at hk
    | true =>
      obtain ⟨hk,-⟩ | ⟨-,hn⟩ := hk
      · simp at hk
      · exact ⟨decide_eq_true (.inr hn),hn⟩
  · intro hex
    obtain ⟨n,rfl,ha,hn⟩ := hex
    refine ⟨front.length,p,n,by simp,rfl,?_⟩
    cases second with
    | false => exact .inl ⟨by simp,of_decide_eq_true ha,hn⟩
    | true => exact .inr ⟨by simp; omega,hn⟩

/-- Each of the writes is one of a payload's. -/
theorem exists_write {vs : List Payload} {k : ℕ} (hk : k < 2*vs.length) :
    ∃ front p back, ∃ second : Bool, vs = front ++ p::back ∧ k = second.toNat+2*front.length := by
  have hi : k/2 < vs.length := by omega
  refine ⟨vs.take (k/2),vs[k/2],vs.drop (k/2+1),decide (k%2 = 1),?_,?_⟩
  · rw [← List.drop_eq_getElem_cons hi,List.take_append_drop]
  · rw [List.length_take_of_le hi.le]
    by_cases hodd : k%2 = 1 <;> simp [hodd] <;> omega

section Failed
variable {ps : List Payload} (h : d.files (resolve m.nameDataFile) = some (journal ps))
  (hf : ∀ p ∈ ps, p.Fits) (w : Option ℕ)
include h hf

/-- One failure is harmless exactly if an empty temporary file is there when it cannot be created,
if it is one of a write and does no harm, or if the data file cannot be removed and has no dead
record. -/
theorem compaction_settles_iff (hs : (journal ps).length < 2^32) (hnd : (valids ps).Nodup)
    (hb : ∀ p ∈ valids ps, p.serializeAsString ≠ []) {k : ℕ}
    (hk : k ≤ 2*(valids ps).length+2) :
    (∃ qs, Settles m.nameDataFile (m.garbageCollection (d.after k [.fails w])).2
      (m.garbageCollection (d.after k [.fails w])).1 qs) ↔
    (k = 0 ∧ d.files (resolve m.nameTempFile) = some []) ∨ Unharmed d.direct (valids ps) k w ∨
      (k = 2*(valids ps).length+1 ∧ valids ps = ps) := by
  have hsv : (journal (valids ps)).length < 2^32 := (journal_valids_length ps).trans_lt hs
  by_cases h0 : k = 0
  · subst h0
    have hno : ¬ (Unharmed d.direct (valids ps) 0 w ∨
        (0 = 2*(valids ps).length+1 ∧ valids ps = ps)) := by
      rintro (hun | hlast)
      · exact absurd hun.pos.1 (lt_irrefl 0)
      · omega
    rw [or_iff_left hno,and_iff_right rfl]
    cases ht : d.files (resolve m.nameTempFile) with
    | none =>
      refine iff_of_false ?_ (by simp)
      rintro ⟨qs,hset⟩
      cases m.missing_garbageCollection h hf w ht with
      | inl hz =>
        obtain ⟨msg,hmsg,hz⟩ := hz
        exact hset.no_zero msg hmsg hz
      | inr hno => cases hno.symm.trans hset.file
    | some f =>
      obtain ⟨e,he,hfile⟩ := m.kept_garbageCollection h hf w ht
      rw [he,Option.some.injEq]
      exact settles_behind_iff hfile (valids_valids ps) hnd hsv
  · rw [or_iff_right (fun hz => h0 hz.1)]
    obtain ⟨j,rfl⟩ : ∃ j, k = j+1 := ⟨k-1,by omega⟩
    obtain hlt | rfl | rfl : j < 2*(valids ps).length ∨ j = 2*(valids ps).length ∨
      j = 2*(valids ps).length+1 := by omega
    · -- a write of an append
      rw [or_iff_left fun hz => absurd hz.1 (by omega)]
      obtain ⟨front,p,back,second,hv,rfl⟩ := exists_write hlt
      rw [hv,unharmed_iff]
      cases ha : (Outcome.fails w).answers d.direct (p.part second) with
      | false =>
        refine iff_of_false ?_ (by simp)
        rintro ⟨qs,hset⟩
        obtain ⟨msg,hmsg,hz⟩ := m.noticed_garbageCollection h hf w hv ha
        exact hset.no_zero msg hmsg hz
      | true =>
        cases w with
        | none => simp [Outcome.answers] at ha
        | some n =>
          have hp : p ∈ valids ps := by simp [hv]
          obtain ⟨e,he,hfile⟩ := m.unnoticed_garbageCollection h hf hv (hb p hp) ha
          rw [he]
          have hvv := valids_valids ps
          rw [hv] at hvv hnd hsv
          rw [settles_spoilt_iff hfile hvv hnd hsv (hf p (List.mem_filter.mp hp).1)]
          simp
    · have hno : ¬ Unharmed d.direct (valids ps) (2*(valids ps).length+1) w := fun hun => by
        have := hun.pos.2
        omega
      obtain ⟨e,he,hfile⟩ := m.remove_garbageCollection h hf w
      rw [he,or_iff_right hno,and_iff_right rfl]
      exact settles_old_iff hfile hnd hs
    · have hno : ¬ Unharmed d.direct (valids ps) (2*(valids ps).length+1+1) w := fun hun => by
        have := hun.pos.2
        omega
      rw [or_iff_right hno]
      refine iff_of_false ?_ fun hz => absurd hz.1 (by omega)
      rintro ⟨qs,hset⟩
      cases (m.rename_garbageCollection h hf w).symm.trans hset.file

end Failed

/-- The cleared record is written by the first of the operations to come. -/
theorem remove_after {f : Bytes} {msg msg' : Message} {e : Disk} (hp : d.plan = ∅)
    (h : d.files (resolve m.nameDataFile) = some f) (hr : m.remove d msg = (true,msg',e))
    (k : ℕ) (plan : List Outcome) :
    m.remove (d.after (k+1) plan) msg = (true,msg',e.after k plan) ∧
      e.files (resolve m.nameTempFile) = d.files (resolve m.nameTempFile) ∧
      e.direct = d.direct := by
  unfold remove at hr ⊢
  simp only at hr ⊢
  split_ifs at hr ⊢ with hlen
  · cases hr
  · obtain ⟨-,hr⟩ := Prod.mk.inj hr
    obtain ⟨hmsg,hdisk⟩ := Prod.mk.inj hr
    rw [write_done hp h] at hdisk
    rw [write_next (Disk.next_after k plan) h,hmsg,← hdisk]
    exact ⟨rfl,Disk.put_ne m.distinct,rfl⟩

end MessageMapper

/-- Every message of the durable table knows the place of its own record in the data file, and the
counters count the records of that file. -/
structure Delimited (q : QueueMessage) (d : Disk) (ps : List Payload) : Prop where
  file : d.files (resolve q.mapper.nameDataFile) = some (journal ps)
  places : ∀ id p, q.durableMsgs.lookup id = some p → (q.heap p).Delimits ps
  total : q.totalCount.toNat = ps.length
  valid : q.validCount.toNat = (valids ps).length

/-- The durable table holds these messages under their ids. -/
structure Tabled (q : QueueMessage) (ms : List Message) : Prop where
  known : ∀ id p, q.durableMsgs.lookup id = some p →
    q.heap p ∈ ms ∧ (q.heap p).payload.id = id
  listed : ∀ msg ∈ ms, ∃ p, q.durableMsgs.lookup msg.payload.id = some p ∧ q.heap p = msg

namespace Tabled
variable {q : QueueMessage} {d : Disk} {ms : List Message} {ps : List Payload}

/-- When table and counters come from a compaction, the store is right about its file exactly if
the compaction settled it. -/
theorem delimited_iff (h : Tabled q ms) (hlen : ms.length < 2^32)
    (ht : q.totalCount = UInt64.ofNat ms.length) (hv : q.validCount = UInt64.ofNat ms.length) :
    Delimited q d ps ↔ Settles q.mapper.nameDataFile d ms ps := by
  have hcount := toNat_count hlen
  constructor
  · intro hd
    refine ⟨hd.file,?_,?_,fun msg hmsg => ?_⟩
    · rw [← hd.total,ht,hcount]
    · rw [← hd.valid,hv,hcount]
    · obtain ⟨p,hp,rfl⟩ := h.listed msg hmsg
      exact hd.places _ p hp
  · intro hs
    refine ⟨hs.file,fun id p hp => hs.places _ (h.known id p hp).1,?_,?_⟩
    · rw [ht,hcount,hs.total]
    · rw [hv,hcount,hs.valid]

/-- A recovered message joins the table. -/
theorem recover (h : Tabled q ms) (hb : ∀ id p, q.durableMsgs.lookup id = some p → p < q.fresh)
    (msg : Message) (hnew : ∀ x ∈ ms, x.payload.id ≠ msg.payload.id) :
    Tabled (q.recover msg) (ms ++ [msg]) ∧
      ∀ id p, (q.recover msg).durableMsgs.lookup id = some p → p < (q.recover msg).fresh := by
  have hnone : q.durableMsgs.lookup msg.payload.id = none := by
    cases hl : q.durableMsgs.lookup msg.payload.id with
    | none => rfl
    | some p =>
      obtain ⟨hp,hid⟩ := h.known _ p hl
      exact absurd hid (hnew _ hp)
  have hheap : ∀ id p, q.durableMsgs.lookup id = some p → (q.recover msg).heap p = q.heap p :=
    fun id p hp => Function.update_of_ne (hb id p hp).ne _ _
  have hself : (q.recover msg).heap q.fresh = msg := Function.update_self _ _ _
  have hlook : ∀ id p, (q.recover msg).durableMsgs.lookup id = some p ↔
      q.durableMsgs.lookup id = some p ∨ id = msg.payload.id ∧ p = q.fresh := by
    intro id p
    refine Table.lookup_emplace_eq_some.trans (or_congr_right ?_)
    exact and_congr_right fun _ => and_iff_right hnone
  refine ⟨⟨?_,?_⟩,?_⟩
  · intro id p hp
    cases (hlook id p).mp hp with
    | inl hp =>
      rw [hheap id p hp]
      exact ⟨List.mem_append_left _ (h.known id p hp).1,(h.known id p hp).2⟩
    | inr hp =>
      obtain ⟨rfl,rfl⟩ := hp
      rw [hself]
      exact ⟨by simp,rfl⟩
  · intro x hx
    cases List.mem_append.mp hx with
    | inl hx =>
      obtain ⟨p,hp,hheld⟩ := h.listed x hx
      exact ⟨p,(hlook _ p).mpr (.inl hp),(hheap _ p hp).trans hheld⟩
    | inr hx =>
      rw [List.mem_singleton.mp hx]
      exact ⟨q.fresh,(hlook _ _).mpr (.inr ⟨rfl,rfl⟩),hself⟩
  · intro id p hp
    cases (hlook id p).mp hp with
    | inl hp => exact (hb id p hp).trans (Nat.lt_succ_self _)
    | inr hp => exact hp.2 ▸ Nat.lt_succ_self _

/-- The loop of `recovery` fills the table. -/
theorem recovered (m : MessageMapper) (hids : (ms.map fun x => x.payload.id).Nodup) :
    Tabled (ms.foldl QueueMessage.recover (.new m)) ms ∧
      (ms.foldl QueueMessage.recover (.new m)).mapper = m := by
  have hloop : ∀ (rest done : List Message) (q : QueueMessage), Tabled q done →
      (∀ id p, q.durableMsgs.lookup id = some p → p < q.fresh) →
      ((done ++ rest).map fun x => x.payload.id).Nodup →
      Tabled (rest.foldl QueueMessage.recover q) (done ++ rest) ∧
        (rest.foldl QueueMessage.recover q).mapper = q.mapper := by
    intro rest
    induction rest with
    | nil => exact fun done q h _ _ => ⟨by simpa using h,rfl⟩
    | cons msg rest ih =>
      intro done q h hb hnd
      have hnew : ∀ x ∈ done, x.payload.id ≠ msg.payload.id := by
        rw [List.map_append,List.nodup_append] at hnd
        exact fun x hx => hnd.2.2 _ (List.mem_map_of_mem hx) _ (by simp)
      obtain ⟨h',hb'⟩ := h.recover hb msg hnew
      rw [List.append_cons] at hnd ⊢
      exact ih _ _ h' hb' hnd
  refine hloop ms [] (.new m) ⟨?_,?_⟩ ?_ hids
  · intro id p hp
    simp [QueueMessage.new] at hp
  · simp
  · intro id p hp
    simp [QueueMessage.new] at hp

end Tabled

section Callers
variable {d : Disk} {ps : List Payload} {k : ℕ}

/-- The messages of a compaction that may fail are those of the valid records. -/
theorem compaction_payloads (m : MessageMapper) (k : ℕ) (plan : List Outcome)
    (h : d.files (resolve m.nameDataFile) = some (journal ps)) (hs : (journal ps).length < 2^32) :
    (m.garbageCollection (d.after k plan)).1.map Message.payload = valids ps ∧
      (m.garbageCollection (d.after k plan)).1.length < 2^32 := by
  have hpay : (m.garbageCollection (d.after k plan)).1.map Message.payload = valids ps := by
    rw [m.garbageCollection_payload,m.load_after h
      (fun p hp => fits_of_journal (hs.trans (by norm_num)) hp),List.map_map]
    exact List.map_id _
  refine ⟨hpay,?_⟩
  have hlen := congrArg List.length hpay
  have hle : (valids ps).length ≤ ps.length := List.length_filter_le _ _
  have hjournal := length_le_journal ps
  rw [List.length_map] at hlen
  omega

/-- A durable payload is not blank. -/
theorem serialized_of_durable {p : Payload} (h : p.deliveryMode = .durable) :
    p.serializeAsString ≠ [] := by
  refine List.ne_nil_of_length_pos (serializeAsString_pos fun hblank => ?_)
  rw [hblank] at h
  exact absurd h (by decide)

/-- A recovery with one failure in its compaction leaves the store right about its file exactly if
an empty temporary file is there that cannot be created anew, if a failing write does no harm, or
if no record is dead and the data file cannot be removed. -/
theorem recovery_failed_iff (m : MessageMapper)
    (h : d.files (resolve m.nameDataFile) = some (journal ps)) (hl : Leftover ps)
    (hk : k ≤ 2*(valids ps).length+2) (w : Option ℕ) :
    (∃ qs, Delimited ((QueueMessage.new m).recovery (d.after k [.fails w])).2.1
      ((QueueMessage.new m).recovery (d.after k [.fails w])).2.2 qs) ↔
    (k = 0 ∧ d.files (resolve m.nameTempFile) = some []) ∨
      MessageMapper.Unharmed d.direct (valids ps) k w ∨
      (k = 2*(valids ps).length+1 ∧ valids ps = ps) := by
  obtain ⟨hpay,hlen⟩ := compaction_payloads m k [.fails w] h hl.small
  have hids : ((m.garbageCollection (d.after k [.fails w])).1.map
      fun x => x.payload.id).Nodup := by
    have hd := hl.distinct
    rwa [← hpay,List.map_map] at hd
  rw [← m.compaction_settles_iff h (fun p hp => fits_of_journal (hl.small.trans (by norm_num)) hp)
    w hl.small (.of_map _ hl.distinct) (fun p hp => serialized_of_durable (hl.of_valids hp).2) hk]
  obtain ⟨htabled,hmap⟩ := Tabled.recovered m hids
  refine exists_congr fun qs => ?_
  have hiff : Delimited ((QueueMessage.new m).recovery (d.after k [.fails w])).2.1
      ((QueueMessage.new m).recovery (d.after k [.fails w])).2.2 qs ↔ _ :=
    Tabled.delimited_iff ⟨htabled.known,htabled.listed⟩ hlen rfl rfl
  have hname : ((QueueMessage.new m).recovery (d.after k [.fails w])).2.1.mapper = m := hmap
  rw [hiff,hname]
  rfl

/-- An acknowledgement whose compaction meets one failure leaves the store right about its file
exactly if an empty temporary file is there that cannot be created anew, or if a failing write does
no harm: the compaction only takes place where most records are dead. -/
theorem remove_failed_iff {q : QueueMessage} {es : List Entry} {p : MessagePtr} {id : String}
    (h : Consistent q d es) (hw : q.waitackMsgs.lookup id = some p)
    (hmode : (q.payload p).deliveryMode = .durable)
    (hc : QueueMessage.garbageCollectionCheck q.totalCount (q.validCount-1) = true)
    (hk : k ≤ 2*((owners es).length-1)+2) (w : Option ℕ) :
    (∃ qs, Delimited
      (q.remove QueueMessage.garbageCollectionCheck (d.after (k+1) [.fails w]) id).2.1
      (q.remove QueueMessage.garbageCollectionCheck (d.after (k+1) [.fails w]) id).2.2 qs) ↔
    (k = 0 ∧ d.files (resolve q.mapper.nameTempFile) = some []) ∨
      MessageMapper.Unharmed d.direct (((owners es).filter (· ≠ p)).map q.payload) k w := by
  obtain ⟨d',es',hrem,hfile,hmem,howners,hlen,hcount,hvalid⟩ := h.settle hw hmode
  obtain ⟨hrem,htemp,hdirect⟩ := q.mapper.remove_after h.onFile.plan h.onFile.file hrem k [.fails w]
  rw [QueueMessage.remove_durable hw hmode _ hrem]
  have hgc : (q.settled id p).garbageCollection QueueMessage.garbageCollectionCheck
      (d'.after k [.fails w]) =
      ({(q.mapper.garbageCollection (d'.after k [.fails w])).1.foldl .adopt (q.settled id p) with
        validCount := UInt64.ofNat (q.mapper.garbageCollection (d'.after k [.fails w])).1.length
        totalCount := UInt64.ofNat (q.mapper.garbageCollection (d'.after k [.fails w])).1.length},
      (q.mapper.garbageCollection (d'.after k [.fails w])).2) :=
    if_neg (by rw [Bool.not_eq_false]; exact hc)
  obtain ⟨hpay,hlt⟩ := compaction_payloads q.mapper k [.fails w] hfile.file hfile.small
  have hvalids : valids (payloads (q.settled id p).heap es') =
    (owners es').map (q.settled id p).payload := hfile.valids_payloads
  have hsame : (owners es').map (q.settled id p).payload = (owners es').map q.payload := by
    refine List.map_congr_left fun x hx => QueueMessage.settled_payload fun heq => ?_
    rw [howners,heq] at hx
    simp at hx
  obtain ⟨heap',hfold,hmap,hkept,-⟩ := QueueMessage.adopt_all (q := q.settled id p) (owners es')
    (q.mapper.garbageCollection (d'.after k [.fails w])).1 hfile.nodup
    (fun x hx => (hmem.durable _ x).mpr ⟨hx,rfl⟩) (hpay.trans hvalids)
  have hnd : (valids (payloads (q.settled id p).heap es')).Nodup := by
    refine .of_map Payload.id ?_
    rw [hvalids,List.map_map]
    exact hfile.nodup.map_on fun x hx y hy e => hmem.owner_id hy hx e
  have hdurable : ∀ v ∈ valids (payloads (q.settled id p).heap es'),
      v.serializeAsString ≠ [] := by
    intro v hv
    rw [hvalids] at hv
    obtain ⟨x,hx,rfl⟩ := List.mem_map.mp hv
    exact serialized_of_durable ((hmem.held x).mp hx).2
  have hdead : ¬ (k = 2*(valids (payloads (q.settled id p).heap es')).length+1 ∧
      valids (payloads (q.settled id p).heap es') = payloads (q.settled id p).heap es') := by
    intro hall
    have hlens := congrArg List.length hall.2
    rw [hvalids,payloads,List.length_map,List.length_map,hlen] at hlens
    have htotal := h.total
    have hfew := (QueueMessage.garbageCollectionCheck_iff (by omega)
      (htotal.trans_lt h.onFile.length_lt)).mp hc
    omega
  have hiff := q.mapper.compaction_settles_iff hfile.file hfile.fits w hfile.small hnd hdurable
    (k := k) (by rw [hvalids,List.length_map]; omega)
  rw [or_iff_left hdead,htemp,hdirect,hvalids,hsame,howners] at hiff
  rw [hgc,hfold,← hiff]
  refine exists_congr fun qs => Tabled.delimited_iff ⟨?_,?_⟩ hlt rfl rfl
  · intro i x hx
    obtain ⟨hown,hid⟩ := (hmem.durable i x).mp hx
    rw [← hmap]
    exact ⟨List.mem_map_of_mem hown,(congrArg Payload.id (hkept x)).trans hid⟩
  · intro msg hmsg
    rw [← hmap] at hmsg
    obtain ⟨x,hx,rfl⟩ := List.mem_map.mp hmsg
    exact ⟨x,(hmem.durable _ x).mpr ⟨hx,(congrArg Payload.id (hkept x)).symm⟩,rfl⟩

end Callers

/-- Whatever file operation of a compaction fails, and whether `recovery` or an acknowledgement
called it: the store stays right about its file exactly if an empty temporary file is there that
cannot be created anew, if a failing write does no harm, or, in `recovery`, the data file cannot be
removed and no record of it is dead. -/
theorem compaction_failed_iff (d : Disk) (k : ℕ) (w : Option ℕ) :
    (∀ (m : MessageMapper) (ps : List Payload),
      d.files (resolve m.nameDataFile) = some (journal ps) → Leftover ps →
      k ≤ 2*(valids ps).length+2 →
      ((∃ qs, Delimited ((QueueMessage.new m).recovery (d.after k [.fails w])).2.1
        ((QueueMessage.new m).recovery (d.after k [.fails w])).2.2 qs) ↔
      (k = 0 ∧ d.files (resolve m.nameTempFile) = some []) ∨
        MessageMapper.Unharmed d.direct (valids ps) k w ∨
        (k = 2*(valids ps).length+1 ∧ valids ps = ps))) ∧
    ∀ (q : QueueMessage) (es : List Entry) (p : MessagePtr) (id : String),
      Consistent q d es → q.waitackMsgs.lookup id = some p →
      (q.payload p).deliveryMode = .durable →
      QueueMessage.garbageCollectionCheck q.totalCount (q.validCount-1) = true →
      k ≤ 2*((owners es).length-1)+2 →
      ((∃ qs, Delimited
        (q.remove QueueMessage.garbageCollectionCheck (d.after (k+1) [.fails w]) id).2.1
        (q.remove QueueMessage.garbageCollectionCheck (d.after (k+1) [.fails w]) id).2.2 qs) ↔
      (k = 0 ∧ d.files (resolve q.mapper.nameTempFile) = some []) ∨
        MessageMapper.Unharmed d.direct (((owners es).filter (· ≠ p)).map q.payload) k w) :=
  ⟨fun m _ h hl hk => recovery_failed_iff m h hl hk w,
    fun _ _ _ _ h hw hmode hc hk => remove_failed_iff h hw hmode hc hk w⟩

open MessageMapper

theorem orders_leftover : Leftover [orderPayload] :=
  ⟨by decide,by simp [orderPayload,Payload.deliveryMode,Payload.props],by decide⟩

section Crowded
variable (n : ℕ)

/-- Dead records and one of a message that waits. -/
def crowdedEntries : List Entry :=
  List.replicate n (.dead {orderPayload with valid := "0"}) ++ [.live 0]

def crowdedQueue : QueueMessage :=
  {QueueMessage.new ordersMapper with
    validCount := 1
    totalCount := UInt64.ofNat (n+1)
    durableMsgs := Table.emplace ∅ "m1" 0
    waitackMsgs := Table.emplace ∅ "m1" 0
    heap := fun _ => ⟨orderPayload,UInt32.ofNat (n*orderPayload.record.length+8),
      UInt32.ofNat orderPayload.serializeAsString.length⟩
    fresh := 1}

def crowdedDisk : Disk := blankDisk.put (resolve ordersMapper.nameDataFile)
  (some (journal (payloads (crowdedQueue n).heap (crowdedEntries n))))

lemma owners_crowded : owners (crowdedEntries n) = [0] := by
  simp [crowdedEntries,owners,owner]

lemma placed_replicate_dead (heap : MessagePtr → Message) (v : Payload) (off : ℕ) :
    Placed heap off (List.replicate n (.dead v)) := by
  induction n generalizing off with
  | zero => trivial
  | succ n ih => exact ⟨by simp [owner],ih _⟩

theorem crowded_consistent (hn : n ≤ 2000) :
    Consistent (crowdedQueue n) (crowdedDisk n) (crowdedEntries n) := by
  have hlen : ({orderPayload with valid := "0"} : Payload).record.length = 29 := by decide
  have hlen' : orderPayload.record.length = 29 := by decide
  have hpays : payloads (crowdedQueue n).heap (List.replicate n
      (.dead {orderPayload with valid := "0"})) =
        List.replicate n {orderPayload with valid := "0"} := by
    simp [payloads,Entry.payload]
  have hdeads : ∀ v : Payload, (journal (List.replicate n v)).length = n*v.record.length := by
    simp [journal,List.length_flatMap]
  have hlook : ∀ id x, (Table.emplace (∅ : Table String MessagePtr) "m1" 0).lookup id = some x ↔
      id = "m1" ∧ x = 0 := by
    intro id x
    rw [Table.lookup_emplace_eq_some]
    simp
  have hmode : orderPayload.deliveryMode = .durable := by
    simp [orderPayload,Payload.deliveryMode,Payload.props]
  refine ⟨⟨rfl,?_,Disk.put_self,?_,?_,?_,?_⟩,⟨?_,?_,?_,?_,?_,?_⟩,?_,?_⟩
  · have hlast : (journal (payloads (crowdedQueue n).heap [.live 0])).length = 29 := by
      have hpay : payloads (crowdedQueue n).heap [.live 0] = [orderPayload] := rfl
      rw [hpay]
      decide
    rw [crowdedEntries,payloads_append,hpays,journal_append,List.length_append,hdeads,hlen,hlast]
    omega
  · intro v hv
    simp only [crowdedEntries,List.mem_append,List.mem_replicate,List.mem_singleton] at hv
    cases hv with
    | inl hv => cases hv.2; rfl
    | inr hv => cases hv
  · intro x _
    rfl
  · rw [owners_crowded]
    simp
  · rw [crowdedEntries,placed_append,hpays,hdeads,hlen]
    refine ⟨placed_replicate_dead _ _ _ _,?_,trivial⟩
    intro x hx
    cases hx
    have hoff : (UInt32.ofNat (n*orderPayload.record.length+8)).toNat =
      n*orderPayload.record.length+8 := toNat_place (by rw [hlen']; omega)
    have hload : (UInt32.ofNat orderPayload.serializeAsString.length).toNat =
      orderPayload.serializeAsString.length := by decide
    exact ⟨hoff.trans (by rw [hlen',Nat.zero_add]),hload⟩
  · intro i x
    have hid : orderPayload.id = i ↔ i = "m1" := eq_comm
    rw [owners_crowded,List.mem_singleton]
    exact (hlook i x).trans (and_comm.trans (and_congr_right fun _ => hid.symm))
  · intro x
    rw [owners_crowded,List.mem_singleton]
    constructor
    · intro hx
      subst hx
      exact ⟨.inr ⟨"m1",(hlook _ _).mpr ⟨rfl,rfl⟩⟩,hmode⟩
    · intro hx
      obtain ⟨hnone | ⟨id,hw⟩,-⟩ := hx
      · cases hnone
      · exact ((hlook id x).mp hw).2
  · exact List.nodup_nil
  · exact fun id x hw => ((hlook id x).mp hw).1.symm
  · exact fun x hx => absurd hx List.not_mem_nil
  · intro x hx
    obtain hnone | ⟨id,hw⟩ := hx
    · cases hnone
    · rw [((hlook id x).mp hw).2]
      exact Nat.zero_lt_one
  · rw [crowdedEntries,List.length_append,List.length_replicate]
    exact toNat_count (by omega)
  · rw [owners_crowded]
    rfl

end Crowded

theorem compaction_failed_iff_crowded :
    ((∃ qs, Delimited
        ((QueueMessage.new ordersMapper).recovery (orderDisk.after 2 [.fails (some 0)])).2.1
        ((QueueMessage.new ordersMapper).recovery (orderDisk.after 2 [.fails (some 0)])).2.2 qs) ↔
      (2 = 0 ∧ orderDisk.files (resolve ordersMapper.nameTempFile) = some []) ∨
        Unharmed orderDisk.direct (valids [orderPayload]) 2 (some 0) ∨
        (2 = 2*(valids [orderPayload]).length+1 ∧ valids [orderPayload] = [orderPayload])) ∧
    ((∃ qs, Delimited ((crowdedQueue 2000).remove QueueMessage.garbageCollectionCheck
        ((crowdedDisk 2000).after (0+1) [.fails none]) "m1").2.1
      ((crowdedQueue 2000).remove QueueMessage.garbageCollectionCheck
        ((crowdedDisk 2000).after (0+1) [.fails none]) "m1").2.2 qs) ↔
      (0 = 0 ∧
        (crowdedDisk 2000).files (resolve (crowdedQueue 2000).mapper.nameTempFile) = some []) ∨
      Unharmed (crowdedDisk 2000).direct
        (((owners (crowdedEntries 2000)).filter (· ≠ 0)).map (crowdedQueue 2000).payload) 0 none) :=
  ⟨(compaction_failed_iff orderDisk 2 (some 0)).1 ordersMapper [orderPayload] Disk.put_self
    orders_leftover (by decide),
  (compaction_failed_iff (crowdedDisk 2000) 0 none).2 (crowdedQueue 2000) (crowdedEntries 2000) 0
    "m1" (crowded_consistent 2000 le_rfl) (by decide) (by decide) (by decide) (Nat.zero_le _)⟩

/-- Nothing of the payload reaches the temporary file, and nobody notices: the compaction goes on
and leaves a data file that ends behind a length. -/
theorem failed_append_misplaces :
    ¬ ∀ (m : MessageMapper) (d : Disk) (ps : List Payload) (k : ℕ) (w : Option ℕ),
      d.files (resolve m.nameDataFile) = some (journal ps) → Leftover ps →
      k ≤ 2*(valids ps).length+2 →
      ∃ qs, Delimited ((QueueMessage.new m).recovery (d.after k [.fails w])).2.1
        ((QueueMessage.new m).recovery (d.after k [.fails w])).2.2 qs := by
  intro h
  have hex := h ordersMapper orderDisk [orderPayload] 2 (some 0) Disk.put_self orders_leftover
    (by decide)
  have hiff := recovery_failed_iff (d := orderDisk) (k := 2) ordersMapper Disk.put_self
    orders_leftover (by decide) (some 0)
  obtain ⟨hzero,-⟩ | hun | ⟨hlast,-⟩ := hiff.mp hex
  · cases hzero
  · obtain ⟨i,p,n,hp,hn,⟨hk,-⟩ | ⟨hk,hlen⟩⟩ := hun
    · omega
    · obtain rfl : i = 0 := by omega
      cases hn
      cases hp
      exact absurd hlen (by decide)
  · exact absurd hlast (by decide)

end MessageQueue

import MessageQueue.Server.MessageMapper

/-! The data file as a sequence of payloads: what `load` reads from it, what an append and a
compaction make of it when no file operation fails. -/
namespace MessageQueue
open Base Base.Bytes

namespace Disk
variable {d : Disk} {p q : Path} {b c : Option Bytes}

@[simp] theorem put_put : (d.put p b).put p c = d.put p c := by simp [put]

theorem put_comm (h : p ≠ q) : (d.put p b).put q c = (d.put q c).put p b := by
  simp only [put]
  rw [Function.update_comm h]

end Disk

namespace Payload

/-- The bytes of one record. -/
def record (p : Payload) : Bytes :=
  leBytes 8 p.serializeAsString.length ++ p.serializeAsString

/-- The bytes of a file that holds these payloads. -/
def journal (ps : List Payload) : Bytes := ps.flatMap record

/-- A length that the eight bytes before the payload can express. -/
def Fits (p : Payload) : Prop := p.serializeAsString.length < 2^64

/-- The payloads that a load keeps. -/
def valids (ps : List Payload) : List Payload := ps.filter fun p => p.valid ≠ "0"

@[simp] theorem record_length (p : Payload) :
    p.record.length = 8+p.serializeAsString.length := by simp [record]

theorem valids_cons (p : Payload) (ps : List Payload) :
    valids (p::ps) = if p.valid = "0" then valids ps else p::valids ps := by
  by_cases h : p.valid = "0" <;> simp [valids,h]

@[simp] theorem journal_nil : journal [] = [] := rfl
@[simp] theorem journal_cons (p : Payload) (ps : List Payload) :
    journal (p::ps) = p.record ++ journal ps := rfl
@[simp] theorem journal_append (ps qs : List Payload) :
    journal (ps ++ qs) = journal ps ++ journal qs := by simp [journal]

theorem length_le_journal (ps : List Payload) : 8*ps.length ≤ (journal ps).length := by
  induction ps with
  | nil => simp
  | cons p ps ih => simp only [journal_cons,List.length_append,record_length,List.length_cons]; omega

theorem journal_valids_length (ps : List Payload) :
    (journal (valids ps)).length ≤ (journal ps).length := by
  induction ps with
  | nil => simp [valids]
  | cons p ps ih =>
    rw [valids_cons]
    split_ifs <;> simp only [journal_cons,List.length_append] <;> omega

theorem record_length_le {p : Payload} {ps : List Payload} (h : p ∈ ps) :
    p.record.length ≤ (journal ps).length := by
  induction ps with
  | nil => simp at h
  | cons q ps ih =>
    simp only [journal_cons,List.length_append]
    rcases List.mem_cons.mp h with rfl | h
    · omega
    · have hp := ih h; omega

theorem fits_of_journal {ps : List Payload} (h : (journal ps).length < 2^64) {p : Payload}
    (hp : p ∈ ps) : p.Fits := by
  have hr := record_length_le hp
  rw [record_length] at hr
  unfold Fits
  omega

end Payload

open Payload

namespace MessageMapper
variable (m : MessageMapper) {d : Disk}

/-- One round of the loop reads the record that starts at `front`. -/
lemma read_record (front rest : Bytes) (p : Payload) (length : ℕ)
    (h : FileHelper.contents d m.nameDataFile = front ++ p.record ++ rest) (hp : p.Fits) :
    leNat (FileHelper.read d m.nameDataFile (leBytes 8 length) front.length) =
        p.serializeAsString.length ∧
      FileHelper.read d m.nameDataFile (List.replicate p.serializeAsString.length 0)
        (front.length+8) = p.serializeAsString := by
  have hc : FileHelper.contents d m.nameDataFile =
      front ++ (leBytes 8 p.serializeAsString.length ++ (p.serializeAsString ++ rest)) := by
    simp [h,record]
  constructor
  · have hg : ((front ++ (leBytes 8 p.serializeAsString.length ++ (p.serializeAsString ++ rest))).drop
        front.length).take 8 = leBytes 8 p.serializeAsString.length := by
      rw [List.drop_left]
      simp
    simp only [FileHelper.read,hc,leBytes_length,hg]
    rw [List.drop_of_length_le (by simp),List.append_nil]
    exact leNat_leBytes 8 _ (by simpa [Fits] using hp)
  · have hg : (front ++ (leBytes 8 p.serializeAsString.length ++ (p.serializeAsString ++ rest))).drop
        (front.length+8) = p.serializeAsString ++ rest := by
      rw [← List.append_assoc]
      have hl : front.length+8 = (front ++ leBytes 8 p.serializeAsString.length).length := by simp
      rw [hl,List.drop_left]
    simp only [FileHelper.read,hc,List.length_replicate,hg,List.take_left]
    simp

/-- The loop reads the records that start at `front`, and stands before what follows them. -/
lemma loadLoop_append (ps : List Payload) (fuel length : ℕ) (front tail : Bytes)
    (result : List Message)
    (h : FileHelper.contents d m.nameDataFile = front ++ journal ps ++ tail)
    (hf : ∀ p ∈ ps, p.Fits) : ∃ length',
      m.loadLoop d (fuel+ps.length) front.length length result =
        m.loadLoop d fuel (front ++ journal ps).length length'
          (result ++ (valids ps).map fun p => {payload := p}) := by
  induction ps generalizing length front result with
  | nil => exact ⟨length,by simp [valids]⟩
  | cons p ps ih =>
    have hc : FileHelper.contents d m.nameDataFile =
        front ++ p.record ++ (journal ps ++ tail) := by simp [h]
    have hs : front.length < FileHelper.size d m.nameDataFile := by
      simp only [FileHelper.size,hc,List.length_append,record_length]; omega
    obtain ⟨hl,hb⟩ := m.read_record front (journal ps ++ tail) p length hc (hf p (by simp))
    have hnext : front.length+8+p.serializeAsString.length = (front ++ p.record).length := by
      simp; omega
    have hsum : fuel+(p::ps).length = fuel+ps.length+1 := by simp; omega
    rw [hsum]
    simp only [loadLoop,hs,↓reduceIte,hl,hb,parseFromString_serializeAsString,hnext]
    have ih' := fun r => ih p.serializeAsString.length (front ++ p.record) r
      (by rw [hc]; simp) (fun q hq => hf q (by simp [hq]))
    have hfront : front ++ p.record ++ journal ps = front ++ journal (p::ps) := by simp
    rw [valids_cons]
    split_ifs with hv
    · simpa only [hfront] using ih' result
    · obtain ⟨length',e⟩ := ih' (result ++ [{payload := p}])
      refine ⟨length',?_⟩
      rw [e,hfront]
      simp

lemma loadLoop_journal (ps : List Payload) (fuel length : ℕ) (front : Bytes)
    (result : List Message) (h : FileHelper.contents d m.nameDataFile = front ++ journal ps)
    (hf : ∀ p ∈ ps, p.Fits) (hfuel : ps.length ≤ fuel) :
    m.loadLoop d fuel front.length length result =
      result ++ (valids ps).map fun p => {payload := p} := by
  obtain ⟨k,rfl⟩ : ∃ k, fuel = k+ps.length := ⟨fuel-ps.length,by omega⟩
  obtain ⟨length',e⟩ := m.loadLoop_append ps k length front [] result (by simpa using h) hf
  rw [e]
  cases k with
  | zero => rfl
  | succ k => simp [loadLoop,FileHelper.size,h]

/-- Loading a file of complete records gives its valid messages in order. -/
theorem load_journal (ps : List Payload)
    (h : FileHelper.contents d m.nameDataFile = journal ps) (hf : ∀ p ∈ ps, p.Fits) :
    m.load d = (valids ps).map fun p => {payload := p} := by
  have hl := length_le_journal ps
  have := m.loadLoop_journal ps (FileHelper.size d m.nameDataFile) 0 [] [] h hf
    (by simp only [FileHelper.size,h]; omega)
  simpa [load] using this

/-- A message that knows the place of its record, which starts at `off`. -/
def placedAt (off : ℕ) (msg : Message) : Message :=
  {msg with
    offset := UInt32.ofNat (off+8)
    length := UInt32.ofNat msg.payload.serializeAsString.length}

/-- An append that succeeds adds one record at the end. -/
theorem insert_done {name : String} {f : Bytes} (msg : Message) (hp : d.plan = ∅)
    (h : d.files (resolve name) = some f) :
    insert d name msg =
      (true,placedAt f.length msg,d.put (resolve name) (some (f ++ msg.payload.record))) := by
  have h8 : f.length+8 = (f ++ leBytes 8 msg.payload.serializeAsString.length).length := by simp
  rw [insert,FileHelper.size_eq hp h,FileHelper.write_done hp h,splice_end]
  simp only
  rw [h8,FileHelper.write_done (by simpa using hp) Disk.put_self,splice_end]
  simp [placedAt,record]

/-- The messages of a file that holds these payloads from `off` on. -/
def placed : ℕ → List Payload → List Message
  | _,[] => []
  | off,p::ps => placedAt off {payload := p} :: placed (off+p.record.length) ps

@[simp] theorem placed_length (off : ℕ) (ps : List Payload) :
    (placed off ps).length = ps.length := by
  induction ps generalizing off with
  | nil => rfl
  | cons p ps ih => simp [placed,ih]

@[simp] theorem placed_payload (off : ℕ) (ps : List Payload) :
    (placed off ps).map Message.payload = ps := by
  induction ps generalizing off with
  | nil => rfl
  | cons p ps ih => simp [placed,placedAt,ih]

lemma insertTempFiles_done (ps : List Payload) (f : Bytes) (hp : d.plan = ∅)
    (h : d.files (resolve m.nameTempFile) = some f) :
    m.insertTempFiles d (ps.map fun p => {payload := p}) =
      (true,placed f.length ps,d.put (resolve m.nameTempFile) (some (f ++ journal ps))) := by
  induction ps generalizing d f with
  | nil => simp [insertTempFiles,placed,Disk.put,← h]
  | cons p ps ih =>
    rw [List.map_cons,insertTempFiles,insert_done _ hp h]
    simp only
    rw [ih _ (by simpa using hp) Disk.put_self]
    simp [placed]

/-- The payloads that `load` finds in a file, whatever its bytes are. -/
def loaded (d : Disk) : List Payload := (m.load d).map Message.payload

/-- What `load` returns has no place yet. -/
lemma load_loaded (d : Disk) : m.load d = (m.loaded d).map fun p => {payload := p} := by
  have hloop : ∀ (fuel offset length : ℕ) (result : List Message),
      result = (result.map Message.payload).map (fun p => {payload := p}) →
      m.loadLoop d fuel offset length result =
        ((m.loadLoop d fuel offset length result).map Message.payload).map
          fun p => {payload := p} := by
    intro fuel
    induction fuel with
    | zero => exact fun _ _ _ h => h
    | succ fuel ih =>
      intro offset length result h
      unfold loadLoop
      dsimp only
      split_ifs
      · exact ih _ _ _ h
      · refine ih _ _ _ ?_
        rw [List.map_append,List.map_append,← h]
        rfl
      · exact h
  exact hloop _ _ _ [] rfl

/-- A compaction without failures leaves the records that were loaded, closed up, and no temporary
file. -/
theorem garbageCollection_loaded {f : Bytes} (hp : d.plan = ∅)
    (h : d.files (resolve m.nameDataFile) = some f) :
    m.garbageCollection d =
      (placed 0 (m.loaded d),(d.put (resolve m.nameTempFile) none).put
        (resolve m.nameDataFile) (some (journal (m.loaded d)))) := by
  have hne := m.distinct
  unfold garbageCollection
  rw [m.load_loaded d]
  simp only [FileHelper.createFile_done hp]
  rw [m.insertTempFiles_done (m.loaded d) [] (by simpa using hp) Disk.put_self]
  simp only [Disk.put_put,List.nil_append,List.length_nil]
  rw [FileHelper.removeFile_done (f := f) (by simpa using hp)
    (by rw [Disk.put_ne hne.symm]; exact h)]
  simp only
  rw [FileHelper.rename_done (f := journal (m.loaded d)) (by simpa using hp)
    (by rw [Disk.put_ne hne,Disk.put_self])]
  simp only [Disk.put_comm hne,Disk.put_put]

/-- A file of complete records is loaded as its valid payloads. -/
theorem loaded_journal (ps : List Payload)
    (h : FileHelper.contents d m.nameDataFile = journal ps) (hf : ∀ p ∈ ps, p.Fits) :
    m.loaded d = valids ps := by
  rw [loaded,m.load_journal ps h hf,List.map_map]
  exact List.map_id _

/-- A compaction without failures leaves the valid records of a file of complete ones. -/
theorem garbageCollection_done (ps : List Payload) (hp : d.plan = ∅)
    (h : d.files (resolve m.nameDataFile) = some (journal ps)) (hf : ∀ p ∈ ps, p.Fits) :
    m.garbageCollection d =
      (placed 0 (valids ps),(d.put (resolve m.nameTempFile) none).put
        (resolve m.nameDataFile) (some (journal (valids ps)))) := by
  rw [m.garbageCollection_loaded hp h,m.loaded_journal ps (FileHelper.contents_eq hp h) hf]

end MessageMapper
end MessageQueue

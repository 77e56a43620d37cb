import MessageQueue.Store.Crash

/-! Where a record lies in the data file. Places are computed in 64 bits and kept in 32, so a
removal meets its own record as long as the place and the length of the payload fit. -/
namespace MessageQueue
open Base Base.Bytes Payload OnFile

namespace Base.Bytes
variable {file body : Bytes} {offset n : ℕ}

/-- What lies behind the bytes that are written stays. -/
theorem drop_splice (h : offset+body.length ≤ n) :
    (splice file offset body).drop n = file.drop n := by
  unfold splice
  split_ifs with hb
  · rfl
  · have hlen : (file.take offset ++ List.replicate (offset-file.length) 0 ++ body).length =
        offset+body.length := by
      simp
      omega
    rw [List.drop_append,hlen,List.drop_eq_nil_of_le (by omega),List.nil_append,List.drop_drop]
    congr 1
    omega

end Base.Bytes

/-- Only a file that is found is written with the answer true. -/
theorem FileHelper.write_reaches {d e : Disk} {name : String} {body : Bytes} {offset : ℕ}
    (h : write d name body offset = (true,e)) : d.plan.Reaches name := by
  by_contra hr
  have hnext : d.next [name] = (.fails none,d) := if_neg fun hall => hr (hall name (by simp))
  simp only [write,hnext] at h
  split at h <;> simp [Outcome.answers] at h

namespace MessageMapper
variable {m : MessageMapper} {d d' e : Disk} {filename : String} {msg msg' : Message}
  {f front back : Bytes}

/-- An append that is answered with true lets the message know the end of the file. -/
theorem insert_true (hf : d.files (resolve filename) = some f)
    (hins : insert d filename msg = (true,msg',d')) : msg' = placedAt f.length msg := by
  simp only [insert] at hins
  split at hins
  · simp at hins
  next d₁ hlength =>
    rw [FileHelper.size_at (FileHelper.write_reaches hlength) hf] at hins
    split at hins
    · simp at hins
    · cases hins
      rfl

/-- If both its writes get through, the record is there. -/
theorem insert_through {d₁ d₂ : Disk} (hf : d.files (resolve filename) = some f)
    (h₁ : d.next [filename] = (.done,d₁)) (h₂ : d₁.next [filename] = (.done,d₂)) :
    (insert d filename msg).2.2.files (resolve filename) = some (f ++ msg.payload.record) := by
  have hs : FileHelper.size d filename = f.length :=
    FileHelper.size_at (Disk.next_reaches h₁ (by simp) filename (by simp)) hf
  have hend : f.length+8 = (f ++ leBytes 8 msg.payload.serializeAsString.length).length := by simp
  have hput : ∀ c, (d₁.put (resolve filename) c).next [filename] =
      (.done,d₂.put (resolve filename) c) := by
    intro c
    rw [Disk.next_put,h₂]
  rw [insert,hs,FileHelper.write_next h₁ hf,splice_end]
  simp only
  rw [hend,FileHelper.write_next (hput _) Disk.put_self,splice_end,List.append_assoc]
  exact Disk.put_self

/-- A removal whose write gets through, of a message that was placed at the end of `n` bytes: the
place and the length are taken from 32 bits. -/
theorem remove_placed {n : ℕ} (hnext : (e.next [m.nameDataFile]).1 = .done)
    (hfile : e.files (resolve m.nameDataFile) = some f) (hvalid : msg.payload.valid = "1") :
    (m.remove e (placedAt n msg)).2.2.files (resolve m.nameDataFile) = some (
      if msg.payload.serializeAsString.length < 2^32 then
        splice f ((n+8) % 2^32) (cleared msg).payload.serializeAsString
      else f) := by
  have hlen := cleared_length hvalid
  have hguard : (cleared msg).payload.serializeAsString.length =
        (UInt32.ofNat msg.payload.serializeAsString.length).toNat ↔
      msg.payload.serializeAsString.length < 2^32 := by
    rw [hlen,UInt32.toNat_ofNat']
    have hmod := Nat.mod_lt msg.payload.serializeAsString.length (show 0 < 2^32 by norm_num)
    exact ⟨fun heq => heq ▸ hmod,fun hlt => (Nat.mod_eq_of_lt hlt).symm⟩
  have hwrite : FileHelper.write e m.nameDataFile (cleared msg).payload.serializeAsString
      (UInt32.ofNat (n+8)).toNat = (true,_) :=
    FileHelper.write_next (Prod.ext hnext rfl) hfile
  simp only [cleared] at hguard hwrite
  simp only [remove,placedAt,ne_eq,hguard,cleared]
  split_ifs with hfits
  · rw [hwrite,Disk.put_self,UInt32.toNat_ofNat']
  · exact hfile

/-- A removal with the place `n` clears the flag where the payload lies exactly if neither that
place nor the length is cut to 32 bits. -/
theorem remove_places_iff {n : ℕ} (hnext : (e.next [m.nameDataFile]).1 = .done)
    (hvalid : msg.payload.valid = "1")
    (hplace : front.length = n+8)
    (hfile : e.files (resolve m.nameDataFile) =
      some (front ++ msg.payload.serializeAsString ++ back)) :
    (m.remove e (placedAt n msg)).2.2.files (resolve m.nameDataFile) =
        some (front ++ (cleared msg).payload.serializeAsString ++ back) ↔
      n+8 < 2^32 ∧ msg.payload.serializeAsString.length < 2^32 := by
  rw [remove_placed hnext hfile hvalid]
  have hlen := cleared_length hvalid
  have hne : msg.payload.serializeAsString ≠ (cleared msg).payload.serializeAsString := by
    intro heq
    have hv : msg.payload.valid = "0" := congrArg Payload.valid (serializeAsString_injective heq)
    simp [hvalid] at hv
  -- a file that still has the old payload is not the one that is meant
  have hold : ∀ file : Bytes, file.drop front.length = msg.payload.serializeAsString ++ back →
      some file ≠ some (front ++ (cleared msg).payload.serializeAsString ++ back) := by
    intro file hdrop heq
    rw [Option.some.inj heq,List.append_assoc,List.drop_left] at hdrop
    exact hne (List.append_inj hdrop hlen).1.symm
  have hback : (front ++ msg.payload.serializeAsString ++ back).drop front.length =
      msg.payload.serializeAsString ++ back := by
    rw [List.append_assoc,List.drop_left]
  split_ifs with hfits
  · by_cases hsmall : n+8 < 2^32
    · refine iff_of_true ?_ ⟨hsmall,hfits⟩
      rw [Nat.mod_eq_of_lt hsmall,← hplace,splice_inside _ _ _ _ hlen]
    · refine iff_of_false (hold _ ?_) fun h => hsmall h.1
      have hmod := Nat.mod_add_div (n+8) (2^32)
      have hpos : 1 ≤ (n+8) / 2^32 := Nat.div_pos (by omega) (by omega)
      rw [drop_splice (by rw [hlen]; omega),hback]
  · exact iff_of_false (hold _ hback) fun h => hfits h.2

/-- A durable message goes to the end of a file, if both writes get through, and its later removal
writes over its own payload and nothing else, exactly if the place of the payload and its length fit
the 32 bits that the message keeps them in. In between, others may have been appended behind it,
removed, or closed up in a compaction that moved the file. -/
theorem positions_exact_iff (hf : d.files (resolve filename) = some f)
    (hvalid : msg.payload.valid = "1") (hins : insert d filename msg = (true,msg',d'))
    (hplace : front.length = f.length+8)
    (hfile : e.files (resolve m.nameDataFile) =
      some (front ++ msg.payload.serializeAsString ++ back))
    (hnext : (e.next [m.nameDataFile]).1 = .done) :
    (∀ d₁ d₂, d.next [filename] = (.done,d₁) → d₁.next [filename] = (.done,d₂) →
      d'.files (resolve filename) = some (f ++ msg.payload.record)) ∧
      ((m.remove e msg').2.2.files (resolve m.nameDataFile) =
          some (front ++ (cleared msg).payload.serializeAsString ++ back) ↔
        f.length+8 < 2^32 ∧ msg.payload.serializeAsString.length < 2^32) := by
  have hplaced := insert_true hf hins
  subst hplaced
  refine ⟨fun d₁ d₂ h₁ h₂ => ?_,remove_places_iff hnext hvalid hplace hfile⟩
  have hput : (insert d filename msg).2.2.files (resolve filename) = _ :=
    insert_through hf h₁ h₂
  rwa [hins] at hput

def emptyDisk : Disk := blankDisk.put (resolve ordersMapper.nameDataFile) (some [])

def pairDisk : Disk := blankDisk.put (resolve ordersMapper.nameDataFile)
  (some (journal [orderPayload,orderPayload]))

/-- The first message of a new file is removed in front of a second one. -/
theorem positions_exact_pair :
    (ordersMapper.remove pairDisk (placedAt 0 ⟨orderPayload,0,0⟩)).2.2.files
        (resolve ordersMapper.nameDataFile) =
      some (leBytes 8 21 ++ (cleared ⟨orderPayload,0,0⟩).payload.serializeAsString ++
        orderPayload.record) ↔
    0+8 < 2^32 ∧ orderPayload.serializeAsString.length < 2^32 :=
  have hempty : emptyDisk.files (resolve ordersMapper.nameDataFile) = some [] := Disk.put_self
  (positions_exact_iff hempty rfl (insert_done ⟨orderPayload,0,0⟩ rfl hempty) rfl
    (by rw [pairDisk,Disk.put_self]; decide) rfl).2

/-- A data file of more than 2^32 bytes. -/
def fullFile : Bytes := journal (List.replicate (2^28) orderPayload)

theorem fullFile_length : fullFile.length = 2^28*29 := by
  have hrecord : 8+orderPayload.serializeAsString.length = 29 := by decide
  obtain ⟨n,hn⟩ : ∃ n, n = 2^28 := ⟨_,rfl⟩
  rw [fullFile,← hn]
  simp [journal,List.length_flatMap,hrecord]

def fullDisk : Disk := blankDisk.put (resolve ordersMapper.nameDataFile) (some fullFile)

/-- Behind 2^32 bytes the removal of the message that has just been inserted misses it. -/
theorem full_file_missed : ¬ ∀ (m : MessageMapper) (d d' e : Disk) (filename : String)
    (f front back : Bytes) (msg msg' : Message), d.files (resolve filename) = some f →
    msg.payload.valid = "1" → insert d filename msg = (true,msg',d') →
    front.length = f.length+8 →
    e.files (resolve m.nameDataFile) = some (front ++ msg.payload.serializeAsString ++ back) →
    (e.next [m.nameDataFile]).1 = .done →
    (m.remove e msg').2.2.files (resolve m.nameDataFile) =
      some (front ++ (cleared msg).payload.serializeAsString ++ back) := by
  intro h
  obtain ⟨msg,hmsg⟩ : ∃ msg : Message, msg = ⟨orderPayload,0,0⟩ := ⟨_,rfl⟩
  have hvalid : msg.payload.valid = "1" := by rw [hmsg]; rfl
  let front := fullFile ++ leBytes 8 msg.payload.serializeAsString.length
  let e := fullDisk.put (resolve ordersMapper.nameDataFile) (some (fullFile ++ msg.payload.record))
  have hfull : fullDisk.files (resolve ordersMapper.nameDataFile) = some fullFile := Disk.put_self
  have hplace : front.length = fullFile.length+8 := by simp [front]
  have hfile : e.files (resolve ordersMapper.nameDataFile) =
      some (front ++ msg.payload.serializeAsString ++ []) := by
    rw [Disk.put_self,List.append_nil,List.append_assoc,record]
  have hmet := h ordersMapper fullDisk e e ordersMapper.nameDataFile fullFile front [] msg _ hfull
    hvalid (insert_done msg rfl hfull) hplace hfile rfl
  have hsmall := ((remove_places_iff rfl hvalid hplace hfile).mp hmet).1
  have hlen := fullFile_length
  omega

end MessageMapper
end MessageQueue

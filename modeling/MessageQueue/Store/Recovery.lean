import MessageQueue.Store.Compaction

/-! Restarts: what the constructor and `recovery` make of a data file that an earlier process has
left behind. -/
namespace MessageQueue
open Base Payload MessageMapper Entry

/-- The records that a process can leave behind: those that are not dead are durable, valid and
known by their ids. -/
structure Leftover (ps : List Payload) : Prop where
  small : (journal ps).length < 2^32
  flags : ∀ p ∈ ps, p.valid = "0" ∨ p.valid = "1" ∧ p.deliveryMode = .durable
  distinct : ((valids ps).map Payload.id).Nodup

namespace Leftover
variable {ps : List Payload}

theorem nil : Leftover [] := ⟨by simp,by simp,by simp [valids]⟩

theorem of_valids (h : Leftover ps) {p : Payload} (hp : p ∈ valids ps) :
    p.valid = "1" ∧ p.deliveryMode = .durable := by
  obtain ⟨hm,hv⟩ := List.mem_filter.mp hp
  exact (h.flags p hm).resolve_left (by simpa using hv)

theorem small_valids (h : Leftover ps) : (journal (valids ps)).length < 2^32 :=
  (journal_valids_length ps).trans_lt h.small

end Leftover

namespace MessageMapper
variable (m : MessageMapper) {d : Disk}

/-- The constructor creates the data file unless it is there, and changes no file. -/
theorem construct_done (hp : d.plan = ∅) :
    (m.construct d).plan = ∅ ∧
      (m.construct d).files (resolve m.nameDataFile) =
        some (FileHelper.contents d m.nameDataFile) := by
  cases hf : d.files (resolve m.nameDataFile) with
  | none =>
    have hc : m.construct d = d.put (resolve m.nameDataFile) (some []) := by
      simp [construct,creatFile,FileHelper.exists',Disk.file_done hp,hf,
        FileHelper.createFile_done hp]
    rw [hc]
    exact ⟨hp,by simp [FileHelper.contents,Disk.file_done hp,hf]⟩
  | some f =>
    have hc : m.construct d = d := by simp [construct,FileHelper.exists',Disk.file_done hp,hf]
    rw [hc]
    exact ⟨hp,by simp [FileHelper.contents,Disk.file_done hp,hf]⟩

end MessageMapper

namespace QueueMessage

/-- The loop of `recovery` adds one object for each message of the new file. -/
theorem recover_placed {q : QueueMessage} {own : List MessagePtr} (ps : List Payload) (off : ℕ)
    (h : InMemory q own) (hd : ∀ p ∈ ps, p.deliveryMode = .durable)
    (hids : (ps.map Payload.id).Nodup)
    (hfree : ∀ p ∈ ps, q.durableMsgs.lookup p.id = none)
    (hs : off+(journal ps).length < 2^32) :
    ∃ (q' : QueueMessage) (new : List MessagePtr), (placed off ps).foldl recover q = q' ∧
      InMemory q' (own ++ new) ∧ q'.mapper = q.mapper ∧ q'.msgs = q.msgs ++ new ∧
      q'.waitackMsgs = q.waitackMsgs ∧ (∀ x, x < q.fresh → q'.heap x = q.heap x) ∧
      new.map q'.payload = ps ∧ Placed q'.heap off (new.map .live) := by
  induction ps generalizing q own off with
  | nil => exact ⟨q,[],rfl,by simpa using h,rfl,by simp,rfl,fun _ _ => rfl,rfl,trivial⟩
  | cons p ps ih =>
    rw [List.map_cons,List.nodup_cons] at hids
    rw [journal_cons,List.length_append,record_length] at hs
    have hdur : p.deliveryMode = .durable := hd p (by simp)
    have hnone : q.durableMsgs.lookup p.id = none := hfree p (by simp)
    obtain ⟨r,hr⟩ : ∃ r, r = recover q (placedAt off {payload := p}) := ⟨_,rfl⟩
    have hown : ownedBy q (placedAt off {payload := p}) = [q.fresh] := by
      simp [ownedBy,placedAt,hdur]
    have hmem : InMemory r (own ++ [q.fresh]) := by
      have := h.push (placedAt off {payload := p}) (q.durableMsgs.emplace p.id q.fresh) (by
        intro id x
        rw [hown,Table.lookup_emplace_eq_some,List.mem_singleton]
        refine or_congr_right ?_
        exact ⟨fun h => ⟨h.2.2,h.1.symm⟩,fun h => ⟨h.2.symm,hnone,h.1⟩⟩)
      rw [hown] at this
      rw [hr]
      exact this
    obtain ⟨q',new,hfold,hmem',hmap,hmsgs,hwait,hheap,hpay,hplaced⟩ := ih
      (off+p.record.length) hmem (fun x hx => hd x (by simp [hx])) hids.2
      (by
        intro x hx
        have hne : x.id ≠ p.id := fun e => hids.1 (e ▸ List.mem_map_of_mem hx)
        rw [hr]
        exact (Table.lookup_emplace_ne hne).trans (hfree x (by simp [hx])))
      (by rw [record_length]; omega)
    have hfresh : q.fresh < r.fresh := by rw [hr]; exact Nat.lt_succ_self _
    have hnew : q'.heap q.fresh = placedAt off {payload := p} := by
      rw [hheap _ hfresh,hr]
      exact Function.update_self _ _ _
    refine ⟨q',q.fresh::new,?_,?_,?_,?_,?_,?_,?_,?_,?_⟩
    · rw [placed,List.foldl_cons,← hr,hfold]
    · simpa using hmem'
    · rw [hmap,hr]; rfl
    · rw [hmsgs,hr]; simp [recover]
    · rw [hwait,hr]; rfl
    · intro x hx
      rw [hheap x (hx.trans hfresh),hr]
      exact Function.update_of_ne hx.ne _ _
    · rw [List.map_cons,hpay]
      simp [payload,hnew,placedAt]
    · intro x hx
      cases hx
      rw [hnew]
      exact ⟨toNat_place (by omega),toNat_place (by
        change p.serializeAsString.length < _
        omega)⟩
    · change Placed q'.heap (off+(q'.heap q.fresh).payload.record.length) (new.map .live)
      rw [hnew]
      exact hplaced

end QueueMessage

/-- Nothing is in the memory of a new store. -/
theorem InMemory.new (m : MessageMapper) : InMemory (QueueMessage.new m) [] := by
  have hheld : ∀ p, ¬ (QueueMessage.new m).Held p := by
    rintro p (hp | ⟨id,hp⟩)
    · simp [QueueMessage.new] at hp
    · simp [QueueMessage.new] at hp
  refine ⟨by simp [QueueMessage.new],?_,by simp [QueueMessage.new],by simp [QueueMessage.new],
    by simp [QueueMessage.new],fun p hp => absurd hp (hheld p)⟩
  intro p
  simp [hheld p]

/-- A restart finds a consistent store whose available messages are the valid records. -/
theorem Consistent.recovery (m : MessageMapper) {d : Disk} {ps : List Payload}
    (hp : d.plan = ∅) (hf : d.files (resolve m.nameDataFile) = some (journal ps))
    (h : Leftover ps) :
    ∃ es, Consistent ((QueueMessage.new m).recovery d).2.1 ((QueueMessage.new m).recovery d).2.2 es ∧
      Ledger.of ((QueueMessage.new m).recovery d).2.1 es =
        ⟨valids ps,fun _ => none,valids ps⟩ := by
  have hfits : ∀ p ∈ ps, p.Fits := fun p hp =>
    fits_of_journal (h.small.trans (by norm_num)) hp
  obtain ⟨q',new,hfold,hmem,hmap,hmsgs,hwait,-,hpay,hplaced⟩ :=
    QueueMessage.recover_placed (valids ps) 0 (InMemory.new m)
      (fun p hp => (h.of_valids hp).2) h.distinct (fun p _ => by simp [QueueMessage.new])
      (by simpa using h.small_valids)
  have hlen : new.length = (valids ps).length := by rw [← hpay,List.length_map]
  have hcount : (UInt64.ofNat (valids ps).length).toNat = (valids ps).length := by
    have hl := length_le_journal (valids ps)
    have hs := h.small_valids
    exact toNat_count (by omega)
  obtain ⟨r,hr⟩ : ∃ r : QueueMessage, r = {q' with
    validCount := UInt64.ofNat (valids ps).length
    totalCount := UInt64.ofNat (valids ps).length} := ⟨_,rfl⟩
  have hrec : (QueueMessage.new m).recovery d = (true,r,
      (d.put (resolve m.nameTempFile) none).put (resolve m.nameDataFile)
        (some (journal (valids ps)))) := by
    have hgc := m.garbageCollection_done ps hp hf hfits
    have hstart : ({QueueMessage.new m with msgs := []} : QueueMessage) = QueueMessage.new m := rfl
    simp only [QueueMessage.recovery,hstart]
    rw [show (QueueMessage.new m).mapper = m from rfl,hgc]
    simp only [hfold,placed_length]
    rw [hr]
  have hpay' : new.map (fun p => (r.heap p).payload) = valids ps := by rw [hr]; exact hpay
  rw [hrec]
  refine ⟨new.map .live,⟨?_,?_,?_,?_⟩,?_⟩
  · have hname : r.mapper = m := by rw [hr]; exact hmap
    have hnd : new.Nodup := hmem.msgsNodup.sublist (by rw [hmsgs]; simp)
    have halive : ∀ p ∈ new, (r.heap p).payload.valid = "1" := by
      intro p hp
      have hmem : (r.heap p).payload ∈ valids ps := by rw [← hpay']; exact List.mem_map_of_mem hp
      exact (h.of_valids hmem).1
    have hplaced' : Placed r.heap 0 (new.map .live) := by rw [hr]; exact hplaced
    have hplan : (d.put (resolve m.nameTempFile) none).plan = ∅ := hp
    rw [hname,← hpay']
    exact OnFile.written hplan new hnd halive hplaced' (by rw [hpay']; exact h.small_valids)
  · rw [owners_map_live]
    rw [List.nil_append] at hmem
    subst hr
    exact hmem.congr rfl rfl rfl rfl rfl
  · rw [hr,List.length_map,hlen]; exact hcount
  · rw [hr,owners_map_live,hlen]; exact hcount
  · have hpay'' : new.map r.payload = valids ps := hpay'
    ext1
    · have hm : r.msgs = new := by rw [hr]; simpa [QueueMessage.new] using hmsgs
      change r.msgs.map r.payload = _
      rw [hm,hpay'']
    · funext id
      have hw : r.waitackMsgs = ∅ := by rw [hr]; exact hwait
      change (r.waitackMsgs.lookup id).map r.payload = _
      rw [hw]
      simp
    · change (owners (new.map .live)).map r.payload = _
      rw [owners_map_live,hpay'']

/-- What a consistent store leaves behind when its process stops. -/
theorem Consistent.leftover {q : QueueMessage} {d : Disk} {es : List Entry}
    (h : Consistent q d es) : Leftover (payloads q.heap es) ∧
      valids (payloads q.heap es) = (Ledger.of q es).durable := by
  have hv : valids (payloads q.heap es) = (owners es).map q.payload := h.onFile.valids_payloads
  refine ⟨⟨h.onFile.small,?_,?_⟩,hv⟩
  · intro w hw
    obtain ⟨e,he,rfl⟩ := List.mem_map.mp hw
    cases e with
    | live p =>
      have hp := mem_owners.mpr he
      exact .inr ⟨h.onFile.alive p hp,((h.inMemory.held p).mp hp).2⟩
    | dead w => exact .inl (h.onFile.dead w he)
  · rw [hv,List.map_map]
    exact h.onFile.nodup.map_on fun x hx y hy e => h.inMemory.owner_id hy hx e

end MessageQueue

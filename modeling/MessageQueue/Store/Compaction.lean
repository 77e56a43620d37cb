import MessageQueue.Store.Operations

/-! Acknowledgements and the compaction hidden in them: invalidation in place, the rewrite of the
file, and the new place of every record. -/
namespace MessageQueue
open Base Bytes Payload MessageMapper Entry

/-- The owners when the record of `p` has died. -/
theorem Entry.owners_kill {es fs : List Entry} {p : MessagePtr} {w : Payload}
    (h : (owners (es ++ .live p::fs)).Nodup) :
    owners (es ++ .dead w::fs) = (owners (es ++ .live p::fs)).filter (· ≠ p) := by
  rw [owners_append,owners_live,List.nodup_append] at h
  obtain ⟨-,hfs,hapart⟩ := h
  rw [owners_append,owners_dead,owners_append,owners_live,List.filter_append,
    List.filter_cons_of_neg (by simp),List.filter_eq_self.mpr,List.filter_eq_self.mpr]
  · intro x hx
    simpa using fun e : x = p => (List.nodup_cons.mp hfs).1 (e ▸ hx)
  · intro x hx
    simpa using fun e : x = p => hapart x hx p (by simp) e

namespace OnFile
variable {name : String} {heap : MessagePtr → Message} {d : Disk} {es fs : List Entry}
  {p : MessagePtr}

/-- The message with its valid flag cleared. -/
def cleared (m : Message) : Message := {m with payload := {m.payload with valid := "0"}}

theorem cleared_length {msg : Message} (hvalid : msg.payload.valid = "1") :
    (cleared msg).payload.serializeAsString.length = msg.payload.serializeAsString.length := by
  have hself : {msg.payload with valid := "1"} = msg.payload := by rw [← hvalid]
  have hv := serializeAsString_valid msg.payload
  rwa [hself] at hv

/-- `remove` writes the cleared record over the record of the message. -/
theorem remove_done {m : MessageMapper} {msg : Message} {front back : Bytes} (hp : d.plan = ∅)
    (hf : d.files (resolve m.nameDataFile) = some (front ++ msg.payload.record ++ back))
    (hvalid : msg.payload.valid = "1") (hoff : msg.offset.toNat = front.length+8)
    (hlen : msg.length.toNat = msg.payload.serializeAsString.length) :
    m.remove d msg = (true,cleared msg,d.put (resolve m.nameDataFile)
      (some (front ++ (cleared msg).payload.record ++ back))) := by
  have hsize := cleared_length hvalid
  have hfile : d.files (resolve m.nameDataFile) = some ((front ++
      leBytes 8 msg.payload.serializeAsString.length) ++ msg.payload.serializeAsString ++
        back) := by
    rw [hf]
    simp [record]
  have hfront : msg.offset.toNat =
      (front ++ leBytes 8 msg.payload.serializeAsString.length).length := by
    rw [hoff]
    simp
  have hremove : m.remove d msg = (true,cleared msg,(FileHelper.write d m.nameDataFile
      (cleared msg).payload.serializeAsString msg.offset.toNat).2) :=
    if_neg (by rw [not_not,hlen]; exact hsize)
  rw [hremove,FileHelper.write_done hp hfile,hfront,splice_inside _ _ _ _ hsize]
  simp [record,hsize]

/-- Clearing the valid flag in place turns the live record of `p` into a dead one. -/
theorem kill {m : MessageMapper} (h : OnFile m.nameDataFile heap d (es ++ .live p::fs)) :
    ∃ d', m.remove d (heap p) = (true,cleared (heap p),d') ∧
      OnFile m.nameDataFile (Function.update heap p (cleared (heap p))) d'
        (es ++ .dead (cleared (heap p)).payload::fs) := by
  obtain ⟨hes,hp,hfs⟩ := placed_append.mp h.placed
  obtain ⟨hoff,hlen⟩ := hp p rfl
  have hvalid : (heap p).payload.valid = "1" := h.alive p (by simp)
  have hsize := cleared_length hvalid
  have hnd := h.nodup
  rw [owners_append,owners_live,List.nodup_append] at hnd
  obtain ⟨hnes,hnfs,hapart⟩ := hnd
  rw [List.nodup_cons] at hnfs
  have hne : ∀ x ∈ owners es ++ owners fs, x ≠ p := by
    intro x hx e
    subst e
    cases List.mem_append.mp hx with
    | inl hx => exact hapart x hx x (by simp) rfl
    | inr hx => exact hnfs.1 hx
  have hold : ∀ x ∈ owners es ++ owners fs,
      Function.update heap p (cleared (heap p)) x = heap x :=
    fun x hx => Function.update_of_ne (hne x hx) _ _
  have hpes : payloads (Function.update heap p (cleared (heap p))) es = payloads heap es :=
    payloads_congr fun x hx => by rw [hold x (List.mem_append_left _ hx)]
  have hpfs : payloads (Function.update heap p (cleared (heap p))) fs = payloads heap fs :=
    payloads_congr fun x hx => by rw [hold x (List.mem_append_right _ hx)]
  have hfile : d.files (resolve m.nameDataFile) = some (journal (payloads heap es) ++
      (heap p).payload.record ++ journal (payloads heap fs)) := by
    rw [h.file]
    simp [Entry.payload]
  have hfile' : journal (payloads (Function.update heap p (cleared (heap p)))
      (es ++ .dead (cleared (heap p)).payload::fs)) = journal (payloads heap es) ++
        (cleared (heap p)).payload.record ++ journal (payloads heap fs) := by
    simp [Entry.payload,hpes,hpfs]
  have hremove := remove_done h.plan hfile hvalid (by rw [hoff,Nat.zero_add]) hlen
  rw [← hfile'] at hremove
  refine ⟨_,hremove,⟨h.plan,?_,Disk.put_self,?_,?_,?_,?_⟩⟩
  · rw [hfile']
    have hs := h.small
    simp only [payloads_append,payloads_cons,journal_append,journal_cons,List.length_append,
      record_length,Entry.payload] at hs
    simp only [List.length_append,record_length,hsize]
    omega
  · intro w hw
    cases List.mem_append.mp hw with
    | inl hw => exact h.dead w (by simp [hw])
    | inr hw =>
      cases List.mem_cons.mp hw with
      | inl hw => cases hw; rfl
      | inr hw => exact h.dead w (by simp [hw])
  · intro x hx
    have hx' : x ∈ owners es ++ owners fs := by simpa using hx
    rw [hold x hx']
    exact h.alive x (by cases List.mem_append.mp hx' with
      | inl hx => simp [hx]
      | inr hx => simp [hx])
  · rw [owners_append,owners_dead,List.nodup_append]
    exact ⟨hnes,hnfs.2,fun a ha b hb => hapart a ha b (by simp [hb])⟩
  · rw [placed_append]
    refine ⟨hes.congr fun x hx => hold x (List.mem_append_left _ hx),by simp [owner],?_⟩
    have hrec : (Entry.payload (Function.update heap p (cleared (heap p)))
        (.dead (cleared (heap p)).payload)).record.length =
          (Entry.payload heap (.live p)).record.length := by
      simp [Entry.payload,hsize]
    rw [hrec,hpes]
    exact hfs.congr fun x hx => hold x (List.mem_append_right _ hx)

/-- The file part for a file that a compaction has just written. -/
theorem written (hp : d.plan = ∅) (ps : List MessagePtr) (hnd : ps.Nodup)
    (halive : ∀ p ∈ ps, (heap p).payload.valid = "1") (hplaced : Placed heap 0 (ps.map .live))
    (hs : (journal (ps.map fun p => (heap p).payload)).length < 2^32) :
    OnFile name heap (d.put (resolve name) (some (journal (ps.map fun p => (heap p).payload))))
      (ps.map .live) where
  plan := hp
  small := by rw [payloads_map_live]; exact hs
  file := by rw [payloads_map_live]; exact Disk.put_self
  dead w hw := by simp at hw
  alive p h := halive p (by rwa [owners_map_live] at h)
  nodup := by rw [owners_map_live]; exact hnd
  placed := hplaced

end OnFile

lemma toNat_count {n : ℕ} (h : n < 2^32) : (UInt64.ofNat n).toNat = n := by
  rw [UInt64.toNat_ofNat']
  exact Nat.mod_eq_of_lt (h.trans (by norm_num))

namespace QueueMessage
variable {q : QueueMessage}

/-- What the compaction loop does to a heap when it knows all messages: each object takes over the
place of its message. -/
theorem adopt_all (ps : List MessagePtr) (ms : List Message) (hnd : ps.Nodup)
    (hk : ∀ p ∈ ps, q.durableMsgs.lookup (q.payload p).id = some p)
    (hm : ms.map Message.payload = ps.map q.payload) :
    ∃ heap', ms.foldl adopt q = {q with heap := heap'} ∧ ps.map heap' = ms ∧
      (∀ x, (heap' x).payload = q.payload x) ∧ ∀ x, x ∉ ps → heap' x = q.heap x := by
  induction ps generalizing q ms with
  | nil =>
    rw [List.map_nil,List.map_eq_nil_iff] at hm
    subst hm
    exact ⟨q.heap,rfl,rfl,fun _ => rfl,fun _ _ => rfl⟩
  | cons p ps ih =>
    rw [List.nodup_cons] at hnd
    cases ms with
    | nil => cases hm
    | cons m ms =>
      obtain ⟨hmp,hms⟩ := List.cons.inj hm
      have hself : {q.heap p with offset := m.offset, length := m.length} = m := by
        change (⟨q.payload p,m.offset,m.length⟩ : Message) = m
        rw [← hmp]
      have hstep : adopt q m = q.store p m := by
        rw [adopt,hmp,hk p List.mem_cons_self]
        simp only [hself]
      have hpay : (q.store p m).payload = q.payload := by
        funext x
        by_cases hx : x = p
        · subst hx; simpa [payload,store] using hmp
        · simp [payload,store,hx]
      obtain ⟨heap',hfold,hmap,hp,hrest⟩ := ih (q := q.store p m) ms hnd.2
        (fun x hx => by rw [hpay]; exact hk x (List.mem_cons_of_mem _ hx)) (by rw [hms,hpay])
      refine ⟨heap',?_,?_,fun x => by rw [hp x,hpay],?_⟩
      · rw [List.foldl_cons,hstep,hfold]
        rfl
      · rw [List.map_cons,hmap,hrest p hnd.1]
        simp [store]
      · intro x hx
        rw [List.mem_cons,not_or] at hx
        rw [hrest x hx.2]
        simp [store,hx.1]

/-- Objects that hold the messages of a file lie where the messages do. -/
theorem placed_objects {heap : MessagePtr → Message} (ps : List MessagePtr) (vs : List Payload)
    (off : ℕ) (h : ps.map heap = placed off vs) (hs : off+(journal vs).length < 2^32) :
    Placed heap off (ps.map .live) := by
  induction ps generalizing vs off with
  | nil => trivial
  | cons p ps ih =>
    cases vs with
    | nil => cases h
    | cons v vs =>
      rw [journal_cons,List.length_append,record_length] at hs
      obtain ⟨hp,hps⟩ := List.cons.inj h
      have hlen : v.serializeAsString.length < 2^32 := by omega
      refine ⟨?_,?_⟩
      · intro x hx
        cases hx
        rw [hp]
        exact ⟨toNat_place (by omega),toNat_place hlen⟩
      · change Placed heap (off+(heap p).payload.record.length) _
        rw [hp]
        exact ih vs _ hps (by
          change off+v.record.length+_ < _
          rw [record_length]
          omega)

/-- What the compaction loop does to a heap: every object learns its place in the new file. -/
theorem adopt_placed (ps : List MessagePtr) (off : ℕ) (hnd : ps.Nodup)
    (hk : ∀ p ∈ ps, q.durableMsgs.lookup (q.payload p).id = some p)
    (hs : off+(journal (ps.map q.payload)).length < 2^32) :
    ∃ heap', (placed off (ps.map q.payload)).foldl adopt q = {q with heap := heap'} ∧
      (∀ x, (heap' x).payload = q.payload x) ∧ (∀ x, x ∉ ps → heap' x = q.heap x) ∧
      Placed heap' off (ps.map .live) := by
  obtain ⟨heap',hfold,hmap,hp,hrest⟩ := q.adopt_all ps (placed off (ps.map q.payload)) hnd hk
    (placed_payload off _)
  exact ⟨heap',hfold,hp,hrest,placed_objects ps _ off hmap hs⟩

/-- A compaction, or the decision against one, keeps the file part of the invariant and counts
anew; nothing but places and counters changes in memory. -/
theorem garbageCollection_spec {d : Disk} {es : List Entry} (check : Policy)
    (hf : OnFile q.mapper.nameDataFile q.heap d es)
    (hk : ∀ p ∈ owners es, q.durableMsgs.lookup (q.payload p).id = some p)
    (ht : q.totalCount.toNat = es.length) (hv : q.validCount.toNat = (owners es).length) :
    ∃ heap' valid' total' d' es',
      q.garbageCollection check d =
        ({q with heap := heap', validCount := valid', totalCount := total'},d') ∧
      OnFile q.mapper.nameDataFile heap' d' es' ∧ owners es' = owners es ∧
      (∀ x, (heap' x).payload = q.payload x) ∧ total'.toNat = es'.length ∧
      valid'.toNat = (owners es').length := by
  unfold garbageCollection
  split_ifs
  · exact ⟨q.heap,q.validCount,q.totalCount,d,es,rfl,hf,rfl,fun _ => rfl,ht,hv⟩
  have hlen : (owners es).length < 2^32 := length_owners_le.trans_lt hf.length_lt
  have hvalids := hf.valids_payloads
  have hjournal : (journal ((owners es).map q.payload)).length < 2^32 := by
    have hle : (journal (valids (payloads q.heap es))).length ≤
        (journal (payloads q.heap es)).length := journal_valids_length _
    rw [hvalids] at hle
    exact hle.trans_lt hf.small
  rw [q.mapper.garbageCollection_done _ hf.plan hf.file hf.fits,hvalids]
  obtain ⟨heap',hfold,hpay,-,hplaced⟩ :=
    q.adopt_placed (owners es) 0 hf.nodup hk (by simpa using hjournal)
  have hnew : (owners es).map q.payload = (owners es).map fun p => (heap' p).payload :=
    List.map_congr_left fun x _ => (hpay x).symm
  have hcount := toNat_count hlen
  have hd : ((d.put (resolve q.mapper.nameTempFile) none)).plan = ∅ := hf.plan
  refine ⟨heap',UInt64.ofNat (owners es).length,UInt64.ofNat (owners es).length,_,
    (owners es).map .live,?_,OnFile.written hd (owners es) hf.nodup ?_ hplaced (hnew ▸ hjournal),
    by simp,hpay,?_,?_⟩
  · change ({(placed 0 ((owners es).map q.payload)).foldl adopt q with
      validCount := UInt64.ofNat (placed 0 ((owners es).map q.payload)).length
      totalCount := UInt64.ofNat (placed 0 ((owners es).map q.payload)).length},
      (d.put (resolve q.mapper.nameTempFile) none).put (resolve q.mapper.nameDataFile)
        (some (journal ((owners es).map q.payload)))) = _
    rw [hfold,← hnew]
    simp only [placed_length,List.length_map]
  · intro x hx
    rw [hpay]
    exact hf.alive x hx
  · rw [List.length_map]; exact hcount
  · rw [owners_map_live]; exact hcount

end QueueMessage

namespace InMemory
variable {q : QueueMessage} {es es' : List Entry}

/-- The ledger after a waiting message was released. -/
theorem ledger_release (h : InMemory q (owners es)) {q' : QueueMessage} {id : String}
    {p : MessagePtr} (hw : q.waitackMsgs.lookup id = some p) (hm : q'.msgs = q.msgs)
    (hw' : q'.waitackMsgs = q.waitackMsgs.erase id)
    (hp : ∀ x, x ≠ p → q'.payload x = q.payload x)
    (he : owners es' = (owners es).filter (· ≠ p)) :
    Ledger.of q' es' = (Ledger.of q es).remove id := by
  have hid : (q.payload p).id = id := h.waiting id p hw
  have hl : (Ledger.of q es).waiting id = some (q.payload p) := by simp [Ledger.of,hw]
  rw [Ledger.remove,hl]
  ext1
  · simp only [Ledger.of,hm]
    refine List.map_congr_left fun x hx => hp x ?_
    rintro rfl
    exact h.apart x hx ⟨id,hw⟩
  · funext i
    simp only [Ledger.of,hw']
    by_cases hi : i = id
    · subst hi; simp
    · rw [AList.lookup_erase_ne hi,Function.update_of_ne hi]
      cases hx : q.waitackMsgs.lookup i with
      | none => rfl
      | some x =>
        refine congrArg some (hp x ?_)
        rintro rfl
        exact hi ((h.waiting i x hx).symm.trans hid)
  · have hmap : ((owners es).filter (· ≠ p)).map q'.payload =
        ((owners es).filter (· ≠ p)).map q.payload :=
      List.map_congr_left fun x hx => hp x (by simpa using (List.mem_filter.mp hx).2)
    simp only [Ledger.of,he,hmap]
    split_ifs with hd
    · have hown : p ∈ owners es := (h.held p).mpr ⟨.inr ⟨id,hw⟩,hd⟩
      rw [List.filter_map]
      refine congrArg (List.map q.payload) (List.filter_congr fun x hx => ?_)
      simp only [Function.comp_apply,decide_eq_decide,ne_eq,← hid]
      exact not_congr ⟨fun e => by rw [e],fun e => h.owner_id hown hx e⟩
    · have hown : p ∉ owners es := fun hm => hd ((h.held p).mp hm).2
      rw [List.filter_eq_self.mpr fun x hx => by simpa using fun e : x = p => hown (e ▸ hx)]

end InMemory

namespace QueueMessage
variable {q : QueueMessage} {d d' : Disk} {id : String} {p : MessagePtr}

/-- The queue between the clearing of a record and the compaction. -/
def settled (q : QueueMessage) (id : String) (p : MessagePtr) : QueueMessage :=
  {q.store p (OnFile.cleared (q.heap p)) with
    durableMsgs := q.durableMsgs.erase id
    validCount := q.validCount-1}

theorem settled_payload {x : MessagePtr} (hx : x ≠ p) :
    (q.settled id p).payload x = q.payload x :=
  congrArg Message.payload (Function.update_of_ne hx _ _)

/-- The acknowledgement of a durable message, from the compaction on. -/
theorem remove_durable (hw : q.waitackMsgs.lookup id = some p)
    (hd : (q.payload p).deliveryMode = .durable) (check : Policy) {ok : Bool}
    (hrem : q.mapper.remove d (q.heap p) = (ok,OnFile.cleared (q.heap p),d')) :
    q.remove check d id =
      (true,{((q.settled id p).garbageCollection check d').1 with
        waitackMsgs := ((q.settled id p).garbageCollection check d').1.waitackMsgs.erase id},
      ((q.settled id p).garbageCollection check d').2) := by
  have hd' : (q.heap p).payload.deliveryMode = .durable := hd
  unfold remove
  simp only [hw,hd',↓reduceIte,hrem]
  rfl

end QueueMessage

namespace Consistent
variable {q : QueueMessage} {d : Disk} {es : List Entry}

/-- A durable message that waits has its record cleared and is taken out of the durable table: the
invariant holds of what is left, but for the counter of the records. -/
theorem settle (h : Consistent q d es) {id : String} {p : MessagePtr}
    (hw : q.waitackMsgs.lookup id = some p) (hd : (q.payload p).deliveryMode = .durable) :
    ∃ d' es', q.mapper.remove d (q.heap p) = (true,OnFile.cleared (q.heap p),d') ∧
      OnFile q.mapper.nameDataFile (q.settled id p).heap d' es' ∧
      InMemory {q.settled id p with waitackMsgs := q.waitackMsgs.erase id} (owners es') ∧
      owners es' = (owners es).filter (· ≠ p) ∧ es'.length = es.length ∧
      (owners es).length = (owners es').length+1 ∧
      (q.validCount-1).toNat = (owners es').length := by
  have hown : p ∈ owners es := (h.inMemory.held p).mpr ⟨.inr ⟨id,hw⟩,hd⟩
  obtain ⟨front,back,rfl⟩ := List.append_of_mem (mem_owners.mp hown)
  obtain ⟨d',hrem,hfile⟩ := h.onFile.kill
  have hos := owners_kill (w := (OnFile.cleared (q.heap p)).payload) h.onFile.nodup
  have hmem := h.inMemory.release hw (q.settled id p).heap
    (fun x hx => QueueMessage.settled_payload hx) (q.durableMsgs.erase id) (by
      intro i x
      rw [Table.lookup_erase_eq_some,and_comm,and_congr_right_iff]
      intro hx
      rw [h.inMemory.durable] at hx
      have hpid : (q.payload p).id = id := h.inMemory.waiting id p hw
      rw [← hx.2,← hpid]
      exact not_congr ⟨fun e => h.inMemory.owner_id hown hx.1 e,fun e => by rw [e]⟩)
  rw [← hos] at hmem
  have hlen : (owners (front ++ .live p::back)).length =
      (owners (front ++ .dead (OnFile.cleared (q.heap p)).payload::back)).length+1 := by
    simp only [owners_append,owners_live,owners_dead,List.length_append,List.length_cons]
    omega
  have hv := h.valid
  refine ⟨d',_,hrem,hfile,hmem.congr rfl rfl rfl rfl rfl,hos,by simp,hlen,?_⟩
  rw [UInt64.toNat_sub_of_le _ _ (by rw [UInt64.le_iff_toNat_le]; simp; omega),hv,hlen]
  rfl

/-- An acknowledgement removes the message that waits under the id and no other. -/
theorem remove (h : Consistent q d es) (check : QueueMessage.Policy) (id : String) :
    (q.remove check d id).1 = true ∧
    ∃ es', Consistent (q.remove check d id).2.1 (q.remove check d id).2.2 es' ∧
      Ledger.of (q.remove check d id).2.1 es' = (Ledger.of q es).remove id ∧
      ∀ p, q.waitackMsgs.lookup id = some p →
        owners es' = (owners es).filter (· ≠ p) ∧
        (q.remove check d id).2.1.msgs = q.msgs ∧
        (q.remove check d id).2.1.waitackMsgs = q.waitackMsgs.erase id := by
  cases hw : q.waitackMsgs.lookup id with
  | none =>
    have hl : (Ledger.of q es).waiting id = none := by simp [Ledger.of,hw]
    unfold QueueMessage.remove
    rw [hw]
    exact ⟨rfl,es,h,by rw [Ledger.remove,hl],by simp⟩
  | some p =>
    by_cases hd : (q.payload p).deliveryMode = .durable
    · obtain ⟨d',es',hrem,hfile,hmem,hos,hlen,-,hvalid⟩ := h.settle hw hd
      obtain ⟨heap',valid',total',d'',es'',hgc,hf',ho',hp',ht',hv'⟩ :=
        QueueMessage.garbageCollection_spec (q := q.settled id p) check hfile
          (fun x hx => (hmem.durable _ x).mpr ⟨hx,rfl⟩) (h.total.trans hlen.symm) hvalid
      rw [QueueMessage.remove_durable hw hd check hrem,hgc]
      refine ⟨rfl,es'',⟨hf',?_,ht',hv'⟩,?_,?_⟩
      · rw [ho']
        exact hmem.congr rfl rfl rfl rfl (funext hp')
      · exact h.inMemory.ledger_release hw rfl rfl
          (fun x hx => (hp' x).trans (QueueMessage.settled_payload hx)) (ho'.trans hos)
      · intro x hx
        cases hx
        exact ⟨ho'.trans hos,rfl,rfl⟩
    · have hown : p ∉ owners es := fun hm => hd ((h.inMemory.held p).mp hm).2
      have hos : (owners es).filter (· ≠ p) = owners es :=
        List.filter_eq_self.mpr fun x hx => by simpa using fun e : x = p => hown (e ▸ hx)
      have hmem := h.inMemory.release hw q.heap (fun _ _ => rfl) q.durableMsgs (by
        intro i x
        refine ⟨fun hx => ⟨hx,?_⟩,fun hx => hx.1⟩
        rintro rfl
        exact hown ((h.inMemory.durable i x).mp hx).1)
      have hd' : ¬ (q.heap p).payload.deliveryMode = .durable := hd
      rw [hos] at hmem
      unfold QueueMessage.remove
      simp only [hw,hd',↓reduceIte]
      exact ⟨trivial,es,⟨h.onFile,hmem.congr rfl rfl rfl rfl rfl,h.total,h.valid⟩,
        h.inMemory.ledger_release hw rfl rfl (fun _ _ => rfl) hos.symm,
        fun x hx => by cases hx; exact ⟨hos.symm,trivial,trivial⟩⟩

end Consistent
end MessageQueue

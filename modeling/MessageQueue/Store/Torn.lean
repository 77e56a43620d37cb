import MessageQueue.Base.Cut
import MessageQueue.Store.Crash

/-! A data file whose last record is not there in full: what `load` makes of it, and what an
append that failed half way leaves to the appends after it. -/
namespace MessageQueue
open Base Bytes Wire Payload FileHelper

namespace Base.Wire

theorem text_of_readText {c : Bytes} {s : String} (h : readText c = some s) : text s = c := by
  unfold readText String.fromUTF8? at h
  split_ifs at h with hv
  cases h
  simp [text,String.fromUTF8]

end Base.Wire

namespace Payload
variable {p : Payload} {f : Field}

/-- Only the third field sets the flag. -/
theorem mergeField_valid (h : f.number ≠ 3) : (mergeField p f).1.valid = p.valid := by
  unfold mergeField
  split
  · rfl
  · split <;> rfl
  · exact absurd rfl h
  · rfl

/-- A value that is empty or ends with a zero byte is not the flag of a dead record. -/
theorem mergeField_alive (hp : p.valid ≠ "0")
    (hf : ∀ c, f.value = .bytes c → c = [] ∨ c.getLast? = some 0) :
    (mergeField p f).1.valid ≠ "0" := by
  unfold mergeField
  split
  · exact hp
  · split <;> exact hp
  · rename_i c
    split
    · rename_i s hs
      intro e
      have hc := text_of_readText hs
      rw [show s = "0" from e] at hc
      rw [← hc] at hf
      exact absurd (hf _ rfl) (by decide)
    · exact hp
  · exact hp

/-- The flag is the last field of a payload. -/
theorem fields_front {front back : List Field} {x : Field} (h : p.fields = front ++ x::back) :
    ∀ y ∈ front, y.number ≠ 3 := by
  intro y hy
  obtain ⟨as,bs,has,hbs,hno⟩ : ∃ as bs, p.fields = as ++ bs ∧ bs.length ≤ 1 ∧
      ∀ z ∈ as, z.number ≠ 3 := by
    refine ⟨_,stringField 3 p.valid,rfl,?_,?_⟩
    · unfold stringField
      split_ifs <;> simp
    · intro z hz
      simp only [stringField,List.mem_append,List.mem_map] at hz
      cases hz with
      | inl hz =>
        obtain ⟨b,-,rfl⟩ := hz
        simp
      | inr hz => split_ifs at hz <;> simp_all
  have hpre : front <+: as := by
    have hfront : front <+: p.fields := by
      rw [h]
      exact List.prefix_append _ _
    have hwhole : as <+: p.fields := by
      rw [has]
      exact List.prefix_append _ _
    refine List.prefix_of_prefix_length_le hfront hwhole ?_
    · have hl := congrArg List.length (has.symm.trans h)
      simp only [List.length_append,List.length_cons] at hl
      omega
  exact hno y (hpre.subset hy)

theorem foldl_mergeField_valid {fs : List Field} (h : ∀ f ∈ fs, f.number ≠ 3) :
    (fs.foldl (fun a f => (mergeField a f).1) p).valid = p.valid := by
  induction fs generalizing p with
  | nil => rfl
  | cons f fs ih =>
    rw [List.foldl_cons,ih fun x hx => h x (by simp [hx])]
    exact mergeField_valid (h f (by simp))

/-- Whatever the parser makes of a payload that was cut short and filled up with zeros, it is not
a dead record. -/
theorem parse_cut (p : Payload) {j : ℕ} (hj : j < p.serializeAsString.length) (k : ℕ) :
    (parseFromString (p.serializeAsString.take j ++ List.replicate k 0)).1.valid ≠ "0" := by
  unfold parseFromString readMessage
  have hfuel : j+k ≤ (p.serializeAsString.take j ++ List.replicate k 0).length := by
    simp
    omega
  obtain ⟨front,x,back,hfields,hread⟩ :=
    readFields_cut (a := {}) p.mergeField_fields p.fields_number hj hfuel
  have hfront := foldl_mergeField_valid (p := {}) (fields_front hfields)
  change (readFields mergeField _ {} ((encodeFields p.fields).take j ++ _)).1.valid ≠ "0"
  cases hread with
  | inl e =>
    rw [e,hfront]
    decide
  | inr h =>
    obtain ⟨y,hy,e⟩ := h
    rw [e]
    exact mergeField_alive (by rw [hfront]; decide) hy

/-- Only a blank payload has no bytes. -/
theorem serializeAsString_pos (h : p ≠ {}) : 0 < p.serializeAsString.length :=
  List.length_pos_iff.mpr fun hnil => h (serializeAsString_injective hnil)

theorem parse_zeros (k : ℕ) : (parseFromString (List.replicate k 0)).1 = {} :=
  readFields_zeros _ k _

end Payload
namespace MessageMapper
variable (m : MessageMapper) {d : Disk}

/-- One round of the loop on a record that is not there in full: it adds a message, and it is the
last round. -/
lemma loadLoop_torn (p : Payload) (fuel length : ℕ) (front : Bytes) (result : List Message)
    {k : ℕ} (hpos : 0 < k) (hk : k < p.record.length) (hp : p.Fits)
    (h : contents d m.nameDataFile = front ++ p.record.take k) :
    ∃ w : Payload, w.valid ≠ "0" ∧
      m.loadLoop d (fuel+1) front.length length result = result ++ [{payload := w}] := by
  have hlen : (p.record.take k).length = k := List.length_take_of_le hk.le
  have hsize : size d m.nameDataFile = front.length+k := by simp [size,h,hlen]
  have hlast : ∀ off l r, front.length+k ≤ off → m.loadLoop d fuel off l r = r := by
    intro off l r hoff
    cases fuel with
    | zero => rfl
    | succ fuel => rw [loadLoop,if_neg (by omega)]
  have hround : ∀ L, leNat (FileHelper.read d m.nameDataFile (leBytes 8 length) front.length) = L →
      front.length+k ≤ front.length+8+L →
      (parseFromString
        (FileHelper.read d m.nameDataFile (List.replicate L 0) (front.length+8))).1.valid ≠ "0" →
        ∃ w : Payload, w.valid ≠ "0" ∧
          m.loadLoop d (fuel+1) front.length length result = result ++ [{payload := w}] := by
    intro L hL hoff hw
    refine ⟨_,hw,?_⟩
    rw [loadLoop,if_pos (by omega)]
    simp only [hL,if_neg hw]
    exact hlast _ _ _ hoff
  by_cases h8 : k < 8
  · -- the length is not complete, and nothing is read into the buffer of the payload
    refine hround _ rfl (by omega) ?_
    have hdrop : (contents d m.nameDataFile).drop (front.length+8) = [] := by
      rw [List.drop_eq_nil_iff,h,List.length_append,hlen]
      omega
    simp only [FileHelper.read,hdrop,List.take_nil,List.length_nil,List.drop_zero,List.nil_append,
      parse_zeros]
    decide
  · -- the length is complete, and zeros stand for the rest of the payload
    obtain ⟨j,rfl⟩ : ∃ j, k = 8+j := ⟨k-8,by omega⟩
    rw [record_length] at hk
    have htake : p.record.take (8+j) =
        leBytes 8 p.serializeAsString.length ++ p.serializeAsString.take j := by
      rw [record,List.take_append,List.take_of_length_le (by simp)]
      simp
    rw [htake] at h
    have hL : leNat (FileHelper.read d m.nameDataFile (leBytes 8 length) front.length) =
        p.serializeAsString.length := by
      have hgot : ((front ++ (leBytes 8 p.serializeAsString.length ++
          p.serializeAsString.take j)).drop front.length).take 8 =
            leBytes 8 p.serializeAsString.length := by
        rw [List.drop_left]
        simp
      simp only [FileHelper.read,h,leBytes_length,hgot]
      rw [List.drop_of_length_le (by simp),List.append_nil]
      exact leNat_leBytes 8 _ (by simpa [Fits] using hp)
    refine hround _ hL (by omega) ?_
    have hgot : (front ++ (leBytes 8 p.serializeAsString.length ++
        p.serializeAsString.take j)).drop (front.length+8) = p.serializeAsString.take j := by
      rw [← List.append_assoc]
      exact List.drop_left' (by simp)
    simp only [FileHelper.read,h,hgot,List.length_replicate,List.take_take,List.drop_replicate]
    rw [min_eq_right (by omega)]
    exact p.parse_cut (by omega) _

/-- A file with an incomplete record at its end loads one message too many. -/
theorem load_torn (ps : List Payload) (p : Payload) {k : ℕ} (hk : k < p.record.length)
    (hpos : 0 < k) (h : contents d m.nameDataFile = journal ps ++ p.record.take k)
    (hf : ∀ q ∈ ps, q.Fits) (hp : p.Fits) : ∃ w : Payload, w.valid ≠ "0" ∧
      m.load d = (valids ps ++ [w]).map fun q => {payload := q} := by
  have hl := length_le_journal ps
  have hsize : size d m.nameDataFile = (journal ps).length+k := by
    simp only [size,h,List.length_append,List.length_take]
    omega
  obtain ⟨fuel,hfuel⟩ : ∃ fuel, size d m.nameDataFile = fuel+1+ps.length :=
    ⟨size d m.nameDataFile-1-ps.length,by omega⟩
  obtain ⟨length',e⟩ := m.loadLoop_append ps (fuel+1) 0 [] (p.record.take k) [] h hf
  obtain ⟨w,hw,e'⟩ := m.loadLoop_torn p fuel length' (journal ps)
    ((valids ps).map fun q => {payload := q}) hpos hk hp h
  refine ⟨w,hw,?_⟩
  rw [List.nil_append,List.length_nil,List.nil_append] at e
  rw [load,hfuel,e,e']
  simp

/-- The load of a file whose last record is cut off returns the valid messages before it exactly
if nothing of that record is there. -/
theorem load_torn_iff (ps : List Payload) (p : Payload) (k : ℕ) (hk : k < p.record.length)
    (h : contents d m.nameDataFile = journal ps ++ p.record.take k)
    (hf : ∀ q ∈ ps, q.Fits) (hp : p.Fits) :
    m.load d = ((valids ps).map fun q => {payload := q}) ↔ k = 0 := by
  constructor
  · intro e
    by_contra hne
    obtain ⟨w,-,e'⟩ := m.load_torn ps p hk (by omega) h hf hp
    have hlen := congrArg List.length (e.symm.trans e')
    simp at hlen
  · intro hk0
    subst hk0
    exact m.load_journal ps (by simpa using h) hf

/-- A data file of one complete record and three bytes of the length of the next. -/
def tornDisk : Disk := blankDisk.put (resolve ordersMapper.nameDataFile)
  (some (journal [orderPayload] ++ orderPayload.record.take 3))

theorem load_torn_iff_orders : ordersMapper.load tornDisk =
    ((valids [orderPayload]).map fun q => {payload := q}) ↔ 3 = 0 :=
  ordersMapper.load_torn_iff [orderPayload] orderPayload 3 (by decide)
    (contents_eq rfl Disk.put_self) (by simp [Fits]; decide) (by simp [Fits]; decide)

theorem torn_record_loaded :
    ¬ ∀ (m : MessageMapper) (d : Disk) (ps : List Payload) (p : Payload) (k : ℕ),
      k < p.record.length → contents d m.nameDataFile = journal ps ++ p.record.take k →
      (∀ q ∈ ps, q.Fits) → p.Fits → m.load d = (valids ps).map fun q => {payload := q} := by
  intro h
  have hload := h ordersMapper tornDisk [orderPayload] orderPayload 3 (by decide)
    (contents_eq rfl Disk.put_self) (by simp [Fits]; decide) (by simp [Fits]; decide)
  exact absurd (congrArg List.length hload) (by decide +kernel)

end MessageMapper

/-- How many bytes the first write of an append brings, or the second one. -/
def Payload.part (p : Payload) (second : Bool) : ℕ :=
  if second then p.serializeAsString.length else 8

namespace MessageMapper
variable (m : MessageMapper) {d : Disk}

/-- The bytes of the record that an append which failed in one of its writes leaves on file. -/
def leftBytes (second : Bool) (written : Option ℕ) : ℕ :=
  (if second then 8 else 0)+written.getD 0

/-- An append that returns false leaves a beginning of its record at the end of the file. -/
theorem insert_noticed {name : String} {f : Bytes} (msg : Message) (second : Bool)
    (written : Option ℕ) (h : d.files (resolve name) = some f)
    (ha : (Outcome.fails written).answers d.direct (msg.payload.part second) = false) :
    insert (d.after second.toNat [.fails written]) name msg = (false,msg,
      d.reboot.put (resolve name)
        (some (f ++ msg.payload.record.take (leftBytes second written)))) := by
  have hs : size (d.after second.toNat [.fails written]) name = f.length :=
    size_at (Disk.after_reaches _ _) h
  cases second with
  | false =>
    change (Outcome.fails written).answers d.direct 8 = false at ha
    have ht : msg.payload.record.take (written.getD 0) =
        (Outcome.fails written).written (leBytes 8 msg.payload.serializeAsString.length) := by
      cases written with
      | none => simp [Outcome.written]
      | some j =>
        have hj : j < 8 := Outcome.lt_of_noticed ha (by decide)
        rw [record,Option.getD_some,List.take_append_of_le_length (by simp; omega)]
        rfl
    rw [insert,hs]
    simp only [Bool.toNat_false]
    rw [write_outcome (Disk.next_fails written) h,splice_end,leBytes_length,Disk.after_direct,ha]
    simp [leftBytes,ht]
  | true =>
    change (Outcome.fails written).answers d.direct msg.payload.serializeAsString.length =
      false at ha
    have ht : msg.payload.record.take (8+written.getD 0) =
        leBytes 8 msg.payload.serializeAsString.length ++
          (Outcome.fails written).written msg.payload.serializeAsString := by
      rw [record,List.take_append,List.take_of_length_le (by simp)]
      cases written <;> simp [Outcome.written]
    have h8 : f.length+8 = (f ++ leBytes 8 msg.payload.serializeAsString.length).length := by simp
    rw [insert,hs,Bool.toNat_true,write_next (Disk.next_after 0 [.fails written]) h,splice_end]
    simp only [Disk.after_put]
    rw [h8,write_outcome (f := f ++ leBytes 8 msg.payload.serializeAsString.length)
      (Disk.next_fails written) (by simp),splice_end,Disk.after_direct,Disk.put_direct,ha]
    simp [leftBytes,ht]

/-- A failure that the stream does not notice is none to the append. -/
theorem insert_answers {name : String} {f : Bytes} (msg : Message) (second : Bool)
    (written : Option ℕ) (h : d.files (resolve name) = some f) :
    (insert (d.after second.toNat [.fails written]) name msg).1 =
      (Outcome.fails written).answers d.direct (msg.payload.part second) := by
  cases ha : (Outcome.fails written).answers d.direct (msg.payload.part second) with
  | false => rw [insert_noticed msg second written h ha]
  | true =>
    cases second with
    | false =>
      change (Outcome.fails written).answers d.direct 8 = true at ha
      rw [insert,Bool.toNat_false,write_outcome (Disk.next_fails written) h,leBytes_length,
        Disk.after_direct,ha]
      simp only
      rw [write_done rfl Disk.put_self]
    | true =>
      change (Outcome.fails written).answers d.direct msg.payload.serializeAsString.length =
        true at ha
      rw [insert,Bool.toNat_true,write_next (Disk.next_after 0 [.fails written]) h]
      simp only [Disk.after_put]
      rw [write_outcome (f := splice f _ _) (Disk.next_fails written)
        (by rw [Disk.after_files]; exact Disk.put_self),Disk.after_direct,Disk.put_direct,ha]

/-- One append after the other. -/
def appendAll (d : Disk) (msgs : List Message) : Disk :=
  msgs.foldl (fun d msg => (m.insertDataFile d msg).2.2) d

theorem appendAll_done (msgs : List Message) (f : Bytes) (hp : d.plan = ∅)
    (h : d.files (resolve m.nameDataFile) = some f) :
    (m.appendAll d msgs).plan = ∅ ∧ (m.appendAll d msgs).files (resolve m.nameDataFile) =
      some (f ++ journal (msgs.map Message.payload)) := by
  induction msgs generalizing d f with
  | nil => exact ⟨hp,by simpa [appendAll] using h⟩
  | cons msg msgs ih =>
    have hone : m.insertDataFile d msg = _ := insert_done msg hp h
    have := ih (d := (m.insertDataFile d msg).2.2) (f ++ msg.payload.record)
      (by rw [hone]; exact hp) (by rw [hone]; exact Disk.put_self)
    simpa [appendAll] using this

/-- The load of complete records and of what is appended to them. -/
theorem load_appendAll (ps : List Payload) (msgs : List Message) (hp : d.plan = ∅)
    (h : d.files (resolve m.nameDataFile) = some (journal ps)) (hf : ∀ p ∈ ps, p.Fits)
    (hmsgs : ∀ x ∈ msgs, x.payload.Fits) : m.load (m.appendAll d msgs) =
      (valids ps ++ valids (msgs.map Message.payload)).map fun p => {payload := p} := by
  obtain ⟨hplan,hall⟩ := m.appendAll_done msgs _ hp h
  rw [← journal_append] at hall
  rw [valids,valids,← List.filter_append]
  refine m.load_journal _ (contents_eq hplan hall) fun p hp => ?_
  cases List.mem_append.mp hp with
  | inl hp => exact hf p hp
  | inr hp =>
    obtain ⟨x,hx,rfl⟩ := List.mem_map.mp hp
    exact hmsgs x hx

/-- A file that ends in a beginning of one more record loads right, whatever is appended to it,
exactly if that is nothing, or all of a dead record. -/
theorem load_left_iff (ps : List Payload) (p : Payload) (k : ℕ) (hp : d.plan = ∅)
    (h : d.files (resolve m.nameDataFile) = some (journal ps ++ p.record.take k))
    (hf : ∀ q ∈ ps, q.Fits) (hfp : p.Fits) :
    (∀ msgs : List Message, (∀ x ∈ msgs, x.payload.Fits) → m.load (m.appendAll d msgs) =
      (valids ps ++ valids (msgs.map Message.payload)).map fun p => {payload := p}) ↔
    k = 0 ∨ (p.record.length ≤ k ∧ p.valid = "0") := by
  by_cases hk : k < p.record.length
  · rw [or_iff_left fun hall => by omega]
    constructor
    · intro hall
      exact (m.load_torn_iff ps p k hk (contents_eq hp h) hf hfp).mp
        (by simpa [valids,appendAll] using hall [] (by simp))
    · intro hzero msgs hmsgs
      subst hzero
      exact m.load_appendAll ps msgs hp (by simpa using h) hf hmsgs
  · -- the record is complete, and is loaded unless it is dead
    have hpos : 0 < p.record.length := by simp
    rw [List.take_of_length_le (by omega)] at h
    have hload := fun msgs => m.load_appendAll (ps ++ [p]) msgs hp (by simpa using h)
      (by simpa [or_imp,forall_and,hfp] using hf)
    rw [or_iff_right (by omega),and_iff_right (by omega)]
    constructor
    · intro hall
      by_contra hv
      have hlen := congrArg List.length ((hall [] (by simp)).symm.trans (hload [] (by simp)))
      simp [valids,hv] at hlen
    · intro hdead msgs hmsgs
      rw [hload msgs hmsgs]
      simp [valids,hdead]

/-- After an append that returned false the file loads right, whatever is appended to it, exactly if
nothing of the record reached it. An append whose failing write the stream did not notice has
returned true: a body of `direct` bytes or more is noticed, unless all of it is there. -/
theorem insert_failed_iff (ps : List Payload) (msg : Message) (second : Bool)
    (written : Option ℕ) (h : d.files (resolve m.nameDataFile) = some (journal ps))
    (hf : ∀ p ∈ ps, p.Fits) (hmsg : msg.payload.Fits) :
    ((m.insertDataFile (d.after second.toNat [.fails written]) msg).1 = false →
      ∀ msgs : List Message, (∀ x ∈ msgs, x.payload.Fits) →
        m.load (m.appendAll
          (m.insertDataFile (d.after second.toNat [.fails written]) msg).2.2 msgs) =
          (valids ps ++ valids (msgs.map Message.payload)).map fun p => {payload := p}) ↔
    (∃ n ∈ written, msg.payload.part second < d.direct ∨ msg.payload.part second ≤ n) ∨
      (second = false ∧ written.getD 0 = 0) := by
  have hone : (m.insertDataFile (d.after second.toNat [.fails written]) msg).1 =
      (Outcome.fails written).answers d.direct (msg.payload.part second) :=
    insert_answers msg second written h
  have hnotice : (∃ n ∈ written, msg.payload.part second < d.direct ∨
      msg.payload.part second ≤ n) ↔
        (Outcome.fails written).answers d.direct (msg.payload.part second) = true := by
    cases written <;> simp [Outcome.answers]
  rw [hone,hnotice]
  cases ha : (Outcome.fails written).answers d.direct (msg.payload.part second) with
  | true => simp
  | false =>
    have hins : m.insertDataFile (d.after second.toNat [.fails written]) msg = _ :=
      insert_noticed msg second written h ha
    rw [hins,or_iff_right (by simp),imp_iff_right rfl]
    refine (m.load_left_iff ps msg.payload (leftBytes second written) rfl Disk.put_self hf
      hmsg).trans ?_
    have hdead : msg.payload.valid = "0" → 0 < msg.payload.serializeAsString.length := by
      intro hv
      refine serializeAsString_pos fun hblank => ?_
      rw [hblank] at hv
      exact absurd hv (by decide)
    simp only [leftBytes,record_length]
    cases second with
    | false =>
      -- a whole record is more than the eight bytes that this write brings
      have hgot : written.getD 0 < 8 := Outcome.lt_of_noticed ha (by decide)
      simp only [Bool.false_eq_true,↓reduceIte,true_and]
      omega
    | true =>
      have hgot : msg.payload.valid = "0" →
          written.getD 0 < msg.payload.serializeAsString.length :=
        fun hv => Outcome.lt_of_noticed ha (hdead hv)
      simp only [Bool.true_eq_false,↓reduceIte,false_and,iff_false,not_or,not_and]
      exact ⟨by omega,fun hall hv => by have := hgot hv; omega⟩

theorem insert_failed_iff_orders :
    ((ordersMapper.insertDataFile (orderDisk.after true.toNat [.fails none])
        {payload := orderPayload}).1 = false →
      ∀ msgs : List Message, (∀ x ∈ msgs, x.payload.Fits) →
        ordersMapper.load (ordersMapper.appendAll (ordersMapper.insertDataFile
          (orderDisk.after true.toNat [.fails none]) {payload := orderPayload}).2.2 msgs) =
          (valids [orderPayload] ++ valids (msgs.map Message.payload)).map
            fun p => {payload := p}) ↔
    (∃ n ∈ (none : Option ℕ), orderPayload.part true < orderDisk.direct ∨
        orderPayload.part true ≤ n) ∨
      (true = false ∧ (none : Option ℕ).getD 0 = 0) :=
  ordersMapper.insert_failed_iff [orderPayload] {payload := orderPayload} true none Disk.put_self
    (by simp [Fits]; decide) (by simp [Fits]; decide)

/-- The payload cannot be written, and its length stays on file. -/
theorem failed_append_loaded :
    ¬ ∀ (m : MessageMapper) (d : Disk) (ps : List Payload) (msg : Message) (second : Bool)
      (written : Option ℕ), d.files (resolve m.nameDataFile) = some (journal ps) →
      (∀ p ∈ ps, p.Fits) → msg.payload.Fits →
      (m.insertDataFile (d.after second.toNat [.fails written]) msg).1 = false →
      ∀ msgs : List Message, (∀ x ∈ msgs, x.payload.Fits) →
      m.load (m.appendAll
        (m.insertDataFile (d.after second.toNat [.fails written]) msg).2.2 msgs) =
        (valids ps ++ valids (msgs.map Message.payload)).map fun p => {payload := p} := by
  intro h
  have hload := h ordersMapper orderDisk [orderPayload] {payload := orderPayload} true none
    Disk.put_self (by simp [Fits]; decide) (by simp [Fits]; decide) (by decide +kernel) [] (by simp)
  exact absurd (congrArg List.length hload) (by decide +kernel)

end MessageMapper
end MessageQueue

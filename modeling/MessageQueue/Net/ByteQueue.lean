import MessageQueue.Net.Buffer

/-! Runs of the operations of a buffer. A buffer does what a queue of bytes does; a few bytes may be
put back in front, and the vector stays within twice what was in it and asked for. -/
namespace MessageQueue.Net
open Base Bytes

inductive BufferOp
  | append (data : Bytes)
  | ensureWritableBytes (len : ℕ)
  | retrieve (len : ℕ)
  | retrieveAll
  | unwrite (len : ℕ)
  | prepend (data : Bytes)
  | shrink (reserve : ℕ)

namespace BufferOp

/-- The operation on a queue of bytes. -/
def onQueue (content : Bytes) : BufferOp → Option Bytes
  | append data => some (content ++ data)
  | ensureWritableBytes _ => some content
  | retrieve len => if len ≤ content.length then some (content.drop len) else none
  | retrieveAll => some []
  | unwrite len => if len ≤ content.length then some (content.take (content.length-len)) else none
  | prepend data => some (data ++ content)
  | shrink _ => some content

/-- How many bytes the operation puts in front. -/
def inFront : BufferOp → ℕ
  | prepend data => data.length
  | _ => 0

/-- How many bytes the operation wants room for. -/
def asked : BufferOp → ℕ
  | append data => data.length
  | ensureWritableBytes len => len
  | shrink reserve => reserve
  | _ => 0

/-- The length of the vector that the operation begins with; `shrink` begins with a new one. -/
def vector (length : ℕ) : BufferOp → ℕ
  | shrink _ => kCheapPrepend+kInitialSize
  | _ => length

/-- The queue and the room that is asked for are less than an `int` can count together. -/
def Fits (content : Bytes) (op : BufferOp) : Prop := content.length+op.asked < 2^31

instance (content : Bytes) (op : BufferOp) : Decidable (op.Fits content) :=
  inferInstanceAs (Decidable (_ < _))

/-- The queue of bytes, and the sizes of a buffer. -/
def queue : Lts Bytes BufferOp := (Lts.ofPartial onQueue).guarded Fits

end BufferOp

namespace Buffer
variable {b b' : Buffer} {data : Bytes} {len : ℕ}

def apply (b : Buffer) : BufferOp → Option Buffer
  | .append data => b.append? data
  | .ensureWritableBytes len => b.ensureWritableBytes? len
  | .retrieve len => b.retrieve len
  | .retrieveAll => some b.retrieveAll
  | .unwrite len => b.unwrite len
  | .prepend data => b.prepend data
  | .shrink reserve => b.shrink reserve

def system : Lts Buffer BufferOp := .ofPartial apply

/-- What the operations do whose sizes fit. -/
theorem apply_fits {op : BufferOp} (hf : op.Fits b.peek) :
    b.apply op = match op with
      | .append data => some (b.append data)
      | .ensureWritableBytes len => some (b.ensureWritableBytes len)
      | .shrink reserve =>
        some (((new kInitialSize).ensureWritableBytes (b.readableBytes+reserve)).append b.peek)
      | op => b.apply op := by
  unfold BufferOp.Fits at hf
  rw [length_peek] at hf
  cases op with
  | append data =>
    simp only [BufferOp.asked] at hf
    refine append?_eq ?_
    unfold maxSize kCheapPrepend
    omega
  | ensureWritableBytes len =>
    simp only [BufferOp.asked] at hf
    refine ensureWritableBytes?_eq ?_
    unfold maxSize kCheapPrepend
    omega
  | shrink reserve => exact shrink_eq hf
  | _ => rfl

/-- One step of the refinement. -/
theorem apply_onQueue {op : BufferOp} (hf : op.Fits b.peek) (h : b.apply op = some b') :
    op.onQueue b.peek = some b'.peek := by
  rw [apply_fits hf] at h
  cases op with
  | append data => cases h; simp [BufferOp.onQueue]
  | ensureWritableBytes len => cases h; simp [BufferOp.onQueue]
  | retrieve len =>
    have hle := retrieve_le h
    obtain ⟨c,hc,hpeek,-⟩ := retrieve_spec hle
    cases hc.symm.trans h
    rw [BufferOp.onQueue,if_pos (by simpa using hle),hpeek]
  | retrieveAll => cases h; simp [BufferOp.onQueue]
  | unwrite len =>
    have hle := unwrite_le h
    obtain ⟨c,hc,hpeek,-⟩ := unwrite_spec hle
    cases hc.symm.trans h
    rw [BufferOp.onQueue,if_pos (by simpa using hle),hpeek,length_peek]
  | prepend data =>
    obtain ⟨c,hc,hpeek,-⟩ := prepend_spec (prepend_le_prependable h)
    cases hc.symm.trans h
    rw [BufferOp.onQueue,hpeek]
  | shrink reserve => cases h; simp [BufferOp.onQueue]

theorem prependable_makeSpace (h : b.writableBytes < len) :
    min kCheapPrepend b.prependableBytes ≤ (b.makeSpace len h).prependableBytes := by
  unfold makeSpace
  split
  · exact min_le_right _ _
  · exact min_le_left _ _

theorem prependable_ensureWritableBytes :
    min kCheapPrepend b.prependableBytes ≤ (b.ensureWritableBytes len).prependableBytes := by
  unfold ensureWritableBytes
  split
  · exact prependable_makeSpace _
  · exact min_le_right _ _

theorem prependable_append :
    min kCheapPrepend b.prependableBytes ≤ (b.append data).prependableBytes :=
  prependable_ensureWritableBytes

/-- Of the room in front only `prepend` takes some. -/
theorem apply_room {op : BufferOp} {k : ℕ} (hk : k ≤ kCheapPrepend)
    (hroom : k+op.inFront ≤ min kCheapPrepend b.prependableBytes) (hf : op.Fits b.peek)
    {content : Bytes} (h : op.onQueue b.peek = some content) :
    ∃ b', b.apply op = some b' ∧ k ≤ min kCheapPrepend b'.prependableBytes := by
  rw [apply_fits hf]
  cases op with
  | append data =>
    exact ⟨_,rfl,le_min hk (hroom.trans prependable_append)⟩
  | ensureWritableBytes len =>
    exact ⟨_,rfl,le_min hk (hroom.trans prependable_ensureWritableBytes)⟩
  | retrieve len =>
    simp only [BufferOp.onQueue,length_peek] at h
    split_ifs at h with hle
    obtain ⟨b',hb',-,-,hp⟩ := retrieve_spec hle
    exact ⟨b',hb',le_min hk (hroom.trans hp)⟩
  | retrieveAll => exact ⟨_,rfl,le_min hk hk⟩
  | unwrite len =>
    simp only [BufferOp.onQueue,length_peek] at h
    split_ifs at h with hle
    obtain ⟨b',hb',-,-,hp⟩ := unwrite_spec hle
    exact ⟨b',hb',hp ▸ hroom⟩
  | prepend data =>
    simp only [BufferOp.inFront] at hroom
    have hlen : data.length ≤ b.prependableBytes := by omega
    obtain ⟨b',hb',-,-,hp⟩ := prepend_spec hlen
    exact ⟨b',hb',by rw [hp]; omega⟩
  | shrink reserve =>
    have hnew : kCheapPrepend ≤ min kCheapPrepend (new kInitialSize).prependableBytes := le_rfl
    have hens : kCheapPrepend ≤ min kCheapPrepend
        ((new kInitialSize).ensureWritableBytes (b.readableBytes+reserve)).prependableBytes :=
      le_min le_rfl (hnew.trans prependable_ensureWritableBytes)
    exact ⟨_,rfl,le_min hk ((hk.trans hens).trans prependable_append)⟩

/-- A buffer is a queue of bytes: its operations, as long as their sizes fit, make of the readable
bytes what the operations of the queue make of them. And they never fail where the queue's do not, as
long as no more than `kCheapPrepend` bytes are put in front. -/
theorem queue_of_bytes (n : ℕ) (ops : List BufferOp) :
    (∀ b, (system.guarded fun b op => op.Fits b.peek).Run (new n) ops b →
      BufferOp.queue.Run [] ops b.peek) ∧
    ((ops.map BufferOp.inFront).sum ≤ kCheapPrepend →
      ∀ content, BufferOp.queue.Run [] ops content →
        ∃ b, (system.guarded fun b op => op.Fits b.peek).Run (new n) ops b ∧ b.peek = content) := by
  refine ⟨fun b run => ?_,fun hsum => ?_⟩
  · rw [← peek_new n]
    induction run with
    | nil => exact .nil _
    | snoc _ last ih => exact ih.snoc ⟨last.1,apply_onQueue last.1 last.2⟩
  -- the run of the queue from its end: what is left to put in front is still there
  have hrun : ∀ content, BufferOp.queue.Run [] ops content → ∀ k,
      k+(ops.map BufferOp.inFront).sum ≤ kCheapPrepend →
        ∃ b, (system.guarded fun b op => op.Fits b.peek).Run (new n) ops b ∧ b.peek = content ∧
          k ≤ min kCheapPrepend b.prependableBytes := by
    clear hsum
    intro content run
    induction run with
    | nil => exact fun k hk => ⟨new n,.nil _,peek_new n,le_min hk hk⟩
    | @snoc c c' ops op _ last ih =>
      intro k hk
      rw [List.map_append,List.sum_append,List.map_singleton,List.sum_singleton] at hk
      obtain ⟨b,hb,hpeek,hroom⟩ := ih (k+op.inFront) (by omega)
      subst hpeek
      obtain ⟨b',hb',hk'⟩ := apply_room (by omega) hroom last.1 last.2
      have hc : some b'.peek = some c' := (apply_onQueue last.1 hb').symm.trans last.2
      exact ⟨b',hb.snoc ⟨last.1,hb'⟩,Option.some.inj hc,hk'⟩
  intro content run
  obtain ⟨b,hb,hpeek,-⟩ := hrun content run 0 (by omega)
  exact ⟨b,hb,hpeek⟩

/-- A body, and its length put in front of it. -/
theorem queue_of_bytes_framed : ∃ b, system.Run (new 16) [.append [7,8],.prepend [0,0,0,2]] b ∧
    b.peek = [0,0,0,2,7,8] := by
  have queued : BufferOp.queue.Run [] [.append [7,8],.prepend [0,0,0,2]] [0,0,0,2,7,8] :=
    .of_foldlM_guarded (by decide)
  obtain ⟨b,run,hpeek⟩ := (queue_of_bytes 16 _).2 (by decide) _ queued
  exact ⟨b,run.unguard,hpeek⟩

/-! ### The vector -/

theorem length_ensureWritableBytes? (h : b.ensureWritableBytes? len = some b') :
    b'.buffer.length ≤ max b.buffer.length (2*(b.readableBytes+len)+kCheapPrepend) := by
  have hr := b.reader_le
  have hw := b.writer_le
  have hp := b.prepend_le
  unfold ensureWritableBytes? at h
  split at h
  · unfold makeSpace? at h
    split at h
    · next hs =>
      have hle := hs.trans_le (Nat.mod_le _ _)
      unfold writableBytes prependableBytes at hle
      split at h
      · cases Option.eq_some_of_filter_eq_some h
        simp only [grow,readableBytes,List.length_append,List.length_replicate]
        omega
      · cases h
    · split at h
      · next hlt =>
        cases Option.eq_some_of_filter_eq_some h
        have hroom := b.room_of_lt hlt
        unfold readableBytes at hroom
        simp only [moved,peek,readableBytes,List.length_append,List.length_take,
          List.length_drop]
        omega
      · cases h
  · cases h
    exact le_max_left _ _

theorem length_write (h : data.length ≤ b.writableBytes) :
    (b.write data h).buffer.length = b.buffer.length := by
  have hw := b.writer_le
  unfold writableBytes at h
  simp only [write,List.length_append,List.length_take,List.length_drop]
  omega

theorem length_append? (h : b.append? data = some b') : b'.buffer.length ≤
    max b.buffer.length (2*(b.readableBytes+data.length)+kCheapPrepend) := by
  obtain ⟨c,hc,h⟩ := Option.bind_eq_some_iff.mp h
  split at h
  · cases h
    rw [length_write]
    exact length_ensureWritableBytes? hc
  · cases h

/-- What one operation can make of the vector. -/
theorem apply_length {op : BufferOp} (h : b.apply op = some b') : b'.buffer.length ≤
    max (op.vector b.buffer.length) (2*(b.readableBytes+op.asked)+kCheapPrepend) := by
  cases op with
  | append data => exact length_append? h
  | ensureWritableBytes len => exact length_ensureWritableBytes? h
  | retrieve len =>
    obtain ⟨c,hc,-,hbuf,-⟩ := retrieve_spec (retrieve_le h)
    cases hc.symm.trans h
    exact le_max_of_le_left (by rw [hbuf]; exact le_rfl)
  | retrieveAll => cases h; exact le_max_left _ _
  | unwrite len =>
    obtain ⟨c,hc,-,hbuf,-⟩ := unwrite_spec (unwrite_le h)
    cases hc.symm.trans h
    exact le_max_of_le_left (by rw [hbuf]; exact le_rfl)
  | prepend data =>
    obtain ⟨c,hc,-,hlen,-⟩ := prepend_spec (prepend_le_prependable h)
    cases hc.symm.trans h
    exact le_max_of_le_left hlen.le
  | shrink reserve =>
    simp only [apply,shrink] at h
    obtain ⟨other,hens,h⟩ := Option.bind_eq_some_iff.mp h
    obtain ⟨str,hstr,happ⟩ := Option.bind_eq_some_iff.mp h
    have hnew : (new kInitialSize).buffer.length = kCheapPrepend+kInitialSize := by simp [new]
    have hread : (new kInitialSize).readableBytes = 0 := Nat.sub_self _
    have hempty : other.readableBytes = 0 := by
      rw [← length_peek,peek_ensureWritableBytes? hens,peek_new,List.length_nil]
    have hlen : str.length ≤ b.readableBytes := by
      unfold toStringPiece at hstr
      split_ifs at hstr
      cases hstr
      rw [List.length_take,length_peek]
      exact min_le_right _ _
    have hsum : (b.readableBytes+reserve)%2^64 ≤ b.readableBytes+reserve := Nat.mod_le _ _
    have hfirst := length_ensureWritableBytes? hens
    have hsecond := length_append? happ
    rw [hnew,hread] at hfirst
    rw [hempty] at hsecond
    simp only [BufferOp.vector,BufferOp.asked]
    generalize (b.readableBytes+reserve)%2^64 = size at hsum hfirst
    omega

/-- What is readable and what is asked for are `most` bytes together at most. -/
def Within (most : ℕ) (b : Buffer) (op : BufferOp) : Prop := b.readableBytes+op.asked ≤ most

instance (most : ℕ) (b : Buffer) (op : BufferOp) : Decidable (Within most b op) :=
  inferInstanceAs (Decidable (_ ≤ _))

/-- The vector stays within its first size, that of the new buffer which `shrink` begins with, and
twice the most that was ever readable and asked for at once. -/
theorem storage_bounded {n most : ℕ} {ops : List BufferOp}
    (run : (system.guarded (Within most)).Run (new n) ops b) :
    b.buffer.length ≤ max (kCheapPrepend+max n kInitialSize) (2*most+kCheapPrepend) ∧
      ((∀ reserve, .shrink reserve ∉ ops) →
        b.buffer.length ≤ max (kCheapPrepend+n) (2*most+kCheapPrepend)) := by
  have hnew : (new n).buffer.length = kCheapPrepend+n := by simp [new]
  constructor
  · refine run.invariant (P := fun b => b.buffer.length ≤
      max (kCheapPrepend+max n kInitialSize) (2*most+kCheapPrepend)) (by omega)
        fun {b op b'} hb step => ?_
    have hmost : b.readableBytes+op.asked ≤ most := step.1
    have hlen := apply_length step.2
    cases op <;> simp only [BufferOp.vector] at hlen <;> omega
  · intro hshrink
    refine run.invariant_mem (P := fun b => b.buffer.length ≤
      max (kCheapPrepend+n) (2*most+kCheapPrepend)) (by omega) fun {b op b'} hop hb step => ?_
    have hmost : b.readableBytes+op.asked ≤ most := step.1
    have hlen := apply_length step.2
    cases op with
    | shrink reserve => exact absurd hop (hshrink reserve)
    | _ => simp only [BufferOp.vector] at hlen; omega

/-- Three bytes come and go, and two more come. -/
theorem storage_bounded_reused :
    ∃ b, system.Run (new 16) [.append [1,2,3],.retrieve 3,.append [4,5]] b ∧
      b.buffer.length ≤ max (kCheapPrepend+16) (2*3+kCheapPrepend) := by
  obtain ⟨b,hb⟩ : ∃ b, [BufferOp.append [1,2,3],.retrieve 3,.append [4,5]].foldlM
      (fun b op => if Within 3 b op then apply b op else none) (new 16) = some b :=
    Option.isSome_iff_exists.mp (by decide)
  have run := Lts.Run.of_foldlM_guarded hb
  exact ⟨b,run.unguard,(storage_bounded run).2 (by simp)⟩

/-! ### Integers -/

/-- An integer of a width in bytes. -/
abbrev Word := Σ w : ℕ, BitVec (8*w)

inductive IntOp
  | append (x : Word)
  | read (w : ℕ)

/-- The operation, and the integer that it reads. -/
def onInts (b : Buffer) : IntOp → Option (Buffer × List Word)
  | .append x => some (b.appendInt x.1 x.2,[])
  | .read w => (b.readInt w).map fun r => (r.2,[⟨w,r.1⟩])

/-- The same on a queue of integers, which are read in the width in which they were written. -/
def onWords : List Word → IntOp → Option (List Word × List Word)
  | xs,.append x => some (xs ++ [x],[])
  | [],.read _ => none
  | x::xs,.read w => if x.1 = w then some (xs,[x]) else none

/-- One operation after the other, with all that they read. -/
def perform {σ : Type} (step : σ → IntOp → Option (σ × List Word)) :
    σ → List IntOp → Option (σ × List Word)
  | s,[] => some (s,[])
  | s,op::ops => (step s op).bind fun r =>
      (perform step r.1 ops).map fun t => (t.1,r.2 ++ t.2)

def Word.bytes (x : Word) : Bytes := beBytes x.1 x.2.toNat

theorem Word.toNat_lt (x : Word) : x.2.toNat < 256^x.1 := by
  have h := x.2.isLt
  rwa [Nat.pow_mul] at h

theorem onInts_words {xs ys zs : List Word} {op : IntOp} (hb : b.peek = xs.flatMap Word.bytes)
    (h : onWords xs op = some (ys,zs)) :
    ∃ b', b.onInts op = some (b',zs) ∧ b'.peek = ys.flatMap Word.bytes := by
  cases op with
  | append x =>
    cases h
    refine ⟨_,rfl,?_⟩
    rw [appendInt,peek_append,hb,List.flatMap_append,List.flatMap_singleton]
    rfl
  | read w =>
    cases xs with
    | nil => cases h
    | cons x xs =>
      simp only [onWords] at h
      split_ifs at h with hw
      cases h
      subst hw
      have hlen : x.bytes.length = x.1 := beBytes_length _ _
      rw [List.flatMap_cons] at hb
      have hle : x.1 ≤ b.readableBytes := by
        rw [← length_peek,hb,List.length_append,hlen]
        exact Nat.le_add_right _ _
      obtain ⟨b',hb',hpeek,-⟩ := retrieve_spec hle
      have htake : b.peek.take x.1 = x.bytes := by rw [hb,← hlen,List.take_left]
      have hx : BitVec.ofNat (8*x.1) (beNat x.bytes) = x.2 := by
        rw [Word.bytes,beNat_beBytes _ _ x.toNat_lt,BitVec.ofNat_toNat,BitVec.setWidth_eq]
      refine ⟨b',?_,?_⟩
      · simp only [onInts,readInt,peekInt,if_pos hle,htake,hx,hb',Option.bind_some,
          Option.map_some]
      · rw [hpeek,hb,← hlen,List.drop_left]

/-- Integers of any widths come out of a buffer as they went in, in their order, whatever the order
of writing and reading. -/
theorem ints_in_order (n : ℕ) {ops : List IntOp} {xs ys : List Word}
    (h : perform onWords [] ops = some (xs,ys)) :
    ∃ b, perform onInts (new n) ops = some (b,ys) ∧ b.peek = xs.flatMap Word.bytes := by
  have hrun : ∀ (ops : List IntOp) (b : Buffer) (ws xs ys : List Word),
      b.peek = ws.flatMap Word.bytes → perform onWords ws ops = some (xs,ys) →
      ∃ b', perform onInts b ops = some (b',ys) ∧ b'.peek = xs.flatMap Word.bytes := by
    intro ops
    induction ops with
    | nil => rintro b ws xs ys hb h; cases h; exact ⟨b,rfl,hb⟩
    | cons op ops ih =>
      intro b ws xs ys hb h
      obtain ⟨⟨vs,zs⟩,hop,hrest⟩ := Option.bind_eq_some_iff.mp h
      obtain ⟨⟨us,ts⟩,hus,heq⟩ := Option.map_eq_some_iff.mp hrest
      cases heq
      obtain ⟨b₁,hb₁,hpeek⟩ := onInts_words hb hop
      obtain ⟨b',hb',hpeek'⟩ := ih b₁ vs us ts hpeek hus
      refine ⟨b',?_,hpeek'⟩
      simp only [perform,hb₁,Option.bind_some,hb',Option.map_some]
  exact hrun ops (new n) [] xs ys (by rw [peek_new]; rfl) h

/-- A word of four bytes and one of two, the first of which is read in between. -/
theorem ints_in_order_two : ∃ b, perform onInts (new 16)
    [.append ⟨4,-5⟩,.append ⟨2,7⟩,.read 4] = some (b,[⟨4,-5⟩]) ∧
      b.peek = [(⟨2,7⟩ : Word)].flatMap Word.bytes :=
  ints_in_order 16 (by decide)

end Buffer
end MessageQueue.Net

import MessageQueue.Base.Run
import MessageQueue.Base.Bytes

/-! `muduo::net::Buffer`: the bytes that can be read lie between two indices into a vector, with
room in front of them and behind. An assertion that fails is `none`. The buffer is a queue of bytes
into which a few can be put back in front, and it never grows far beyond what was in it. -/
namespace MessageQueue.Net
open Base Bytes

def kCheapPrepend : ℕ := 8
def kInitialSize : ℕ := 1024

structure Buffer where
  buffer : Bytes
  readerIndex : ℕ
  writerIndex : ℕ
  reader_le : readerIndex ≤ writerIndex
  writer_le : writerIndex ≤ buffer.length
  prepend_le : kCheapPrepend ≤ buffer.length

namespace Buffer

def new (initialSize : ℕ) : Buffer where
  buffer := List.replicate (kCheapPrepend+initialSize) 0
  readerIndex := kCheapPrepend
  writerIndex := kCheapPrepend
  reader_le := le_rfl
  writer_le := by simp
  prepend_le := by simp

variable (b : Buffer)

def readableBytes : ℕ := b.writerIndex-b.readerIndex
def writableBytes : ℕ := b.buffer.length-b.writerIndex
def prependableBytes : ℕ := b.readerIndex

/-- The readable bytes, from `peek()` on. -/
def peek : Bytes := (b.buffer.take b.writerIndex).drop b.readerIndex

def retrieveAll : Buffer :=
  {b with
    readerIndex := kCheapPrepend
    writerIndex := kCheapPrepend
    reader_le := le_rfl
    writer_le := b.prepend_le}

def retrieve (len : ℕ) : Option Buffer :=
  if len ≤ b.readableBytes then
    if h : len < b.readableBytes then
      some {b with
        readerIndex := b.readerIndex+len
        reader_le := by unfold readableBytes at h; omega}
    else some b.retrieveAll
  else none

/-- `buffer_.resize(writerIndex_+len)`, where that is more than there is. -/
def grow (len : ℕ) : Buffer :=
  {b with
    buffer := b.buffer ++ List.replicate (b.writerIndex+len-b.buffer.length) 0
    writer_le := b.writer_le.trans (by simp)
    prepend_le := b.prepend_le.trans (by simp)}

/-- The readable bytes move to the front. -/
def moved (h : kCheapPrepend+b.readableBytes ≤ b.buffer.length) : Buffer :=
  have hr := b.reader_le
  have hw := b.writer_le
  have hlen : (b.buffer.take kCheapPrepend ++ b.peek ++
      b.buffer.drop (kCheapPrepend+b.readableBytes)).length = b.buffer.length := by
    simp only [peek,List.length_append,List.length_take,List.length_drop]
    unfold readableBytes at h ⊢
    omega
  {buffer := b.buffer.take kCheapPrepend ++ b.peek ++
      b.buffer.drop (kCheapPrepend+b.readableBytes)
   readerIndex := kCheapPrepend
   writerIndex := kCheapPrepend+b.readableBytes
   reader_le := Nat.le_add_right _ _
   writer_le := hlen ▸ h
   prepend_le := hlen ▸ b.prepend_le}

theorem room_of_lt (h : kCheapPrepend < b.readerIndex) :
    kCheapPrepend+b.readableBytes ≤ b.buffer.length := by
  have hr := b.reader_le
  have hw := b.writer_le
  unfold readableBytes
  omega

/-- The assertion of `makeSpace` before the readable bytes are moved. -/
theorem lt_readerIndex {len : ℕ} (h : b.writableBytes < len)
    (hs : ¬ b.writableBytes+b.prependableBytes < len+kCheapPrepend) :
    kCheapPrepend < b.readerIndex := by
  unfold prependableBytes at hs
  omega

/-- The vector grows, or the readable bytes move to its front. The length is one that a vector can
have: no sum of sizes wraps. -/
def makeSpace (len : ℕ) (h : b.writableBytes < len) : Buffer :=
  if hs : b.writableBytes+b.prependableBytes < len+kCheapPrepend then b.grow len
  else b.moved (b.room_of_lt (b.lt_readerIndex h hs))

def ensureWritableBytes (len : ℕ) : Buffer :=
  if h : b.writableBytes < len then b.makeSpace len h else b

/-- A store through `beginWrite()`, and `hasWritten` after it. -/
def write (data : Bytes) (h : data.length ≤ b.writableBytes) : Buffer :=
  have hw := b.writer_le
  have hlen : (b.buffer.take b.writerIndex ++ data ++
      b.buffer.drop (b.writerIndex+data.length)).length = b.buffer.length := by
    unfold writableBytes at h
    simp only [List.length_append,List.length_take,List.length_drop]
    omega
  {buffer := b.buffer.take b.writerIndex ++ data ++ b.buffer.drop (b.writerIndex+data.length)
   readerIndex := b.readerIndex
   writerIndex := b.writerIndex+data.length
   reader_le := b.reader_le.trans (Nat.le_add_right _ _)
   writer_le := by unfold writableBytes at h; rw [hlen]; omega
   prepend_le := hlen ▸ b.prepend_le}

/-- The assertion at the end of `ensureWritableBytes`. -/
theorem le_writableBytes_ensure (len : ℕ) : len ≤ (b.ensureWritableBytes len).writableBytes := by
  have hr := b.reader_le
  have hw := b.writer_le
  unfold ensureWritableBytes
  split
  · next h =>
    unfold makeSpace
    split
    · simp only [grow,writableBytes,List.length_append,List.length_replicate]
      omega
    · next hs =>
      unfold writableBytes prependableBytes at hs
      simp only [moved,writableBytes,readableBytes,peek,List.length_append,List.length_take,
        List.length_drop]
      omega
  · next h => exact Nat.le_of_not_lt h

def append (data : Bytes) : Buffer :=
  (b.ensureWritableBytes data.length).write data (b.le_writableBytes_ensure _)

def unwrite (len : ℕ) : Option Buffer :=
  if h : len ≤ b.readableBytes then
    some {b with
      writerIndex := b.writerIndex-len
      reader_le := by have := b.reader_le; unfold readableBytes at h; omega
      writer_le := (Nat.sub_le _ _).trans b.writer_le}
  else none

def prepend (data : Bytes) : Option Buffer :=
  if h : data.length ≤ b.prependableBytes then
    have hr := b.reader_le
    have hw := b.writer_le
    have hlen : (b.buffer.take (b.readerIndex-data.length) ++ data ++
        b.buffer.drop b.readerIndex).length = b.buffer.length := by
      unfold prependableBytes at h
      simp only [List.length_append,List.length_take,List.length_drop]
      omega
    some {
      buffer := b.buffer.take (b.readerIndex-data.length) ++ data ++ b.buffer.drop b.readerIndex
      readerIndex := b.readerIndex-data.length
      writerIndex := b.writerIndex
      reader_le := (Nat.sub_le _ _).trans hr
      writer_le := hlen ▸ hw
      prepend_le := hlen ▸ b.prepend_le}
  else none

/-- `buffer_.max_size()`. -/
def maxSize : ℕ := 2^63-1

/-- `makeSpace` for any `size_t`: the sum wraps, and `resize` throws when the vector would become too
long. -/
def makeSpace? (len : ℕ) : Option Buffer :=
  if b.writableBytes+b.prependableBytes < (len+kCheapPrepend)%2^64 then
    if b.writerIndex+len ≤ maxSize then some (b.grow len) else none
  else if h : kCheapPrepend < b.readerIndex then some (b.moved (b.room_of_lt h))
  else none

/-- `ensureWritableBytes` for any `size_t`, with the assertion at its end. -/
def ensureWritableBytes? (len : ℕ) : Option Buffer :=
  if b.writableBytes < len then
    (b.makeSpace? len).filter fun b' => len ≤ b'.writableBytes
  else some b

def append? (data : Bytes) : Option Buffer :=
  (b.ensureWritableBytes? data.length).bind fun b' =>
    if h : data.length ≤ b'.writableBytes then some (b'.write data h) else none

/-- The length becomes an `int`; a negative one is more than a buffer has room for. -/
def toStringPiece : Option Bytes :=
  if b.readableBytes%2^32 < 2^31 then some (b.peek.take (b.readableBytes%2^32)) else none

/-- Into a new buffer, which takes the place of this one. -/
def shrink (reserve : ℕ) : Option Buffer :=
  ((new kInitialSize).ensureWritableBytes? ((b.readableBytes+reserve)%2^64)).bind fun other =>
    b.toStringPiece.bind other.append?

/-- Integers travel in network byte order. -/
def appendInt (w : ℕ) (x : BitVec (8*w)) : Buffer := b.append (beBytes w x.toNat)
def appendInt64 (x : BitVec 64) : Buffer := b.appendInt 8 x
def appendInt32 (x : BitVec 32) : Buffer := b.appendInt 4 x
def appendInt16 (x : BitVec 16) : Buffer := b.appendInt 2 x
def appendInt8 (x : BitVec 8) : Buffer := b.appendInt 1 x

def prependInt (w : ℕ) (x : BitVec (8*w)) : Option Buffer := b.prepend (beBytes w x.toNat)
def prependInt64 (x : BitVec 64) : Option Buffer := b.prependInt 8 x
def prependInt32 (x : BitVec 32) : Option Buffer := b.prependInt 4 x
def prependInt16 (x : BitVec 16) : Option Buffer := b.prependInt 2 x
def prependInt8 (x : BitVec 8) : Option Buffer := b.prependInt 1 x

def peekInt (w : ℕ) : Option (BitVec (8*w)) :=
  if w ≤ b.readableBytes then some (.ofNat _ (beNat (b.peek.take w))) else none
def peekInt64 : Option (BitVec 64) := b.peekInt 8
def peekInt32 : Option (BitVec 32) := b.peekInt 4
def peekInt16 : Option (BitVec 16) := b.peekInt 2
def peekInt8 : Option (BitVec 8) := b.peekInt 1

def readInt (w : ℕ) : Option (BitVec (8*w) × Buffer) :=
  (b.peekInt w).bind fun result => (b.retrieve w).map fun b' => (result,b')
def readInt64 : Option (BitVec 64 × Buffer) := b.readInt 8
def readInt32 : Option (BitVec 32 × Buffer) := b.readInt 4
def readInt16 : Option (BitVec 16 × Buffer) := b.readInt 2
def readInt8 : Option (BitVec 8 × Buffer) := b.readInt 1

variable {b} {b' : Buffer} {data : Bytes} {len : ℕ}

@[simp] theorem length_peek : b.peek.length = b.readableBytes := by
  have hw := b.writer_le
  simp only [peek,readableBytes,List.length_drop,List.length_take]
  omega

@[simp] theorem peek_new (n : ℕ) : (new n).peek = [] := by simp [new,peek]

@[simp] theorem peek_retrieveAll : b.retrieveAll.peek = [] := by simp [retrieveAll,peek]

/-- What `retrieve` does, where it is allowed. -/
theorem retrieve_spec (h : len ≤ b.readableBytes) : ∃ b', b.retrieve len = some b' ∧
    b'.peek = b.peek.drop len ∧ b'.buffer = b.buffer ∧
      min kCheapPrepend b.prependableBytes ≤ b'.prependableBytes := by
  unfold retrieve
  rw [if_pos h]
  split
  · refine ⟨_,rfl,?_,rfl,?_⟩
    · simp only [peek,List.drop_drop]
    · exact (min_le_right _ _).trans (Nat.le_add_right _ _)
  · next hlt =>
    refine ⟨_,rfl,?_,rfl,min_le_left _ _⟩
    rw [peek_retrieveAll]
    exact (List.drop_eq_nil_of_le (by rw [length_peek]; omega)).symm

theorem retrieve_le (h : b.retrieve len = some b') : len ≤ b.readableBytes := by
  unfold retrieve at h
  split at h
  · assumption
  · cases h

@[simp] theorem peek_grow : (b.grow len).peek = b.peek := by
  simp only [grow,peek,List.take_append_of_le_length b.writer_le]

@[simp] theorem peek_moved (h : kCheapPrepend+b.readableBytes ≤ b.buffer.length) :
    (b.moved h).peek = b.peek := by
  have hr := b.reader_le
  have hfront : (b.buffer.take kCheapPrepend).length = kCheapPrepend := by
    simpa using b.prepend_le
  simp only [moved,peek]
  rw [List.append_assoc,List.take_append,hfront,List.drop_append_of_le_length (by simp [hfront]),
    List.drop_eq_nil_of_le (by simp),List.nil_append]
  have hsub : kCheapPrepend+b.readableBytes-kCheapPrepend = b.peek.length := by
    rw [length_peek]; omega
  rw [hsub,peek,List.take_left]

theorem peek_makeSpace (h : b.writableBytes < len) : (b.makeSpace len h).peek = b.peek := by
  unfold makeSpace
  split
  · exact peek_grow
  · exact peek_moved _

@[simp] theorem peek_ensureWritableBytes : (b.ensureWritableBytes len).peek = b.peek := by
  unfold ensureWritableBytes
  split
  · exact peek_makeSpace _
  · rfl

theorem peek_write (h : data.length ≤ b.writableBytes) :
    (b.write data h).peek = b.peek ++ data := by
  have hr := b.reader_le
  have hw := b.writer_le
  have hfront : (b.buffer.take b.writerIndex).length = b.writerIndex := by simpa using hw
  simp only [write,peek]
  rw [List.append_assoc,List.take_append,hfront,Nat.add_sub_cancel_left,List.take_left,
    List.take_of_length_le (by simp),List.drop_append_of_le_length (by rw [hfront]; exact hr)]

/-- `append` puts the bytes at the end. -/
@[simp] theorem peek_append : (b.append data).peek = b.peek ++ data := by
  unfold append
  rw [peek_write,peek_ensureWritableBytes]

theorem unwrite_spec (h : len ≤ b.readableBytes) : ∃ b', b.unwrite len = some b' ∧
    b'.peek = b.peek.take (b.readableBytes-len) ∧ b'.buffer = b.buffer ∧
      b'.prependableBytes = b.prependableBytes := by
  have hr := b.reader_le
  unfold unwrite
  rw [dif_pos h]
  refine ⟨_,rfl,?_,rfl,rfl⟩
  simp only [peek,readableBytes] at h ⊢
  rw [List.drop_take,List.drop_take,List.take_take,Nat.min_eq_left (Nat.sub_le _ _),
    Nat.sub_right_comm]

theorem unwrite_le (h : b.unwrite len = some b') : len ≤ b.readableBytes := by
  unfold unwrite at h
  split at h
  · assumption
  · cases h

/-- What `prepend` does, where there is room. -/
theorem prepend_spec (h : data.length ≤ b.prependableBytes) : ∃ b', b.prepend data = some b' ∧
    b'.peek = data ++ b.peek ∧ b'.buffer.length = b.buffer.length ∧
      b'.prependableBytes = b.prependableBytes-data.length := by
  have hr := b.reader_le
  have hw := b.writer_le
  have hfront : (b.buffer.take (b.readerIndex-data.length)).length =
      b.readerIndex-data.length := by
    rw [List.length_take]
    omega
  unfold prepend
  rw [dif_pos h]
  unfold prependableBytes at h
  refine ⟨_,rfl,?_,?_,rfl⟩
  · have htake : b.writerIndex-(b.readerIndex-data.length) =
        data.length+(b.writerIndex-b.readerIndex) := by omega
    simp only [peek]
    rw [List.append_assoc,List.drop_take,List.drop_append_of_le_length hfront.ge,
      List.drop_eq_nil_of_le hfront.le,List.nil_append,htake,List.take_length_add_append,
      ← List.drop_take]
  · simp only [List.length_append,List.length_take,List.length_drop]
    omega

theorem prepend_le_prependable (h : b.prepend data = some b') :
    data.length ≤ b.prependableBytes := by
  unfold prepend at h
  split at h
  · assumption
  · cases h

/-- With sizes that a vector can have, the room is made as by `ensureWritableBytes`. -/
theorem ensureWritableBytes?_eq (h : 2*(b.readableBytes+len)+kCheapPrepend ≤ maxSize) :
    b.ensureWritableBytes? len = some (b.ensureWritableBytes len) := by
  have hr := b.reader_le
  have hw := b.writer_le
  have hle := b.le_writableBytes_ensure len
  have hwrap : (len+kCheapPrepend)%2^64 = len+kCheapPrepend := by
    refine Nat.mod_eq_of_lt ?_
    unfold maxSize kCheapPrepend at *
    omega
  have hmake : ∀ hlt : b.writableBytes < len, b.makeSpace? len = some (b.makeSpace len hlt) := by
    intro hlt
    unfold makeSpace? makeSpace
    rw [hwrap]
    split
    · next hs =>
      have hsize : b.writerIndex+len ≤ maxSize := by
        unfold writableBytes prependableBytes at hs
        unfold readableBytes at h
        omega
      rw [if_pos hsize]
    · next hs => rw [dif_pos (b.lt_readerIndex hlt hs)]
  unfold ensureWritableBytes? ensureWritableBytes at *
  split
  · next hlt =>
    rw [dif_pos hlt] at hle
    rw [hmake hlt]
    simpa using hle
  · rfl

theorem peek_ensureWritableBytes? (h : b.ensureWritableBytes? len = some b') :
    b'.peek = b.peek := by
  unfold ensureWritableBytes? at h
  split at h
  · replace h := Option.eq_some_of_filter_eq_some h
    unfold makeSpace? at h
    split at h
    · split at h
      · cases h
        exact peek_grow
      · cases h
    · split at h
      · cases h
        exact peek_moved _
      · cases h
  · cases h
    rfl

theorem append?_eq (h : 2*(b.readableBytes+data.length)+kCheapPrepend ≤ maxSize) :
    b.append? data = some (b.append data) := by
  unfold append? append
  rw [ensureWritableBytes?_eq h,Option.bind_some,dif_pos (b.le_writableBytes_ensure _)]

/-- What `shrink` does when the readable bytes and the reserve are small enough. -/
theorem shrink_eq {reserve : ℕ} (h : b.readableBytes+reserve < 2^31) : b.shrink reserve =
    some (((new kInitialSize).ensureWritableBytes (b.readableBytes+reserve)).append b.peek) := by
  have hnew : (new kInitialSize).readableBytes = 0 := Nat.sub_self _
  have hempty : ((new kInitialSize).ensureWritableBytes
      (b.readableBytes+reserve)).readableBytes = 0 := by
    rw [← length_peek,peek_ensureWritableBytes,peek_new,List.length_nil]
  have hstr : b.toStringPiece = some b.peek := by
    have hmod : b.readableBytes%2^32 = b.readableBytes := Nat.mod_eq_of_lt (by omega)
    unfold toStringPiece
    rw [hmod,if_pos (by omega),List.take_of_length_le length_peek.le]
  unfold shrink
  have hroom : 2*((new kInitialSize).readableBytes+(b.readableBytes+reserve))+kCheapPrepend ≤
      maxSize := by
    rw [hnew]
    unfold maxSize kCheapPrepend
    omega
  rw [Nat.mod_eq_of_lt (by omega),ensureWritableBytes?_eq hroom,
    Option.bind_some,hstr,Option.bind_some]
  refine append?_eq ?_
  rw [hempty,length_peek]
  unfold maxSize kCheapPrepend
  omega

end Buffer
end MessageQueue.Net

import Mathlib.Data.List.TakeWhile
import MessageQueue.Base.Adler
import MessageQueue.Common.Packet
import MessageQueue.Net.Codec

/-! What reaches the other end of a connection. The sender writes frame after frame and does not look
at their lengths; the receiver gets the bytes in pieces of any size. -/
namespace MessageQueue.Net
open Base Bytes

namespace Codec
variable {M : Type*}

/-- Through a buffer of its own. -/
def send (rt : Runtime M) (message : M) : Option Bytes :=
  (fillEmptyBuffer rt (Buffer.new kInitialSize) message).map Buffer.peek

/-- What the receiver needs of the types of messages: each is found by its name, and reads back what
it wrote. -/
def Readable (rt : Runtime M) (message : M) : Prop :=
  rt.typeName message ≠ [] ∧ ∃ parseFromArray,
    rt.createMessage (rt.typeName message) = some parseFromArray ∧
      parseFromArray (rt.serialize message) = some message

/-- The length that the frame of a message carries. -/
def messageSize (rt : Runtime M) (message : M) : ℕ :=
  size (rt.typeName message) (rt.serialize message)

def Fits (rt : Runtime M) (message : M) : Prop := messageSize rt message ≤ kMaxMessageLen

instance (rt : Runtime M) : DecidablePred (Fits rt) := fun _ => inferInstanceAs (Decidable (_ ≤ _))

variable {rt : Runtime M} {message : M} {messages : List M} {buf : Buffer} {pieces : List Bytes}

theorem send_eq (message : M) : send rt message = some (frame rt message) := by
  have hroom : kHeaderLen ≤ (Buffer.new kInitialSize).prependableBytes := by
    change 4 ≤ 8
    omega
  obtain ⟨b,hb,hpeek⟩ := fillEmptyBuffer_spec rt
    (by rw [← Buffer.length_peek,Buffer.peek_new]; rfl) hroom message
  rw [send,hb,Option.map_some,hpeek]

/-- Both programs are built with the same types. The checksum of zlib is left open. -/
def runtime (adler32 : BitVec 32 → Bytes → BitVec 32) : Runtime Packet :=
  ⟨adler32,Packet.typeName,Packet.serialize,Packet.createMessage⟩

def openFrame : Bytes := frame (runtime Adler.adler32) (.request (.openChannel "r1" "c1"))

/-- The law of the writer: a frame that fits is found whatever comes after it. -/
theorem front_frame (rt : Runtime M) (message : M) (h : Readable rt message ∧ Fits rt message)
    (cs : Bytes) :
    (reader rt).front (frame rt message ++ cs) = .item message (frame rt message).length := by
  obtain ⟨⟨hn,p,hp,hm⟩,hf⟩ := h
  exact front_layout hn hf hp hm

/-! ### The pieces of a stream -/

/-- One piece. -/
theorem receive_spec (rt : Runtime M) (buf : Buffer) (bytes : Bytes) :
    (receive rt buf bytes).1 = ((reader rt).drain (buf.peek ++ bytes)).1 ∧
      (receive rt buf bytes).2.2.peek = ((reader rt).drain (buf.peek ++ bytes)).2 ∧
      (receive rt buf bytes).2.1 =
        frontError (front rt ((reader rt).drain (buf.peek ++ bytes)).2) := by
  have h := onMessage_spec rt (Nat.le_refl (buf.append bytes).readableBytes)
  rw [Buffer.peek_append] at h
  exact h

/-- The pieces one after the other. -/
theorem receiveAll_feed (buf : Buffer) (pieces : List Bytes) :
    (receiveAll rt buf pieces).1 = ((reader rt).feed buf.peek pieces).1 ∧
      (receiveAll rt buf pieces).2.2.peek = ((reader rt).feed buf.peek pieces).2 := by
  induction pieces generalizing buf with
  | nil => exact ⟨rfl,rfl⟩
  | cons c cs ih =>
    obtain ⟨h1,h2,-⟩ := receive_spec rt buf c
    obtain ⟨ih1,ih2⟩ := ih (receive rt buf c).2.2
    rw [receiveAll,Reader.feed]
    simp only
    rw [ih1,ih2,h1,h2]
    exact ⟨rfl,rfl⟩

/-- On a new connection: all that has arrived counts, not how. -/
theorem receiveAll_drain (h : (reader rt).Idle buf.peek) (pieces : List Bytes) :
    (receiveAll rt buf pieces).1 = ((reader rt).drain (buf.peek ++ pieces.flatten)).1 ∧
      (receiveAll rt buf pieces).2.2.peek =
        ((reader rt).drain (buf.peek ++ pieces.flatten)).2 := by
  rw [← Reader.feed_eq_drain h]
  exact receiveAll_feed buf pieces

theorem idle_nil : (reader rt).Idle [] := by
  intro a n h
  have hl := (reader rt).item_length h
  rw [List.length_nil] at hl
  omega

/-- A buffer whose front is broken stays as it is, and says so again whenever something arrives. -/
theorem receive_bad {e : ErrorCode} (h : front rt buf.peek = .bad e) (bytes : Bytes) :
    (receive rt buf bytes).1 = [] ∧ (receive rt buf bytes).2.1 = some e ∧
      (receive rt buf bytes).2.2.peek = buf.peek ++ bytes := by
  obtain ⟨h1,h2,h3⟩ := receive_spec rt buf bytes
  have hbad := (reader rt).bad_append h bytes
  have hd : (reader rt).drain (buf.peek ++ bytes) = ([],buf.peek ++ bytes) :=
    Reader.drain_eq (.nil _) fun a n hitem => by cases hbad.symm.trans hitem
  rw [hd] at h1 h2 h3
  refine ⟨h1,?_,h2⟩
  rw [h3]
  exact congrArg frontError hbad

theorem receiveAll_bad {e : ErrorCode} (h : front rt buf.peek = .bad e) (pieces : List Bytes) :
    (receiveAll rt buf pieces).1 = [] ∧
      (receiveAll rt buf pieces).2.1 = List.replicate pieces.length e ∧
        (receiveAll rt buf pieces).2.2.peek = buf.peek ++ pieces.flatten := by
  induction pieces generalizing buf with
  | nil => simp [receiveAll]
  | cons c cs ih =>
    obtain ⟨h1,h2,h3⟩ := receive_bad h c
    have hbad : front rt (receive rt buf c).2.2.peek = .bad e := by
      rw [h3]
      exact (reader rt).bad_append h c
    obtain ⟨i1,i2,i3⟩ := ih hbad
    rw [receiveAll]
    simp only
    rw [h1,h2,i1,i2,i3,h3]
    simp [List.replicate_succ]

/-- The errors: none while the stream is sound, and the same one from then on. -/
theorem errors_receiveAll (h : frontError (front rt buf.peek) = none) (pieces : List Bytes) :
    (∀ e ∈ (receiveAll rt buf pieces).2.1,
      front rt (receiveAll rt buf pieces).2.2.peek = .bad e) ∧
    ((receiveAll rt buf pieces).2.1 = [] ↔
      frontError (front rt (receiveAll rt buf pieces).2.2.peek) = none) := by
  induction pieces generalizing buf with
  | nil => simp [receiveAll,h]
  | cons c cs ih =>
    obtain ⟨-,h2,h3⟩ := receive_spec rt buf c
    rw [← h2] at h3
    rw [receiveAll]
    simp only
    cases hf : front rt (receive rt buf c).2.2.peek with
    | bad e =>
      obtain ⟨-,i2,i3⟩ := receiveAll_bad hf cs
      have hbad := (reader rt).bad_append hf cs.flatten
      change front rt _ = _ at hbad
      rw [h3,hf,i2,i3,hbad]
      simp [frontError,List.mem_replicate]
    | item a n =>
      rw [h3,hf]
      exact ih (by rw [hf]; rfl)
    | more =>
      rw [h3,hf]
      exact ih (by rw [hf]; rfl)

/-- On a new connection. -/
theorem receiveAll_new (rt : Runtime M) (n : ℕ) (pieces : List Bytes) :
    (receiveAll rt (Buffer.new n) pieces).1 = ((reader rt).drain pieces.flatten).1 ∧
      (receiveAll rt (Buffer.new n) pieces).2.2.peek = ((reader rt).drain pieces.flatten).2 := by
  have hidle : (reader rt).Idle (Buffer.new n).peek := by
    rw [Buffer.peek_new]
    exact idle_nil
  have h := receiveAll_drain hidle pieces
  rwa [Buffer.peek_new,List.nil_append] at h

theorem mem_errors (rt : Runtime M) (n : ℕ) (pieces : List Bytes) (e : ErrorCode) :
    e ∈ (receiveAll rt (Buffer.new n) pieces).2.1 ↔
      front rt ((reader rt).drain pieces.flatten).2 = .bad e := by
  have hnone : frontError (front rt (Buffer.new n).peek) = none := by
    rw [Buffer.peek_new]
    rfl
  obtain ⟨hbad,hnil⟩ := errors_receiveAll hnone pieces
  rw [(receiveAll_new rt n pieces).2] at hbad hnil
  refine ⟨hbad e,fun hfront => ?_⟩
  have hne : (receiveAll rt (Buffer.new n) pieces).2.1 ≠ [] := fun h => by
    have hnone := hnil.mp h
    rw [hfront] at hnone
    cases hnone
  obtain ⟨e',he'⟩ := List.exists_mem_of_ne_nil _ hne
  have heq := (hbad e' he').symm.trans hfront
  cases heq
  exact he'

/-- However a stream is cut into pieces, the same messages are taken out of it, the same bytes stay,
and the same error is reported, if there is one. -/
theorem pieces_irrelevant (n n' : ℕ) {pieces pieces' : List Bytes}
    (h : pieces.flatten = pieces'.flatten) :
    (receiveAll rt (Buffer.new n) pieces).1 = (receiveAll rt (Buffer.new n') pieces').1 ∧
      (receiveAll rt (Buffer.new n) pieces).2.2.peek =
        (receiveAll rt (Buffer.new n') pieces').2.2.peek ∧
      ∀ e, e ∈ (receiveAll rt (Buffer.new n) pieces).2.1 ↔
        e ∈ (receiveAll rt (Buffer.new n') pieces').2.1 := by
  obtain ⟨h1,h2⟩ := receiveAll_new rt n pieces
  obtain ⟨h1',h2'⟩ := receiveAll_new rt n' pieces'
  refine ⟨?_,?_,fun e => ?_⟩
  · rw [h1,h1',h]
  · rw [h2,h2',h]
  · rw [mem_errors,mem_errors,h]

theorem pieces_irrelevant_cut :
    (receiveAll (runtime Adler.adler32) (Buffer.new 16)
      [openFrame.take 9,openFrame.drop 9 ++ List.replicate 14 0]).1 =
        [.request (.openChannel "r1" "c1")] ∧
    ErrorCode.invalidLength ∈ (receiveAll (runtime Adler.adler32) (Buffer.new 16)
      [openFrame.take 9,openFrame.drop 9 ++ List.replicate 14 0]).2.1 := by
  have h := @pieces_irrelevant _ (runtime Adler.adler32) 16 1024
    [openFrame.take 9,openFrame.drop 9 ++ List.replicate 14 0] [openFrame ++ List.replicate 14 0]
    (by decide +kernel)
  exact ⟨h.1.trans (by decide +kernel),(h.2.2 .invalidLength).mpr (by decide +kernel)⟩

/-- After an error nothing is delivered any more, whatever comes: the same error is reported with
each piece, and the buffer keeps all of them. -/
theorem broken_for_good (n : ℕ) {pieces : List Bytes} {e : ErrorCode}
    (h : e ∈ (receiveAll rt (Buffer.new n) pieces).2.1) (more : List Bytes) :
    (receiveAll rt (receiveAll rt (Buffer.new n) pieces).2.2 more).1 = [] ∧
      (receiveAll rt (receiveAll rt (Buffer.new n) pieces).2.2 more).2.1 =
        List.replicate more.length e ∧
      (receiveAll rt (receiveAll rt (Buffer.new n) pieces).2.2 more).2.2.peek =
        (receiveAll rt (Buffer.new n) pieces).2.2.peek ++ more.flatten := by
  refine receiveAll_bad ?_ more
  rw [(receiveAll_new rt n pieces).2]
  exact (mem_errors rt n pieces e).mp h

theorem broken_for_good_zeros :
    (receiveAll (runtime Adler.adler32)
      (receiveAll (runtime Adler.adler32) (Buffer.new 16) [List.replicate 14 0]).2.2
        [openFrame,openFrame]).2.1 = [.invalidLength,.invalidLength] :=
  (broken_for_good 16 (by decide) [openFrame,openFrame]).2.1

/-- The bytes that have arrived are the frames of the messages that were delivered, and what is left
begins with no frame. Nothing else decides what is delivered. -/
theorem accepted (n : ℕ) {pieces : List Bytes} {messages : List M} {rest : Bytes} :
    ((receiveAll rt (Buffer.new n) pieces).1 = messages ∧
      (receiveAll rt (Buffer.new n) pieces).2.2.peek = rest) ↔
    (∃ frames, List.Forall₂ (IsFrame rt) frames messages ∧
      pieces.flatten = frames.flatten ++ rest) ∧
      ∀ bytes message tail, IsFrame rt bytes message → rest ≠ bytes ++ tail := by
  obtain ⟨h1,h2⟩ := receiveAll_new rt n pieces
  obtain ⟨hr,hi⟩ := Reader.drain_spec (r := reader rt) pieces.flatten
  rw [← reads_iff,h1,h2]
  constructor
  · rintro ⟨rfl,rfl⟩
    refine ⟨hr,fun bytes message tail hframe heq => hi message bytes.length ?_⟩
    rw [heq]
    exact front_of_isFrame hframe
  · rintro ⟨hreads,hrest⟩
    refine hr.unique hreads hi fun message k hitem => ?_
    obtain ⟨bytes,tail,hframe,heq,-⟩ := isFrame_of_front hitem
    exact hrest bytes message tail hframe heq

/-! ### A stream of frames -/

theorem front_nil : front rt [] = .more := rfl

/-- What stands in front once the frames that fit are gone. -/
theorem front_rest (hint : ∀ m ∈ messages, messageSize rt m < 2^31) :
    front rt ((messages.dropWhile fun m => Fits rt m).flatMap (frame rt)) =
      if ∀ m ∈ messages, Fits rt m then .more else .bad .invalidLength := by
  cases hd : messages.dropWhile fun m => Fits rt m with
  | nil =>
    have hall : ∀ m ∈ messages, Fits rt m := by
      simpa [List.dropWhile_eq_nil_iff] using hd
    rw [if_pos hall]
    exact front_nil
  | cons m ms =>
    have hm : m ∈ messages := List.dropWhile_subset _ (by rw [hd]; exact List.mem_cons_self)
    have hlong : ¬Fits rt m := by
      have hhead := List.head_dropWhile_not (p := fun m => decide (Fits rt m)) (l := messages)
        (by rw [hd]; simp)
      simpa [hd] using hhead
    rw [if_neg fun hall => hlong (hall m hm),List.flatMap_cons]
    exact front_layout_long (Nat.lt_of_not_le hlong) (hint m hm)

/-- A stream of frames that can be read is taken apart, up to the first that is too long. -/
theorem drain_frames (h : ∀ m ∈ messages, Readable rt m)
    (hint : ∀ m ∈ messages, messageSize rt m < 2^31) :
    (reader rt).drain (messages.flatMap (frame rt)) =
      (messages.takeWhile fun m => Fits rt m,
        (messages.dropWhile fun m => Fits rt m).flatMap (frame rt)) := by
  have hsplit := List.takeWhile_append_dropWhile (p := fun m => decide (Fits rt m)) (l := messages)
  have hfit : ∀ m ∈ messages.takeWhile fun m => Fits rt m, Readable rt m ∧ Fits rt m :=
    fun m hm => ⟨h m (List.takeWhile_subset _ hm),by simpa using List.mem_takeWhile_imp hm⟩
  have hdrain := Reader.drain_encode (front_frame rt) hfit
    ((messages.dropWhile fun m => Fits rt m).flatMap (frame rt))
  rw [← List.flatMap_append,hsplit] at hdrain
  have hidle : (reader rt).Idle ((messages.dropWhile fun m => Fits rt m).flatMap (frame rt)) := by
    intro a n hitem
    have hfront := (front_rest hint).symm.trans hitem
    split_ifs at hfront
  rw [hdrain,Reader.drain_eq (.nil _) hidle]
  simp

end Codec
end MessageQueue.Net

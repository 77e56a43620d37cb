import MessageQueue.Net.Stream

/-! The messages of the broker on a connection. Both ends are built with the same types, so that a
message is read back as what it was, if its frame is not too long; and the bytes of a connection are
taken for messages exactly as far as they are frames. -/
namespace MessageQueue.Net
open Base Bytes

namespace Codec

variable {adler32 : BitVec 32 → Bytes → BitVec 32} {packets : List Packet} {pieces : List Bytes}

theorem readable (p : Packet) : Readable (runtime adler32) p :=
  ⟨p.typeName_ne_nil,p.createMessage_serialize⟩

theorem mapM_send {M : Type*} (rt : Runtime M) (messages : List M) :
    messages.mapM (send rt) = some (messages.map (frame rt)) := by
  induction messages with
  | nil => rfl
  | cons m ms ih =>
    rw [List.mapM_cons,send_eq,ih]
    rfl

/-- What is sent arrives, in whatever pieces, up to the first message that is too long for the
receiver. That one is refused by its length, and it blocks what comes behind it. -/
theorem delivered (n : ℕ) {frames : List Bytes}
    (hint : ∀ p ∈ packets, messageSize (runtime adler32) p < 2^31)
    (hsend : packets.mapM (send (runtime adler32)) = some frames)
    (hpieces : pieces.flatten = frames.flatten) :
    (receiveAll (runtime adler32) (Buffer.new n) pieces).1 =
        packets.takeWhile (fun p => Fits (runtime adler32) p) ∧
      (receiveAll (runtime adler32) (Buffer.new n) pieces).2.2.peek =
        (packets.dropWhile fun p => Fits (runtime adler32) p).flatMap (frame (runtime adler32)) ∧
      (∀ e ∈ (receiveAll (runtime adler32) (Buffer.new n) pieces).2.1, e = .invalidLength) ∧
      ((receiveAll (runtime adler32) (Buffer.new n) pieces).2.1 = [] ↔
        ∀ p ∈ packets, Fits (runtime adler32) p) := by
  set rt := runtime adler32
  rw [mapM_send] at hsend
  cases hsend
  have hread : ∀ p ∈ packets, Readable rt p := fun p _ => readable p
  have hdrain := drain_frames hread hint
  rw [List.flatMap_def,← hpieces] at hdrain
  obtain ⟨h1,h2⟩ := receiveAll_new rt n pieces
  have herrors := mem_errors rt n pieces
  rw [hdrain] at h1 h2 herrors
  simp only [front_rest hint] at herrors
  refine ⟨h1,h2,fun e he => ?_,?_⟩
  · have hfront := (herrors e).mp he
    split_ifs at hfront
    cases hfront
    rfl
  · rw [List.eq_nil_iff_forall_not_mem]
    simp only [herrors]
    split_ifs with hall
    · exact ⟨fun _ => hall,fun _ _ h => (by cases h)⟩
    · exact ⟨fun h => absurd rfl (h _),fun h => absurd h hall⟩

/-- A request and its answer. -/
def exchanged : List Packet := [.request (.openChannel "r1" "c1"),.response (.common "r1" "c1" true)]

theorem delivered_cut : (receiveAll (runtime Adler.adler32) (Buffer.new 16)
    [(exchanged.flatMap (frame (runtime Adler.adler32))).take 9,
      (exchanged.flatMap (frame (runtime Adler.adler32))).drop 9]).1 = exchanged :=
  (@delivered Adler.adler32 exchanged _ 16 _ (by decide) (mapM_send _ _)
    (by simp [List.flatMap_def])).1.trans (List.takeWhile_eq_self_iff.mpr (by decide))

/-- Of a stream that has arrived in part, the messages whose frames are complete are delivered, and
the beginning of the next frame waits for the rest of it. -/
theorem delivered_part (n : ℕ) {frames : List Bytes}
    (hfits : ∀ p ∈ packets, Fits (runtime adler32) p)
    (hsend : packets.mapM (send (runtime adler32)) = some frames)
    (hpieces : pieces.flatten <+: frames.flatten) :
    ∃ done todo, packets = done ++ todo ∧
      (receiveAll (runtime adler32) (Buffer.new n) pieces).1 = done ∧
      (receiveAll (runtime adler32) (Buffer.new n) pieces).2.1 = [] ∧
      pieces.flatten = done.flatMap (frame (runtime adler32)) ++
        (receiveAll (runtime adler32) (Buffer.new n) pieces).2.2.peek ∧
      ∀ p ∈ todo.head?, (receiveAll (runtime adler32) (Buffer.new n) pieces).2.2.peek <+:
          frame (runtime adler32) p ∧
        (receiveAll (runtime adler32) (Buffer.new n) pieces).2.2.peek ≠
          frame (runtime adler32) p := by
  set rt := runtime adler32
  rw [mapM_send] at hsend
  cases hsend
  rw [← List.flatMap_def] at hpieces
  have hread : ∀ p ∈ packets, Readable rt p ∧ Fits rt p := fun p hp => ⟨readable p,hfits p hp⟩
  obtain ⟨done,todo,hsplit,hdrain,hbytes,hhead⟩ :=
    Reader.drain_part (front_frame rt) hread hpieces
  obtain ⟨h1,h2⟩ := receiveAll_new rt n pieces
  have herrors := mem_errors rt n pieces
  rw [hdrain] at h1 h2 herrors
  simp only at h2 herrors
  rw [← h2] at hbytes hhead herrors
  refine ⟨done,todo,hsplit,h1,?_,hbytes,hhead⟩
  rw [List.eq_nil_iff_forall_not_mem]
  simp only [herrors]
  intro e hbad
  cases todo with
  | nil =>
    rw [List.append_nil] at hsplit
    have hnil : (receiveAll rt (Buffer.new n) pieces).2.2.peek = [] := by
      rw [hbytes,hsplit] at hpieces
      have hlen := hpieces.length_le
      rw [List.length_append] at hlen
      exact List.length_eq_zero_iff.mp (by omega)
    rw [hnil,front_nil] at hbad
    cases hbad
  | cons p todo =>
    obtain ⟨hpart,hne⟩ := hhead p rfl
    have hmore := Reader.front_part (front_frame rt) (hread p (by rw [hsplit]; simp)) hpart hne
    cases hbad.symm.trans hmore

theorem delivered_part_cut : ∃ done todo, exchanged = done ++ todo ∧
    (receiveAll (runtime Adler.adler32) (Buffer.new 16)
      [(exchanged.flatMap (frame (runtime Adler.adler32))).take 40]).1 = done := by
  obtain ⟨done,todo,h1,h2,-⟩ := @delivered_part Adler.adler32 exchanged
    [(exchanged.flatMap (frame (runtime Adler.adler32))).take 40] 16 _ (by decide)
    (mapM_send _ _) (by simp [List.flatMap_def,List.take_prefix])
  exact ⟨done,todo,h1,h2⟩

/-- A message is read in the frame of a peer that writes its fields in another order, or more fields
than this program knows, of whatever kind, or another byte after the name of the type. -/
theorem delivered_fields (n : ℕ) (p : Packet) {fs : List Wire.Field} {nul : UInt8}
    (hfields : ∀ k ∈ p.unwrap.1.format.numbers,
      Proto.numbered k fs = Proto.numbered k (p.unwrap.1.format.fields p.unwrap.2))
    (hvalid : ∀ f ∈ fs, f.Valid ∧ ∀ n, f.value = .number n → n < 2^64)
    (hsize : size p.typeName (Wire.encodeFields fs) ≤ kMaxMessageLen)
    (hpieces : pieces.flatten =
      layout (runtime adler32) p.typeName nul (Wire.encodeFields fs)) :
    (receiveAll (runtime adler32) (Buffer.new n) pieces).1 = [p] ∧
      (receiveAll (runtime adler32) (Buffer.new n) pieces).2.1 = [] ∧
      (receiveAll (runtime adler32) (Buffer.new n) pieces).2.2.peek = [] := by
  set rt := runtime adler32
  have hframe : IsFrame rt pieces.flatten p := by
    refine ⟨p.typeName,nul,_,_,p.typeName_ne_nil,hsize,Packet.createMessage_name p.unwrap_mem,?_,
      hpieces⟩
    rw [Proto.Format.parse_fields hfields fun f hf => (hvalid f hf).1,Option.map_some,
      Packet.wrap_unwrap]
  have hdrain : (reader rt).drain pieces.flatten = ([p],[]) :=
    Reader.drain_eq (reads_iff.mpr ⟨[pieces.flatten],.cons hframe .nil,by simp⟩) idle_nil
  obtain ⟨h1,h2⟩ := receiveAll_new rt n pieces
  have herrors := mem_errors rt n pieces
  rw [hdrain] at h1 h2 herrors
  refine ⟨h1,List.eq_nil_iff_forall_not_mem.mpr fun e he => ?_,h2⟩
  cases (herrors e).mp he

theorem delivered_fields_swapped : (receiveAll (runtime Adler.adler32) (Buffer.new 16)
    [layout (runtime Adler.adler32) (Wire.text "MQ.openChannelRequest") 7 (Wire.encodeFields
      [⟨9,.fixed32 5⟩,⟨2,.bytes (Wire.text "c1")⟩,⟨12,.fixed64 6⟩,⟨1,.bytes (Wire.text "r1")⟩])]).1 =
        [.request (.openChannel "r1" "c1")] :=
  (@delivered_fields Adler.adler32 _ 16 (.request (.openChannel "r1" "c1"))
    [⟨9,.fixed32 5⟩,⟨2,.bytes (Wire.text "c1")⟩,⟨12,.fixed64 6⟩,⟨1,.bytes (Wire.text "r1")⟩] 7
    (by decide) (by simp [Wire.Field.Valid]) (by decide) (List.append_nil _)).1

/-! ### Damage on the way -/

theorem asInt32_inj {bs cs : Bytes} (hb : bs.length = 4) (hc : cs.length = 4)
    (h : asInt32 bs = asInt32 cs) : bs = cs := by
  have hbs := int32Bytes_asInt32 hb.ge
  rw [h,int32Bytes_asInt32 hc.ge,List.take_of_length_le hb.le,List.take_of_length_le hc.le] at hbs
  exact hbs.symm

section Damage
variable {M : Type*} {rt : Runtime M} {name data u v : Bytes} {nul b b' : UInt8}

/-- A byte that changes in what the checksum is of, or in the checksum, is noticed. -/
theorem checkSum_damaged (hadler : ∀ bs, rt.adler32 1 bs = Adler.adler32 1 bs) {m : ℕ}
    (hlen : u.length+1+v.length = m+4) (hb : b ≠ b')
    (h : rt.adler32 1 ((u ++ b::v).take m) = asInt32 ((u ++ b::v).drop m)) :
    rt.adler32 1 ((u ++ b'::v).take m) ≠ asInt32 ((u ++ b'::v).drop m) := by
  by_cases hu : u.length < m
  · obtain ⟨k,hk⟩ : ∃ k, m = u.length+(k+1) := ⟨m-u.length-1,by omega⟩
    have htake : ∀ c : UInt8, (u ++ c::v).take m = u ++ c::v.take k := fun c => by
      rw [hk,List.take_length_add_append,List.take_succ_cons]
    have hdrop : ∀ c : UInt8, (u ++ c::v).drop m = v.drop k := fun c => by
      rw [hk,List.drop_length_add_append,List.drop_succ_cons]
    rw [htake,hdrop] at h ⊢
    rw [← h,hadler,hadler]
    exact fun heq => Adler.adler32_ne hb 1 heq.symm
  · have hle : m ≤ u.length := Nat.le_of_not_lt hu
    rw [List.take_append_of_le_length hle,List.drop_append_of_le_length hle] at h ⊢
    rw [h]
    intro heq
    have hlen' : ∀ c : UInt8, (u.drop m ++ c::v).length = 4 := fun c => by
      rw [List.length_append,List.length_drop,List.length_cons]
      omega
    have hlists := asInt32_inj (hlen' b) (hlen' b') heq
    rw [List.append_cancel_left_eq,List.cons.injEq] at hlists
    exact hb hlists.1

theorem front_damaged (rt : Runtime M) (hadler : ∀ bs, rt.adler32 1 bs = Adler.adler32 1 bs)
    (hn : name ≠ [])
    (hs : size name data ≤ kMaxMessageLen) (h : layout rt name nul data = u ++ b::v)
    (hu : kHeaderLen ≤ u.length) (hb : b ≠ b') (cs : Bytes) :
    front rt (u ++ b'::v ++ cs) = .bad .checkSumError := by
  have hk : kHeaderLen = 4 := rfl
  have hmin : kMinMessageLen = 10 := rfl
  have hmax : kMaxMessageLen = 67108864 := rfl
  have hpos : 0 < name.length := List.length_pos_iff.mpr hn
  have hsize : size name data = name.length+1+data.length+2*kHeaderLen := rfl
  have hlen := length_layout rt name nul data
  rw [h,List.length_append,List.length_cons] at hlen
  have hword : asInt32 (u ++ b'::v ++ cs) = .ofNat 32 (size name data) := by
    rw [List.append_assoc,asInt32_append (by omega),← @asInt32_append u (b::v) (by omega),← h,
      layout,asInt32_int32Bytes]
  have hbody : u.drop kHeaderLen ++ b::v =
      body name nul data ++ int32Bytes (rt.adler32 1 (body name nul data)) := by
    rw [← List.drop_append_of_le_length hu,← h,layout]
    exact List.drop_left' (length_int32Bytes _)
  have hm := length_body name nul data
  have hsum : rt.adler32 1 ((u.drop kHeaderLen ++ b::v).take (size name data-kHeaderLen)) =
      asInt32 ((u.drop kHeaderLen ++ b::v).drop (size name data-kHeaderLen)) := by
    rw [hbody,← hm,List.take_left,List.drop_left]
    simpa using (asInt32_int32Bytes (rt.adler32 1 (body name nul data)) []).symm
  have hne := checkSum_damaged hadler (by rw [List.length_drop]; omega) hb hsum
  have hlong : (u ++ b'::v ++ cs).length = kHeaderLen+size name data+cs.length := by
    rw [List.length_append,List.length_append,List.length_cons]
    omega
  have hparse : parse rt ((u ++ b'::v ++ cs).drop kHeaderLen) (size name data) =
      .error .checkSumError := by
    rw [List.append_assoc,List.drop_append_of_le_length hu,← List.append_assoc,
      parse_append (by rw [List.length_append,List.length_drop,List.length_cons]; omega) (by omega),
      parse,if_neg hne]
  unfold front
  rw [if_pos (by omega),hword,toInt_ofNat (by omega),if_neg (by omega),if_pos (by omega),
    Int.toNat_natCast,hparse]

end Damage

/-- A byte that changes behind the length of a frame is noticed: the messages before it are
delivered, and nothing after them. -/
theorem damage_noticed (n : ℕ) (hadler : ∀ bs, adler32 1 bs = Adler.adler32 1 bs)
    (hfits : ∀ q ∈ packets, Fits (runtime adler32) q) {frames : List Bytes}
    (hsend : packets.mapM (send (runtime adler32)) = some frames) {p : Packet}
    (hp : Fits (runtime adler32) p) {u v tail : Bytes} {b b' : UInt8}
    (hframe : send (runtime adler32) p = some (u ++ b::v)) (hu : kHeaderLen ≤ u.length)
    (hb : b ≠ b') (hpieces : pieces.flatten = frames.flatten ++ (u ++ b'::v ++ tail)) :
    (receiveAll (runtime adler32) (Buffer.new n) pieces).1 = packets ∧
      (∀ e, e ∈ (receiveAll (runtime adler32) (Buffer.new n) pieces).2.1 ↔ e = .checkSumError) ∧
      (receiveAll (runtime adler32) (Buffer.new n) pieces).2.2.peek = u ++ b'::v ++ tail := by
  set rt := runtime adler32
  rw [mapM_send] at hsend
  cases hsend
  rw [send_eq,Option.some.injEq] at hframe
  have hfront : (reader rt).front (u ++ b'::v ++ tail) = .bad .checkSumError :=
    front_damaged rt hadler p.typeName_ne_nil hp hframe hu hb tail
  have hidle : (reader rt).drain (u ++ b'::v ++ tail) = ([],u ++ b'::v ++ tail) :=
    Reader.drain_eq (.nil _) fun a k hitem => by cases hfront.symm.trans hitem
  have hread : ∀ q ∈ packets, Readable rt q ∧ Fits rt q := fun q hq => ⟨readable q,hfits q hq⟩
  have hdrain := Reader.drain_encode (front_frame rt) hread (u ++ b'::v ++ tail)
  rw [hidle,List.append_nil,List.flatMap_def,← hpieces] at hdrain
  obtain ⟨h1,h2⟩ := receiveAll_new rt n pieces
  have herrors := mem_errors rt n pieces
  rw [hdrain] at h1 h2 herrors
  refine ⟨h1,fun e => (herrors e).trans ?_,h2⟩
  change (reader rt).front (u ++ b'::v ++ tail) = _ ↔ _
  rw [hfront,Front.bad.injEq,eq_comm]

theorem damage_noticed_length : (receiveAll (runtime Adler.adler32) (Buffer.new 16)
    [frame (runtime Adler.adler32) (.response (.common "r1" "c1" true)) ++
      (openFrame.take 4 ++ 1::openFrame.drop 5)]).1 = [.response (.common "r1" "c1" true)] :=
  (@damage_noticed Adler.adler32 [.response (.common "r1" "c1" true)] _ 16 (fun _ => rfl)
    (by decide) _ (mapM_send _ _) (.request (.openChannel "r1" "c1")) (by decide)
    (openFrame.take 4) (openFrame.drop 5) [] 0 1 ((send_eq _).trans (by decide)) (by decide)
    (by decide) (by simp)).1

end Codec
end MessageQueue.Net

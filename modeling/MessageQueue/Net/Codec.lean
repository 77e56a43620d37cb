import MessageQueue.Base.Framing
import MessageQueue.Net.ByteQueue

/-! `ProtobufCodec`: a message travels as a frame of its length, the name of its type, its bytes and
a checksum. The loop that takes frames out of a buffer is a reader of a stream, so that the pieces in
which the stream arrives do not matter. -/
namespace MessageQueue.Net
open Base Bytes

/-- What the codec uses of zlib and of the protobuf library: the checksum, the name of a message's
type, its bytes, and the parser of the type that has a name. -/
structure Runtime (M : Type*) where
  adler32 : BitVec 32 → Bytes → BitVec 32
  typeName : M → Bytes
  serialize : M → Bytes
  createMessage : Bytes → Option (Bytes → Option M)

inductive ErrorCode
  | invalidLength
  | checkSumError
  | invalidNameLen
  | unknownMessageType
  | parseError
  deriving DecidableEq

namespace Codec
variable {M : Type*} (rt : Runtime M)

def kHeaderLen : ℕ := 4
def kMinMessageLen : ℕ := 2*kHeaderLen+2
def kMaxMessageLen : ℕ := 64*1024*1024

def asInt32 (buf : Bytes) : BitVec 32 := .ofNat 32 (beNat (buf.take 4))

/-- The length goes in front when all is there. -/
def fillEmptyBuffer (buf : Buffer) (message : M) : Option Buffer :=
  if buf.readableBytes = 0 then
    let typeName := rt.typeName message
    let data := rt.serialize message
    let buf := buf.appendInt32 (.ofNat 32 (typeName.length+1))
    let buf := buf.append (typeName ++ [0])
    let buf := (buf.ensureWritableBytes data.length).write data (buf.le_writableBytes_ensure _)
    let buf := buf.appendInt32 (rt.adler32 1 buf.peek)
    buf.prependInt32 (.ofNat 32 buf.readableBytes)
  else none

/-- The name ends one byte before its length says, whatever that byte is. -/
def parse (buf : Bytes) (len : ℕ) : Except ErrorCode M :=
  if rt.adler32 1 (buf.take (len-kHeaderLen)) = asInt32 (buf.drop (len-kHeaderLen)) then
    let nameLen := (asInt32 buf).toInt
    if 2 ≤ nameLen ∧ nameLen ≤ (len : ℤ)-2*kHeaderLen then
      match rt.createMessage ((buf.drop kHeaderLen).take (nameLen.toNat-1)) with
      | none => .error .unknownMessageType
      | some parseFromArray =>
        match parseFromArray ((buf.drop (kHeaderLen+nameLen.toNat)).take
            (len-nameLen.toNat-2*kHeaderLen)) with
        | none => .error .parseError
        | some message => .ok message
    else .error .invalidNameLen
  else .error .checkSumError

/-- The messages of the frames that are complete, one after the other, and the error that ends the
loop. After an error the frame stays in the buffer. -/
def onMessage : ℕ → Buffer → List M × Option ErrorCode × Buffer
  | 0,buf => ([],none,buf)
  | fuel+1,buf =>
    if kMinMessageLen+kHeaderLen ≤ buf.readableBytes then
      match buf.peekInt32 with
      | none => ([],none,buf)
      | some len =>
        if kMaxMessageLen < len.toInt ∨ len.toInt < kMinMessageLen then
          ([],some .invalidLength,buf)
        else if len.toInt+kHeaderLen ≤ buf.readableBytes then
          match parse rt (buf.peek.drop kHeaderLen) len.toInt.toNat with
          | .error e => ([],some e,buf)
          | .ok message =>
            match buf.retrieve (kHeaderLen+len.toInt.toNat) with
            | none => ([message],none,buf)
            | some buf =>
              let r := onMessage fuel buf
              (message::r.1,r.2)
        else ([],none,buf)
    else ([],none,buf)

/-- Bytes arrive on a connection. Every frame takes bytes out of the buffer. -/
def receive (buf : Buffer) (bytes : Bytes) : List M × Option ErrorCode × Buffer :=
  onMessage rt (buf.append bytes).readableBytes (buf.append bytes)

/-- They arrive piece by piece: all messages, and all errors. -/
def receiveAll : Buffer → List Bytes → List M × List ErrorCode × Buffer
  | buf,[] => ([],[],buf)
  | buf,c::cs =>
    let r := receive rt buf c
    let t := receiveAll r.2.2 cs
    (r.1 ++ t.1,r.2.1.toList ++ t.2.1,t.2.2)

/-! ### The loop as a reader -/

variable {rt}

/-- One round of the loop, on the bytes that can be read. -/
def front (rt : Runtime M) (bs : Bytes) : Front M ErrorCode :=
  if kMinMessageLen+kHeaderLen ≤ bs.length then
    if kMaxMessageLen < (asInt32 bs).toInt ∨ (asInt32 bs).toInt < kMinMessageLen then
      .bad .invalidLength
    else if (asInt32 bs).toInt+kHeaderLen ≤ bs.length then
      match parse rt (bs.drop kHeaderLen) (asInt32 bs).toInt.toNat with
      | .error e => .bad e
      | .ok message => .item message (kHeaderLen+(asInt32 bs).toInt.toNat)
    else .more
  else .more

theorem asInt32_append {bs cs : Bytes} (h : 4 ≤ bs.length) : asInt32 (bs ++ cs) = asInt32 bs := by
  rw [asInt32,asInt32,List.take_append_of_le_length h]

theorem take_drop_append {bs cs : Bytes} {i j : ℕ} (h : i+j ≤ bs.length) :
    ((bs ++ cs).drop i).take j = (bs.drop i).take j := by
  rw [List.drop_append_of_le_length (by omega),List.take_append_of_le_length (by
    rw [List.length_drop]; omega)]

/-- Only the bytes of the frame are looked at. -/
theorem parse_append {bs cs : Bytes} {len : ℕ} (h : len ≤ bs.length) (hlen : kMinMessageLen ≤ len) :
    parse rt (bs ++ cs) len = parse rt bs len := by
  have hmin : 10 ≤ len := hlen
  have hname : asInt32 (bs ++ cs) = asInt32 bs := asInt32_append (by omega)
  have hsum : asInt32 ((bs ++ cs).drop (len-kHeaderLen)) = asInt32 (bs.drop (len-kHeaderLen)) := by
    have hk : kHeaderLen = 4 := rfl
    rw [List.drop_append_of_le_length (by omega)]
    exact asInt32_append (by rw [List.length_drop]; omega)
  have htake : (bs ++ cs).take (len-kHeaderLen) = bs.take (len-kHeaderLen) :=
    List.take_append_of_le_length (by omega)
  unfold parse
  rw [hname,hsum,htake]
  split
  · simp only
    split
    · next hn =>
      have hk : kHeaderLen = 4 := rfl
      have hle : (asInt32 bs).toInt.toNat+2*kHeaderLen ≤ len := by omega
      rw [take_drop_append (by omega),take_drop_append (by omega)]
    · rfl
  · rfl

/-- A round decides on the bytes of one frame. -/
theorem front_append {bs : Bytes} (h : front rt bs ≠ .more) (cs : Bytes) :
    front rt (bs ++ cs) = front rt bs := by
  have hk : kHeaderLen = 4 := rfl
  have hmin : kMinMessageLen = 10 := rfl
  unfold front at h ⊢
  by_cases hlen : kMinMessageLen+kHeaderLen ≤ bs.length
  · have hbig : kMinMessageLen+kHeaderLen ≤ (bs ++ cs).length := by
      rw [List.length_append]; omega
    have hint : asInt32 (bs ++ cs) = asInt32 bs := asInt32_append (by omega)
    rw [if_pos hlen] at h ⊢
    rw [if_pos hbig,hint]
    by_cases hbad : kMaxMessageLen < (asInt32 bs).toInt ∨ (asInt32 bs).toInt < kMinMessageLen
    · rw [if_pos hbad,if_pos hbad]
    · rw [if_neg hbad] at h ⊢
      rw [if_neg hbad]
      by_cases hall : (asInt32 bs).toInt+kHeaderLen ≤ bs.length
      · have hall' : (asInt32 bs).toInt+kHeaderLen ≤ (bs ++ cs).length := by
          rw [List.length_append]; omega
        rw [if_pos hall,if_pos hall',List.drop_append_of_le_length (by omega),parse_append]
        · rw [List.length_drop]; omega
        · omega
      · rw [if_neg hall] at h
        exact absurd rfl h
  · rw [if_neg hlen] at h
    exact absurd rfl h

/-- The rounds of the loop read a stream. -/
def reader (rt : Runtime M) : Reader UInt8 M ErrorCode where
  front := front rt
  item_length {bs a n} h := by
    have hk : kHeaderLen = 4 := rfl
    have hmin : kMinMessageLen = 10 := rfl
    unfold front at h
    split_ifs at h with hlen hbad hall
    split at h
    · cases h
    · cases h
      omega
  item_append {bs a n} h cs := by
    rw [front_append (by rw [h]; simp),h]
  bad_append {bs e} h cs := by
    rw [front_append (by rw [h]; simp),h]

/-- How a frame that is in front of the buffer ends the loop. -/
def frontError : Front M ErrorCode → Option ErrorCode
  | .bad e => some e
  | _ => none

/-- One round of the loop. -/
theorem onMessage_succ (fuel : ℕ) (buf : Buffer) : onMessage rt (fuel+1) buf =
    match front rt buf.peek with
    | .more => ([],none,buf)
    | .bad e => ([],some e,buf)
    | .item message n =>
      match buf.retrieve n with
      | none => ([message],none,buf)
      | some buf =>
        let r := onMessage rt fuel buf
        (message::r.1,r.2) := by
  have hk : kHeaderLen = 4 := rfl
  have hmin : kMinMessageLen = 10 := rfl
  rw [onMessage,front,Buffer.length_peek]
  by_cases hlen : kMinMessageLen+kHeaderLen ≤ buf.readableBytes
  · have hpeek : buf.peekInt32 = some (asInt32 buf.peek) := if_pos (by omega)
    rw [if_pos hlen,if_pos hlen,hpeek]
    simp only
    by_cases hbad : kMaxMessageLen < (asInt32 buf.peek).toInt ∨
        (asInt32 buf.peek).toInt < kMinMessageLen
    · rw [if_pos hbad,if_pos hbad]
    · rw [if_neg hbad,if_neg hbad]
      by_cases hall : (asInt32 buf.peek).toInt+kHeaderLen ≤ buf.readableBytes
      · rw [if_pos hall,if_pos hall]
        cases parse rt (buf.peek.drop kHeaderLen) (asInt32 buf.peek).toInt.toNat with
        | error e => rfl
        | ok message => rfl
      · rw [if_neg hall,if_neg hall]
  · rw [if_neg hlen,if_neg hlen]

/-- The loop takes the frames out of the buffer that its reader finds there. -/
theorem onMessage_spec (rt : Runtime M) {fuel : ℕ} {buf : Buffer} (h : buf.readableBytes ≤ fuel) :
    (onMessage rt fuel buf).1 = ((reader rt).drain buf.peek).1 ∧
      (onMessage rt fuel buf).2.2.peek = ((reader rt).drain buf.peek).2 ∧
      (onMessage rt fuel buf).2.1 = frontError (front rt ((reader rt).drain buf.peek).2) := by
  induction fuel generalizing buf with
  | zero =>
    have hnil : buf.peek = [] := List.length_eq_zero_iff.mp (by rw [Buffer.length_peek]; omega)
    rw [hnil]
    exact ⟨rfl,hnil,rfl⟩
  | succ fuel ih =>
    rw [onMessage_succ]
    cases hf : front rt buf.peek with
    | more =>
      have hd : (reader rt).drain buf.peek = ([],buf.peek) :=
        Reader.drain_eq (.nil _) fun a n hitem => by cases hf.symm.trans hitem
      rw [hd,hf]
      exact ⟨rfl,rfl,rfl⟩
    | bad e =>
      have hd : (reader rt).drain buf.peek = ([],buf.peek) :=
        Reader.drain_eq (.nil _) fun a n hitem => by cases hf.symm.trans hitem
      rw [hd,hf]
      exact ⟨rfl,rfl,rfl⟩
    | item message n =>
      obtain ⟨hpos,hle⟩ := (reader rt).item_length hf
      rw [Buffer.length_peek] at hle
      obtain ⟨buf',hbuf',hpeek,-⟩ := Buffer.retrieve_spec hle
      have hread : buf'.readableBytes ≤ fuel := by
        rw [← Buffer.length_peek,hpeek,List.length_drop,Buffer.length_peek]
        omega
      obtain ⟨h1,h2,h3⟩ := ih hread
      obtain ⟨hr,hi⟩ := Reader.drain_spec (r := reader rt) buf'.peek
      have hd : (reader rt).drain buf.peek = (message::((reader rt).drain buf'.peek).1,
          ((reader rt).drain buf'.peek).2) :=
        Reader.drain_eq (.cons hf (hpeek ▸ hr)) hi
      rw [hd]
      simp only [hbuf']
      exact ⟨congrArg (message::·) h1,h2,h3⟩

/-! ### Frames -/

def int32Bytes (x : BitVec 32) : Bytes := beBytes 4 x.toNat

@[simp] theorem length_int32Bytes (x : BitVec 32) : (int32Bytes x).length = 4 :=
  beBytes_length 4 _

theorem asInt32_int32Bytes (x : BitVec 32) (cs : Bytes) : asInt32 (int32Bytes x ++ cs) = x := by
  have htake : (int32Bytes x ++ cs).take 4 = int32Bytes x :=
    List.take_left' (length_int32Bytes x)
  rw [asInt32,htake,int32Bytes,beNat_beBytes 4 _ x.isLt,BitVec.ofNat_toNat,BitVec.setWidth_eq]

theorem int32Bytes_asInt32 {bs : Bytes} (h : 4 ≤ bs.length) : int32Bytes (asInt32 bs) = bs.take 4 := by
  have hlen : (bs.take 4).length = 4 := by simpa using h
  have hlt := beNat_lt (bs.take 4)
  have hback := beBytes_beNat (bs.take 4)
  rw [hlen] at hlt hback
  have hw : beNat (bs.take 4) < 2^32 := by norm_num at hlt ⊢; exact hlt
  rw [int32Bytes,asInt32,BitVec.toNat_ofNat,Nat.mod_eq_of_lt hw,hback]

theorem toInt_ofNat {n : ℕ} (h : n < 2^31) : (BitVec.ofNat 32 n).toInt = n := by
  have hn : (BitVec.ofNat 32 n).toNat = n := by
    rw [BitVec.toNat_ofNat]
    omega
  rw [BitVec.toInt_eq_toNat_of_lt (by omega),hn]

theorem ofNat_toInt {x : BitVec 32} (h : 0 ≤ x.toInt) : BitVec.ofNat 32 x.toInt.toNat = x := by
  have hx := BitVec.toInt_eq_toNat_cond x
  have hlt := x.isLt
  have hn : x.toInt.toNat = x.toNat := by
    split at hx <;> omega
  rw [hn,BitVec.ofNat_toNat,BitVec.setWidth_eq]

/-- The name of a type with the byte after it, and the data. -/
def body (name : Bytes) (nul : UInt8) (data : Bytes) : Bytes :=
  int32Bytes (.ofNat 32 (name.length+1)) ++ (name ++ [nul] ++ data)

/-- The length that a frame carries: that of all that comes after it. -/
def size (name data : Bytes) : ℕ := name.length+1+data.length+2*kHeaderLen

def layout (rt : Runtime M) (name : Bytes) (nul : UInt8) (data : Bytes) : Bytes :=
  int32Bytes (.ofNat 32 (size name data)) ++
    (body name nul data ++ int32Bytes (rt.adler32 1 (body name nul data)))

theorem length_body (name : Bytes) (nul : UInt8) (data : Bytes) :
    (body name nul data).length = size name data-kHeaderLen := by
  have hk : kHeaderLen = 4 := rfl
  simp only [body,size,List.length_append,length_int32Bytes,List.length_singleton]
  omega

theorem length_layout (rt : Runtime M) (name : Bytes) (nul : UInt8) (data : Bytes) :
    (layout rt name nul data).length = kHeaderLen+size name data := by
  have hk : kHeaderLen = 4 := rfl
  simp only [layout,List.length_append,length_body,length_int32Bytes,size]
  omega

variable {name data : Bytes} {nul : UInt8} {cs : Bytes}

/-- The parser on a frame that is laid out as it expects. -/
theorem parse_layout (hn : name ≠ []) (hs : size name data ≤ kMaxMessageLen) :
    parse rt (body name nul data ++ int32Bytes (rt.adler32 1 (body name nul data)) ++ cs)
      (size name data) = match rt.createMessage name with
        | none => .error .unknownMessageType
        | some parseFromArray =>
          match parseFromArray data with
          | none => .error .parseError
          | some message => .ok message := by
  have hk : kHeaderLen = 4 := rfl
  have hmax : kMaxMessageLen = 67108864 := rfl
  have hpos : 0 < name.length := List.length_pos_iff.mpr hn
  have hlen := length_body name nul data
  have hsize : size name data = name.length+1+data.length+2*kHeaderLen := rfl
  rw [List.append_assoc]
  have htake : (body name nul data ++ (int32Bytes (rt.adler32 1 (body name nul data)) ++ cs)).take
      (size name data-kHeaderLen) = body name nul data := by
    rw [← hlen,List.take_left]
  have hsum : asInt32 ((body name nul data ++
      (int32Bytes (rt.adler32 1 (body name nul data)) ++ cs)).drop (size name data-kHeaderLen)) =
      rt.adler32 1 (body name nul data) := by
    rw [← hlen,List.drop_left,asInt32_int32Bytes]
  have hname : asInt32 (body name nul data ++
      (int32Bytes (rt.adler32 1 (body name nul data)) ++ cs)) = .ofNat 32 (name.length+1) := by
    rw [body,List.append_assoc,asInt32_int32Bytes]
  have hint : (BitVec.ofNat 32 (name.length+1)).toInt = (name.length+1 : ℕ) :=
    toInt_ofNat (by omega)
  unfold parse
  simp only
  rw [htake,hsum,hname,if_pos rfl,hint,Int.toNat_natCast,if_pos (by omega),
    take_drop_append (by omega),take_drop_append (by omega)]
  have hdrop : (body name nul data).drop kHeaderLen = name ++ [nul] ++ data := by
    rw [body]
    exact List.drop_left' (length_int32Bytes _)
  have htype : (name ++ [nul] ++ data).take (name.length+1-1) = name := by
    rw [List.append_assoc,Nat.add_sub_cancel,List.take_left]
  have hdata : ((body name nul data).drop (kHeaderLen+(name.length+1))).take
      (size name data-(name.length+1)-2*kHeaderLen) = data := by
    rw [← List.drop_drop,hdrop,List.drop_left' (by simp),List.take_of_length_le (by omega)]
  rw [hdrop,htype,hdata]

/-- A frame that is too long is refused by its length. -/
theorem front_layout_long (hs : kMaxMessageLen < size name data) (hs' : size name data < 2^31) :
    front rt (layout rt name nul data ++ cs) = .bad .invalidLength := by
  have hk : kHeaderLen = 4 := rfl
  have hmin : kMinMessageLen = 10 := rfl
  have hmax : kMaxMessageLen = 67108864 := rfl
  have hlen := length_layout rt name nul data
  have hint : asInt32 (layout rt name nul data ++ cs) = .ofNat 32 (size name data) := by
    rw [layout,List.append_assoc,asInt32_int32Bytes]
  unfold front
  rw [if_pos (by rw [List.length_append]; omega),hint,toInt_ofNat hs',if_pos (by omega)]

theorem front_layout (hn : name ≠ []) (hs : size name data ≤ kMaxMessageLen)
    {parseFromArray : Bytes → Option M} (hp : rt.createMessage name = some parseFromArray)
    {message : M} (hm : parseFromArray data = some message) :
    front rt (layout rt name nul data ++ cs) = .item message (layout rt name nul data).length := by
  have hk : kHeaderLen = 4 := rfl
  have hmin : kMinMessageLen = 10 := rfl
  have hmax : kMaxMessageLen = 67108864 := rfl
  have hpos : 0 < name.length := List.length_pos_iff.mpr hn
  have hsize : size name data = name.length+1+data.length+2*kHeaderLen := rfl
  have hlen := length_layout rt name nul data
  have hint : asInt32 (layout rt name nul data ++ cs) = .ofNat 32 (size name data) := by
    rw [layout,List.append_assoc,asInt32_int32Bytes]
  have hdrop : (layout rt name nul data ++ cs).drop kHeaderLen =
      body name nul data ++ int32Bytes (rt.adler32 1 (body name nul data)) ++ cs := by
    rw [layout,List.append_assoc]
    exact List.drop_left' (length_int32Bytes _)
  have hlong : (layout rt name nul data ++ cs).length = kHeaderLen+size name data+cs.length := by
    rw [List.length_append,hlen]
  unfold front
  rw [if_pos (by omega),hint,toInt_ofNat (by omega),if_neg (by omega),if_pos (by omega),hdrop,
    Int.toNat_natCast,parse_layout hn hs,hp]
  simp only [hm,hlen]

/-- The bytes are one frame, and they say the message. -/
def IsFrame (rt : Runtime M) (bytes : Bytes) (message : M) : Prop :=
  ∃ name nul data parseFromArray, name ≠ [] ∧ size name data ≤ kMaxMessageLen ∧
    rt.createMessage name = some parseFromArray ∧ parseFromArray data = some message ∧
      bytes = layout rt name nul data

theorem front_of_isFrame {bytes cs : Bytes} {message : M} (h : IsFrame rt bytes message) :
    front rt (bytes ++ cs) = .item message bytes.length := by
  obtain ⟨name,nul,data,p,hn,hs,hp,hm,rfl⟩ := h
  exact front_layout hn hs hp hm

/-- The bytes of a body, by the length of its name. -/
theorem body_of_lengths {bs : Bytes} {L N : ℕ} (hN : 2 ≤ N) (hL : N+2*kHeaderLen ≤ L)
    (hbs : L ≤ bs.length) (hname : asInt32 bs = .ofNat 32 N) :
    ∃ nul, bs.take (L-kHeaderLen) = body ((bs.drop kHeaderLen).take (N-1)) nul
      ((bs.drop (kHeaderLen+N)).take (L-N-2*kHeaderLen)) := by
  have hk : kHeaderLen = 4 := rfl
  have hlt : N-1 < (bs.drop kHeaderLen).length := by rw [List.length_drop]; omega
  have hlen : ((bs.drop kHeaderLen).take (N-1)).length+1 = N := by
    rw [List.length_take]
    omega
  refine ⟨(bs.drop kHeaderLen)[N-1],?_⟩
  have hword : int32Bytes (.ofNat 32 N) = bs.take kHeaderLen := by
    rw [← hname]
    exact int32Bytes_asInt32 (by omega)
  have htype : (bs.drop kHeaderLen).take (N-1) ++ [(bs.drop kHeaderLen)[N-1]] =
      (bs.drop kHeaderLen).take N := by
    rw [← List.take_succ_eq_append_getElem hlt,Nat.sub_add_cancel (by omega)]
  have hsum : L-kHeaderLen = kHeaderLen+(N+(L-N-2*kHeaderLen)) := by omega
  rw [body,hlen,hword,htype,← List.drop_drop,hsum,List.take_add,List.take_add]

/-- What the parser takes for a frame is one. -/
theorem isFrame_of_front {bs : Bytes} {message : M} {n : ℕ} (h : front rt bs = .item message n) :
    ∃ bytes rest, IsFrame rt bytes message ∧ bs = bytes ++ rest ∧ n = bytes.length := by
  have hk : kHeaderLen = 4 := rfl
  have hmin : kMinMessageLen = 10 := rfl
  have hmax : kMaxMessageLen = 67108864 := rfl
  unfold front at h
  split_ifs at h with hlen hbad hall
  split at h
  · cases h
  next m hm =>
  cases h
  unfold parse at hm
  split_ifs at hm with hsum
  simp only at hm
  split_ifs at hm with hname
  split at hm
  · cases hm
  next parseFromArray hp =>
  split at hm
  · cases hm
  next m' hm' =>
  cases hm
  have hL : asInt32 bs = _ := (ofNat_toInt (by omega)).symm
  have hN : asInt32 (bs.drop kHeaderLen) = _ := (ofNat_toInt (by omega)).symm
  generalize hL' : (asInt32 bs).toInt.toNat = L at *
  generalize hN' : (asInt32 (bs.drop kHeaderLen)).toInt.toNat = N at *
  have hdrop : (bs.drop kHeaderLen).length = bs.length-kHeaderLen := List.length_drop
  obtain ⟨nul,hbody⟩ := @body_of_lengths (bs.drop kHeaderLen) L N (by omega) (by omega) (by omega)
    hN
  set name := ((bs.drop kHeaderLen).drop kHeaderLen).take (N-1) with hnamedef
  set data := ((bs.drop kHeaderLen).drop (kHeaderLen+N)).take (L-N-2*kHeaderLen) with hdatadef
  have hnl : name.length = N-1 := by
    rw [hnamedef,List.length_take,List.length_drop]
    omega
  have hdl : data.length = L-N-2*kHeaderLen := by
    rw [hdatadef,List.length_take,List.length_drop]
    omega
  have hsize : size name data = L := by
    rw [size,hnl,hdl]
    omega
  have hne : name ≠ [] := List.length_pos_iff.mp (by omega)
  refine ⟨_,bs.drop (kHeaderLen+L),⟨name,nul,data,parseFromArray,hne,by omega,hp,hm',rfl⟩,?_,?_⟩
  · have hcheck : int32Bytes (rt.adler32 1 (body name nul data)) =
        ((bs.drop kHeaderLen).drop (L-kHeaderLen)).take 4 := by
      rw [← hbody,hsum]
      exact int32Bytes_asInt32 (by rw [List.length_drop]; omega)
    have hword : int32Bytes (.ofNat 32 L) = bs.take kHeaderLen := by
      rw [← hL]
      exact int32Bytes_asInt32 (by omega)
    have hfour : (bs.drop kHeaderLen).take L = (bs.drop kHeaderLen).take (L-kHeaderLen) ++
        ((bs.drop kHeaderLen).drop (L-kHeaderLen)).take 4 := by
      rw [← List.take_add]
      congr 1
      omega
    rw [layout,hsize,hcheck,hword,← hbody,← hfour,← List.take_add,List.take_append_drop]
  · rw [length_layout,hsize]

/-- The loop reads frames, and nothing but frames. -/
theorem reads_iff {bs rest : Bytes} {messages : List M} : (reader rt).Reads bs messages rest ↔
    ∃ frames, List.Forall₂ (IsFrame rt) frames messages ∧ bs = frames.flatten ++ rest := by
  constructor
  · intro h
    induction h with
    | nil bs => exact ⟨[],.nil,rfl⟩
    | cons first _ ih =>
      obtain ⟨bytes,tail,hframe,rfl,rfl⟩ := isFrame_of_front first
      rw [List.drop_left] at ih
      obtain ⟨frames,hframes,rfl⟩ := ih
      exact ⟨bytes::frames,.cons hframe hframes,by simp⟩
  · rintro ⟨frames,hframes,rfl⟩
    induction hframes with
    | nil => exact .nil _
    | @cons bytes message frames messages hframe _ ih =>
      rw [List.flatten_cons,List.append_assoc]
      refine .cons (front_of_isFrame hframe) ?_
      rwa [List.drop_left]

/-- The frame of a message: a zero byte ends the name of its type. -/
def frame (rt : Runtime M) (message : M) : Bytes :=
  layout rt (rt.typeName message) 0 (rt.serialize message)

/-- What `fillEmptyBuffer` leaves in the buffer. -/
theorem fillEmptyBuffer_spec (rt : Runtime M) {buf : Buffer} (h : buf.readableBytes = 0)
    (hp : kHeaderLen ≤ buf.prependableBytes) (message : M) :
    ∃ b, fillEmptyBuffer rt buf message = some b ∧ b.peek = frame rt message := by
  have hk : kHeaderLen = 4 := rfl
  have hc : kCheapPrepend = 8 := rfl
  have hnil : buf.peek = [] := List.length_eq_zero_iff.mp (by rw [Buffer.length_peek,h])
  unfold fillEmptyBuffer
  rw [if_pos h]
  simp only
  set b₁ := buf.appendInt32 (.ofNat 32 ((rt.typeName message).length+1)) with h₁
  set b₂ := b₁.append (rt.typeName message ++ [0]) with h₂
  set b₃ := (b₂.ensureWritableBytes (rt.serialize message).length).write (rt.serialize message)
    (b₂.le_writableBytes_ensure _) with h₃
  set b₄ := b₃.appendInt32 (rt.adler32 1 b₃.peek) with h₄
  have hbody : b₃.peek = body (rt.typeName message) 0 (rt.serialize message) := by
    rw [h₃,Buffer.peek_write,Buffer.peek_ensureWritableBytes,h₂,Buffer.peek_append,h₁,
      Buffer.appendInt32,Buffer.appendInt,Buffer.peek_append,hnil,List.nil_append,body,
      ← List.append_assoc]
    rfl
  have hall : b₄.peek = b₃.peek ++ int32Bytes (rt.adler32 1 b₃.peek) := Buffer.peek_append
  have hlen : b₄.readableBytes = size (rt.typeName message) (rt.serialize message) := by
    rw [← Buffer.length_peek,hall,hbody,List.length_append,length_body,length_int32Bytes,size]
    omega
  -- every `append` leaves the room in front of the bytes
  have hr₁ : min kCheapPrepend buf.prependableBytes ≤ b₁.prependableBytes :=
    Buffer.prependable_append
  have hr₂ : min kCheapPrepend b₁.prependableBytes ≤ b₂.prependableBytes :=
    Buffer.prependable_append
  have hr₃ : min kCheapPrepend b₂.prependableBytes ≤ b₃.prependableBytes :=
    Buffer.prependable_ensureWritableBytes
  have hr₄ : min kCheapPrepend b₃.prependableBytes ≤ b₄.prependableBytes :=
    Buffer.prependable_append
  have hroom : kHeaderLen ≤ b₄.prependableBytes := by omega
  obtain ⟨b,hb,hpeek,-⟩ := @Buffer.prepend_spec b₄ (int32Bytes (.ofNat 32 b₄.readableBytes))
    (by rw [length_int32Bytes]; omega)
  refine ⟨b,hb,?_⟩
  rw [hpeek,hall,hlen,hbody,frame,layout]

end Codec
end MessageQueue.Net


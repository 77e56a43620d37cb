import MessageQueue.Base.Wire

/-! The messages of `message.proto`. A proto3 `string` holds text, and the parser rejects bytes
that are not UTF-8, so these fields are strings; frames are at most 64 MiB, far below the size at
which the serializer gives up. -/
namespace MessageQueue
open Base Base.Wire

/-- A proto3 enum is open: a peer may send any number, known or not. -/
structure DeliveryMode where
  number : Int32
  deriving DecidableEq, Repr

namespace DeliveryMode

def unknownMode : DeliveryMode := ⟨0⟩
def undurable : DeliveryMode := ⟨1⟩
def durable : DeliveryMode := ⟨2⟩

/-- Enum numbers travel sign-extended to 64 bits. -/
def wire (m : DeliveryMode) : ℕ := m.number.toInt64.toUInt64.toNat

def ofWire (n : ℕ) : DeliveryMode := ⟨(UInt32.ofNat n).toInt32⟩

@[simp] theorem ofWire_wire (m : DeliveryMode) : ofWire m.wire = m := by
  obtain ⟨⟨⟨b⟩⟩⟩ := m
  have hb : BitVec.ofNat 32 (b.signExtend 64).toNat = b := by
    rw [BitVec.ofNat_toNat]
    ext i hi
    rw [BitVec.getElem_setWidth,BitVec.getLsbD_signExtend]
    simp [hi,show i < 64 by omega]
  exact congrArg (fun b => DeliveryMode.mk ⟨⟨b⟩⟩) hb

end DeliveryMode

structure BasicProperties where
  id : String := ""
  deliveryMode : DeliveryMode := .unknownMode
  routingKey : String := ""
  deriving DecidableEq

/-- `properties` is absent until it is first set. -/
structure Payload where
  properties : Option BasicProperties := none
  body : String := ""
  valid : String := ""
  deriving DecidableEq

/-- `offset` and `length` locate the payload in the data file. -/
structure Message where
  payload : Payload := {}
  offset : UInt32 := 0
  length : UInt32 := 0
  deriving DecidableEq

/-- Proto3 leaves fields at their default out. -/
def stringField (k : ℕ) (s : String) : List Field :=
  if s = "" then [] else [⟨k,.bytes (text s)⟩]

namespace BasicProperties

def fields (p : BasicProperties) : List Field :=
  stringField 1 p.id ++
    (if p.deliveryMode.number = 0 then [] else [⟨2,.number p.deliveryMode.wire⟩]) ++
    stringField 3 p.routingKey

/-- A field of another number or kind would be kept aside as unknown by the parser. No file
written here holds one, and the model refuses it. -/
def mergeField (p : BasicProperties) : Field → BasicProperties × Bool
  | ⟨1,.bytes bs⟩ =>
    match readText bs with
    | some s => ({p with id := s},true)
    | none => (p,false)
  | ⟨2,.number n⟩ => ({p with deliveryMode := .ofWire n},true)
  | ⟨3,.bytes bs⟩ =>
    match readText bs with
    | some s => ({p with routingKey := s},true)
    | none => (p,false)
  | _ => (p,false)

/-- Merging written properties into others succeeds field by field. -/
lemma readMessage_merge (q p : BasicProperties) :
    readMessage mergeField q (encodeFields p.fields) =
      (p.fields.foldl (fun a f => (mergeField a f).1) q,true) := by
  apply readMessage_encode mergeField (fun a f => (mergeField a f).1)
  · intro a f hf
    simp only [fields,stringField,List.mem_append] at hf
    rcases hf with (hf | hf) | hf <;> split_ifs at hf <;> simp_all [mergeField]
  · intro f hf
    simp only [fields,stringField,List.mem_append] at hf
    rcases hf with (hf | hf) | hf <;> split_ifs at hf <;> simp_all [Field.Valid]

theorem readMessage_fields (p : BasicProperties) :
    readMessage mergeField {} (encodeFields p.fields) = (p,true) := by
  rw [readMessage_merge]
  obtain ⟨id,mode,key⟩ := p
  have hz : mode.number = 0 → mode = .unknownMode := fun h => by cases mode; cases h; rfl
  simp only [fields,stringField]
  split_ifs <;> simp_all [mergeField]

end BasicProperties

namespace Payload

/-- The accessor reads the default instance while the field is absent. -/
def props (p : Payload) : BasicProperties := p.properties.getD {}

def id (p : Payload) : String := p.props.id
def deliveryMode (p : Payload) : DeliveryMode := p.props.deliveryMode

def fields (p : Payload) : List Field :=
  (p.properties.toList.map fun b => ⟨1,.bytes (encodeFields b.fields)⟩) ++
    stringField 2 p.body ++ stringField 3 p.valid

def serializeAsString (p : Payload) : Bytes := encodeFields p.fields

def mergeField (p : Payload) : Field → Payload × Bool
  | ⟨1,.bytes bs⟩ =>
    let r := readMessage BasicProperties.mergeField p.props bs
    ({p with properties := some r.1},r.2)
  | ⟨2,.bytes bs⟩ =>
    match readText bs with
    | some s => ({p with body := s},true)
    | none => (p,false)
  | ⟨3,.bytes bs⟩ =>
    match readText bs with
    | some s => ({p with valid := s},true)
    | none => (p,false)
  | _ => (p,false)

/-- The fields read before a parse error stay set. -/
def parseFromString (bs : Bytes) : Payload × Bool := readMessage mergeField {} bs

/-- The parser accepts every field that the serializer writes. -/
theorem mergeField_fields (p : Payload) : ∀ a, ∀ f ∈ p.fields,
    mergeField a f = ((mergeField a f).1,true) := by
  intro a f hf
  simp only [fields,stringField,List.mem_append,List.mem_map] at hf
  obtain (⟨b,-,rfl⟩ | hf) | hf := hf
  · simp [mergeField,BasicProperties.readMessage_merge]
  · split_ifs at hf <;> simp_all [mergeField]
  · split_ifs at hf <;> simp_all [mergeField]

theorem fields_number (p : Payload) : ∀ f ∈ p.fields, f.Valid := by
  intro f hf
  simp only [fields,stringField,List.mem_append,List.mem_map] at hf
  obtain (⟨b,-,rfl⟩ | hf) | hf := hf
  · simp [Field.Valid]
  · split_ifs at hf <;> simp_all [Field.Valid]
  · split_ifs at hf <;> simp_all [Field.Valid]

theorem parseFromString_serializeAsString (p : Payload) :
    parseFromString p.serializeAsString = (p,true) := by
  unfold parseFromString serializeAsString
  rw [readMessage_encode mergeField (fun a f => (mergeField a f).1) _ _ p.mergeField_fields
    p.fields_number]
  obtain ⟨props,body,valid⟩ := p
  cases props <;> simp only [fields,stringField] <;> split_ifs <;>
    simp_all [mergeField,Payload.props,BasicProperties.readMessage_fields]

/-- A payload is determined by its bytes. -/
theorem serializeAsString_injective : Function.Injective serializeAsString := fun p q h => by
  have hp := parseFromString_serializeAsString p
  rw [h,parseFromString_serializeAsString] at hp
  exact (Prod.ext_iff.mp hp).1.symm

/-- The valid flag is the last field, and both its values are one byte long. -/
theorem serializeAsString_valid (p : Payload) :
    ({p with valid := "0"}.serializeAsString).length =
      ({p with valid := "1"}.serializeAsString).length := by
  simp only [serializeAsString,fields,encodeFields,List.flatMap_append,List.length_append]
  rfl

end Payload
end MessageQueue

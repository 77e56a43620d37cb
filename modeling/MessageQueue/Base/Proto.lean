import MessageQueue.Base.Table
import MessageQueue.Base.Wire

/-! Messages of protocol buffers, put together from their fields. A kind of field says in which
occurrences a value is written and what an occurrence makes of the value; a format is a list of
numbered fields. What a format writes, it reads back, in whatever order the fields come and with
others between them that it does not know. -/
namespace MessageQueue.Base

namespace Table
variable {κ ν : Type*} [DecidableEq κ] {m : Table κ ν} {k : κ} {v : ν}

/-- Insertion that overwrites, in the order of arrival. -/
def push (m : Table κ ν) (k : κ) (v : ν) : Table κ ν :=
  ⟨(m.erase k).entries ++ [⟨k,v⟩],by
    rw [List.NodupKeys,List.keys,List.map_append]
    refine List.Nodup.append (m.erase k).nodupKeys (by simp) ?_
    rw [List.disjoint_comm]
    simp only [List.map_cons,List.map_nil,List.singleton_disjoint]
    exact fun hk => absurd (AList.mem_keys.mpr hk) (by simp)⟩

theorem entries_push (h : k ∉ m) : (m.push k v).entries = m.entries ++ [⟨k,v⟩] := by
  have herase : (m.erase k).entries = m.entries :=
    List.kerase_of_notMem_keys fun hk => h (AList.mem_keys.mpr hk)
  change (m.erase k).entries ++ [_] = _
  rw [herase]

/-- The entries of a table, pushed one after the other, make it again. -/
theorem foldl_push (m : Table κ ν) :
    m.entries.foldl (fun (t : Table κ ν) e => t.push e.1 e.2) ∅ = m := by
  have hfold : ∀ (es : List (Sigma fun _ : κ => ν)) (t : Table κ ν),
      (t.entries ++ es).NodupKeys →
        (es.foldl (fun (t : Table κ ν) e => t.push e.1 e.2) t).entries = t.entries ++ es := by
    intro es
    induction es with
    | nil => simp
    | cons e es ih =>
      intro t hnodup
      have hnew : e.1 ∉ t := by
        intro hmem
        have hk := List.nodup_append.mp (by simpa [List.NodupKeys,List.keys] using hnodup)
        exact hk.2.2 _ (AList.mem_keys.mp hmem) _ (List.mem_cons_self ..) rfl
      rw [List.foldl_cons,ih]
      · rw [entries_push hnew,List.append_assoc]
        rfl
      · rw [entries_push hnew,List.append_assoc]
        exact hnodup
  exact AList.ext (by simpa using hfold m.entries ∅ (by simpa using m.nodupKeys))

end Table

namespace Proto
open Wire

/-- What a field of a message holds: the occurrences in which a value is written, and what one of
them makes of the value before it, if it can be read. -/
structure Kind (α : Type*) where
  default : α
  write : α → List Value
  merge : α → Value → Option α
  merge_write : ∀ a, (write a).foldlM merge default = some a

/-- The occurrences of the field with a number. -/
def numbered (k : ℕ) (fs : List Field) : List Field := fs.filter (·.number = k)

/-- A message: its numbered fields, all of them at their defaults at first. Only the order of the
occurrences of one field matters. -/
structure Format (α : Type*) where
  default : α
  numbers : List ℕ
  fields : α → List Field
  merge : α → Field → Option α
  mem_numbers : ∀ a, ∀ f ∈ fields a, f.number ∈ numbers
  numbers_valid : ∀ k ∈ numbers, 0 < k ∧ k < 2^29
  merge_fields : ∀ a fs, (∀ k ∈ numbers, numbered k fs = numbered k (fields a)) →
    fs.foldlM merge default = some a

/-! ### Reading and writing -/

section Reader
variable {α : Type*} {step : α → Field → Option α} {fs : List Field} {a b : α}

/-- A field that cannot be read ends the message. -/
def orFail (step : α → Field → Option α) (a : α) (f : Field) : α × Bool :=
  match step a f with
  | some a => (a,true)
  | none => (a,false)

theorem readFields_of_foldlM {fuel : ℕ} (h : fs.foldlM step a = some b)
    (hn : ∀ f ∈ fs, f.Valid) (hl : (encodeFields fs).length ≤ fuel) :
    readFields (orFail step) fuel a (encodeFields fs) = (b,true) := by
  induction fs generalizing fuel a with
  | nil =>
    cases h
    cases fuel <;> rfl
  | cons f fs ih =>
    rw [List.foldlM_cons,Option.bind_eq_bind] at h
    obtain ⟨a',ha,hb⟩ := Option.bind_eq_some_iff.mp h
    have hne := Field.encode_ne_nil f
    have hpos : 0 < f.encode.length := List.length_pos_iff.mpr hne
    simp only [encodeFields,List.flatMap_cons,List.length_append] at hl
    obtain ⟨fuel,rfl⟩ : ∃ k, fuel = k+1 := ⟨fuel-1,by omega⟩
    obtain ⟨c,cs,hc⟩ := List.exists_cons_of_ne_nil hne
    have hr := readField_encode f (encodeFields fs) (hn f (by simp))
    change readFields (orFail step) (fuel+1) a (f.encode ++ encodeFields fs) = _
    rw [hc,List.cons_append] at hr ⊢
    simp only [readFields,hr,orFail,ha]
    exact ih hb (fun x hx => hn x (by simp [hx])) (by simp only [encodeFields]; omega)

/-- What fold the fields have, the reader makes of their bytes. -/
theorem readMessage_of_foldlM (h : fs.foldlM step a = some b) (hn : ∀ f ∈ fs, f.Valid) :
    readMessage (orFail step) a (encodeFields fs) = (b,true) :=
  readFields_of_foldlM h hn le_rfl

end Reader

namespace Format
variable {α β : Type*} (F : Format α)

def serialize (a : α) : Bytes := encodeFields (F.fields a)

/-- The fields of the bytes are merged into a message that is there. -/
def mergeFrom (a : α) (bs : Bytes) : Option α :=
  let r := readMessage (orFail F.merge) a bs
  if r.2 then some r.1 else none

def parse (bs : Bytes) : Option α := F.mergeFrom F.default bs

variable {F} {a b : α} {fs : List Field}

theorem mergeFrom_of_foldlM (h : fs.foldlM F.merge a = some b) (hn : ∀ f ∈ fs, f.Valid) :
    F.mergeFrom a (encodeFields fs) = some b := by
  rw [mergeFrom,readMessage_of_foldlM h hn]
  rfl

/-- The fields may come in another order, and others between them. -/
theorem parse_fields (h : ∀ k ∈ F.numbers, numbered k fs = numbered k (F.fields a))
    (hn : ∀ f ∈ fs, f.Valid) : F.parse (encodeFields fs) = some a :=
  mergeFrom_of_foldlM (F.merge_fields a fs h) hn

/-- What a message is written as, is read as the message. -/
theorem parse_serialize (a : α) : F.parse (F.serialize a) = some a :=
  parse_fields (fun _ _ => rfl) fun f hf => F.numbers_valid _ (F.mem_numbers a f hf)

/-! ### Formats from fields -/

/-- A message without fields. -/
def nil : Format Unit where
  default := ()
  numbers := []
  fields _ := []
  merge _ _ := some ()
  mem_numbers _ f hf := by cases hf
  numbers_valid k hk := by cases hk
  merge_fields _ fs _ := by
    induction fs with
    | nil => rfl
    | cons f fs ih => exact ih fun k hk => by cases hk

/-- A field in front of the others. -/
def mergeField (k : ℕ) (κ : Kind α) (G : β → Field → Option β) (a : α × β) (f : Field) :
    Option (α × β) :=
  if f.number = k then (κ.merge a.1 f.value).map (·,a.2) else (G a.2 f).map (a.1,·)

/-- The occurrences of the field and those of the others do not disturb each other. -/
theorem foldlM_mergeField (k : ℕ) (κ : Kind α) (G : β → Field → Option β) (fs : List Field) (x : α)
    (y : β) : fs.foldlM (mergeField k κ G) (x,y) =
      (((numbered k fs).map Field.value).foldlM κ.merge x).bind fun x' =>
        ((fs.filter (·.number ≠ k)).foldlM G y).map (x',·) := by
  induction fs generalizing x y with
  | nil => rfl
  | cons f fs ih =>
    rw [List.foldlM_cons]
    by_cases hf : f.number = k
    · have hown : numbered k (f::fs) = f::numbered k fs := List.filter_cons_of_pos (by simpa using hf)
      rw [mergeField,if_pos hf,hown,List.filter_cons_of_neg (by simpa using hf),List.map_cons,
        List.foldlM_cons]
      cases κ.merge x f.value with
      | none => rfl
      | some x' => exact ih x' y
    · have hown : numbered k (f::fs) = numbered k fs := List.filter_cons_of_neg (by simpa using hf)
      rw [mergeField,if_neg hf,hown,List.filter_cons_of_pos (by simpa using hf),List.foldlM_cons]
      cases G y f with
      | none => exact (Option.bind_fun_none _).symm
      | some y' => exact ih x y'

theorem numbered_filter {j k : ℕ} (h : j ≠ k) (fs : List Field) :
    numbered j (fs.filter (·.number ≠ k)) = numbered j fs := by
  rw [numbered,numbered,List.filter_filter]
  refine List.filter_congr fun f _ => ?_
  by_cases hf : f.number = j <;> simp [hf,h]

theorem numbered_map (k : ℕ) (vs : List Value) :
    numbered k (vs.map fun v => ⟨k,v⟩) = vs.map fun v => ⟨k,v⟩ :=
  List.filter_eq_self.mpr fun f hf => by
    obtain ⟨v,-,rfl⟩ := List.mem_map.mp hf
    simp

theorem numbered_map_ne {j k : ℕ} (h : k ≠ j) (vs : List Value) :
    numbered j (vs.map fun v => ⟨k,v⟩) = [] :=
  List.filter_eq_nil_iff.mpr fun f hf => by
    obtain ⟨v,-,rfl⟩ := List.mem_map.mp hf
    simpa using h

theorem numbered_append (k : ℕ) (fs gs : List Field) :
    numbered k (fs ++ gs) = numbered k fs ++ numbered k gs :=
  List.filter_append _ _

def field (k : ℕ) (κ : Kind α) (F : Format β) (hk : k ∉ 0::F.numbers := by decide)
    (hlt : k < 2^29 := by decide) : Format (α × β) where
  default := (κ.default,F.default)
  numbers := k::F.numbers
  fields a := (κ.write a.1).map (⟨k,·⟩) ++ F.fields a.2
  merge := mergeField k κ F.merge
  mem_numbers a f hf := by
    rcases List.mem_append.mp hf with hf | hf
    · obtain ⟨v,-,rfl⟩ := List.mem_map.mp hf
      exact List.mem_cons_self
    · exact List.mem_cons_of_mem _ (F.mem_numbers _ f hf)
  numbers_valid j hj := by
    rcases List.mem_cons.mp hj with rfl | hj
    · exact ⟨Nat.pos_of_ne_zero fun h0 => hk (by simp [h0]),hlt⟩
    · exact F.numbers_valid j hj
  merge_fields a fs h := by
    have hne : ∀ j ∈ F.numbers, j ≠ k := fun j hj heq => hk (List.mem_cons_of_mem _ (heq ▸ hj))
    have hnone : numbered k (F.fields a.2) = [] :=
      List.filter_eq_nil_iff.mpr fun f hf => by
        simpa using hne _ (F.mem_numbers _ f hf)
    have hfield : (numbered k fs).map Field.value = κ.write a.1 := by
      rw [h k List.mem_cons_self,numbered_append,numbered_map,hnone,List.append_nil,List.map_map]
      exact List.map_id _
    have hothers : (fs.filter (·.number ≠ k)).foldlM F.merge F.default = some a.2 := by
      refine F.merge_fields a.2 _ fun j hj => ?_
      rw [numbered_filter (hne j hj),h j (List.mem_cons_of_mem _ hj),numbered_append,
        numbered_map_ne (hne j hj).symm,List.nil_append]
    rw [foldlM_mergeField,hfield,κ.merge_write,hothers]
    rfl

/-- The same fields for another type of messages. -/
def congr (e : α ≃ β) (F : Format α) : Format β where
  default := e F.default
  numbers := F.numbers
  fields b := F.fields (e.symm b)
  merge b f := (F.merge (e.symm b) f).map e
  mem_numbers b := F.mem_numbers _
  numbers_valid := F.numbers_valid
  merge_fields b fs h := by
    have hfold : ∀ (fs : List Field) (a : α), fs.foldlM (fun b f => (F.merge (e.symm b) f).map e)
        (e a) = (fs.foldlM F.merge a).map e := by
      intro fs
      induction fs with
      | nil => exact fun _ => rfl
      | cons f fs ih =>
        intro a
        rw [List.foldlM_cons,List.foldlM_cons,e.symm_apply_apply]
        cases F.merge a f with
        | none => rfl
        | some a' => exact ih a'
    rw [hfold,F.merge_fields _ fs h,Option.map_some,e.apply_symm_apply]

end Format

/-! ### Kinds of fields -/

namespace Kind
variable {α κ ν : Type*}

/-- One occurrence, and none of the default. -/
def scalar [DecidableEq α] (zero : α) (write : α → Value) (read : α → Value → Option α)
    (h : ∀ a b, read b (write a) = some a) : Kind α where
  default := zero
  write a := if a = zero then [] else [write a]
  merge := read
  merge_write a := by
    split_ifs with ha
    · rw [ha]
      rfl
    · exact (congrArg (· >>= pure) (h a zero)).trans rfl

/-- One occurrence of the default too. -/
def always (zero : α) (write : α → Value) (read : α → Value → Option α)
    (h : ∀ a b, read b (write a) = some a) : Kind α where
  default := zero
  write a := [write a]
  merge := read
  merge_write a := (congrArg (· >>= pure) (h a zero)).trans rfl

/-- Bytes that are not UTF-8 are refused. -/
def readString (s : String) : Value → Option String
  | .bytes bs => readText bs
  | _ => some s

def string : Kind String := scalar "" (fun s => .bytes (text s)) readString fun a _ => readText_text a

def entryString : Kind String :=
  always "" (fun s => .bytes (text s)) readString fun a _ => readText_text a

/-- A number stands for the value. -/
def number [DecidableEq α] (zero : α) (wire : α → ℕ) (ofWire : ℕ → α)
    (h : ∀ a, ofWire (wire a) = a) : Kind α :=
  scalar zero (fun a => .number (wire a)) (fun a v =>
    match v with
    | .number n => some (ofWire n)
    | _ => some a) fun a _ => congrArg some (h a)

def bool : Kind Bool :=
  number false Bool.toNat (fun n => n%2^64 != 0) fun b => by cases b <;> rfl

def uint32 : Kind UInt32 := number 0 UInt32.toNat .ofNat fun n => by simp

/-- A message inside the message: another occurrence is merged into the first. -/
def message (F : Format α) : Kind (Option α) where
  default := none
  write o := o.toList.map fun a => .bytes (F.serialize a)
  merge o v :=
    match v with
    | .bytes bs => (F.mergeFrom (o.getD F.default) bs).map some
    | _ => some o
  merge_write o := by
    cases o with
    | none => rfl
    | some a =>
      have h : F.mergeFrom F.default (F.serialize a) = some a := F.parse_serialize a
      simp [h]

/-- A message for each entry of a table. -/
def map [DecidableEq κ] (F : Format (κ × ν × Unit)) : Kind (Table κ ν) where
  default := ∅
  write t := t.entries.map fun e => .bytes (F.serialize (e.1,e.2,()))
  merge t v :=
    match v with
    | .bytes bs => (F.parse bs).map fun e => t.push e.1 e.2.1
    | _ => some t
  merge_write t := by
    have hfold : ∀ (es : List (Sigma fun _ : κ => ν)) (t : Table κ ν),
        (es.map fun e => Value.bytes (F.serialize (e.1,e.2,()))).foldlM (fun t v =>
          match v with
          | .bytes bs => (F.parse bs).map fun e => t.push e.1 e.2.1
          | _ => some t) t =
            some (es.foldl (fun (t : Table κ ν) e => t.push e.1 e.2) t) := by
      intro es
      induction es with
      | nil => exact fun _ => rfl
      | cons e es ih =>
        intro t
        rw [List.map_cons,List.foldlM_cons]
        simp only [F.parse_serialize,Option.map_some]
        exact ih _
    rw [hfold,Table.foldl_push]

end Kind
end Proto
end MessageQueue.Base

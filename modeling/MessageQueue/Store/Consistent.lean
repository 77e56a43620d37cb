import MessageQueue.Server.QueueMessage
import MessageQueue.Store.Journal

/-! The representation invariant of a queue's message store: the records of the data file, the
list, the two tables and the two counters describe the same messages. -/
namespace MessageQueue
open Base Payload MessageMapper

/-- A record of the data file belongs to a message object, or it is dead. -/
inductive Entry
  | live (p : MessagePtr)
  | dead (w : Payload)

namespace Entry

def payload (heap : MessagePtr → Message) : Entry → Payload
  | live p => (heap p).payload
  | dead w => w

def owner : Entry → Option MessagePtr
  | live p => some p
  | dead _ => none

/-- The payloads of a file with these records. -/
def payloads (heap : MessagePtr → Message) (es : List Entry) : List Payload :=
  es.map (payload heap)

/-- The objects that have a record, in file order. -/
def owners (es : List Entry) : List MessagePtr := es.filterMap owner

/-- Every object that has a record knows where its payload lies, when the first record starts at
`off`. -/
def Placed (heap : MessagePtr → Message) : ℕ → List Entry → Prop
  | _,[] => True
  | off,e::es =>
    (∀ p ∈ e.owner, (heap p).offset.toNat = off+8 ∧
      (heap p).length.toNat = (heap p).payload.serializeAsString.length) ∧
    Placed heap (off+(e.payload heap).record.length) es

variable {heap heap' : MessagePtr → Message} {es fs : List Entry} {p : MessagePtr} {off : ℕ}

@[simp] theorem owners_nil : owners [] = [] := rfl
@[simp] theorem owners_live : owners (live p::es) = p::owners es := rfl
@[simp] theorem owners_dead {w : Payload} : owners (dead w::es) = owners es := rfl
@[simp] theorem owners_append : owners (es ++ fs) = owners es ++ owners fs := by simp [owners]
@[simp] theorem owners_map_live (ps : List MessagePtr) : owners (ps.map live) = ps := by
  induction ps with
  | nil => rfl
  | cons p ps ih => simp [ih]

@[simp] theorem payloads_append :
    payloads heap (es ++ fs) = payloads heap es ++ payloads heap fs := by simp [payloads]
@[simp] theorem payloads_cons {e : Entry} :
    payloads heap (e::es) = e.payload heap::payloads heap es := rfl

@[simp] theorem payloads_map_live (ps : List MessagePtr) :
    payloads heap (ps.map live) = ps.map fun p => (heap p).payload := by
  simp [payloads,Function.comp_def,payload]

theorem mem_owners : p ∈ owners es ↔ live p ∈ es := by
  induction es with
  | nil => simp
  | cons e es ih => cases e <;> simp [ih]

theorem length_owners_le : (owners es).length ≤ es.length := List.length_filterMap_le _ _

/-- The file depends on the payloads of the owners only. -/
theorem payloads_congr (h : ∀ p ∈ owners es, (heap' p).payload = (heap p).payload) :
    payloads heap' es = payloads heap es := by
  apply List.map_congr_left
  intro e he
  cases e with
  | live p => exact h p (mem_owners.mpr he)
  | dead w => rfl

theorem Placed.congr (hp : Placed heap off es) (h : ∀ p ∈ owners es, heap' p = heap p) :
    Placed heap' off es := by
  induction es generalizing off with
  | nil => trivial
  | cons e es ih =>
    obtain ⟨he,hp⟩ := hp
    cases e with
    | live q =>
      have hq : heap' q = heap q := h q (by simp)
      refine ⟨?_,?_⟩
      · intro p hp; cases hp; rw [hq]; exact he q rfl
      · simp only [payload,hq]
        exact ih hp (fun p hm => h p (by simp [hm]))
    | dead w => exact ⟨by simp [owner],ih hp h⟩

theorem placed_append : Placed heap off (es ++ fs) ↔
    Placed heap off es ∧ Placed heap (off+(journal (payloads heap es)).length) fs := by
  induction es generalizing off with
  | nil => simp [Placed,payloads]
  | cons e es ih =>
    simp only [List.cons_append,Placed,ih,payloads_cons,journal_cons,List.length_append,and_assoc,
      Nat.add_assoc]

end Entry

open Entry

namespace QueueMessage

def Waits (q : QueueMessage) (p : MessagePtr) : Prop := ∃ id, q.waitackMsgs.lookup id = some p

/-- A message that the queue holds is available or waits for its acknowledgement. -/
def Held (q : QueueMessage) (p : MessagePtr) : Prop := p ∈ q.msgs ∨ q.Waits p

def Durable (q : QueueMessage) (p : MessagePtr) : Prop := (q.payload p).deliveryMode = .durable

end QueueMessage

/-- The file part of the invariant: the data file is the records `es` and nothing else, and the
objects that have a record know its place. -/
structure OnFile (name : String) (heap : MessagePtr → Message) (d : Disk) (es : List Entry) :
    Prop where
  plan : d.plan = ∅
  small : (journal (payloads heap es)).length < 2^32
  file : d.files (resolve name) = some (journal (payloads heap es))
  dead : ∀ w, Entry.dead w ∈ es → w.valid = "0"
  alive : ∀ p ∈ owners es, (heap p).payload.valid = "1"
  nodup : (owners es).Nodup
  placed : Placed heap 0 es

/-- The memory part: the objects `own` are the durable ones that the queue holds, and the
durable table lists them under their ids. -/
structure InMemory (q : QueueMessage) (own : List MessagePtr) : Prop where
  durable : ∀ id p, q.durableMsgs.lookup id = some p ↔ p ∈ own ∧ (q.payload p).id = id
  held : ∀ p, p ∈ own ↔ q.Held p ∧ q.Durable p
  msgsNodup : q.msgs.Nodup
  waiting : ∀ id p, q.waitackMsgs.lookup id = some p → (q.payload p).id = id
  apart : ∀ p ∈ q.msgs, ¬ q.Waits p
  bound : ∀ p, q.Held p → p < q.fresh

/-- The store is consistent when its file holds the records `es`, its memory the owners of the
live ones, and its counters count both. -/
structure Consistent (q : QueueMessage) (d : Disk) (es : List Entry) : Prop where
  onFile : OnFile q.mapper.nameDataFile q.heap d es
  inMemory : InMemory q (owners es)
  total : q.totalCount.toNat = es.length
  valid : q.validCount.toNat = (owners es).length

namespace OnFile
variable {name : String} {heap heap' : MessagePtr → Message} {d : Disk} {es : List Entry}

theorem fits (h : OnFile name heap d es) : ∀ p ∈ payloads heap es, p.Fits :=
  fun _ hp => fits_of_journal (h.small.trans (by norm_num)) hp

theorem length_lt (h : OnFile name heap d es) : es.length < 2^32 := by
  have hl := length_le_journal (payloads heap es)
  have hs := h.small
  simp only [payloads,List.length_map] at hl hs
  omega

/-- The valid payloads are those of the owners. -/
theorem valids_payloads (h : OnFile name heap d es) :
    valids (payloads heap es) = (owners es).map fun p => (heap p).payload := by
  have hd := h.dead
  have ha := h.alive
  clear h
  induction es with
  | nil => rfl
  | cons e es ih =>
    have ih := ih (fun w hw => hd w (by simp [hw]))
    cases e with
    | live p =>
      rw [payloads_cons,valids_cons,Entry.payload,ha p (by simp),if_neg (by decide),
        ih (fun p hp => ha p (by simp [hp]))]
      rfl
    | dead w =>
      rw [payloads_cons,valids_cons,Entry.payload,if_pos (hd w (by simp)),ih ha]
      rfl

/-- The file part does not see the objects that have no record. -/
theorem congr (h : OnFile name heap d es) (he : ∀ p ∈ owners es, heap' p = heap p) :
    OnFile name heap' d es := by
  have hp : payloads heap' es = payloads heap es := payloads_congr fun p hp => by rw [he p hp]
  refine ⟨h.plan,?_,?_,h.dead,?_,h.nodup,h.placed.congr he⟩
  · rw [hp]; exact h.small
  · rw [hp]; exact h.file
  · intro p hp; rw [he p hp]; exact h.alive p hp

end OnFile

/-- What the store is for: the available messages in order, those handed out and not yet
acknowledged by id, and the durable ones among both in the order of their insertion. -/
@[ext] structure Ledger where
  available : List Payload
  waiting : String → Option Payload
  durable : List Payload

namespace Ledger

def insert (l : Ledger) (m : Payload) : Ledger :=
  {l with
    available := l.available ++ [m]
    durable := if m.deliveryMode = .durable then l.durable ++ [m] else l.durable}

def front (l : Ledger) : Ledger :=
  match l.available with
  | [] => l
  | m::rest => {l with available := rest, waiting := Function.update l.waiting m.id (some m)}

def remove (l : Ledger) (id : String) : Ledger :=
  match l.waiting id with
  | none => l
  | some m =>
    {l with
      waiting := Function.update l.waiting id none
      durable := if m.deliveryMode = .durable then l.durable.filter (·.id ≠ id) else l.durable}

/-- Memory is lost and the durable messages become available again. -/
def restart (l : Ledger) : Ledger := ⟨l.durable,fun _ => none,l.durable⟩

/-- The ledger that a store represents. -/
def of (q : QueueMessage) (es : List Entry) : Ledger where
  available := q.msgs.map q.payload
  waiting id := (q.waitackMsgs.lookup id).map q.payload
  durable := (owners es).map q.payload

end Ledger
end MessageQueue

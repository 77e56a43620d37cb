import MessageQueue.Base.Run
import MessageQueue.Store.Recovery

/-! Runs of a queue's message store through any number of process lives, and their simulation by
the ledger. -/
namespace MessageQueue
open Base Payload MessageMapper Entry

/-- A call on the store. `construct` stops the process, wherever it is, and makes a new object
over the same files. -/
inductive Op
  | construct
  | recovery
  | insert (bp : Option BasicProperties) (body : String) (durable : Bool) (uuid : String)
  | front
  | remove (msgId : String)

/-- A queue's store in its process, and whether `recovery` has run in this life. -/
structure Store where
  queue : QueueMessage
  disk : Disk
  recovered : Bool

namespace Store
variable (check : QueueMessage.Policy)

def apply (s : Store) : Op → Store
  | .construct =>
    {queue := .new s.queue.mapper, disk := s.queue.mapper.construct s.disk, recovered := false}
  | .recovery =>
    let r := s.queue.recovery s.disk
    {queue := r.2.1, disk := r.2.2, recovered := true}
  | .insert bp body durable uuid =>
    let r := s.queue.insert s.disk bp body durable uuid
    {s with queue := r.2.1, disk := r.2.2}
  | .front => {s with queue := s.queue.front.2}
  | .remove msgId =>
    let r := s.queue.remove check s.disk msgId
    {s with queue := r.2.1, disk := r.2.2}

/-- A new object on a disk. -/
def start (m : MessageMapper) (d : Disk) : Store :=
  {queue := .new m, disk := m.construct d, recovered := false}

/-- The process stops, and the next one recovers. -/
def restart (s : Store) : Store := (s.apply check .construct).apply check .recovery

def fileSize (s : Store) : ℕ := FileHelper.size s.disk s.queue.mapper.nameDataFile

/-- The payloads of the available messages, in order. -/
def available (s : Store) : List Payload := s.queue.msgs.map s.queue.payload

/-- The order of the calls in one life: `recovery` first and once, then the others. -/
def Ready (s : Store) : Op → Prop
  | .construct => True
  | .recovery => s.recovered = false
  | _ => s.recovered = true

/-- An inserted message needs an id that no held message has. -/
def NewId (s : Store) : Op → Prop
  | .insert bp body durable uuid =>
    (∀ p ∈ s.queue.msgs, (s.queue.payload p).id ≠ (insertedPayload bp body durable uuid).id) ∧
      ∀ e ∈ s.queue.waitackMsgs.entries,
        (s.queue.payload e.2).id ≠ (insertedPayload bp body durable uuid).id
  | _ => True

instance (s : Store) : ∀ op, Decidable (s.Ready op)
  | .construct => .isTrue trivial
  | .recovery => inferInstanceAs (Decidable (s.recovered = false))
  | .insert .. | .front | .remove _ => inferInstanceAs (Decidable (s.recovered = true))

instance (s : Store) : ∀ op, Decidable (s.NewId op)
  | .insert bp body durable uuid => inferInstanceAs (Decidable
    ((∀ p ∈ s.queue.msgs, (s.queue.payload p).id ≠ (insertedPayload bp body durable uuid).id) ∧
      ∀ e ∈ s.queue.waitackMsgs.entries,
        (s.queue.payload e.2).id ≠ (insertedPayload bp body durable uuid).id))
  | .construct | .recovery | .front | .remove _ => .isTrue trivial

/-- Which calls a run may make next. -/
def Admits (s : Store) (op : Op) : Prop :=
  s.Ready op ∧ s.NewId op ∧ (s.apply check op).fileSize < 2^32

instance (s : Store) (op : Op) : Decidable (s.Admits check op) :=
  inferInstanceAs (Decidable (s.Ready op ∧ s.NewId op ∧ (s.apply check op).fileSize < 2^32))

/-- The runs of the store in which the data file stays below 2^32 bytes and ids are distinct. -/
def system : Lts Store Op := (Lts.ofFun (apply check)).guarded (Admits check)

end Store

namespace Ledger

/-- Nothing is on the books of an empty data file. -/
def empty : Ledger := ⟨[],fun _ => none,[]⟩

/-- What a call means for the books. -/
def apply (l : Ledger) : Op → Ledger
  | .construct => {l with available := [], waiting := fun _ => none}
  | .recovery => l.restart
  | .insert bp body durable uuid => l.insert (insertedPayload bp body durable uuid)
  | .front => l.front
  | .remove msgId => l.remove msgId

/-- No two messages on the books share an id, and the durable ones are on the books. -/
structure Distinct (l : Ledger) : Prop where
  available : (l.available.map Payload.id).Nodup
  waiting : ∀ id m, l.waiting id = some m → m.id = id ∧ ∀ n ∈ l.available, n.id ≠ id
  durable : (l.durable.map Payload.id).Nodup

variable {l : Ledger}

theorem Distinct.insert (h : l.Distinct) (m : Payload)
    (ha : ∀ n ∈ l.available, n.id ≠ m.id) (hw : l.waiting m.id = none)
    (hd : m.deliveryMode = .durable → ∀ n ∈ l.durable, n.id ≠ m.id) : (l.insert m).Distinct := by
  refine ⟨?_,?_,?_⟩
  · simp only [Ledger.insert,List.map_append]
    refine h.available.append (by simp) ?_
    simpa [List.disjoint_left] using ha
  · intro id n hn
    obtain ⟨hid,hne⟩ := h.waiting id n hn
    refine ⟨hid,?_⟩
    intro x hx
    rcases List.mem_append.mp hx with hx | hx
    · exact hne x hx
    · rw [List.mem_singleton.mp hx]
      rintro rfl
      exact absurd (hw.symm.trans hn) (by simp)
  · simp only [Ledger.insert]
    split_ifs with hdur
    · rw [List.map_append]
      refine h.durable.append (by simp) ?_
      simpa [List.disjoint_left] using hd hdur
    · exact h.durable

theorem Distinct.front (h : l.Distinct) : l.front.Distinct := by
  unfold Ledger.front
  cases ha : l.available with
  | nil => exact h
  | cons m rest =>
    have hnd := h.available
    rw [ha,List.map_cons,List.nodup_cons] at hnd
    refine ⟨hnd.2,?_,h.durable⟩
    intro id n hn
    by_cases hid : id = m.id
    · subst hid
      simp only [Function.update_self,Option.some.injEq] at hn
      subst hn
      exact ⟨rfl,fun x hx e => hnd.1 (e ▸ List.mem_map_of_mem hx)⟩
    · simp only [Function.update_of_ne hid] at hn
      obtain ⟨hm,hne⟩ := h.waiting id n hn
      exact ⟨hm,fun x hx => hne x (by rw [ha]; exact List.mem_cons_of_mem _ hx)⟩

theorem Distinct.remove (h : l.Distinct) (id : String) : (l.remove id).Distinct := by
  unfold Ledger.remove
  cases hw : l.waiting id with
  | none => exact h
  | some m =>
    refine ⟨h.available,?_,?_⟩
    · intro i n hn
      by_cases hi : i = id
      · subst hi; simp at hn
      · simp only [Function.update_of_ne hi] at hn
        exact h.waiting i n hn
    · change ((if m.deliveryMode = .durable then l.durable.filter (·.id ≠ id) else l.durable).map
        Payload.id).Nodup
      split_ifs
      · exact h.durable.sublist (List.Sublist.map _ List.filter_sublist)
      · exact h.durable

theorem Distinct.restart (h : l.Distinct) : l.restart.Distinct :=
  ⟨h.durable,by simp [Ledger.restart],h.durable⟩

end Ledger

/-- The store stands for the ledger: while it is in service by its invariant, before `recovery`
by what the data file holds. -/
inductive Represents : Store → Ledger → Prop
  | ready {q : QueueMessage} {d : Disk} {es : List Entry} (h : Consistent q d es) :
      Represents ⟨q,d,true⟩ (.of q es)
  | left {m : MessageMapper} {d : Disk} {ps : List Payload} (plan : d.plan = ∅)
      (file : d.files (resolve m.nameDataFile) = some (journal ps)) (h : Leftover ps) :
      Represents ⟨.new m,d,false⟩ ⟨[],fun _ => none,valids ps⟩

namespace Represents
variable {s : Store} {l : Ledger} {check : QueueMessage.Policy}

/-- A new object on an absent or an empty file. -/
theorem start (m : MessageMapper) {d : Disk} (hp : d.plan = ∅)
    (he : FileHelper.contents d m.nameDataFile = []) : Represents (.start m d) .empty := by
  obtain ⟨hplan,hfile⟩ := m.construct_done hp
  rw [he] at hfile
  exact left hplan hfile .nil

theorem construct (h : Represents s l) :
    Represents (s.apply check .construct) (l.apply .construct) := by
  cases h with
  | @ready q d es h =>
    obtain ⟨hl,hv⟩ := h.leftover
    obtain ⟨hplan,hfile⟩ := q.mapper.construct_done h.onFile.plan
    rw [FileHelper.contents_eq h.onFile.plan h.onFile.file] at hfile
    have := left (m := q.mapper) hplan hfile hl
    rwa [hv] at this
  | @left m d ps plan file h =>
    obtain ⟨hplan,hfile⟩ := m.construct_done plan
    rw [FileHelper.contents_eq plan file] at hfile
    exact left hplan hfile h

theorem recovery (h : Represents s l) (hr : s.recovered = false) :
    Represents (s.apply check .recovery) (l.apply .recovery) := by
  cases h with
  | ready h => simp at hr
  | @left m d ps plan file h =>
    obtain ⟨es,hc,hl⟩ := Consistent.recovery m plan file h
    have := ready hc
    rw [hl] at this
    exact this

theorem available_eq (h : Represents s l) : s.available = l.available := by
  cases h <;> rfl

/-- Only durable messages are on the durable page. -/
theorem durable_mode (h : Represents s l) : ∀ p ∈ l.durable, p.deliveryMode = .durable := by
  intro w hw
  cases h with
  | ready h =>
    obtain ⟨p,hp,rfl⟩ := List.mem_map.mp hw
    exact ((h.inMemory.held p).mp hp).2
  | left plan file h => exact (h.of_valids hw).2

theorem insert {q : QueueMessage} {d : Disk} {es : List Entry} (h : Consistent q d es)
    (bp : Option BasicProperties) (body : String) (durable : Bool) (uuid : String)
    (hid : Unclaimed q (insertedPayload bp body durable uuid))
    (hs : (Store.apply check ⟨q,d,true⟩ (.insert bp body durable uuid)).fileSize < 2^32) :
    Represents (Store.apply check ⟨q,d,true⟩ (.insert bp body durable uuid))
      ((Ledger.of q es).apply (.insert bp body durable uuid)) := by
  have hsize := h.insert_size bp body durable uuid
  obtain ⟨-,es',hc,hl⟩ := h.insert bp body durable uuid hid (by rw [← hsize]; exact hs)
  have := ready hc
  rw [hl] at this
  exact this

theorem front {q : QueueMessage} {d : Disk} {es : List Entry} (h : Consistent q d es)
    (hid : ∀ p rest, q.msgs = p::rest → q.waitackMsgs.lookup (q.payload p).id = none) :
    Represents (Store.apply check ⟨q,d,true⟩ .front) ((Ledger.of q es).apply .front) := by
  obtain ⟨hc,hl,-⟩ := h.front hid
  have := ready hc
  rw [hl] at this
  exact this

theorem remove {q : QueueMessage} {d : Disk} {es : List Entry} (h : Consistent q d es)
    (msgId : String) :
    Represents (Store.apply check ⟨q,d,true⟩ (.remove msgId))
      ((Ledger.of q es).apply (.remove msgId)) := by
  obtain ⟨-,es',hc,hl,-⟩ := h.remove check msgId
  have := ready hc
  rw [hl] at this
  exact this

end Represents

namespace Consistent
variable {q : QueueMessage} {d : Disk} {es : List Entry}

/-- An id that no held message has is on no page of the ledger. -/
theorem newId (h : Consistent q d es) {m : Payload}
    (hid : ∀ p, q.Held p → (q.payload p).id ≠ m.id) :
    (∀ n ∈ (Ledger.of q es).available, n.id ≠ m.id) ∧ (Ledger.of q es).waiting m.id = none ∧
      (∀ n ∈ (Ledger.of q es).durable, n.id ≠ m.id) ∧ q.durableMsgs.lookup m.id = none := by
  refine ⟨?_,?_,?_,?_⟩
  · intro n hn
    obtain ⟨p,hp,rfl⟩ := List.mem_map.mp hn
    exact hid p (.inl hp)
  · cases hw : q.waitackMsgs.lookup m.id with
    | none => simp [Ledger.of,hw]
    | some p => exact absurd (h.inMemory.waiting _ p hw) (hid p (.inr ⟨_,hw⟩))
  · intro n hn
    obtain ⟨p,hp,rfl⟩ := List.mem_map.mp hn
    exact hid p ((h.inMemory.held p).mp hp).1
  · cases hd : q.durableMsgs.lookup m.id with
    | none => rfl
    | some p =>
      obtain ⟨hp,hi⟩ := (h.inMemory.durable _ p).mp hd
      exact absurd hi (hid p ((h.inMemory.held p).mp hp).1)

/-- With distinct ids no waiting message has the id of an available one. -/
theorem available_unclaimed (hl : (Ledger.of q es).Distinct) {p : MessagePtr} (hm : p ∈ q.msgs) :
    q.waitackMsgs.lookup (q.payload p).id = none := by
  cases hw : q.waitackMsgs.lookup (q.payload p).id with
  | none => rfl
  | some x =>
    have hx := hl.waiting (q.payload p).id (q.payload x) (by simp [Ledger.of,hw])
    exact absurd rfl (hx.2 (q.payload p) (List.mem_map_of_mem hm))

theorem head_unclaimed (hl : (Ledger.of q es).Distinct) (p : MessagePtr)
    (rest : List MessagePtr) (hm : q.msgs = p::rest) :
    q.waitackMsgs.lookup (q.payload p).id = none := available_unclaimed hl (by rw [hm]; simp)

end Consistent

namespace Store
variable {check : QueueMessage.Policy}

/-- One step of the store is one step of the ledger, and ids stay distinct. -/
theorem step_ledger {s t : Store} {op : Op} {l : Ledger} (h : Represents s l ∧ l.Distinct)
    (step : (system check).step s op t) :
    Represents t (l.apply op) ∧ (l.apply op).Distinct := by
  obtain ⟨⟨hready,hnew,hsize⟩,rfl⟩ := step
  obtain ⟨h,hl⟩ := h
  cases op with
  | construct =>
    exact ⟨h.construct,⟨by simp [Ledger.apply],by simp [Ledger.apply],hl.durable⟩⟩
  | recovery => exact ⟨h.recovery hready,hl.restart⟩
  | insert bp body durable uuid =>
    cases h with
    | left => simp [Ready] at hready
    | ready h =>
      obtain ⟨ha,hw,hd,ht⟩ := h.newId fun p hp => by
        rcases hp with hp | ⟨i,hi⟩
        · exact hnew.1 p hp
        · exact hnew.2 ⟨i,p⟩ (AList.mem_lookup_iff.mp hi)
      exact ⟨.insert h bp body durable uuid (fun _ => ht) hsize,hl.insert _ ha hw fun _ => hd⟩
  | front =>
    cases h with
    | left => simp [Ready] at hready
    | ready h => exact ⟨.front h (Consistent.head_unclaimed hl),hl.front⟩
  | remove msgId =>
    cases h with
    | left => simp [Ready] at hready
    | ready h => exact ⟨.remove h msgId,hl.remove msgId⟩

/-- After a run the store stands for the ledger that saw the same calls. -/
theorem run_ledger (m : MessageMapper) {d : Disk} (hp : d.plan = ∅)
    (he : FileHelper.contents d m.nameDataFile = []) {ops : List Op} {s : Store}
    (run : (system check).Run (start m d) ops s) :
    Represents s (ops.foldl Ledger.apply .empty) ∧ (ops.foldl Ledger.apply .empty).Distinct := by
  have hstart : Represents (start m d) .empty ∧ Ledger.empty.Distinct :=
    ⟨.start m hp he,⟨by simp [Ledger.empty],by simp [Ledger.empty],by simp [Ledger.empty]⟩⟩
  obtain ⟨l,hl,hr⟩ := run.simulation (M := Lts.ofFun Ledger.apply)
    (R := fun s l => Represents s l ∧ l.Distinct) hstart
    (fun h step => ⟨_,rfl,step_ledger h step⟩)
  rw [← hl.eq_foldl]
  exact hr

end Store
end MessageQueue

import MessageQueue.Broker.Stores
import MessageQueue.Broker.Clean
import MessageQueue.Store.Crash

/-! What one queue's operations do to another queue. A queue's files are named by its name, and
every operation touches the files of its own queue only; two names that stand for one file are
the exception. -/
namespace MessageQueue
open Base Base.Bytes

namespace FileHelper
variable {d : Disk} {name new : String} {p : Path}

theorem createFile_frame (h : p ≠ resolve name) : (createFile d name).2.files p = d.files p := by
  have hn : (d.next [name]).2.files = d.files := d.next_files
  unfold createFile
  generalize d.next [name] = r at hn ⊢
  obtain ⟨o,e⟩ := r
  cases o <;> simp_all

theorem removeFile_frame (h : p ≠ resolve name) : (removeFile d name).2.files p = d.files p := by
  have hn : (d.next [name]).2.files = d.files := d.next_files
  unfold removeFile
  generalize d.next [name] = r at hn ⊢
  obtain ⟨o,e⟩ := r
  simp only at hn ⊢
  split <;> simp [h,hn]

theorem rename_frame (h : p ≠ resolve name) (h' : p ≠ resolve new) :
    (rename d name new).2.files p = d.files p := by
  have hn : (d.next [name,new]).2.files = d.files := d.next_files
  unfold rename
  generalize d.next [name,new] = r at hn ⊢
  obtain ⟨o,e⟩ := r
  simp only at hn ⊢
  split <;> simp [h,h',hn]

/-! No operation makes a directory or removes one. -/

theorem write_dirs (body : Bytes) (offset : ℕ) :
    (write d name body offset).2.plan.dirs = d.plan.dirs := by
  simp only [write]
  split <;> exact d.next_dirs

theorem createFile_dirs : (createFile d name).2.plan.dirs = d.plan.dirs := by
  simp only [createFile]
  split <;> exact d.next_dirs

theorem removeFile_dirs : (removeFile d name).2.plan.dirs = d.plan.dirs := by
  simp only [removeFile]
  split <;> exact d.next_dirs

theorem rename_dirs : (rename d name new).2.plan.dirs = d.plan.dirs := by
  simp only [rename]
  split <;> exact d.next_dirs

/-! A name that leads nowhere does nothing. -/

theorem next_lost {names : List String} (h : name ∈ names) (hr : ¬ d.plan.Reaches name) :
    d.next names = (.fails none,d) :=
  if_neg fun hall => hr (hall name h)

theorem write_lost (hr : ¬ d.plan.Reaches name) (body : Bytes) (offset : ℕ) :
    (write d name body offset).2 = d := by
  simp only [write,next_lost (List.mem_singleton_self name) hr]
  split
  · rfl
  · next f hf => exact Disk.put_eq_self hf

theorem createFile_lost (hr : ¬ d.plan.Reaches name) : (createFile d name).2 = d := by
  simp only [createFile,next_lost (List.mem_singleton_self name) hr]

theorem removeFile_lost (hr : ¬ d.plan.Reaches name) : (removeFile d name).2 = d := by
  simp only [removeFile,next_lost (List.mem_singleton_self name) hr]
  split <;> simp_all

theorem rename_lost (hr : ¬ d.plan.Reaches name) : (rename d name new).2 = d := by
  simp only [rename,next_lost List.mem_cons_self hr]
  split <;> simp_all

end FileHelper

namespace MessageMapper
variable {m : MessageMapper} {d e : Disk} {p : Path} {P : Disk → Prop}

/-- Whatever is done to the two files of the queue keeps what is said of the disk. -/
structure Keeps (m : MessageMapper) (P : Disk → Prop) : Prop where
  writeData : ∀ {d} body offset, P d → P (FileHelper.write d m.nameDataFile body offset).2
  writeTemp : ∀ {d} body offset, P d → P (FileHelper.write d m.nameTempFile body offset).2
  createData : ∀ {d}, P d → P (FileHelper.createFile d m.nameDataFile).2
  createTemp : ∀ {d}, P d → P (FileHelper.createFile d m.nameTempFile).2
  removeData : ∀ {d}, P d → P (FileHelper.removeFile d m.nameDataFile).2
  removeTemp : ∀ {d}, P d → P (FileHelper.removeFile d m.nameTempFile).2
  rename : ∀ {d}, P d → P (FileHelper.rename d m.nameTempFile m.nameDataFile).2

namespace Keeps

/-- An append is two writes, at most. -/
theorem append {name : String}
    (h : ∀ {d} body offset, P d → P (FileHelper.write d name body offset).2) (hd : P d)
    (msg : Message) : P (insert d name msg).2.2 := by
  simp only [insert]
  have h₁ := h (leBytes 8 msg.payload.serializeAsString.length) (FileHelper.size d name) hd
  generalize FileHelper.write d name _ _ = r at h₁
  obtain ⟨ok,d₁⟩ := r
  cases ok with
  | false => exact h₁
  | true =>
    have h₂ := h msg.payload.serializeAsString (FileHelper.size d name+8) h₁
    simp only
    generalize FileHelper.write d₁ name _ _ = r at h₂
    obtain ⟨ok,d₂⟩ := r
    cases ok <;> exact h₂

theorem insertDataFile (h : m.Keeps P) (hd : P d) (msg : Message) :
    P (m.insertDataFile d msg).2.2 :=
  append h.writeData hd msg

theorem insertTempFiles (h : m.Keeps P) (hd : P d) (ms : List Message) :
    P (m.insertTempFiles d ms).2.2 := by
  induction ms generalizing d with
  | nil => exact hd
  | cons msg ms ih =>
    have hone := append h.writeTemp hd msg
    rw [MessageMapper.insertTempFiles]
    generalize MessageMapper.insert d m.nameTempFile msg = r at hone
    obtain ⟨ok,msg',d'⟩ := r
    cases ok with
    | false => exact hone
    | true => exact ih hone

theorem remove (h : m.Keeps P) (hd : P d) (message : Message) :
    P (m.remove d message).2.2 := by
  simp only [MessageMapper.remove]
  split
  · exact hd
  · exact h.writeData _ _ hd

theorem garbageCollection (h : m.Keeps P) (hd : P d) : P (m.garbageCollection d).2 := by
  have hall := h.insertTempFiles (h.createTemp hd) (m.load d)
  simp only [MessageMapper.garbageCollection]
  generalize m.insertTempFiles _ (m.load d) = r at hall
  obtain ⟨ok,ms,d'⟩ := r
  cases ok with
  | false => exact hall
  | true =>
    have hrem := h.removeData hall
    simp only
    generalize FileHelper.removeFile d' m.nameDataFile = r at hrem
    obtain ⟨ok,d''⟩ := r
    cases ok with
    | false => exact hrem
    | true => exact h.rename hrem

theorem construct (h : m.Keeps P) (hd : P d) : P (m.construct d) := by
  unfold MessageMapper.construct creatFile
  split_ifs
  · exact hd
  · exact h.createData hd

theorem removeFile (h : m.Keeps P) (hd : P d) : P (m.removeFile d) :=
  h.removeTemp (h.removeData hd)

end Keeps

/-- The directories stay what they are. -/
theorem keeps_dirs (m : MessageMapper) (ds : Option (List Path)) :
    m.Keeps fun d => d.plan.dirs = ds where
  writeData body offset hd := (FileHelper.write_dirs body offset).trans hd
  writeTemp body offset hd := (FileHelper.write_dirs body offset).trans hd
  createData hd := FileHelper.createFile_dirs.trans hd
  createTemp hd := FileHelper.createFile_dirs.trans hd
  removeData hd := FileHelper.removeFile_dirs.trans hd
  removeTemp hd := FileHelper.removeFile_dirs.trans hd
  rename hd := FileHelper.rename_dirs.trans hd

/-- Where the names of a queue lead nowhere, nothing changes. -/
theorem keeps_lost (d : Disk) (hdata : ¬ d.plan.Reaches m.nameDataFile)
    (htemp : ¬ d.plan.Reaches m.nameTempFile) : m.Keeps fun e => e = d where
  writeData body offset hd := hd ▸ FileHelper.write_lost (hd ▸ hdata) body offset
  writeTemp body offset hd := hd ▸ FileHelper.write_lost (hd ▸ htemp) body offset
  createData hd := hd ▸ FileHelper.createFile_lost (hd ▸ hdata)
  createTemp hd := hd ▸ FileHelper.createFile_lost (hd ▸ htemp)
  removeData hd := hd ▸ FileHelper.removeFile_lost (hd ▸ hdata)
  removeTemp hd := hd ▸ FileHelper.removeFile_lost (hd ▸ htemp)
  rename hd := hd ▸ FileHelper.rename_lost (hd ▸ htemp)

/-- The path is neither of the two files of the queue. -/
structure Foreign (m : MessageMapper) (p : Path) : Prop where
  data : p ≠ resolve m.nameDataFile
  temp : p ≠ resolve m.nameTempFile

/-- The file of another queue stays as it is. -/
theorem Foreign.keeps (h : m.Foreign p) (c : Option Bytes) : m.Keeps fun d => d.files p = c where
  writeData body offset hd := (FileHelper.write_frame body offset h.data).trans hd
  writeTemp body offset hd := (FileHelper.write_frame body offset h.temp).trans hd
  createData hd := (FileHelper.createFile_frame h.data).trans hd
  createTemp hd := (FileHelper.createFile_frame h.temp).trans hd
  removeData hd := (FileHelper.removeFile_frame h.data).trans hd
  removeTemp hd := (FileHelper.removeFile_frame h.temp).trans hd
  rename hd := (FileHelper.rename_frame h.temp h.data).trans hd

/-- The data file of a queue is no queue's temporary file. -/
theorem data_ne_temp (basedir n₁ n₂ : String) :
    resolve (named basedir n₂).nameDataFile ≠ resolve (named basedir n₁).nameTempFile := by
  obtain ⟨p₂,last₂,h₂⟩ := resolve_append_suffix
    ((if basedir.toList.getLast? ≠ some '/' then basedir ++ "/" else basedir) ++ n₂)
  obtain ⟨p₁,last₁,h₁⟩ := resolve_append_suffix
    ((if basedir.toList.getLast? ≠ some '/' then basedir ++ "/" else basedir) ++ n₁)
  have hdata := h₂ dataFileSuffix (by decide) (by decide)
  have htemp := h₁ tmpFileSuffix (by decide) (by decide)
  intro heq
  have hsegs := hdata.symm.trans (heq.trans htemp)
  have hlast := (List.append_inj' hsegs rfl).2
  rw [List.cons.injEq] at hlast
  have ha : dataFileSuffix.toList.getLast? = some 'a' := by decide
  have hp : tmpFileSuffix.toList.getLast? = some 'p' := by decide
  have hend := congrArg List.getLast? hlast.1
  rw [List.getLast?_append,List.getLast?_append,ha,hp,Option.some_or,Option.some_or] at hend
  exact absurd hend (by decide)

/-- Queues with different data files touch each other's files at no time. -/
theorem foreign_of_ne {basedir n₁ n₂ : String}
    (h : resolve (named basedir n₁).nameDataFile ≠ resolve (named basedir n₂).nameDataFile) :
    (named basedir n₁).Foreign (resolve (named basedir n₂).nameDataFile) :=
  ⟨h.symm,data_ne_temp basedir n₁ n₂⟩

/-- What reading the data file gives depends on that file alone. -/
theorem loadLoop_congr (h : FileHelper.contents d m.nameDataFile =
    FileHelper.contents e m.nameDataFile) (fuel offset length : ℕ) (result : List Message) :
    m.loadLoop d fuel offset length result = m.loadLoop e fuel offset length result := by
  have hsize : FileHelper.size d m.nameDataFile = FileHelper.size e m.nameDataFile :=
    congrArg List.length h
  have hread : ∀ body offset, FileHelper.read d m.nameDataFile body offset =
      FileHelper.read e m.nameDataFile body offset := by
    intro body offset
    simp only [FileHelper.read,h]
  induction fuel generalizing offset length result with
  | zero => rfl
  | succ fuel ih =>
    unfold loadLoop
    rw [hsize]
    simp only [hread,ih]

theorem load_congr (h : FileHelper.contents d m.nameDataFile =
    FileHelper.contents e m.nameDataFile) : m.load d = m.load e := by
  simp only [load,FileHelper.size,h]
  exact loadLoop_congr h _ _ _ _

/-- A new object leaves what there is to read. -/
theorem contents_construct (d : Disk) : FileHelper.contents (m.construct d) m.nameDataFile =
    FileHelper.contents d m.nameDataFile := by
  by_cases hr : d.plan.Reaches m.nameDataFile
  · have hcreate : (FileHelper.createFile d m.nameDataFile).2.plan.Reaches m.nameDataFile := by
      unfold Plan.Reaches
      rwa [FileHelper.createFile_dirs]
    unfold construct creatFile FileHelper.exists'
    rw [Disk.file_eq hr]
    cases hf : d.files (resolve m.nameDataFile) with
    | some f => simp
    | none =>
      simp only [Option.isSome_none,Bool.false_eq_true,↓reduceIte]
      rw [FileHelper.contents,Disk.file_eq hcreate,FileHelper.contents,Disk.file_eq hr,hf]
      simp only [FileHelper.createFile]
      split
      · simp
      · rw [Disk.next_files,hf]
  · have hconstruct : m.construct d = d := by
      unfold construct creatFile
      split_ifs
      · rfl
      · exact FileHelper.createFile_lost hr
    rw [hconstruct]

/-- A restart recovers what the data file says, whatever becomes of the compaction. -/
theorem recovered_eq_load (d : Disk) : m.recovered d = (m.load d).map Message.payload := by
  have hr := QueueMessage.recover_available (m.garbageCollection (m.construct d)).1
    (q := {QueueMessage.new m with msgs := []}) (by simp)
  rw [garbageCollection_payload,load_congr (contents_construct d)] at hr
  exact hr

theorem recovered_congr (h : d.file m.nameDataFile = e.file m.nameDataFile) :
    m.recovered d = m.recovered e := by
  rw [recovered_eq_load,recovered_eq_load,load_congr (congrArg (Option.getD · []) h)]

end MessageMapper

namespace QueueMessage
variable {q : QueueMessage} {d : Disk} {p : Path}

theorem adopt_mapper (q : QueueMessage) (msg : Message) : (q.adopt msg).mapper = q.mapper := by
  unfold adopt
  split <;> rfl

theorem garbageCollection_mapper (check : Policy) (q : QueueMessage) (d : Disk) :
    (q.garbageCollection check d).1.mapper = q.mapper := by
  refine garbageCollection_keeps (P := fun x => x.mapper = q.mapper) ?_ ?_ check d rfl
  · exact fun _ _ _ hx => hx
  · exact fun x m hx => (x.adopt_mapper m).trans hx

theorem remove_mapper (check : Policy) (q : QueueMessage) (d : Disk) (msgId : String) :
    (q.remove check d msgId).2.1.mapper = q.mapper := by
  unfold remove
  split
  · rfl
  · split
    · exact garbageCollection_mapper check _ _
    · rfl

theorem recovery_mapper (q : QueueMessage) (d : Disk) : (q.recovery d).2.1.mapper = q.mapper :=
  recovery_keeps (P := fun x => x.mapper = q.mapper) (fun _ _ _ hx => hx) (fun _ _ hx => hx) d rfl

theorem insert_mapper (q : QueueMessage) (d : Disk) (bp : Option BasicProperties) (body : String)
    (durable : Bool) (uuid : String) : (q.insert d bp body durable uuid).2.1.mapper = q.mapper := by
  cases q.insert_cases d bp body durable uuid with
  | inl h => obtain ⟨d',h⟩ := h; rw [h]
  | inr h => obtain ⟨q',d',m,h,-,hm,-⟩ := h; rw [h]; exact hm

theorem front_mapper (q : QueueMessage) : q.front.2.mapper = q.mapper := by
  unfold front
  split <;> rfl

theorem insert_disk {P : Disk → Prop} (h : q.mapper.Keeps P) (hd : P d)
    (bp : Option BasicProperties) (body : String) (durable : Bool) (uuid : String) :
    P (q.insert d bp body durable uuid).2.2 := by
  unfold insert
  simp only
  split
  · have hi := h.insertDataFile hd {newMessage bp body durable uuid with
      payload := {(newMessage bp body durable uuid).payload with valid := "1"}}
    generalize q.mapper.insertDataFile d _ = r at hi ⊢
    obtain ⟨ok,msg,d'⟩ := r
    cases ok <;> exact hi
  · exact hd

theorem remove_disk {P : Disk → Prop} (h : q.mapper.Keeps P) (hd : P d) (check : Policy)
    (msgId : String) : P (q.remove check d msgId).2.2 := by
  unfold remove
  split
  · exact hd
  · split
    · next x _ _ =>
      have hrem := h.remove hd (q.heap x)
      unfold garbageCollection
      simp only
      split
      · exact hrem
      · exact h.garbageCollection hrem
    · exact hd

theorem recovery_disk {P : Disk → Prop} (h : q.mapper.Keeps P) (hd : P d) :
    P (q.recovery d).2.2 :=
  h.garbageCollection hd

end QueueMessage

namespace MessageManager
variable {m : MessageManager} {d : Disk} {n n' basedir : String} {p : Path}

/-- Every queue's files are those that its name says. -/
structure Homed (basedir : String) (m : MessageManager) : Prop where
  base : m.basedir = basedir
  mapper : m.Stores fun q x => x.store.mapper = .named basedir q

namespace Homed

theorem initQueueMessage (h : Homed basedir m) : Homed basedir (m.initQueueMessage d n).1 := by
  unfold MessageManager.initQueueMessage
  cases hl : m.queueMsgs.lookup n with
  | some x => exact h
  | none =>
    refine ⟨h.base,Table.forall_insert ?_ h.mapper⟩
    rw [← h.base]
    exact QueueMessage.recovery_mapper _ _

theorem destroyQueueMessage (h : Homed basedir m) :
    Homed basedir (m.destroyQueueMessage d n).1 := by
  refine ⟨?_,h.mapper.destroyQueueMessage⟩
  unfold MessageManager.destroyQueueMessage
  split <;> exact h.base

theorem insert (h : Homed basedir m) (bp : Option BasicProperties) (body : String)
    (durable : Bool) (uuid : String) : Homed basedir (m.insert d n bp body durable uuid).2.1 := by
  refine ⟨?_,h.mapper.insert fun q x hx => (QueueMessage.insert_mapper _ _ _ _ _ _).trans hx⟩
  unfold MessageManager.insert
  split <;> exact h.base

theorem front (h : Homed basedir m) : Homed basedir (m.front n).2 := by
  refine ⟨?_,h.mapper.front fun x hx => (QueueMessage.front_mapper _).trans (h.mapper n x hx)⟩
  cases hl : m.queueMsgs.lookup n with
  | none => simp only [MessageManager.front,hl]; exact h.base
  | some x => rw [front_some hl]; exact h.base

theorem ack (h : Homed basedir m) (msgId : String) : Homed basedir (m.ack d n msgId).1 := by
  refine ⟨?_,h.mapper.ack fun q x hx => (QueueMessage.remove_mapper _ _ _ _).trans hx⟩
  unfold MessageManager.ack
  split <;> exact h.base

theorem construct {it : Iteration} {db : Database} {host : VirtualHost}
    (hs : VirtualHost.construct basedir it d db = some host) : Homed basedir host.messages := by
  refine VirtualHost.construct_messages hs ⟨rfl,?_⟩ fun _ _ _ hm => hm.initQueueMessage
  intro q x hx
  simp [MessageManager.new] at hx

/-- What is kept under the names of a queue is kept by its handle. -/
theorem keeps {P : Disk → Prop} (h : Homed basedir m) (hk : (MessageMapper.named basedir n).Keeps P)
    {x : Handle} (hl : m.queueMsgs.lookup n = some x) : x.store.mapper.Keeps P := by
  rw [h.mapper n x hl]
  exact hk

end Homed

section Disk
variable {P : Disk → Prop} (h : Homed basedir m) (hk : (MessageMapper.named basedir n).Keeps P)
  (hd : P d)
include h hk hd

theorem initQueueMessage_disk : P (m.initQueueMessage d n).2 := by
  unfold initQueueMessage
  cases m.queueMsgs.lookup n with
  | some x => exact hd
  | none =>
    rw [← h.base] at hk
    exact QueueMessage.recovery_disk (q := .new (.named m.basedir n)) hk (hk.construct hd)

theorem destroyQueueMessage_disk : P (m.destroyQueueMessage d n).2 := by
  unfold destroyQueueMessage
  cases hl : m.queueMsgs.lookup n with
  | none => exact hd
  | some x => exact (h.keeps hk hl).removeFile hd

theorem insert_disk (bp : Option BasicProperties) (body : String) (durable : Bool)
    (uuid : String) : P (m.insert d n bp body durable uuid).2.2 := by
  unfold insert
  cases hl : m.queueMsgs.lookup n with
  | none => exact hd
  | some x => exact QueueMessage.insert_disk (h.keeps hk hl) hd _ _ _ _

theorem ack_disk (msgId : String) : P (m.ack d n msgId).2 := by
  unfold ack
  cases hl : m.queueMsgs.lookup n with
  | none => exact hd
  | some x => exact QueueMessage.remove_disk (h.keeps hk hl) hd _ _

end Disk

theorem insert_ne (hn : n' ≠ n) (bp : Option BasicProperties) (body : String) (durable : Bool)
    (uuid : String) : (m.insert d n bp body durable uuid).2.1.queueMsgs.lookup n' =
      m.queueMsgs.lookup n' := by
  unfold insert
  cases m.queueMsgs.lookup n with
  | none => rfl
  | some x => exact AList.lookup_insert_ne hn

theorem ack_ne (hn : n' ≠ n) (msgId : String) :
    (m.ack d n msgId).1.queueMsgs.lookup n' = m.queueMsgs.lookup n' := by
  unfold ack
  cases m.queueMsgs.lookup n with
  | none => rfl
  | some x => exact AList.lookup_insert_ne hn

end MessageManager

/-- The rows of the queue. -/
def Database.queueRows (db : Database) (n : String) : Option (List QueueRow) :=
  db.queueTable.map fun rows => rows.filter (·.name = n)

/-- Another queue's deletion leaves them. -/
theorem QueueManager.deleteQueue_rows {m : QueueManager} {db : Database} {n n' : String}
    (hn : n' ≠ n) : (m.deleteQueue db n).2.queueRows n' = db.queueRows n' := by
  unfold deleteQueue
  cases m.lookup n with
  | none => rfl
  | some q =>
    simp only
    split_ifs
    · refine Database.exec_keeps (P := fun d => d.queueRows n' = db.queueRows n') rfl ?_
      intro d hd
      obtain ⟨rows,hrows,rfl⟩ := Option.map_eq_some_iff.mp hd
      rw [Database.spent_queueTable] at hrows
      simp only [Database.queueRows,hrows,Option.map_some,List.filter_filter]
      congr 1
      refine List.filter_congr fun r _ => ?_
      by_cases hr : r.name = n' <;> simp [hr,hn]
    · rfl

theorem BindingManager.unbindByQueue_rows {m : BindingManager} {db : Database} {n n' : String} :
    (m.unbindByQueue db n).2.queueRows n' = db.queueRows n' := by
  have hloop : ∀ (ks : List String) (d : Database),
      (ks.foldl (fun db _ => (BindingMapper.removeByQueue db n).2) d).queueTable = d.queueTable := by
    intro ks
    induction ks with
    | nil => exact fun _ => rfl
    | cons k ks ih =>
      intro d
      refine (ih _).trans (Database.exec_keeps (P := fun e => e.queueTable = d.queueTable) rfl ?_)
      intro e he
      obtain ⟨rows,-,rfl⟩ := Option.map_eq_some_iff.mp he
      rfl
  unfold unbindByQueue Database.queueRows
  rw [hloop]

/-- What there is of a queue: its data file, its messages in memory, the list that the next process
would recover, and the rows that have it declared there. -/
structure QueueView where
  dataFile : Option Bytes
  store : Option QueueMessage
  recovered : List Payload
  rows : Option (List QueueRow)

/-- The operations on a queue. -/
def HostOp.On (n : String) : HostOp → Prop
  | .basicPublish qname .. => qname = n
  | .basicConsume qname => qname = n
  | .basicAck qname _ => qname = n
  | .deleteQueue name => name = n
  | _ => False

/-- The directories of a disk. None of them is named like a file of a queue. -/
structure Directories where
  paths : List Path
  plain : ∀ p ∈ paths, ∀ seg ∈ p.getLast?,
    ¬ dataFileSuffix.toList <:+ seg ∧ ¬ tmpFileSuffix.toList <:+ seg

/-- What a name leads to. -/
def Directories.lookUp (ds : Directories) (name : String) : Option Path :=
  if ∀ p ∈ way name, p ∈ ds.paths then some (resolve name) else none

/-- The data files of the two queues are one. -/
def Shared (ds : Directories) (basedir n n' : String) : Prop :=
  ∃ p, ds.lookUp (MessageMapper.named basedir n).nameDataFile = some p ∧
    ds.lookUp (MessageMapper.named basedir n').nameDataFile = some p

instance (ds : Directories) (basedir n n' : String) : Decidable (Shared ds basedir n n') :=
  decidable_of_iff ((ds.lookUp (MessageMapper.named basedir n).nameDataFile).any fun p =>
    ds.lookUp (MessageMapper.named basedir n').nameDataFile = some p) (by
      simp only [Shared,Option.any_eq_true,decide_eq_true_eq])

/-- The two files of a queue are looked up on one way. -/
theorem MessageMapper.way_named (basedir n : String) :
    way (MessageMapper.named basedir n).nameTempFile =
      way (MessageMapper.named basedir n).nameDataFile := by
  obtain ⟨ps,h⟩ := way_append_suffix
    ((if basedir.toList.getLast? ≠ some '/' then basedir ++ "/" else basedir) ++ n)
  exact (h tmpFileSuffix (by decide)).trans (h dataFileSuffix (by decide)).symm

namespace VirtualHost
variable {h h' : VirtualHost} {basedir n n' : String} {op : HostOp} {ds : Directories}

def view (h : VirtualHost) (n : String) : QueueView where
  dataFile := h.disk.file (MessageMapper.named h.messages.basedir n).nameDataFile
  store := (h.messages.queueMsgs.lookup n).map Handle.store
  recovered := (MessageMapper.named h.messages.basedir n).recovered h.disk
  rows := h.db.queueRows n

theorem view_eq (hb : h.messages.basedir = basedir) (hb' : h'.messages.basedir = basedir)
    (hm : h'.messages.queueMsgs.lookup n = h.messages.queueMsgs.lookup n)
    (hd : h'.disk.file (MessageMapper.named basedir n).nameDataFile =
      h.disk.file (MessageMapper.named basedir n).nameDataFile)
    (hr : h'.db.queueRows n = h.db.queueRows n) : h'.view n = h.view n := by
  unfold view
  rw [hb,hb',hm,hd,hr,MessageMapper.recovered_congr hd]

theorem homed_step (hh : h.messages.Homed basedir) (hs : h.step op = some h') :
    h'.messages.Homed basedir := by
  cases op with
  | declareQueue qname durable exclusive autoDelete args => cases hs; exact hh.initQueueMessage
  | deleteQueue name => cases hs; exact hh.destroyQueueMessage
  | bind ename qname key =>
    cases hs
    unfold VirtualHost.bind
    split
    · exact hh
    · split <;> exact hh
  | basicPublish qname bp body uuid =>
    cases hs
    unfold VirtualHost.basicPublish
    split
    · exact hh
    · exact hh.insert bp body _ uuid
  | basicConsume qname => cases hs; exact hh.front
  | basicAck qname msgId => cases hs; exact hh.ack msgId
  | restart it =>
    change construct h.messages.basedir it h.disk h.db = some h' at hs
    rw [hh.base] at hs
    exact .construct hs
  | declareExchange => cases hs; exact hh
  | deleteExchange => cases hs; exact hh
  | unBind => cases hs; exact hh

/-- An operation on a queue keeps what is kept under the names of that queue. -/
theorem on_disk {P : Disk → Prop} (hh : h.messages.Homed basedir)
    (hk : (MessageMapper.named basedir n).Keeps P) (on : op.On n) (hd : P h.disk)
    (hs : h.step op = some h') : P h'.disk := by
  cases op with
  | basicPublish qname bp body uuid =>
    cases on
    cases hs
    unfold VirtualHost.basicPublish
    split
    · exact hd
    · exact MessageManager.insert_disk hh hk hd bp body _ uuid
  | basicConsume qname => cases hs; exact hd
  | basicAck qname msgId =>
    cases on
    cases hs
    exact MessageManager.ack_disk hh hk hd msgId
  | deleteQueue name =>
    cases on
    cases hs
    exact MessageManager.destroyQueueMessage_disk hh hk hd
  | _ => exact absurd on id

/-- It does not touch the handle of another queue, nor its row. -/
theorem on_others (hn : n' ≠ n) (on : op.On n) (hs : h.step op = some h') :
    h'.messages.queueMsgs.lookup n' = h.messages.queueMsgs.lookup n' ∧
      h'.db.queueRows n' = h.db.queueRows n' := by
  cases op with
  | basicPublish qname bp body uuid =>
    cases on
    cases hs
    unfold VirtualHost.basicPublish
    split
    · exact ⟨rfl,rfl⟩
    · exact ⟨MessageManager.insert_ne hn bp body _ uuid,rfl⟩
  | basicConsume qname =>
    cases on
    cases hs
    exact ⟨MessageManager.front_ne hn,rfl⟩
  | basicAck qname msgId =>
    cases on
    cases hs
    exact ⟨MessageManager.ack_ne hn msgId,rfl⟩
  | deleteQueue name =>
    cases on
    cases hs
    exact ⟨MessageManager.destroyQueueMessage_ne hn,
      (QueueManager.deleteQueue_rows hn).trans BindingManager.unbindByQueue_rows⟩
  | _ => exact absurd on id

/-- The constructor keeps what is kept under the names of every queue. -/
theorem construct_disk {P : Disk → Prop} {it : Iteration} {disk : Disk} {db : Database}
    (hk : ∀ n, (MessageMapper.named basedir n).Keeps P) (hd : P disk)
    (hs : construct basedir it disk db = some h) : P h.disk := by
  have hloop : ∀ (ks : List String) (r : MessageManager × Disk), r.1.Homed basedir → P r.2 →
      P (ks.foldl (fun r qname => r.1.initQueueMessage r.2 qname) r).2 := by
    intro ks
    induction ks with
    | nil => exact fun _ _ hd => hd
    | cons k ks ih =>
      exact fun r hh hd => ih _ hh.initQueueMessage
        (MessageManager.initQueueMessage_disk hh (hk k) hd)
  have hnew : (MessageManager.new basedir).Homed basedir := by
    refine ⟨rfl,fun q x hx => ?_⟩
    simp [MessageManager.new] at hx
  unfold construct at hs
  split at hs
  · cases hs
  · split at hs
    · cases hs
    · split at hs
      · cases hs
      · cases hs
        exact hloop _ _ hnew hd

/-- The directories stay what they are. -/
theorem dirs_step (hh : h.messages.Homed basedir) (hs : h.step op = some h') :
    h'.disk.plan.dirs = h.disk.plan.dirs := by
  have hk : ∀ n, (MessageMapper.named basedir n).Keeps
      fun d => d.plan.dirs = h.disk.plan.dirs := fun n => MessageMapper.keeps_dirs _ _
  cases op with
  | declareQueue qname durable exclusive autoDelete args =>
    cases hs
    exact MessageManager.initQueueMessage_disk hh (hk qname) rfl
  | deleteQueue name =>
    have on : HostOp.On name (.deleteQueue name) := rfl
    exact on_disk hh (hk name) on rfl hs
  | basicPublish qname bp body uuid =>
    have on : HostOp.On qname (.basicPublish qname bp body uuid) := rfl
    exact on_disk hh (hk qname) on rfl hs
  | basicConsume qname => cases hs; rfl
  | basicAck qname msgId =>
    have on : HostOp.On qname (.basicAck qname msgId) := rfl
    exact on_disk hh (hk qname) on rfl hs
  | restart it =>
    change construct h.messages.basedir it h.disk h.db = some h' at hs
    rw [hh.base] at hs
    exact construct_disk hk rfl hs
  | bind ename qname key =>
    cases hs
    unfold VirtualHost.bind
    split
    · rfl
    · split <;> rfl
  | declareExchange => cases hs; rfl
  | deleteExchange => cases hs; rfl
  | unBind => cases hs; rfl

theorem run_homed {it : Iteration} {disk : Disk} {db : Database} {h₀ : VirtualHost}
    {ops : List HostOp} (start : construct basedir it disk db = some h₀)
    (run : system.Run h₀ ops h) :
    h.messages.Homed basedir ∧ h.disk.plan.dirs = disk.plan.dirs := by
  refine run.invariant (P := fun h : VirtualHost => h.messages.Homed basedir ∧
    h.disk.plan.dirs = disk.plan.dirs) ⟨.construct start,?_⟩ fun hh hs =>
      ⟨homed_step hh.1 hs,(dirs_step hh.1 hs).trans hh.2⟩
  exact construct_disk (P := fun d => d.plan.dirs = disk.plan.dirs)
    (fun n => MessageMapper.keeps_dirs _ _) rfl start

/-- An operation on one queue leaves a queue with another data file as it is. -/
theorem step_view (hh : h.messages.Homed basedir) (hds : h.disk.plan.dirs = some ds.paths)
    (hn : n' ≠ n) (hp : ¬ Shared ds basedir n n') (on : op.On n) (hs : h.step op = some h') :
    h'.view n' = h.view n' := by
  have hh' := homed_step hh hs
  have hds' := (dirs_step hh hs).trans hds
  obtain ⟨hm,hr⟩ := on_others hn on hs
  refine view_eq hh.base hh'.base hm ?_ hr
  have hreach : ∀ {d : Disk} (name : String), d.plan.dirs = some ds.paths →
      (d.plan.Reaches name ↔ ∀ p ∈ way name, p ∈ ds.paths) := by
    intro d name hd
    simp [Plan.Reaches,hd]
  by_cases hr' : ∀ p ∈ way (MessageMapper.named basedir n').nameDataFile, p ∈ ds.paths
  · rw [Disk.file_eq ((hreach _ hds).mpr hr'),Disk.file_eq ((hreach _ hds').mpr hr')]
    by_cases hr : ∀ p ∈ way (MessageMapper.named basedir n).nameDataFile, p ∈ ds.paths
    · -- both files are found, and they are two
      have hne : resolve (MessageMapper.named basedir n).nameDataFile ≠
          resolve (MessageMapper.named basedir n').nameDataFile := by
        intro heq
        refine hp ⟨_,if_pos hr,?_⟩
        rw [Directories.lookUp,if_pos hr',heq]
      exact on_disk hh ((MessageMapper.foreign_of_ne hne).keeps _) on rfl hs
    · -- the operation finds no file of its queue
      have hlost : ¬ h.disk.plan.Reaches (MessageMapper.named basedir n).nameDataFile :=
        fun hbad => hr ((hreach _ hds).mp hbad)
      have hlost' : ¬ h.disk.plan.Reaches (MessageMapper.named basedir n).nameTempFile := by
        intro hbad
        rw [hreach _ hds,MessageMapper.way_named] at hbad
        exact hr hbad
      have hsame := on_disk hh (MessageMapper.keeps_lost h.disk hlost hlost') on rfl hs
      rw [hsame]
  · -- there is no file to be found
    rw [Disk.file,if_neg fun hbad => hr' ((hreach _ hds').mp hbad),Disk.file,
      if_neg fun hbad => hr' ((hreach _ hds).mp hbad)]

/-- A process on a blank disk and a blank database. -/
theorem construct_blank (basedir : String) (plan : Plan) :
    ∃ h₀, construct basedir .listed {blankDisk with plan := plan} {} = some h₀ ∧
      h₀.messages = .new basedir ∧ h₀.disk = {blankDisk with plan := plan} :=
  ⟨_,rfl,rfl,rfl⟩

end VirtualHost

namespace MessageMapper
variable {m : MessageMapper} {d : Disk} {f : Bytes}

/-- The files of the queue can be looked up, and nothing else goes wrong. -/
structure Served (m : MessageMapper) (d : Disk) : Prop where
  outcomes : d.plan.outcomes = []
  data : d.plan.Reaches m.nameDataFile
  temp : d.plan.Reaches m.nameTempFile

namespace Served

theorem next (h : m.Served d) {names : List String}
    (hn : ∀ name ∈ names, name = m.nameDataFile ∨ name = m.nameTempFile) :
    d.next names = (.done,d) := by
  have hreach : ∀ name ∈ names, d.plan.Reaches name := by
    intro name hname
    obtain rfl | rfl := hn name hname
    · exact h.data
    · exact h.temp
  rw [Disk.next,if_pos hreach,h.outcomes]

theorem put (h : m.Served d) (p : Path) (c : Option Bytes) : m.Served (d.put p c) :=
  ⟨h.outcomes,h.data,h.temp⟩

/-- A new object of a queue without records leaves an empty data file. -/
theorem construct (h : m.Served d) (hf : ∀ f ∈ d.files (resolve m.nameDataFile), f = []) :
    (m.construct d).plan = d.plan ∧
      (m.construct d).files (resolve m.nameDataFile) = some [] := by
  unfold MessageMapper.construct creatFile FileHelper.exists'
  rw [Disk.file_eq h.data]
  cases hd : d.files (resolve m.nameDataFile) with
  | none =>
    simp only [Option.isSome_none,Bool.false_eq_true,↓reduceIte]
    rw [FileHelper.createFile_next (h.next (by simp))]
    exact ⟨rfl,Disk.put_self⟩
  | some f =>
    exact ⟨rfl,hd.trans (congrArg some (hf f hd))⟩

theorem recovery (h : m.Served d) (hf : d.files (resolve m.nameDataFile) = some []) :
    ((QueueMessage.new m).recovery d).2.2.plan = d.plan ∧
      ((QueueMessage.new m).recovery d).2.2.files (resolve m.nameDataFile) = some [] := by
  have hload : m.load d = [] := by
    rw [load,FileHelper.size_at h.data hf]
    rfl
  have hne := m.distinct
  change (m.garbageCollection d).2.plan = _ ∧ (m.garbageCollection d).2.files _ = _
  simp only [garbageCollection,hload,insertTempFiles]
  rw [FileHelper.createFile_next (h.next (by simp))]
  have h₁ := h.put (resolve m.nameTempFile) (some [])
  simp only
  rw [FileHelper.removeFile_next (f := []) (h₁.next (by simp)) (by simpa [hne.symm] using hf)]
  have h₂ := h₁.put (resolve m.nameDataFile) none
  simp only
  rw [FileHelper.rename_next (f := []) (h₂.next (by simp)) (by simp [hne])]
  exact ⟨rfl,Disk.put_self⟩

/-- An append makes the file longer. -/
theorem insert (h : m.Served d) (hf : d.files (resolve m.nameDataFile) = some f)
    (msg : Message) : (m.insertDataFile d msg).1 = true ∧
      (m.insertDataFile d msg).2.2.files (resolve m.nameDataFile) ≠ some f := by
  have h8 : f.length+8 = (f ++ leBytes 8 msg.payload.serializeAsString.length).length := by simp
  rw [insertDataFile,MessageMapper.insert,FileHelper.size_at h.data hf,
    FileHelper.write_next (h.next (by simp)) hf,splice_end]
  have h₁ := h.put (resolve m.nameDataFile)
    (some (f ++ leBytes 8 msg.payload.serializeAsString.length))
  simp only
  rw [h8,FileHelper.write_next (h₁.next (by simp)) Disk.put_self,splice_end]
  refine ⟨rfl,?_⟩
  simp only [Disk.put_self,ne_eq,Option.some.injEq]
  intro hgrown
  have hlen := congrArg List.length hgrown
  simp at hlen

end Served
end MessageMapper

/-- A new handle finds the empty data file, or makes it. -/
theorem MessageManager.initQueueMessage_file {m : MessageManager} {d : Disk} {n : String}
    (hl : m.queueMsgs.lookup n = none) (h : (MessageMapper.named m.basedir n).Served d)
    (hf : ∀ f ∈ d.files (resolve (MessageMapper.named m.basedir n).nameDataFile), f = []) :
    (m.initQueueMessage d n).2.plan = d.plan ∧ (m.initQueueMessage d n).2.files
      (resolve (MessageMapper.named m.basedir n).nameDataFile) = some [] := by
  obtain ⟨hplan,hfile⟩ := h.construct hf
  have h' : (MessageMapper.named m.basedir n).Served
      ((MessageMapper.named m.basedir n).construct d) :=
    ⟨hplan ▸ h.outcomes,hplan ▸ h.data,hplan ▸ h.temp⟩
  obtain ⟨hplan',hfile'⟩ := h'.recovery hfile
  have hinit : (m.initQueueMessage d n).2 = ((QueueMessage.new (.named m.basedir n)).recovery
      ((MessageMapper.named m.basedir n).construct d)).2.2 := by
    simp [initQueueMessage,hl]
  rw [hinit]
  exact ⟨hplan'.trans hplan,hfile'⟩

/-- A durable message makes the data file longer. -/
theorem QueueMessage.insert_file {q : QueueMessage} {d : Disk} {f : Bytes}
    (h : q.mapper.Served d) (hf : d.files (resolve q.mapper.nameDataFile) = some f)
    (id key body uuid : String) :
    (q.insert d (some ⟨id,.durable,key⟩) body true uuid).2.2.files
      (resolve q.mapper.nameDataFile) ≠ some f := by
  obtain ⟨hok,hfile⟩ := h.insert hf
    {newMessage (some ⟨id,.durable,key⟩) body true uuid with
      payload := {(newMessage (some ⟨id,.durable,key⟩) body true uuid).payload with
        valid := "1"}}
  have hmode : (newMessage (some ⟨id,.durable,key⟩) body true uuid).payload.deliveryMode =
      .durable := rfl
  simp only [insert,hmode,↓reduceIte]
  generalize q.mapper.insertDataFile d _ = r at hok hfile
  obtain ⟨ok,msg,d'⟩ := r
  cases hok
  exact hfile

namespace Shared
variable {ds : Directories} {basedir n n' : String}

/-- Both names lead to a file, and it is the same. -/
theorem spec (h : Shared ds basedir n n') :
    (∀ p ∈ way (MessageMapper.named basedir n).nameDataFile, p ∈ ds.paths) ∧
      (∀ p ∈ way (MessageMapper.named basedir n').nameDataFile, p ∈ ds.paths) ∧
      resolve (MessageMapper.named basedir n).nameDataFile =
        resolve (MessageMapper.named basedir n').nameDataFile := by
  obtain ⟨p,hn,hn'⟩ := h
  unfold Directories.lookUp at hn hn'
  split_ifs at hn with hw
  split_ifs at hn' with hw'
  exact ⟨hw,hw',(Option.some.inj hn).trans (Option.some.inj hn').symm⟩

/-- On a disk with these directories the queue is served. -/
theorem served {d : Disk} (hw : ∀ p ∈ way (MessageMapper.named basedir n).nameDataFile, p ∈ ds.paths)
    (hd : d.plan = {dirs := some ds.paths}) : (MessageMapper.named basedir n).Served d := by
  have hreach : ∀ name, way name = way (MessageMapper.named basedir n).nameDataFile →
      d.plan.Reaches name := by
    intro name hname ds' hds'
    rw [hd] at hds'
    cases hds'
    rwa [hname]
  exact ⟨by rw [hd],hreach _ rfl,hreach _ (MessageMapper.way_named basedir n)⟩

end Shared

/-- Two new durable queues with one data file, as a process on a blank disk declares them. -/
theorem VirtualHost.declare_both {ds : Directories} {basedir n n' : String} (hne : n ≠ n')
    (hshared : Shared ds basedir n n') :
    ∃ h₀ h, construct basedir .listed {blankDisk with plan := {dirs := some ds.paths}} {} = some h₀ ∧
      system.Run h₀ [.declareQueue n true false false ∅,.declareQueue n' true false false ∅] h ∧
      h.messages.Homed basedir ∧ (∃ x, h.messages.queueMsgs.lookup n = some x) ∧
      (h.queues.lookup n).map Queue.declared = some ⟨true,false,false⟩ ∧
      (h.queues.lookup n').map Queue.declared = some ⟨true,false,false⟩ ∧
      h.disk.plan = {dirs := some ds.paths} ∧
      h.disk.files (resolve (MessageMapper.named basedir n').nameDataFile) = some [] := by
  obtain ⟨hw,hw',heq⟩ := hshared.spec
  obtain ⟨h₀,start,hm₀,hd₀⟩ := construct_blank basedir {dirs := some ds.paths}
  let h₁ := (h₀.declareQueue n true false false ∅).2
  let h := (h₁.declareQueue n' true false false ∅).2
  have run : system.Run h₀ [.declareQueue n true false false ∅,.declareQueue n' true false false ∅]
      h := .of_foldlM rfl
  have hh₁ : h₁.messages.Homed basedir :=
    homed_step (.construct start)
      (show h₀.step (.declareQueue n true false false ∅) = some h₁ from rfl)
  have hl₀ : ∀ q, h₀.messages.queueMsgs.lookup q = none := by
    intro q
    rw [hm₀]
    rfl
  have hqueues := congrArg Topology.queues (Kept.run start run).1
  refine ⟨h₀,h,start,run,(run_homed start run).1,?_,?_,?_,?_⟩
  · have hself : (h₁.messages.queueMsgs.lookup n).isSome := MessageManager.initQueueMessage_self
    refine Option.isSome_iff_exists.mp ?_
    exact (congrArg Option.isSome (MessageManager.initQueueMessage_ne hne)).trans hself
  · refine (congrFun hqueues n).trans ?_
    simp [Topology.apply,Topology.empty,hne.symm,hne]
  · refine (congrFun hqueues n').trans ?_
    simp [Topology.apply,Topology.empty,hne.symm]
  · -- the file after the first declaration, and after the second
    have hb₀ : h₀.messages.basedir = basedir := by rw [hm₀]; rfl
    obtain ⟨hplan₁,hfile₁⟩ := MessageManager.initQueueMessage_file (d := h₀.disk) (hl₀ n)
      (by rw [hb₀]; exact Shared.served hw (by rw [hd₀]))
      (by rw [hd₀]; intro f hf; cases hf)
    have hl₁ : h₁.messages.queueMsgs.lookup n' = none :=
      (MessageManager.initQueueMessage_ne hne.symm).trans (hl₀ n')
    have hplan₁ : h₁.disk.plan = {dirs := some ds.paths} := hplan₁.trans (by rw [hd₀])
    rw [hb₀,heq,← hh₁.base] at hfile₁
    obtain ⟨hplan,hfile⟩ := MessageManager.initQueueMessage_file (d := h₁.disk) hl₁
      (by rw [hh₁.base]; exact Shared.served hw' hplan₁)
      (fun f hf => Option.some.inj ((Option.mem_def.mp hf).symm.trans hfile₁))
    rw [hh₁.base] at hfile
    exact ⟨hplan.trans hplan₁,hfile⟩

/-- Where two queues have one data file, a message published to one of them is in the file of the
other. -/
theorem VirtualHost.shared_file {ds : Directories} {basedir n n' : String} (hne : n ≠ n')
    (hshared : Shared ds basedir n n') :
    ∃ h₀ h, construct basedir .listed {blankDisk with plan := {dirs := some ds.paths}} {} = some h₀ ∧
      system.Run h₀ [.declareQueue n true false false ∅,.declareQueue n' true false false ∅] h ∧
      h.existQueue n = true ∧ h.existQueue n' = true ∧
      ∃ op h', op.On n ∧ h.step op = some h' ∧ h'.view n' ≠ h.view n' := by
  obtain ⟨hw,hw',heq⟩ := hshared.spec
  obtain ⟨h₀,h,start,run,hh,⟨x,hx⟩,hq,hq',hplan,hfile⟩ := declare_both hne hshared
  obtain ⟨mqp,hmqp,hdecl⟩ := Option.map_eq_some_iff.mp hq
  obtain ⟨mqp',hmqp',-⟩ := Option.map_eq_some_iff.mp hq'
  have hdurable : mqp.durable = true := congrArg DeclaredQueue.durable hdecl
  let op : HostOp := .basicPublish n (some ⟨"m1",.durable,""⟩) "body" ""
  have hs : h.step op = some (h.basicPublish n (some ⟨"m1",.durable,""⟩) "body" "").2 := rfl
  have hh' := homed_step hh hs
  have hdirs' := dirs_step hh hs
  refine ⟨h₀,h,start,run,?_,?_,op,_,rfl,hs,fun hview => ?_⟩
  · simp [existQueue,QueueManager.exist,hmqp]
  · simp [existQueue,QueueManager.exist,hmqp']
  have hreach : ∀ {d : Disk}, d.plan.dirs = some ds.paths →
      d.plan.Reaches (MessageMapper.named basedir n').nameDataFile := by
    intro d hd ds' hds'
    rw [hd] at hds'
    cases hds'
    exact hw'
  have hdirs : h.disk.plan.dirs = some ds.paths := by rw [hplan]
  have hdata := congrArg QueueView.dataFile hview
  simp only [view,hh.base,hh'.base,Disk.file_eq (hreach hdirs),
    Disk.file_eq (hreach (hdirs'.trans hdirs))] at hdata
  rw [hfile,← heq] at hdata
  rw [← heq] at hfile
  have hmapper := hh.mapper n x hx
  refine QueueMessage.insert_file (q := x.store) (by rw [hmapper]; exact Shared.served hw hplan)
    (by rw [hmapper]; exact hfile) "m1" "" "body" "" ?_
  rw [hmapper]
  refine Eq.trans ?_ hdata
  simp only [basicPublish,QueueManager.selectQueue,hmqp,MessageManager.insert,hx,hdurable]

/-- A base directory and one in it. -/
def dataDirs : Directories where
  paths := [[['/']],[['/'],"data".toList],[['/'],"data".toList,"news".toList]]
  plain := by decide

end MessageQueue

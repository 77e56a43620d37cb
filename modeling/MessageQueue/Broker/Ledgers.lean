import MessageQueue.Broker.Isolation
import MessageQueue.Broker.Publish
import MessageQueue.Store.Guarantees

/-! What a virtual host is for: a shelf of queues, each with a ledger of its messages. While the
storage works, a host does to its stores and files what its operations do to the shelf, and a new
process finds there what the durable queues had on their durable pages. -/
namespace MessageQueue
open Base Payload

/-- A queue, as its users know it. -/
@[ext] structure QueueBook where
  durable : Bool
  ledger : Ledger

namespace QueueBook

def publish (k : QueueBook) (bp : Option BasicProperties) (body uuid : String) : QueueBook :=
  {k with ledger := k.ledger.insert (insertedPayload bp body k.durable uuid)}

def take (k : QueueBook) : QueueBook := {k with ledger := k.ledger.front}

def acknowledge (k : QueueBook) (msgId : String) : QueueBook :=
  {k with ledger := k.ledger.remove msgId}

def restart (k : QueueBook) : QueueBook := {k with ledger := k.ledger.restart}

end QueueBook

abbrev Shelf := String → Option QueueBook

namespace Shelf

def empty : Shelf := fun _ => none

/-- What an operation does to one queue. -/
def at' (t : Shelf) (n : String) (f : QueueBook → QueueBook) : Shelf :=
  Function.update t n ((t n).map f)

/-- A queue is made by its first declaration, and only a durable one outlives the process. -/
def apply (t : Shelf) : HostOp → Shelf
  | .declareQueue qname durable .. =>
    if (t qname).isSome then t else Function.update t qname (some ⟨durable,.empty⟩)
  | .deleteQueue name => Function.update t name none
  | .basicPublish qname bp body uuid => t.at' qname fun k => k.publish bp body uuid
  | .basicConsume qname => t.at' qname QueueBook.take
  | .basicAck qname msgId => t.at' qname fun k => k.acknowledge msgId
  | .restart _ => fun n => ((t n).filter QueueBook.durable).map QueueBook.restart
  | _ => t

end Shelf

/-! ### One queue on the disk -/

/-- The data file of a queue that no process serves has these valid records. -/
def LeftOver (basedir : String) (d : Disk) (n : String) (page : List Payload) : Prop :=
  ∃ ps, FileHelper.contents d (MessageMapper.named basedir n).nameDataFile = journal ps ∧
    Leftover ps ∧ valids ps = page

/-- The store of a queue is in service, and stands for the ledger. -/
structure Handle.Serves (basedir : String) (d : Disk) (n : String) (x : Handle) (l : Ledger) :
    Prop where
  mapper : x.store.mapper = .named basedir n
  consistent : ∃ es, Consistent x.store d es ∧ Ledger.of x.store es = l
  distinct : l.Distinct

section Queue
variable {basedir n : String} {d e : Disk} {x : Handle} {l : Ledger} {page : List Payload}

theorem LeftOver.frame (h : LeftOver basedir d n page) (hd : d.plan = ∅) (hp : e.plan = ∅)
    (hf : e.files (resolve (MessageMapper.named basedir n).nameDataFile) =
      d.files (resolve (MessageMapper.named basedir n).nameDataFile)) : LeftOver basedir e n page := by
  obtain ⟨ps,hps,hall⟩ := h
  refine ⟨ps,?_,hall⟩
  rw [← hps,FileHelper.contents,FileHelper.contents,Disk.file_done hp,Disk.file_done hd,hf]

namespace Handle.Serves

theorem frame (h : x.Serves basedir d n l) (hp : e.plan = ∅)
    (hf : e.files (resolve (MessageMapper.named basedir n).nameDataFile) =
      d.files (resolve (MessageMapper.named basedir n).nameDataFile)) : x.Serves basedir e n l := by
  obtain ⟨es,hc,hl⟩ := h.consistent
  refine ⟨h.mapper,⟨es,⟨⟨hp,hc.onFile.small,?_,hc.onFile.dead,hc.onFile.alive,hc.onFile.nodup,
    hc.onFile.placed⟩,hc.inMemory,hc.total,hc.valid⟩,hl⟩,h.distinct⟩
  rw [h.mapper,hf,← h.mapper]
  exact hc.onFile.file

/-- A process that stops leaves the durable page. -/
theorem leftOver (h : x.Serves basedir d n l) : LeftOver basedir d n l.durable := by
  obtain ⟨es,hc,rfl⟩ := h.consistent
  obtain ⟨hleft,hvalid⟩ := hc.leftover
  refine ⟨_,?_,hleft,hvalid⟩
  rw [← h.mapper]
  exact FileHelper.contents_eq hc.onFile.plan hc.onFile.file

/-- What the next process would recover. -/
theorem recovered (h : x.Serves basedir d n l) :
    (MessageMapper.named basedir n).recovered d = l.durable := by
  obtain ⟨ps,hps,hleft,hvalid⟩ := h.leftOver
  have hfits : ∀ p ∈ ps, p.Fits := fun p hp =>
    fits_of_journal (hleft.small.trans (by norm_num)) hp
  rw [MessageMapper.recovered_eq_load,← hvalid]
  exact MessageMapper.loaded_journal _ ps hps hfits

theorem insert (h : x.Serves basedir d n l) (bp : Option BasicProperties) (body : String)
    (durable : Bool) (uuid : String)
    (ok : Store.Admits QueueMessage.garbageCollectionCheck ⟨x.store,d,true⟩
      (.insert bp body durable uuid)) :
    (x.store.insert d bp body durable uuid).2.2.plan = ∅ ∧
      Serves basedir (x.store.insert d bp body durable uuid).2.2 n
        {x with store := (x.store.insert d bp body durable uuid).2.1}
        (l.insert (insertedPayload bp body durable uuid)) := by
  obtain ⟨es,hc,rfl⟩ := h.consistent
  obtain ⟨-,hnew,hsize⟩ := ok
  obtain ⟨ha,hw,hd,ht⟩ := hc.newId fun p hp => by
    rcases hp with hp | ⟨i,hi⟩
    · exact hnew.1 p hp
    · exact hnew.2 ⟨i,p⟩ (AList.mem_lookup_iff.mp hi)
  obtain ⟨-,es',hc',hl'⟩ := hc.insert bp body durable uuid (fun _ => ht)
    (by rw [← hc.insert_size]; exact hsize)
  exact ⟨hc'.onFile.plan,(QueueMessage.insert_mapper _ _ _ _ _ _).trans h.mapper,⟨es',hc',hl'⟩,
    h.distinct.insert _ ha hw fun _ => hd⟩

theorem front (h : x.Serves basedir d n l) :
    Serves basedir d n {x with store := x.store.front.2} l.front := by
  obtain ⟨es,hc,rfl⟩ := h.consistent
  obtain ⟨hc',hl',-⟩ := hc.front (Consistent.head_unclaimed h.distinct)
  exact ⟨(QueueMessage.front_mapper _).trans h.mapper,⟨es,hc',hl'⟩,h.distinct.front⟩

theorem remove (h : x.Serves basedir d n l) (msgId : String) :
    (x.store.remove QueueMessage.garbageCollectionCheck d msgId).2.2.plan = ∅ ∧
      Serves basedir (x.store.remove QueueMessage.garbageCollectionCheck d msgId).2.2 n
        {x with store := (x.store.remove QueueMessage.garbageCollectionCheck d msgId).2.1}
        (l.remove msgId) := by
  obtain ⟨es,hc,rfl⟩ := h.consistent
  obtain ⟨-,es',hc',hl',-⟩ := hc.remove QueueMessage.garbageCollectionCheck msgId
  exact ⟨hc'.onFile.plan,(QueueMessage.remove_mapper _ _ _ _).trans h.mapper,⟨es',hc',hl'⟩,
    h.distinct.remove msgId⟩

/-- A deleted queue leaves no file. -/
theorem removeFile (h : x.Serves basedir d n l) : (x.store.mapper.removeFile d).plan = ∅ ∧
    LeftOver basedir (x.store.mapper.removeFile d) n [] := by
  obtain ⟨es,hc,-⟩ := h.consistent
  have hdata := FileHelper.removeFile_done hc.onFile.plan hc.onFile.file
  have hplan : (FileHelper.removeFile d x.store.mapper.nameDataFile).2.plan = ∅ := by
    rw [hdata]
    exact hc.onFile.plan
  have hgone : (x.store.mapper.removeFile d).files (resolve x.store.mapper.nameDataFile) = none := by
    rw [MessageMapper.removeFile,FileHelper.removeFile_frame x.store.mapper.distinct.symm,hdata]
    exact Disk.put_self
  have hplan' : (x.store.mapper.removeFile d).plan = ∅ := by
    unfold MessageMapper.removeFile
    generalize (FileHelper.removeFile d x.store.mapper.nameDataFile).2 = d' at hplan ⊢
    simp only [FileHelper.removeFile,Disk.next_done hplan]
    split <;> exact hplan
  refine ⟨hplan',[],?_,.nil,rfl⟩
  rw [← h.mapper,FileHelper.contents,Disk.file_done hplan',hgone]
  rfl

end Handle.Serves

/-- A new handle recovers what the file has, and touches no other queue's file. -/
theorem LeftOver.initQueueMessage {m : MessageManager} (h : LeftOver m.basedir d n page)
    (hp : d.plan = ∅) (hl : m.queueMsgs.lookup n = none) :
    (m.initQueueMessage d n).2.plan = ∅ ∧
      (∀ p, (MessageMapper.named m.basedir n).Foreign p →
        (m.initQueueMessage d n).2.files p = d.files p) ∧
      ∃ x, (m.initQueueMessage d n).1.queueMsgs.lookup n = some x ∧
        x.Serves m.basedir (m.initQueueMessage d n).2 n ⟨page,fun _ => none,page⟩ := by
  obtain ⟨ps,hps,hleft,rfl⟩ := h
  obtain ⟨hplan,hfile⟩ := (MessageMapper.named m.basedir n).construct_done hp
  rw [hps] at hfile
  obtain ⟨es,hc,hledger⟩ := Consistent.recovery (MessageMapper.named m.basedir n) hplan hfile hleft
  simp only [MessageManager.initQueueMessage,hl]
  refine ⟨hc.onFile.plan,fun p hforeign => ?_,_,AList.lookup_insert _,
    QueueMessage.recovery_mapper _ _,⟨es,hc,hledger⟩,?_⟩
  · have hkeeps := hforeign.keeps (d.files p)
    exact hkeeps.garbageCollection (hkeeps.construct rfl)
  · have hnodup : ((valids ps).map Payload.id).Nodup := hleft.distinct
    exact ⟨hnodup,by simp,hnodup⟩

end Queue

/-- While the constructor opens the queues, one after the other: some are in service, and the others
still have their files only. -/
structure Opening (basedir : String) (names : List String) (page : String → List Payload)
    (r : MessageManager × Disk) : Prop where
  base : r.1.basedir = basedir
  plan : r.2.plan = ∅
  known : ∀ n, (r.1.queueMsgs.lookup n).isSome → n ∈ names
  served : ∀ n x, r.1.queueMsgs.lookup n = some x →
    x.Serves basedir r.2 n ⟨page n,fun _ => none,page n⟩
  left : ∀ n ∈ names, r.1.queueMsgs.lookup n = none → LeftOver basedir r.2 n (page n)

/-- Each of the names has a file of its own. -/
def Apart (basedir : String) (names : List String) : Prop :=
  ∀ n ∈ names, ∀ n' ∈ names, resolve (MessageMapper.named basedir n).nameDataFile =
    resolve (MessageMapper.named basedir n').nameDataFile → n = n'

theorem Apart.foreign {basedir n n' : String} {names : List String} (h : Apart basedir names)
    (hn : n ∈ names) (hn' : n' ∈ names) (hne : n' ≠ n) : (MessageMapper.named basedir n).Foreign
      (resolve (MessageMapper.named basedir n').nameDataFile) :=
  MessageMapper.foreign_of_ne fun heq => hne (h n hn n' hn' heq).symm

namespace Opening
variable {basedir n : String} {names : List String} {page : String → List Payload}
  {r : MessageManager × Disk}

theorem step (h : Opening basedir names page r) (apart : Apart basedir names) (hn : n ∈ names) :
    Opening basedir names page (r.1.initQueueMessage r.2 n) := by
  cases hl : r.1.queueMsgs.lookup n with
  | some x =>
    have hinit : r.1.initQueueMessage r.2 n = r := by
      simp only [MessageManager.initQueueMessage,hl]
    rw [hinit]
    exact h
  | none =>
    have hleft := h.left n hn hl
    rw [← h.base] at hleft
    obtain ⟨hplan,hfiles,x,hx,hserves⟩ := hleft.initQueueMessage h.plan hl
    rw [h.base] at hfiles hserves
    have hsame : ∀ n', n' ≠ n → (r.1.initQueueMessage r.2 n).1.queueMsgs.lookup n' =
        r.1.queueMsgs.lookup n' := fun n' hne => MessageManager.initQueueMessage_ne hne
    refine ⟨?_,hplan,fun n' hsome => ?_,fun n' y hy => ?_,fun n' hn' hnone => ?_⟩
    · simp only [MessageManager.initQueueMessage,hl]
      exact h.base
    · by_cases hne : n' = n
      · exact hne ▸ hn
      · exact h.known n' (hsame n' hne ▸ hsome)
    · by_cases hne : n' = n
      · subst hne
        cases hx.symm.trans hy
        exact hserves
      · rw [hsame n' hne] at hy
        have hn' := h.known n' (by rw [hy]; rfl)
        exact (h.served n' y hy).frame hplan (hfiles _ (apart.foreign hn hn' hne))
    · by_cases hne : n' = n
      · subst hne
        cases hx.symm.trans hnone
      · rw [hsame n' hne] at hnone
        exact (h.left n' hn' hnone).frame h.plan hplan (hfiles _ (apart.foreign hn hn' hne))

theorem foldl (h : Opening basedir names page r) (apart : Apart basedir names) {ks : List String}
    (hks : ks ⊆ names) :
    Opening basedir names page (ks.foldl (fun r k => r.1.initQueueMessage r.2 k) r) :=
  List.foldlRecOn ks _ h fun _ hr _ hk => hr.step apart (hks hk)

end Opening

/-! ### The virtual host -/

namespace VirtualHost

/-- The queues, as their users know them. The durable page is what the next process would recover. -/
def shelf (h : VirtualHost) : Shelf := fun n =>
  (h.queues.lookup n).bind fun q => (h.messages.queueMsgs.lookup n).map fun x =>
    { durable := q.durable
      ledger :=
        { available := x.store.available
          waiting := fun id => (x.store.waitackMsgs.lookup id).map x.store.payload
          durable := (MessageMapper.named h.messages.basedir n).recovered h.disk } }

/-- The operation names a known queue when it declares one, and publishes under an id that is new to
the queue, as long as the file does not grow too large. -/
def Admits (names : List String) (h : VirtualHost) : HostOp → Prop
  | .declareQueue qname .. => qname ∈ names
  | .basicPublish qname bp body uuid => ∀ q ∈ h.queues.lookup qname,
    ∀ x ∈ h.messages.queueMsgs.lookup qname,
      Store.Admits QueueMessage.garbageCollectionCheck ⟨x.store,h.disk,true⟩
        (.insert bp body q.durable uuid)
  | _ => True

instance (names : List String) (h : VirtualHost) : ∀ op, Decidable (h.Admits names op)
  | .declareQueue qname _ _ _ _ => inferInstanceAs (Decidable (qname ∈ names))
  | .basicPublish qname bp body uuid => inferInstanceAs (Decidable (∀ q ∈ h.queues.lookup qname,
    ∀ x ∈ h.messages.queueMsgs.lookup qname,
      Store.Admits QueueMessage.garbageCollectionCheck ⟨x.store,h.disk,true⟩
        (.insert bp body q.durable uuid)))
  | .declareExchange _ _ _ _ _ | .deleteExchange _ | .deleteQueue _ | .bind _ _ _ | .unBind _ _
  | .basicConsume _ | .basicAck _ _ | .restart _ => .isTrue trivial

/-- Each operation of the list is admitted when its turn comes. -/
def AdmitsAll (names : List String) (h : VirtualHost) : List HostOp → Prop
  | [] => True
  | op::ops => h.Admits names op ∧ ∀ h' ∈ h.step op, h'.AdmitsAll names ops

instance decidableAdmitsAll (names : List String) :
    ∀ (h : VirtualHost) (ops : List HostOp), Decidable (h.AdmitsAll names ops)
  | _,[] => .isTrue trivial
  | h,op::ops =>
    have (h' : VirtualHost) : Decidable (h'.AdmitsAll names ops) := decidableAdmitsAll names h' ops
    inferInstanceAs (Decidable (h.Admits names op ∧ ∀ h' ∈ h.step op, h'.AdmitsAll names ops))

/-- The stores, the files and the registry hold what is on the shelf. -/
structure Holds (basedir : String) (names : List String) (h : VirtualHost) (t : Shelf) : Prop where
  kept : Kept h
  base : h.messages.basedir = basedir
  plan : h.disk.plan = ∅
  registered : ∀ n, (h.topology.queues n).map DeclaredQueue.durable = (t n).map QueueBook.durable
  known : ∀ n, (t n).isSome → n ∈ names
  volatile : ∀ n k, t n = some k → k.durable = false → k.ledger.durable = []
  there : ∀ n k, t n = some k → ∃ x, h.messages.queueMsgs.lookup n = some x ∧
    x.Serves basedir h.disk n k.ledger
  away : ∀ n, t n = none → h.messages.queueMsgs.lookup n = none
  left : ∀ n ∈ names, t n = none → LeftOver basedir h.disk n []

namespace Holds
variable {basedir n : String} {names : List String} {h h' : VirtualHost} {t : Shelf} {op : HostOp}

/-- What is held can be read off. -/
theorem shelf_eq (hh : h.Holds basedir names t) : h.shelf = t := by
  funext n
  have hreg := hh.registered n
  simp only [topology,Option.map_map] at hreg
  cases ht : t n with
  | none =>
    rw [ht,Option.map_none,Option.map_eq_none_iff] at hreg
    simp only [shelf,hreg,Option.bind_none]
  | some k =>
    rw [ht,Option.map_some,Option.map_eq_some_iff] at hreg
    obtain ⟨q,hq,hdurable⟩ := hreg
    obtain ⟨x,hx,hserves⟩ := hh.there n k ht
    obtain ⟨es,-,hledger⟩ := hserves.consistent
    simp only [shelf,hq,hx,Option.bind_some,Option.map_some,hh.base,hserves.recovered]
    refine congrArg some (QueueBook.ext hdurable (Ledger.ext ?_ ?_ rfl))
    · rw [← hledger]
      rfl
    · rw [← hledger]
      rfl

/-- What an operation that touches one queue has to show. -/
theorem update (hh : h.Holds basedir names t) (apart : Apart basedir names) (hn : n ∈ names)
    {o : Option QueueBook} (kept : Kept h') (base : h'.messages.basedir = h.messages.basedir)
    (plan : h'.disk.plan = ∅)
    (registered : ∀ n', (h'.topology.queues n').map DeclaredQueue.durable =
      (Function.update t n o n').map QueueBook.durable)
    (handles : ∀ n', n' ≠ n → h'.messages.queueMsgs.lookup n' = h.messages.queueMsgs.lookup n')
    (files : ∀ p, (MessageMapper.named basedir n).Foreign p → h'.disk.files p = h.disk.files p)
    (here : ∀ k, o = some k → (k.durable = false → k.ledger.durable = []) ∧
      ∃ x, h'.messages.queueMsgs.lookup n = some x ∧ x.Serves basedir h'.disk n k.ledger)
    (gone : o = none → h'.messages.queueMsgs.lookup n = none ∧ LeftOver basedir h'.disk n []) :
    h'.Holds basedir names (Function.update t n o) := by
  have hframe : ∀ n' ∈ names, n' ≠ n →
      h'.disk.files (resolve (MessageMapper.named basedir n').nameDataFile) =
        h.disk.files (resolve (MessageMapper.named basedir n').nameDataFile) :=
    fun n' hn' hne => files _ (apart.foreign hn hn' hne)
  refine ⟨kept,base.trans hh.base,plan,registered,fun n' hn' => ?_,fun n' k hk => ?_,
    fun n' k hk => ?_,fun n' hk => ?_,fun n' hn' hk => ?_⟩
  all_goals by_cases hne : n' = n
  all_goals first
    | subst hne; simp only [Function.update_self] at *
    | simp only [Function.update_of_ne hne] at *
  · exact hn
  · exact hh.known n' hn'
  · exact (here k hk).1
  · exact hh.volatile n' k hk
  · exact (here k hk).2
  · obtain ⟨x,hx,hserves⟩ := hh.there n' k hk
    have hknown := hh.known n' (by rw [hk]; rfl)
    exact ⟨x,(handles n' hne).trans hx,hserves.frame plan (hframe n' hknown hne)⟩
  · exact (gone hk).1
  · exact (handles n' hne).trans (hh.away n' hk)
  · exact (gone hk).2
  · exact (hh.left n' hn' hk).frame hh.plan plan (hframe n' hn' hne)

/-- An operation on the exchanges or the bindings. -/
theorem same (hh : h.Holds basedir names t) (kept : Kept h') (messages : h'.messages = h.messages)
    (disk : h'.disk = h.disk) (queues : h'.topology.queues = h.topology.queues) :
    h'.Holds basedir names t where
  kept := kept
  base := by rw [messages,hh.base]
  plan := by rw [disk,hh.plan]
  registered := by rw [queues]; exact hh.registered
  known := hh.known
  volatile := hh.volatile
  there := by rw [messages,disk]; exact hh.there
  away := by rw [messages]; exact hh.away
  left := by rw [disk]; exact hh.left

/-- What is not on the shelf is not registered either. -/
theorem unregistered (hh : h.Holds basedir names t) (ht : t n = none) :
    h.topology.queues n = none := by
  have hreg := hh.registered n
  rwa [ht,Option.map_none,Option.map_eq_none_iff] at hreg

theorem at'_none (ht : t n = none) (f : QueueBook → QueueBook) : t.at' n f = t := by
  rw [Shelf.at',ht,Option.map_none,← ht,Function.update_eq_self]

theorem registered_at' (hh : h.Holds basedir names t) (f : QueueBook → QueueBook)
    (hf : ∀ k, (f k).durable = k.durable) (n' : String) :
    (h.topology.queues n').map DeclaredQueue.durable = (t.at' n f n').map QueueBook.durable := by
  rw [hh.registered n',Shelf.at']
  by_cases hne : n' = n
  · subst hne
    rw [Function.update_self]
    cases t n' with
    | none => rfl
    | some k => exact congrArg some (hf k).symm
  · rw [Function.update_of_ne hne]

/-- An operation that works on the store of one queue. -/
theorem work (hh : h.Holds basedir names t) (apart : Apart basedir names)
    {f : QueueBook → QueueBook} {k : QueueBook} {x : Handle} {store : QueueMessage} {d : Disk}
    (hk : t n = some k) (kept : Kept h')
    (messages : h'.messages = h.messages.update n x store) (disk : h'.disk = d)
    (queues : h'.topology.queues = h.topology.queues) (plan : d.plan = ∅)
    (files : ∀ p, (MessageMapper.named basedir n).Foreign p → d.files p = h.disk.files p)
    (hf : ∀ k, (f k).durable = k.durable)
    (volatile : k.durable = false → (f k).ledger.durable = [])
    (serves : Handle.Serves basedir d n {x with store := store} (f k).ledger) :
    h'.Holds basedir names (t.at' n f) := by
  refine hh.update apart (hh.known n (by rw [hk]; rfl)) kept ?_ ?_ (fun n' => ?_) (fun n' hne => ?_) ?_
    (fun k' hk' => ?_) fun hnone => ?_
  · rw [messages]
    rfl
  · rw [disk,plan]
  · rw [queues]
    exact hh.registered_at' f hf n'
  · rw [messages]
    exact AList.lookup_insert_ne hne
  · rw [disk]
    exact files
  · rw [hk,Option.map_some,Option.some.injEq] at hk'
    subst hk'
    refine ⟨fun hd => volatile ((hf k).symm.trans hd),{x with store := store},?_,?_⟩
    · rw [messages]
      exact AList.lookup_insert _
    · rw [disk]
      exact serves
  · rw [hk] at hnone
    cases hnone

theorem declareQueue (hh : h.Holds basedir names t) (apart : Apart basedir names)
    {durable exclusive autoDelete : Bool} {args : Args} (hn : n ∈ names)
    (hs : h.step (.declareQueue n durable exclusive autoDelete args) = some h') :
    h'.Holds basedir names (t.apply (.declareQueue n durable exclusive autoDelete args)) := by
  obtain ⟨htop,hk⟩ := hh.kept.step hs
  cases hs
  have hbase := hh.base
  cases ht : t n with
  | some k =>
    obtain ⟨x,hx,-⟩ := hh.there n k ht
    have hreg := hh.registered n
    rw [ht,Option.map_some,Option.map_eq_some_iff] at hreg
    obtain ⟨q,hq,-⟩ := hreg
    have hinit : h.messages.initQueueMessage h.disk n = (h.messages,h.disk) := by
      simp only [MessageManager.initQueueMessage,hx]
    simp only [Shelf.apply,ht,Option.isSome_some,if_true]
    refine hh.same hk (congrArg Prod.fst hinit) (congrArg Prod.snd hinit) ?_
    rw [htop]
    simp [Topology.apply,hq]
  | none =>
    have hleft := hh.left n hn ht
    rw [← hbase] at hleft
    obtain ⟨hplan,hfiles,x,hx,hserves⟩ := hleft.initQueueMessage hh.plan (hh.away n ht)
    have hnone := hh.unregistered ht
    simp only [Shelf.apply,ht,Option.isSome_none,Bool.false_eq_true,if_false]
    rw [hbase] at hserves hfiles
    refine hh.update apart hn hk ?_ hplan (fun n' => ?_) (fun n' hne => ?_) hfiles
      (fun k hk => ?_) fun hnone => by cases hnone
    · change (h.messages.initQueueMessage h.disk n).1.basedir = _
      simp only [MessageManager.initQueueMessage,hh.away n ht]
    · rw [htop]
      by_cases hne : n' = n
      · subst hne
        simp [Topology.apply,hnone]
      · simp [Topology.apply,hnone,hne,hh.registered n']
    · exact MessageManager.initQueueMessage_ne hne
    · cases hk
      exact ⟨fun _ => rfl,x,hx,hserves⟩

theorem deleteQueue (hh : h.Holds basedir names t) (apart : Apart basedir names)
    (hs : h.step (.deleteQueue n) = some h') :
    h'.Holds basedir names (t.apply (.deleteQueue n)) := by
  obtain ⟨htop,hk⟩ := hh.kept.step hs
  cases hs
  have hqueues : ∀ n', (h.deleteQueue n).topology.queues n' =
      if n' = n then none else h.topology.queues n' := by
    intro n'
    rw [htop]
    by_cases hne : n' = n
    · simp [Topology.apply,hne]
    · simp [Topology.apply,hne]
  cases ht : t n with
  | none =>
    have hdestroy : h.messages.destroyQueueMessage h.disk n = (h.messages,h.disk) := by
      simp only [MessageManager.destroyQueueMessage,hh.away n ht]
    have hsame : t.apply (.deleteQueue n) = t := by
      rw [Shelf.apply,← ht,Function.update_eq_self]
    rw [hsame]
    refine hh.same hk (congrArg Prod.fst hdestroy) (congrArg Prod.snd hdestroy) ?_
    funext n'
    rw [hqueues]
    split_ifs with hne
    · rw [hne,hh.unregistered ht]
    · rfl
  | some k =>
    obtain ⟨x,hx,hserves⟩ := hh.there n k ht
    have hdestroy : h.messages.destroyQueueMessage h.disk n =
        ({h.messages with queueMsgs := h.messages.queueMsgs.erase n},
          x.store.mapper.removeFile h.disk) := by
      simp only [MessageManager.destroyQueueMessage,hx]
      rfl
    have hmessages : (h.deleteQueue n).messages = _ := congrArg Prod.fst hdestroy
    have hdisk : (h.deleteQueue n).disk = _ := congrArg Prod.snd hdestroy
    obtain ⟨hplan,hleft⟩ := hserves.removeFile
    refine hh.update apart (hh.known n (by rw [ht]; rfl)) hk ?_ ?_ (fun n' => ?_)
      (fun n' hne => ?_) (fun p hforeign => ?_) (fun k hk => by cases hk) fun _ => ?_
    · rw [hmessages]
    · rw [hdisk,hplan]
    · rw [hqueues]
      split_ifs with hne
      · simp [hne]
      · rw [Function.update_of_ne hne,hh.registered n']
    · rw [hmessages]
      exact AList.lookup_erase_ne hne
    · rw [hdisk]
      rw [← hserves.mapper] at hforeign
      exact (hforeign.keeps _).removeFile rfl
    · rw [hmessages,hdisk]
      exact ⟨AList.lookup_erase _ _,hleft⟩

theorem basicPublish (hh : h.Holds basedir names t) (apart : Apart basedir names)
    {bp : Option BasicProperties} {body uuid : String}
    (ok : h.Admits names (.basicPublish n bp body uuid))
    (hs : h.step (.basicPublish n bp body uuid) = some h') :
    h'.Holds basedir names (t.apply (.basicPublish n bp body uuid)) := by
  obtain ⟨htop,hk⟩ := hh.kept.step hs
  cases hs
  have hreg := hh.registered n
  simp only [topology,Option.map_map] at hreg
  cases ht : t n with
  | none =>
    rw [ht,Option.map_none,Option.map_eq_none_iff] at hreg
    rw [Shelf.apply,at'_none ht]
    refine hh.same hk ?_ ?_ (congrArg Topology.queues htop) <;>
      simp only [VirtualHost.basicPublish,QueueManager.selectQueue,hreg]
  | some k =>
    rw [ht,Option.map_some,Option.map_eq_some_iff] at hreg
    obtain ⟨q,hq,hdurable⟩ := hreg
    obtain ⟨x,hx,hserves⟩ := hh.there n k ht
    have hdurable : q.durable = k.durable := hdurable
    have hok := ok q hq x hx
    rw [hdurable] at hok
    obtain ⟨hplan,hserves'⟩ := hserves.insert bp body k.durable uuid hok
    have hforeign : ∀ p, (MessageMapper.named basedir n).Foreign p →
        x.store.mapper.Foreign p := fun p hp => hserves.mapper.symm ▸ hp
    refine hh.work apart (f := fun k => k.publish bp body uuid) ht hk ?_ ?_
      (congrArg Topology.queues htop) hplan
      (fun p hp => QueueMessage.insert_disk ((hforeign p hp).keeps _) rfl _ _ _ _) (fun _ => rfl)
      (fun hvolatile => ?_) hserves'
    · simp only [VirtualHost.basicPublish,QueueManager.selectQueue,hq,MessageManager.insert,hx,
        hdurable]
    · simp only [VirtualHost.basicPublish,QueueManager.selectQueue,hq,MessageManager.insert,hx,
        hdurable]
    · have hmode : (insertedPayload bp body k.durable uuid).deliveryMode ≠ .durable := by
        rw [ne_eq,insertedPayload_durable,hvolatile]
        simp
      simp only [QueueBook.publish,Ledger.insert,if_neg hmode]
      exact hh.volatile n k ht hvolatile

theorem basicConsume (hh : h.Holds basedir names t) (apart : Apart basedir names)
    (hs : h.step (.basicConsume n) = some h') :
    h'.Holds basedir names (t.apply (.basicConsume n)) := by
  obtain ⟨htop,hk⟩ := hh.kept.step hs
  cases hs
  cases ht : t n with
  | none =>
    rw [Shelf.apply,at'_none ht]
    refine hh.same hk ?_ rfl (congrArg Topology.queues htop)
    simp only [VirtualHost.basicConsume,MessageManager.front,hh.away n ht]
  | some k =>
    obtain ⟨x,hx,hserves⟩ := hh.there n k ht
    refine hh.work apart (f := QueueBook.take) ht hk ?_ rfl (congrArg Topology.queues htop)
      hh.plan (fun _ _ => rfl) (fun _ => rfl) (fun hvolatile => ?_) hserves.front
    · simp only [VirtualHost.basicConsume,MessageManager.front_some hx]
    · have hpage : k.ledger.front.durable = k.ledger.durable := by
        unfold Ledger.front
        split <;> rfl
      exact hpage.trans (hh.volatile n k ht hvolatile)

theorem basicAck (hh : h.Holds basedir names t) (apart : Apart basedir names) {msgId : String}
    (hs : h.step (.basicAck n msgId) = some h') :
    h'.Holds basedir names (t.apply (.basicAck n msgId)) := by
  obtain ⟨htop,hk⟩ := hh.kept.step hs
  cases hs
  cases ht : t n with
  | none =>
    rw [Shelf.apply,at'_none ht]
    have hack : h.messages.ack h.disk n msgId = (h.messages,h.disk) := by
      simp only [MessageManager.ack,hh.away n ht]
    exact hh.same hk (congrArg Prod.fst hack) (congrArg Prod.snd hack) (congrArg Topology.queues htop)
  | some k =>
    obtain ⟨x,hx,hserves⟩ := hh.there n k ht
    obtain ⟨hplan,hserves'⟩ := hserves.remove msgId
    have hforeign : ∀ p, (MessageMapper.named basedir n).Foreign p →
        x.store.mapper.Foreign p := fun p hp => hserves.mapper.symm ▸ hp
    refine hh.work apart (f := fun k => k.acknowledge msgId) ht hk ?_ ?_
      (congrArg Topology.queues htop) hplan
      (fun p hp => QueueMessage.remove_disk ((hforeign p hp).keeps _) rfl _ _) (fun _ => rfl)
      (fun hvolatile => ?_) hserves'
    · simp only [VirtualHost.basicAck,MessageManager.ack,hx]
    · simp only [VirtualHost.basicAck,MessageManager.ack,hx]
    · have hnil := hh.volatile n k ht hvolatile
      simp only [QueueBook.acknowledge,Ledger.remove]
      split
      · exact hnil
      · simp [hnil]

/-- A new process opens the queues that were durable. -/
theorem restart (hh : h.Holds basedir names t) (apart : Apart basedir names) {it : Iteration}
    (hs : h.step (.restart it) = some h') : h'.Holds basedir names (t.apply (.restart it)) := by
  obtain ⟨htop,hk⟩ := hh.kept.step hs
  let page : String → List Payload := fun n => ((t n).map fun k => k.ledger.durable).getD []
  have hreg : ∀ n, (h'.topology.queues n).map DeclaredQueue.durable =
      (t.apply (.restart it) n).map QueueBook.durable := by
    intro n
    have hn := hh.registered n
    have hq : h'.topology.queues n = (h.topology.queues n).filter DeclaredQueue.durable := by
      rw [htop]
      rfl
    rw [hq,Shelf.apply,Option.map_map]
    revert hn
    rcases h.topology.queues n with - | q <;> rcases t n with - | k <;> intro hn
    · rfl
    · cases hn
    · cases hn
    · have hd : q.durable = k.durable := Option.some.inj hn
      simp only [Option.filter_some,hd]
      split_ifs <;> simp [hd,QueueBook.restart]
  have hopen : Opening basedir names page (.new basedir,h.disk) := by
    refine ⟨rfl,hh.plan,fun n hn => ?_,fun n x hx => ?_,fun n hn _ => ?_⟩
    · cases hn
    · cases hx
    cases ht : t n with
    | none => simpa [page,ht] using hh.left n hn ht
    | some k =>
      obtain ⟨x,-,hserves⟩ := hh.there n k ht
      simpa [page,ht] using hserves.leftOver
  change construct h.messages.basedir it h.disk h.db = some h' at hs
  rw [hh.base] at hs
  obtain ⟨-,-,-,-,-,hfold⟩ := construct_parts hs
  have hkeys : ∀ n, n ∈ it.order h'.queues.keys ↔ (t.apply (.restart it) n).isSome := by
    intro n
    have hsome := congrArg Option.isSome (hreg n)
    simp only [Option.isSome_map] at hsome
    rw [Iteration.mem_order,← AList.mem_keys,← AList.lookup_isSome,← hsome]
    simp [topology]
  have hknown : ∀ n, (t.apply (.restart it) n).isSome → n ∈ names := by
    intro n hn
    refine hh.known n ?_
    obtain ⟨k,hk⟩ := Option.isSome_iff_exists.mp hn
    obtain ⟨k₀,hk₀,-⟩ := Option.map_eq_some_iff.mp hk
    rw [(Option.filter_eq_some_iff.mp hk₀).1]
    rfl
  have hsub : it.order h'.queues.keys ⊆ names := fun n hn => hknown n ((hkeys n).mp hn)
  have hall := hopen.foldl apart hsub
  have hiff : ∀ n, (h'.messages.queueMsgs.lookup n).isSome ↔ (t.apply (.restart it) n).isSome := by
    intro n
    have hhandles := MessageManager.foldl_initQueueMessage_iff (q := n) (it.order h'.queues.keys)
      (r := (.new basedir,h.disk))
    rw [hfold,hkeys] at hhandles
    simpa [MessageManager.new] using hhandles
  rw [hfold] at hall
  refine ⟨hk,hall.base,hall.plan,hreg,hknown,fun n k hn hvolatile => ?_,fun n k hn => ?_,
    fun n hn => ?_,fun n hn hnone => ?_⟩
  · obtain ⟨k₀,hk₀,rfl⟩ := Option.map_eq_some_iff.mp hn
    exact absurd (Option.filter_eq_some_iff.mp hk₀).2 (by simpa [QueueBook.restart] using hvolatile)
  · obtain ⟨k₀,hk₀,rfl⟩ := Option.map_eq_some_iff.mp hn
    obtain ⟨x,hx⟩ := Option.isSome_iff_exists.mp ((hiff n).mpr (by rw [hn]; rfl))
    have hserves := hall.served n x hx
    have hpage : page n = k₀.ledger.durable := by
      simp only [page,(Option.filter_eq_some_iff.mp hk₀).1,Option.map_some,Option.getD_some]
    rw [hpage] at hserves
    exact ⟨x,hx,hserves⟩
  · have hnone := (hiff n).not
    rw [hn] at hnone
    simpa using hnone
  · have hgone : h'.messages.queueMsgs.lookup n = none := by
      have hiff := (hiff n).not
      rw [hnone] at hiff
      simpa using hiff
    have hleft := hall.left n hn hgone
    have hpage : page n = [] := by
      cases ht : t n with
      | none => simp only [page,ht,Option.map_none,Option.getD_none]
      | some k =>
        have hd : k.durable = false := by
          simpa [Shelf.apply,ht,Option.filter_some] using hnone
        simpa only [page,ht,Option.map_some,Option.getD_some] using hh.volatile n k ht hd
    rwa [hpage] at hleft

/-- Every operation does to the host what it does to the shelf. -/
theorem step (hh : h.Holds basedir names t) (apart : Apart basedir names)
    (ok : h.Admits names op) (hs : h.step op = some h') : h'.Holds basedir names (t.apply op) := by
  cases op with
  | declareQueue qname durable exclusive autoDelete args => exact hh.declareQueue apart ok hs
  | deleteQueue name => exact hh.deleteQueue apart hs
  | basicPublish qname bp body uuid => exact hh.basicPublish apart ok hs
  | basicConsume qname => exact hh.basicConsume apart hs
  | basicAck qname msgId => exact hh.basicAck apart hs
  | restart it => exact hh.restart apart hs
  | declareExchange name type durable autoDelete args =>
    obtain ⟨htop,hk⟩ := hh.kept.step hs
    cases hs
    refine hh.same hk rfl rfl ?_
    rw [htop,Topology.apply]
    split <;> rfl
  | deleteExchange name =>
    obtain ⟨htop,hk⟩ := hh.kept.step hs
    cases hs
    exact hh.same hk rfl rfl (by rw [htop]; rfl)
  | bind ename qname key =>
    obtain ⟨htop,hk⟩ := hh.kept.step hs
    cases hs
    refine hh.same hk ?_ ?_ ?_
    · unfold VirtualHost.bind
      split
      · rfl
      · split <;> rfl
    · unfold VirtualHost.bind
      split
      · rfl
      · split <;> rfl
    · rw [htop,Topology.apply]
      split <;> rfl
  | unBind ename qname =>
    obtain ⟨htop,hk⟩ := hh.kept.step hs
    cases hs
    exact hh.same hk rfl rfl (by rw [htop]; rfl)

theorem foldlM (hh : h.Holds basedir names t) (apart : Apart basedir names) {ops : List HostOp}
    (ok : h.AdmitsAll names ops) (hs : ops.foldlM VirtualHost.step h = some h') :
    h'.Holds basedir names (ops.foldl Shelf.apply t) := by
  induction ops generalizing h t with
  | nil =>
    cases hs
    exact hh
  | cons op ops ih =>
    obtain ⟨h₁,hstep,hs⟩ := Option.bind_eq_some_iff.mp hs
    exact ih (hh.step apart ok.1 hstep) (ok.2 h₁ hstep) hs

/-- A new host on a blank database, whose names have no records yet. -/
theorem start {it : Iteration} {disk : Disk} (hs : construct basedir it disk {} = some h)
    (plan : disk.plan = ∅) (blank : ∀ n ∈ names,
      FileHelper.contents disk (MessageMapper.named basedir n).nameDataFile = []) :
    h.Holds basedir names .empty := by
  obtain ⟨htop,hk⟩ := Kept.start hs
  have hparts : h.messages = .new basedir ∧ h.disk = disk := by
    obtain ⟨-,-,-,-,-,hfold⟩ := construct_parts hs
    have hkeys : h.queues.keys = [] := by
      refine List.eq_nil_iff_forall_not_mem.mpr fun n hn => ?_
      have hnone : h.topology.queues n = none := by
        rw [htop]
        rfl
      obtain ⟨q,hq⟩ := Option.isSome_iff_exists.mp (AList.lookup_isSome.mpr hn)
      simp [topology,hq] at hnone
    rw [hkeys,List.perm_nil.mp (it.perm []),List.foldl_nil,Prod.mk.injEq] at hfold
    exact ⟨hfold.1.symm,hfold.2.symm⟩
  obtain ⟨hm,hd⟩ := hparts
  refine ⟨hk,by rw [hm]; rfl,by rw [hd,plan],fun n => ?_,fun n hn => ?_,fun n k hn => ?_,
    fun n k hn => ?_,fun n _ => ?_,fun n hn _ => ⟨[],?_,.nil,rfl⟩⟩
  · rw [htop]
    rfl
  · cases hn
  · cases hn
  · cases hn
  · rw [hm]
    rfl
  · rw [hd]
    exact blank n hn

end Holds
end VirtualHost
end MessageQueue

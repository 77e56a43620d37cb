import MessageQueue.Broker.Honoured

/-! Hosts on which nothing durable has been declared. What they answer and keep is a matter of
their registries and of the messages in memory: neither the disk nor the database is asked. -/
namespace MessageQueue
open Base

namespace Ledger

def blank : Ledger := ⟨[],fun _ => none,[]⟩

/-- The first available message, and the ledger without it. One that has the id of a message that
waits does not wait itself. -/
def handOut (l : Ledger) : Option Payload × Ledger :=
  match l.available with
  | [] => (none,l)
  | m::rest => (some m,{l with
      available := rest
      waiting := if (l.waiting m.id).isNone then Function.update l.waiting m.id (some m)
        else l.waiting})

def acknowledge (l : Ledger) (id : String) : Ledger :=
  {l with waiting := Function.update l.waiting id none}

end Ledger

/-- Every file is empty. -/
def Disk.Blank (d : Disk) : Prop := ∀ p f, d.files p = some f → f = []

namespace Disk.Blank
variable {d : Disk} (name new : String)

theorem next (h : d.Blank) (names : List String) : (d.next names).2.Blank := by
  intro p f hf
  rw [d.next_files] at hf
  exact h p f hf

theorem put (h : d.Blank) {c : Option Base.Bytes} (hc : ∀ f ∈ c, f = []) (p : Path) :
    (d.put p c).Blank := by
  intro p' f hf
  by_cases hp : p' = p
  · subst hp
    rw [Disk.put_self] at hf
    exact hc f hf
  · rw [Disk.put_ne hp] at hf
    exact h p' f hf

theorem createFile (h : d.Blank) : (FileHelper.createFile d name).2.Blank := by
  simp only [FileHelper.createFile]
  split
  · exact (h.next _).put (by simp) _
  · exact h.next _

theorem removeFile (h : d.Blank) : (FileHelper.removeFile d name).2.Blank := by
  simp only [FileHelper.removeFile]
  split
  · exact (h.next _).put (by simp) _
  · exact h.next _

theorem rename (h : d.Blank) : (FileHelper.rename d name new).2.Blank := by
  simp only [FileHelper.rename]
  split
  · next f heq _ =>
    have hf := h.next _ _ f heq
    exact ((h.next _).put (by simp) _).put (by simpa using hf) _
  · exact h.next _

theorem contents (h : d.Blank) : FileHelper.contents d name = [] := by
  unfold FileHelper.contents Disk.file
  split_ifs
  · cases hf : d.files (resolve name) with
    | none => rfl
    | some f => exact h _ f hf
  · rfl

/-- There is nothing to compact. -/
theorem garbageCollection (h : d.Blank) (m : MessageMapper) :
    (m.garbageCollection d).1 = [] ∧ (m.garbageCollection d).2.Blank := by
  have hload : m.load d = [] := by
    rw [MessageMapper.load,FileHelper.size,h.contents]
    rfl
  simp only [MessageMapper.garbageCollection,hload,MessageMapper.insertTempFiles]
  split
  · next d' heq =>
    refine ⟨rfl,?_⟩
    have hrem := (h.createFile m.nameTempFile).removeFile m.nameDataFile
    rwa [heq] at hrem
  · next d' heq =>
    refine ⟨rfl,rename _ _ ?_⟩
    have hrem := (h.createFile m.nameTempFile).removeFile m.nameDataFile
    rwa [heq] at hrem

theorem construct (h : d.Blank) (m : MessageMapper) : (m.construct d).Blank := by
  unfold MessageMapper.construct MessageMapper.creatFile
  split_ifs
  · exact h
  · exact h.createFile _

end Disk.Blank

/-- A store in which no message is durable. -/
structure QueueMessage.Fleeting (q : QueueMessage) : Prop where
  bounded : q.Bounded
  undurable : ∀ p, q.Held p → (q.payload p).deliveryMode ≠ .durable

namespace QueueMessage
variable {q : QueueMessage} {d : Disk}

theorem newMessage_undurable (bp : Option BasicProperties) (body uuid : String) :
    (newMessage bp body false uuid).payload.deliveryMode ≠ .durable := by
  cases bp <;> simp [newMessage,Payload.deliveryMode,Payload.props,DeliveryMode.undurable,
    DeliveryMode.durable]

/-- The ledger of a store that a message joined. -/
theorem ledger_push (h : q.Bounded) (m : Message) : Ledger.of (q.pushMessage m) [] =
    {Ledger.of q [] with available := (Ledger.of q []).available ++ [m.payload]} := by
  have hold : ∀ p, q.Held p → (q.pushMessage m).payload p = q.payload p :=
    fun p hp => pushMessage_payload (h p hp)
  have hmsgs : q.msgs.map (q.pushMessage m).payload = q.msgs.map q.payload :=
    List.map_congr_left fun p hp => hold p (.inl hp)
  have hwait : ∀ id, (q.waitackMsgs.lookup id).map (q.pushMessage m).payload =
      (q.waitackMsgs.lookup id).map q.payload := by
    intro id
    cases hw : q.waitackMsgs.lookup id with
    | none => rfl
    | some p => exact congrArg some (hold p (.inr ⟨id,hw⟩))
  ext1
  · simp only [Ledger.of,pushMessage_msgs,List.map_append,hmsgs]
    simp
  · exact funext hwait
  · rfl

/-- The ledger of a store that lost a message which waited. -/
theorem ledger_erase (q : QueueMessage) (id : String) :
    Ledger.of {q with waitackMsgs := q.waitackMsgs.erase id} [] =
      (Ledger.of q []).acknowledge id := by
  ext1
  · rfl
  · funext i
    simp only [Ledger.of,Ledger.acknowledge]
    by_cases hi : i = id
    · subst hi
      simp
    · rw [AList.lookup_erase_ne hi,Function.update_of_ne hi]
      rfl
  · rfl

/-- What `front` hands out, and what it leaves, is a matter of the ledger. -/
theorem ledger_front (q : QueueMessage) :
    q.front.1.map q.front.2.payload = (Ledger.of q []).handOut.1 ∧
      Ledger.of q.front.2 [] = (Ledger.of q []).handOut.2 := by
  unfold front Ledger.handOut
  cases hm : q.msgs with
  | nil =>
    have hl : (Ledger.of q []).available = [] := by simp [Ledger.of,hm]
    simp only [hl]
    exact ⟨rfl,trivial⟩
  | cons p rest =>
    have hl : (Ledger.of q []).available = q.payload p::rest.map q.payload := by
      simp [Ledger.of,hm]
    simp only [hl]
    refine ⟨rfl,?_⟩
    ext1
    · rfl
    · have hid : (q.heap p).payload.id = (q.payload p).id := rfl
      have hwait : (Ledger.of q []).waiting (q.payload p).id =
        (q.waitackMsgs.lookup (q.payload p).id).map q.payload := rfl
      funext i
      simp only [hwait,Option.isNone_map,hid]
      cases hw : q.waitackMsgs.lookup (q.payload p).id with
      | some x =>
        simp only [Ledger.of,Table.emplace_some hw,Option.isNone_some]
        rfl
      | none =>
        simp only [Option.isNone_none,↓reduceIte]
        by_cases hi : i = (q.payload p).id
        · subst hi
          simp [Ledger.of,Table.lookup_emplace_none hw]
          rfl
        · rw [Function.update_of_ne hi]
          simp only [Ledger.of,Table.lookup_emplace_ne hi]
          rfl
    · rfl

namespace Fleeting

/-- A store with no message in it. -/
theorem of_empty (hm : q.msgs = []) (hw : q.waitackMsgs = ∅) :
    q.Fleeting ∧ Ledger.of q [] = .blank := by
  have hno : ∀ p, ¬ q.Held p := by
    intro p hp
    cases hp with
    | inl hp => simp [hm] at hp
    | inr hp =>
      obtain ⟨id,hid⟩ := hp
      simp [hw] at hid
  refine ⟨⟨fun p hp => absurd hp (hno p),fun p hp => absurd hp (hno p)⟩,?_⟩
  simp [Ledger.of,Ledger.blank,hm,hw]

/-- A message that is published to a queue that is not durable stays in memory. -/
theorem insert (h : q.Fleeting) (d : Disk) (bp : Option BasicProperties) (body uuid : String) :
    ∃ q', q.insert d bp body false uuid = (true,q',d) ∧ q'.Fleeting ∧
      Ledger.of q' [] = {Ledger.of q [] with available :=
        (Ledger.of q []).available ++ [(newMessage bp body false uuid).payload]} := by
  have hmode := newMessage_undurable bp body uuid
  refine ⟨q.pushMessage (newMessage bp body false uuid),if_neg hmode,⟨?_,fun p hp => ?_⟩,
    ledger_push h.bounded _⟩
  · exact h.bounded.pushMessage _ q.durableMsgs
  · have hold : ∀ p, q.Held p →
        ((q.pushMessage (newMessage bp body false uuid)).payload p).deliveryMode ≠ .durable := by
      intro p hp
      rw [pushMessage_payload (h.bounded p hp)]
      exact h.undurable p hp
    cases hp with
    | inl hp =>
      cases List.mem_append.mp hp with
      | inl hp => exact hold p (.inl hp)
      | inr hp =>
        rw [List.mem_singleton.mp hp,pushMessage_payload_fresh]
        exact hmode
    | inr hp => exact hold p (.inr hp)

theorem front (h : q.Fleeting) : q.front.2.Fleeting := by
  refine ⟨h.bounded.front,?_⟩
  have hheap : q.front.2.payload = q.payload := by
    unfold QueueMessage.front
    split <;> rfl
  intro p hp
  rw [hheap]
  refine h.undurable p ?_
  unfold QueueMessage.front at hp
  split at hp
  · exact hp
  · next x rest hm =>
    have hx : q.Held x := .inl (by rw [hm]; exact List.mem_cons_self)
    cases hp with
    | inl hp => exact .inl (by rw [hm]; exact List.mem_cons_of_mem _ hp)
    | inr hp =>
      obtain ⟨id,hid⟩ := hp
      cases Table.lookup_emplace_eq_some.mp hid with
      | inl hid => exact .inr ⟨id,hid⟩
      | inr hid => exact hid.2.2 ▸ hx

/-- No record is cleared for an acknowledgement. -/
theorem remove (h : q.Fleeting) (check : Policy) (d : Disk) (id : String) :
    ∃ q', q.remove check d id = (true,q',d) ∧ q'.Fleeting ∧
      Ledger.of q' [] = (Ledger.of q []).acknowledge id := by
  unfold QueueMessage.remove
  cases hw : q.waitackMsgs.lookup id with
  | none =>
    refine ⟨q,rfl,h,?_⟩
    have hnone : (Ledger.of q []).waiting id = none := by simp [Ledger.of,hw]
    rw [Ledger.acknowledge,← hnone,Function.update_eq_self]
  | some p =>
    have hmode : ¬ (q.heap p).payload.deliveryMode = .durable := h.undurable p (.inr ⟨id,hw⟩)
    simp only [hmode,↓reduceIte]
    refine ⟨_,rfl,⟨h.bounded.erase id,fun x hx => ?_⟩,ledger_erase q id⟩
    refine h.undurable x ?_
    cases hx with
    | inl hx => exact .inl hx
    | inr hx =>
      obtain ⟨i,hi⟩ := hx
      exact .inr ⟨i,(Table.lookup_erase_eq_some.mp hi).2⟩

/-- Nothing is recovered from an empty file. -/
theorem recovery (hd : d.Blank) (m : MessageMapper) :
    ((new m).recovery d).2.1.Fleeting ∧ Ledger.of ((new m).recovery d).2.1 [] = .blank ∧
      ((new m).recovery d).2.2.Blank := by
  obtain ⟨hnil,hblank⟩ := hd.garbageCollection m
  have hmsgs : ((new m).recovery d).2.1.msgs = [] := by simp [QueueMessage.recovery,new,hnil]
  have hwait : ((new m).recovery d).2.1.waitackMsgs = ∅ := by
    simp [QueueMessage.recovery,new,hnil]
  obtain ⟨hf,hl⟩ := of_empty hmsgs hwait
  exact ⟨hf,hl,hblank⟩

end Fleeting
end QueueMessage

namespace MessageManager
variable {m : MessageManager} {d : Disk} {n q : String}

/-- What the queue holds; without a handle that is nothing. -/
def ledger (m : MessageManager) (q : String) : Ledger :=
  ((m.queueMsgs.lookup q).map fun x => Ledger.of x.store []).getD .blank

theorem ledger_of_some {x : Handle} (hx : m.queueMsgs.lookup q = some x) :
    m.ledger q = Ledger.of x.store [] := by
  simp [ledger,hx]

theorem ledger_update (x : Handle) (store : QueueMessage) :
    (m.update n x store).ledger = Function.update m.ledger n (Ledger.of store []) := by
  funext q
  by_cases hq : q = n
  · subst hq
    simp [ledger,update]
  · rw [Function.update_of_ne hq]
    simp only [ledger,update,AList.lookup_insert_ne hq]

/-- No queue has a durable message. -/
abbrev Fleeting (m : MessageManager) : Prop := m.Stores fun _ x => x.store.Fleeting

namespace Fleeting

theorem initQueueMessage (h : m.Fleeting) (hd : d.Blank) :
    (m.initQueueMessage d n).1.Fleeting ∧ (m.initQueueMessage d n).2.Blank ∧
      (m.initQueueMessage d n).1.ledger = m.ledger ∧
      (m.initQueueMessage d n).1.basedir = m.basedir := by
  unfold MessageManager.initQueueMessage
  cases hl : m.queueMsgs.lookup n with
  | some x => exact ⟨h,hd,rfl,rfl⟩
  | none =>
    obtain ⟨hf,hblank,hdisk⟩ := QueueMessage.Fleeting.recovery
      (hd.construct (.named m.basedir n)) (.named m.basedir n)
    refine ⟨Table.forall_insert hf h,hdisk,?_,rfl⟩
    · funext q
      by_cases hq : q = n
      · subst hq
        simp only [ledger,AList.lookup_insert,Option.map_some,Option.getD_some,hblank,hl,
          Option.map_none,Option.getD_none]
      · simp only [ledger,AList.lookup_insert_ne hq]

theorem destroyQueueMessage (h : m.Fleeting) (hd : d.Blank) :
    (m.destroyQueueMessage d n).1.Fleeting ∧ (m.destroyQueueMessage d n).2.Blank ∧
      (m.destroyQueueMessage d n).1.ledger = Function.update m.ledger n .blank ∧
      (m.destroyQueueMessage d n).1.basedir = m.basedir := by
  refine ⟨Stores.destroyQueueMessage h,?_⟩
  unfold MessageManager.destroyQueueMessage
  cases hl : m.queueMsgs.lookup n with
  | none =>
    refine ⟨hd,?_,rfl⟩
    have hnone : m.ledger n = .blank := by simp [ledger,hl]
    rw [← hnone,Function.update_eq_self]
  | some x =>
    refine ⟨(hd.removeFile _).removeFile _,?_,rfl⟩
    funext q
    by_cases hq : q = n
    · subst hq
      simp [ledger]
    · rw [Function.update_of_ne hq]
      simp only [ledger,AList.lookup_erase_ne hq]

theorem insert (h : m.Fleeting) (hn : (m.queueMsgs.lookup n).isSome)
    (bp : Option BasicProperties) (body uuid : String) :
    ∃ m', m.insert d n bp body false uuid = (true,m',d) ∧ m'.Fleeting ∧
      m'.basedir = m.basedir ∧ m'.ledger = Function.update m.ledger n {m.ledger n with
        available := (m.ledger n).available ++
          [(QueueMessage.newMessage bp body false uuid).payload]} := by
  obtain ⟨x,hx⟩ := Option.isSome_iff_exists.mp hn
  obtain ⟨store,hins,hf,hl⟩ := (h n x hx).insert d bp body uuid
  refine ⟨m.update n x store,?_,h.update hf,rfl,?_⟩
  · simp only [MessageManager.insert,hx,hins]
  · rw [ledger_update,ledger_of_some hx,hl]

theorem front (h : m.Fleeting) :
    (m.front n).1.map Taken.payload = (m.ledger n).handOut.1 ∧ (m.front n).2.Fleeting ∧
      (m.front n).2.basedir = m.basedir ∧
      (m.front n).2.ledger = Function.update m.ledger n (m.ledger n).handOut.2 := by
  cases hl : m.queueMsgs.lookup n with
  | none =>
    have hnone : m.ledger n = .blank := by simp [ledger,hl]
    have hself : Function.update m.ledger n Ledger.blank = m.ledger := by
      rw [← hnone,Function.update_eq_self]
    rw [hnone]
    simp only [MessageManager.front,hl]
    exact ⟨rfl,h,trivial,hself.symm⟩
  | some x =>
    obtain ⟨hout,hleft⟩ := x.store.ledger_front
    rw [front_some hl,ledger_of_some hl,← hout,← hleft]
    refine ⟨?_,h.update (h n x hl).front,rfl,ledger_update x _⟩
    rw [Option.map_map]
    rfl

theorem ack (h : m.Fleeting) (d : Disk) (id : String) :
    ∃ m', m.ack d n id = (m',d) ∧ m'.Fleeting ∧ m'.basedir = m.basedir ∧
      m'.ledger = Function.update m.ledger n ((m.ledger n).acknowledge id) := by
  unfold MessageManager.ack
  cases hl : m.queueMsgs.lookup n with
  | none =>
    refine ⟨m,rfl,h,rfl,?_⟩
    have hnone : (m.ledger n).acknowledge id = m.ledger n := by
      simp [ledger,hl,Ledger.acknowledge,Ledger.blank]
    rw [hnone,Function.update_eq_self]
  | some x =>
    obtain ⟨store,hrem,hf,hleft⟩ := (h n x hl).remove QueueMessage.garbageCollectionCheck d id
    refine ⟨m.update n x store,by simp only [hrem],h.update hf,rfl,?_⟩
    rw [ledger_update,ledger_of_some hl,hleft]

end Fleeting
end MessageManager

/-- What an operation returns to its caller. -/
inductive Answer
  | nothing
  | done (ok : Bool)
  | message (taken : Option Payload)

/-- What a host keeps when nothing durable is declared. -/
structure Memory where
  exchanges : ExchangeManager
  queues : QueueManager
  bindings : BindingManager
  ledgers : String → Ledger
  basedir : String

namespace Memory

/-- The registries go through the same operations, without any table. -/
def apply (m : Memory) : HostOp → Memory
  | .declareExchange name type durable autoDelete args =>
    {m with exchanges := (m.exchanges.declareExchange {} name type durable autoDelete args).2.1}
  | .deleteExchange name => {m with
      bindings := (m.bindings.unbindByExchange {} name).1
      exchanges := (m.exchanges.deleteExchange {} name).1}
  | .declareQueue qname durable exclusive autoDelete args =>
    {m with queues := (m.queues.declareQueue {} qname durable exclusive autoDelete args).2.1}
  | .deleteQueue name => {m with
      ledgers := Function.update m.ledgers name .blank
      bindings := (m.bindings.unbindByQueue {} name).1
      queues := (m.queues.deleteQueue {} name).1}
  | .bind ename qname key =>
    if (m.exchanges.lookup ename).isSome && (m.queues.lookup qname).isSome then
      {m with bindings := (m.bindings.bind {} ename qname key false).2.1}
    else m
  | .unBind ename qname => {m with bindings := (m.bindings.unbind {} ename qname).1}
  | .basicPublish qname bp body uuid =>
    if (m.queues.lookup qname).isSome then
      {m with ledgers := Function.update m.ledgers qname {m.ledgers qname with
        available := (m.ledgers qname).available ++
          [(QueueMessage.newMessage bp body false uuid).payload]}}
    else m
  | .basicConsume qname =>
    {m with ledgers := Function.update m.ledgers qname (m.ledgers qname).handOut.2}
  | .basicAck qname msgId =>
    {m with ledgers := Function.update m.ledgers qname ((m.ledgers qname).acknowledge msgId)}
  | .restart _ => m

def answer (m : Memory) : HostOp → Answer
  | .declareExchange name type durable autoDelete args =>
    .done (m.exchanges.declareExchange {} name type durable autoDelete args).1
  | .declareQueue qname durable exclusive autoDelete args =>
    .done (m.queues.declareQueue {} qname durable exclusive autoDelete args).1
  | .bind ename qname _ =>
    .done ((m.exchanges.lookup ename).isSome && (m.queues.lookup qname).isSome)
  | .basicPublish qname .. => .done (m.queues.lookup qname).isSome
  | .basicConsume qname => .message (m.ledgers qname).handOut.1
  | .deleteExchange _ | .deleteQueue _ | .unBind .. | .basicAck .. | .restart _ => .nothing

end Memory

/-- A declaration that has to leave a row: a durable one of a name that is not declared. -/
def Topology.Stores (t : Topology) : HostOp → Prop
  | .declareExchange name _ durable _ _ => durable = true ∧ t.exchanges name = none
  | .declareQueue qname durable _ _ _ => durable = true ∧ t.queues qname = none
  | _ => False

/-- A database in which no deletion of bindings changes anything. -/
def Database.Inert (db : Database) : Prop :=
  ∀ named, (BindingMapper.delete db named).2 = db

namespace Database.Inert
variable {db : Database} {m : BindingManager} {e q : String}

theorem unbind (h : db.Inert) : m.unbind db e q = ((m.unbind {} e q).1,db) := by
  unfold BindingManager.unbind BindingMapper.remove
  cases m.lookup e with
  | none => rfl
  | some qs =>
    cases hq : qs.lookup q with
    | none => simp only [hq]
    | some b => simp only [hq,h _]

theorem unbindByExchange (h : db.Inert) :
    m.unbindByExchange db e = ((m.unbindByExchange {} e).1,db) := by
  unfold BindingManager.unbindByExchange BindingMapper.removeByExchange
  cases m.lookup e with
  | none => rfl
  | some qs => simp only [h _]

theorem unbindByQueue (h : db.Inert) :
    m.unbindByQueue db q = ((m.unbindByQueue {} q).1,db) := by
  have hf : ∀ ks : List String,
      ks.foldl (fun db _ => (BindingMapper.removeByQueue db q).2) db = db := by
    intro ks
    induction ks with
    | nil => rfl
    | cons k ks ih =>
      rw [List.foldl_cons,BindingMapper.removeByQueue,h,ih]
  unfold BindingManager.unbindByQueue
  rw [hf]

end Database.Inert

namespace VirtualHost
variable {h : VirtualHost}

def memory (h : VirtualHost) : Memory :=
  ⟨h.exchanges,h.queues,h.bindings,h.messages.ledger,h.messages.basedir⟩

def answer (h : VirtualHost) : HostOp → Answer
  | .declareExchange name type durable autoDelete args =>
    .done (h.declareExchange name type durable autoDelete args).1
  | .declareQueue qname durable exclusive autoDelete args =>
    .done (h.declareQueue qname durable exclusive autoDelete args).1
  | .bind ename qname key => .done (h.bind ename qname key).1
  | .basicPublish qname bp body uuid => .done (h.basicPublish qname bp body uuid).1
  | .basicConsume qname =>
    .message ((h.basicConsume qname).1.map MessageManager.Taken.payload)
  | .deleteExchange _ | .deleteQueue _ | .unBind .. | .basicAck .. | .restart _ => .nothing

/-- Nothing durable is declared, and nothing is on file. -/
structure Volatile (h : VirtualHost) : Prop where
  exchanges : ∀ n e, h.exchanges.lookup n = some e → e.durable = false
  queues : ∀ n q, h.queues.lookup n = some q → q.durable = false
  handled : h.Handled
  messages : h.messages.Fleeting
  disk : h.disk.Blank
  db : h.db.Inert

/-- The step is that of the memory, and the database stays as it is. -/
def Remembers (h : VirtualHost) (op : HostOp) : Prop :=
  ∃ h', h.step op = some h' ∧ h'.Volatile ∧ h'.db = h.db ∧ h'.memory = h.memory.apply op ∧
    h.answer op = h.memory.answer op

namespace Volatile

theorem declareExchange (hv : Volatile h) (name : String) (type : ExchangeType)
    (durable autoDelete : Bool) (args : Args)
    (hnew : ¬ h.topology.Stores (.declareExchange name type durable autoDelete args)) :
    h.Remembers (.declareExchange name type durable autoDelete args) := by
  have hkept : durable = true → (h.exchanges.lookup name).isSome := by
    intro hd
    by_contra hl
    exact hnew ⟨hd,by simpa [topology] using hl⟩
  have heq : ∀ db, h.exchanges.declareExchange db name type durable autoDelete args =
      (true,if (h.exchanges.lookup name).isSome then h.exchanges
        else h.exchanges.insert name ⟨name,type,durable,autoDelete,args⟩,db) := by
    intro db
    rw [ExchangeManager.declareExchange_eq]
    exact Registry.declare_unstored hkept db _
  refine ⟨_,rfl,⟨?_,hv.queues,hv.handled,hv.messages,hv.disk,?_⟩,?_,?_,?_⟩
  · intro n e he
    simp only [VirtualHost.declareExchange,heq] at he
    split_ifs at he with hl
    · exact hv.exchanges n e he
    · rw [Registry.lookup_insert] at he
      split_ifs at he
      · cases he
        exact Bool.eq_false_iff.mpr fun hd => hl (hkept hd)
      · exact hv.exchanges n e he
  · simp only [VirtualHost.declareExchange,heq]
    exact hv.db
  · simp only [VirtualHost.declareExchange,heq]
  · simp only [memory,VirtualHost.declareExchange,Memory.apply,heq]
  · simp only [VirtualHost.answer,Memory.answer,memory,VirtualHost.declareExchange,heq]

theorem deleteExchange (hv : Volatile h) (name : String) : h.Remembers (.deleteExchange name) := by
  have heq : ∀ db, h.exchanges.deleteExchange db name =
      ((h.exchanges.deleteExchange {} name).1,db) := by
    intro db
    rw [ExchangeManager.deleteExchange_eq,ExchangeManager.deleteExchange_eq]
    exact Registry.delete_unstored (fun e he => hv.exchanges name e he) db _ _ _
  have hbind := hv.db.unbindByExchange (m := h.bindings) (e := name)
  refine ⟨_,rfl,⟨?_,hv.queues,hv.handled,hv.messages,hv.disk,?_⟩,?_,?_,rfl⟩
  · intro n e he
    have hlook : AList.lookup n (h.deleteExchange name).exchanges =
        if n = name then none else h.exchanges.lookup n :=
      ExchangeManager.lookup_deleteExchange name n
    rw [hlook] at he
    split_ifs at he
    exact hv.exchanges n e he
  · simp only [VirtualHost.deleteExchange,hbind]
    rw [heq]
    exact hv.db
  · simp only [VirtualHost.deleteExchange,hbind]
    rw [heq]
  · simp only [memory,VirtualHost.deleteExchange,Memory.apply,hbind]
    rw [heq]

theorem declareQueue (hv : Volatile h) (qname : String) (durable exclusive autoDelete : Bool)
    (args : Args)
    (hnew : ¬ h.topology.Stores (.declareQueue qname durable exclusive autoDelete args)) :
    h.Remembers (.declareQueue qname durable exclusive autoDelete args) := by
  have hkept : durable = true → (h.queues.lookup qname).isSome := by
    intro hd
    by_contra hl
    exact hnew ⟨hd,by simpa [topology] using hl⟩
  have heq : ∀ db, h.queues.declareQueue db qname durable exclusive autoDelete args =
      (true,if (h.queues.lookup qname).isSome then h.queues
        else h.queues.insert qname ⟨qname,durable,exclusive,autoDelete,args⟩,db) := by
    intro db
    rw [QueueManager.declareQueue_eq]
    exact Registry.declare_unstored hkept db _
  obtain ⟨hmsg,hdisk,hledger,hbase⟩ := hv.messages.initQueueMessage (n := qname) hv.disk
  refine ⟨_,rfl,⟨hv.exchanges,?_,?_,hmsg,hdisk,?_⟩,?_,?_,?_⟩
  · intro n q hq
    simp only [VirtualHost.declareQueue,heq] at hq
    split_ifs at hq with hl
    · exact hv.queues n q hq
    · rw [Registry.lookup_insert] at hq
      split_ifs at hq
      · cases hq
        exact Bool.eq_false_iff.mpr fun hd => hl (hkept hd)
      · exact hv.queues n q hq
  · exact Handled.keeps.declareQueue qname durable exclusive autoDelete args hv.handled
  · simp only [VirtualHost.declareQueue,heq]
    exact hv.db
  · simp only [VirtualHost.declareQueue,heq]
  · simp only [memory,VirtualHost.declareQueue,Memory.apply,heq,hledger,hbase]
  · simp only [VirtualHost.answer,Memory.answer,memory,VirtualHost.declareQueue,heq]

theorem deleteQueue (hv : Volatile h) (name : String) : h.Remembers (.deleteQueue name) := by
  have heq : ∀ db, h.queues.deleteQueue db name = ((h.queues.deleteQueue {} name).1,db) := by
    intro db
    rw [QueueManager.deleteQueue_eq,QueueManager.deleteQueue_eq]
    exact Registry.delete_unstored (fun q hq => hv.queues name q hq) db _ _ _
  have hbind := hv.db.unbindByQueue (m := h.bindings) (q := name)
  obtain ⟨hmsg,hdisk,hledger,hbase⟩ := hv.messages.destroyQueueMessage (n := name) hv.disk
  refine ⟨_,rfl,⟨hv.exchanges,?_,?_,hmsg,hdisk,?_⟩,?_,?_,rfl⟩
  · intro n q hq
    have hlook : AList.lookup n (h.deleteQueue name).queues =
        if n = name then none else h.queues.lookup n := QueueManager.lookup_deleteQueue
    rw [hlook] at hq
    split_ifs at hq
    exact hv.queues n q hq
  · exact Handled.keeps.deleteQueue name hv.handled
  · simp only [VirtualHost.deleteQueue,hbind]
    rw [heq]
    exact hv.db
  · simp only [VirtualHost.deleteQueue,hbind]
    rw [heq]
  · simp only [memory,VirtualHost.deleteQueue,Memory.apply,hbind,hledger,hbase]
    rw [heq]

/-- A binding needs both its ends; none of them is durable. -/
theorem bind (hv : Volatile h) (ename qname key : String) :
    h.Remembers (.bind ename qname key) := by
  have heq : h.bind ename qname key =
      if (h.exchanges.lookup ename).isSome && (h.queues.lookup qname).isSome then
        (true,{h with bindings := (h.bindings.bind {} ename qname key false).2.1})
      else (false,h) := by
    unfold VirtualHost.bind ExchangeManager.selectExchange QueueManager.selectQueue
    cases he : h.exchanges.lookup ename with
    | none => rfl
    | some ep =>
      cases hq : h.queues.lookup qname with
      | none => rfl
      | some mqp =>
        simp only [hv.exchanges ename ep he,Bool.false_and]
        unfold BindingManager.bind
        cases h.bindings.getBinding ename qname <;> rfl
  have happly : h.memory.apply (.bind ename qname key) =
      if (h.exchanges.lookup ename).isSome && (h.queues.lookup qname).isSome then
        {h.memory with bindings := (h.bindings.bind {} ename qname key false).2.1}
      else h.memory := rfl
  have hanswer : h.memory.answer (.bind ename qname key) =
    .done ((h.exchanges.lookup ename).isSome && (h.queues.lookup qname).isSome) := rfl
  unfold Remembers VirtualHost.answer
  rw [happly,hanswer]
  simp only [VirtualHost.step,heq]
  split_ifs with hends
  · rw [hends]
    exact ⟨_,rfl,⟨hv.exchanges,hv.queues,hv.handled,hv.messages,hv.disk,hv.db⟩,rfl,rfl,rfl⟩
  · rw [Bool.eq_false_iff.mpr hends]
    exact ⟨h,rfl,hv,rfl,rfl,rfl⟩

theorem unBind (hv : Volatile h) (ename qname : String) : h.Remembers (.unBind ename qname) := by
  have hbind := hv.db.unbind (m := h.bindings) (e := ename) (q := qname)
  refine ⟨_,rfl,⟨hv.exchanges,hv.queues,hv.handled,hv.messages,hv.disk,?_⟩,?_,?_,rfl⟩
  · simp only [VirtualHost.unBind]
    rw [hbind]
    exact hv.db
  · simp only [VirtualHost.unBind]
    rw [hbind]
  · simp only [memory,VirtualHost.unBind,Memory.apply]
    rw [hbind]

theorem basicPublish (hv : Volatile h) (qname : String) (bp : Option BasicProperties)
    (body uuid : String) : h.Remembers (.basicPublish qname bp body uuid) := by
  have hhandled : Handled (h.basicPublish qname bp body uuid).2 :=
    Handled.keeps.basicPublish qname bp body uuid hv.handled
  cases hq : h.queues.lookup qname with
  | none =>
    have heq : h.basicPublish qname bp body uuid = (false,h) := by
      simp only [VirtualHost.basicPublish,QueueManager.selectQueue,hq]
    have hstep : h.step (.basicPublish qname bp body uuid) = some h := by
      simp only [VirtualHost.step,heq]
    refine ⟨h,hstep,hv,rfl,?_,?_⟩
    · simp [Memory.apply,memory,hq]
    · simp [VirtualHost.answer,Memory.answer,memory,heq,hq]
  | some mqp =>
    obtain ⟨m,hins,hmsg,hbase,hledger⟩ := hv.messages.insert (d := h.disk)
      (hv.handled qname (Option.isSome_of_eq_some hq)) bp body uuid
    have heq : h.basicPublish qname bp body uuid = (true,{h with messages := m}) := by
      simp only [VirtualHost.basicPublish,QueueManager.selectQueue,hq,hv.queues qname mqp hq,hins]
    rw [heq] at hhandled
    have hstep : h.step (.basicPublish qname bp body uuid) = some {h with messages := m} := by
      simp only [VirtualHost.step,heq]
    refine ⟨_,hstep,⟨hv.exchanges,hv.queues,hhandled,hmsg,hv.disk,hv.db⟩,rfl,?_,?_⟩
    · simp [Memory.apply,memory,hq,hbase,hledger]
    · simp [VirtualHost.answer,Memory.answer,memory,heq,hq]

theorem basicConsume (hv : Volatile h) (qname : String) : h.Remembers (.basicConsume qname) := by
  obtain ⟨hout,hmsg,hbase,hledger⟩ := hv.messages.front (n := qname)
  refine ⟨_,rfl,⟨hv.exchanges,hv.queues,fun n hn => ?_,hmsg,hv.disk,hv.db⟩,rfl,?_,?_⟩
  · exact MessageManager.front_isSome.trans (hv.handled n hn)
  · simp only [memory,VirtualHost.basicConsume,Memory.apply,hbase,hledger]
  · simp only [VirtualHost.answer,Memory.answer,memory,VirtualHost.basicConsume,hout]

theorem basicAck (hv : Volatile h) (qname msgId : String) :
    h.Remembers (.basicAck qname msgId) := by
  obtain ⟨m,hack,hmsg,hbase,hledger⟩ := hv.messages.ack (n := qname) h.disk msgId
  have heq : h.basicAck qname msgId = {h with messages := m} := by
    simp only [VirtualHost.basicAck,hack]
  have hhandled : Handled (h.basicAck qname msgId) := Handled.keeps.basicAck qname msgId hv.handled
  rw [heq] at hhandled
  refine ⟨{h with messages := m},congrArg some heq,
    ⟨hv.exchanges,hv.queues,hhandled,hmsg,hv.disk,hv.db⟩,rfl,?_,rfl⟩
  simp only [memory,Memory.apply,hbase,hledger]

/-- Every operation but a restart is one on the memory, as long as nothing has to be stored. -/
theorem step (hv : Volatile h) {op : HostOp} (hop : ∀ it, op ≠ .restart it)
    (hnew : ¬ h.topology.Stores op) : h.Remembers op := by
  cases op with
  | declareExchange => exact hv.declareExchange _ _ _ _ _ hnew
  | deleteExchange => exact hv.deleteExchange _
  | declareQueue => exact hv.declareQueue _ _ _ _ _ hnew
  | deleteQueue => exact hv.deleteQueue _
  | bind => exact hv.bind _ _ _
  | unBind => exact hv.unBind _ _
  | basicPublish => exact hv.basicPublish _ _ _ _
  | basicConsume => exact hv.basicConsume _
  | basicAck => exact hv.basicAck _ _
  | restart it => exact absurd rfl (hop it)

end Volatile
end VirtualHost
end MessageQueue

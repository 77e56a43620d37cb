import MessageQueue.Base.Gathered
import MessageQueue.Broker.Backlog
import MessageQueue.Broker.Publish

/-! What the messages of a broker say, in its queues and in the hands of its workers. Only a publish
and what reads a data file add to that; everything else moves it on or loses it. -/
namespace MessageQueue
open Base

/-- What a message says. The rest of a payload is about its record. -/
abbrev Content := String × BasicProperties

def Payload.content (m : Payload) : Content := (m.body,m.props)

/-- The content is made of what a publisher gives. A queue that is not durable keeps no durable
messages, and without properties an id is made up. -/
def Content.Of (bp : Option BasicProperties) (body : String) (x : Content) : Prop :=
  x.1 = body ∧ match bp with
    | some p => x.2.id = p.id ∧ x.2.routingKey = p.routingKey ∧
      (x.2.deliveryMode = p.deliveryMode ∨ x.2.deliveryMode = .undurable)
    | none => x.2.routingKey = ""

theorem insertedPayload_content (bp : Option BasicProperties) (body : String) (durable : Bool)
    (uuid : String) : (insertedPayload bp body durable uuid).content.Of bp body := by
  have hsame : (insertedPayload bp body durable uuid).content =
      (QueueMessage.newMessage bp body durable uuid).payload.content := by
    unfold insertedPayload
    simp only
    split_ifs <;> rfl
  rw [hsame]
  cases bp with
  | none => exact ⟨rfl,rfl⟩
  | some p =>
    refine ⟨rfl,rfl,rfl,?_⟩
    cases durable
    · exact .inr rfl
    · exact .inl rfl

namespace QueueMessage
variable {q q' : QueueMessage} {d : Disk}

/-- What the available messages say, in order. -/
def contents (q : QueueMessage) : List Content := q.available.map Payload.content

theorem contents_eq (q : QueueMessage) : q.contents = q.msgs.map fun p => (q.payload p).content :=
  List.map_map

theorem contents_congr (hm : q'.msgs = q.msgs)
    (hp : ∀ p ∈ q.msgs, (q'.payload p).content = (q.payload p).content) :
    q'.contents = q.contents := by
  rw [contents_eq,contents_eq,hm]
  exact List.map_congr_left hp

/-- A new object at the tail. -/
theorem contents_push (hb : q.Bounded) (m : Message) (hm : q'.msgs = q.msgs ++ [q.fresh])
    (hh : q'.heap = Function.update q.heap q.fresh m) :
    q'.contents = q.contents ++ [m.payload.content] := by
  have hold : ∀ p ∈ q.msgs, q'.payload p = q.payload p := fun p hp => by
    simp [payload,hh,Function.update_of_ne (hb p (.inl hp)).ne]
  have hnew : q'.payload q.fresh = m.payload := by simp [payload,hh]
  rw [contents_eq,contents_eq,hm,List.map_append,List.map_singleton,hnew]
  congr 1
  exact List.map_congr_left fun p hp => by rw [hold p hp]

theorem contents_insert (hb : q.Bounded) (bp : Option BasicProperties) (body : String)
    (durable : Bool) (uuid : String) : ∃ new,
      (q.insert d bp body durable uuid).2.1.contents = q.contents ++ new ∧
        ∀ x ∈ new, x.Of bp body := by
  rcases q.insert_cases d bp body durable uuid with ⟨d',he⟩ | ⟨q',d',m,he,hpay,-,hms,-,hh,-⟩
  · rw [he]
    exact ⟨[],(List.append_nil _).symm,by simp⟩
  · rw [he]
    refine ⟨_,contents_push hb m hms hh,fun x hx => ?_⟩
    rw [List.mem_singleton.mp hx,hpay]
    exact insertedPayload_content bp body durable uuid

/-- A message that is taken off the queue is in it no longer. -/
theorem contents_front : q.contents =
    (q.front.1.map fun p => (q.front.2.payload p).content).toList ++ q.front.2.contents := by
  cases hm : q.msgs with
  | nil =>
    rw [front_nil hm]
    rfl
  | cons p rest =>
    rw [front_cons hm,contents_eq,contents_eq,hm]
    rfl

/-- A message can be given another place, and another mark of validity. -/
theorem contents_store {p : MessagePtr} {m : Message}
    (h : m.payload.content = (q.payload p).content) : (q.store p m).contents = q.contents := by
  refine contents_congr rfl fun p' _ => ?_
  by_cases hp : p' = p
  · subst hp
    rw [← h]
    simp [payload,store]
  · simp [payload,store,hp]

/-- Reading the file adds messages. -/
theorem contents_adopt (hb : q.Bounded) (m : Message) : q.contents <+: (q.adopt m).contents := by
  unfold adopt
  split
  · have hpush : ({q.pushMessage m with
        durableMsgs := q.durableMsgs.emplace m.payload.id q.fresh} : QueueMessage).contents =
        q.contents ++ [m.payload.content] := contents_push hb m rfl rfl
    exact ⟨_,hpush.symm⟩
  · next p hp =>
    have hsay : ({q.heap p with offset := m.offset, length := m.length} : Message).payload.content =
        (q.payload p).content := rfl
    exact contents_store hsay ▸ List.prefix_refl _

theorem contents_garbageCollection (hb : q.Bounded) (check : Policy) (d : Disk) :
    q.contents <+: (q.garbageCollection check d).1.contents :=
  (garbageCollection_keeps (P := fun q' => q'.Bounded ∧ q.contents <+: q'.contents)
    (fun _ _ _ h => h) (fun _ m h => ⟨h.1.adopt m,h.2.trans (contents_adopt h.1 m)⟩) check d
    ⟨hb,List.prefix_refl _⟩).2

/-- So does an acknowledgement, which may compact. -/
theorem contents_remove (hb : q.Bounded) (check : Policy) (d : Disk) (msgId : String) :
    q.contents <+: (q.remove check d msgId).2.1.contents := by
  unfold remove
  split
  · exact List.prefix_refl _
  next p hp =>
  split_ifs
  · have hsay : (q.mapper.remove d (q.heap p)).2.1.payload.content = (q.payload p).content := by
      unfold MessageMapper.remove
      simp only
      split_ifs <;> rfl
    rw [← contents_store hsay]
    refine contents_garbageCollection (q := {q.store p (q.mapper.remove d (q.heap p)).2.1 with
      durableMsgs := q.durableMsgs.erase msgId
      validCount := q.validCount-1}) ?_ check _
    exact hb
  · exact List.prefix_refl _

end QueueMessage

def Handle.contents (x : Handle) : List Content := x.store.contents

/-- The queues have what they had, and behind it messages with the property. -/
structure MessageManager.Grown (P : Content → Prop) (m m' : MessageManager) : Prop where
  new : ∀ q x, m'.queueMsgs.lookup q = some x → ∃ new,
    x.contents = m.queueMsgs.listAt Handle.contents q ++ new ∧ ∀ c ∈ new, P c
  kept : ∀ q, (m.queueMsgs.lookup q).isSome → (m'.queueMsgs.lookup q).isSome

namespace MessageManager.Grown
variable {P : Content → Prop} {m m' m'' : MessageManager} {n : String} {x : Handle}

theorem refl (m : MessageManager) : Grown P m m where
  new q x hx := ⟨[],by rw [Table.listAt_some hx,List.append_nil],by simp⟩
  kept _ h := h

theorem trans (h : Grown P m m') (h' : Grown P m' m'') : Grown P m m'' where
  new q z hz := by
    obtain ⟨new',hnew',hP'⟩ := h'.new q z hz
    cases hm' : m'.queueMsgs.lookup q with
    | some y =>
      obtain ⟨new,hnew,hP⟩ := h.new q y hm'
      rw [Table.listAt_some hm',hnew,List.append_assoc] at hnew'
      exact ⟨new ++ new',hnew',fun c hc => (List.mem_append.mp hc).elim (hP c) (hP' c)⟩
    | none =>
      -- a queue that is not there in between was not there before
      have hm : m.queueMsgs.lookup q = none := by
        by_contra hne
        have hsome := h.kept q (Option.isSome_iff_ne_none.mpr hne)
        rw [hm'] at hsome
        cases hsome
      rw [Table.listAt_none hm'] at hnew'
      rw [Table.listAt_none hm]
      exact ⟨new',hnew',hP'⟩
  kept q hq := h'.kept q (h.kept q hq)

/-- The store of one queue grows. -/
theorem update (hl : m.queueMsgs.lookup n = some x) {store : QueueMessage} {new : List Content}
    (hnew : store.contents = x.store.contents ++ new) (hP : ∀ c ∈ new, P c) :
    Grown P m (m.update n x store) where
  new q y hy := by
    rcases Table.lookup_insert_eq_some.mp hy with ⟨rfl,rfl⟩ | ⟨-,hy⟩
    · rw [Table.listAt_some hl]
      exact ⟨new,hnew,hP⟩
    · exact (refl m).new q y hy
  kept q hq := by
    rw [MessageManager.update,Table.isSome_lookup_insert (by rw [hl]; rfl)]
    exact hq

/-- A queue is new. -/
theorem insert_new (hl : m.queueMsgs.lookup n = none) (fresh : ℕ) (hP : ∀ c ∈ x.contents, P c) :
    Grown P m {m with queueMsgs := m.queueMsgs.insert n x, fresh := fresh} where
  new q y hy := by
    rcases Table.lookup_insert_eq_some.mp hy with ⟨rfl,rfl⟩ | ⟨-,hy⟩
    · rw [Table.listAt_none hl]
      exact ⟨y.contents,rfl,hP⟩
    · exact (refl m).new q y hy
  kept q hq := by
    by_cases hqn : q = n
    · subst hqn
      rw [hl] at hq
      cases hq
    · rw [AList.lookup_insert_ne hqn]
      exact hq

/-- What the queues have in the end, they had before or it was added. -/
theorem count_le (h : Grown P m m') (c : Content) :
    (m'.queueMsgs.gathered Handle.contents).count c ≤
      (m.queueMsgs.gathered Handle.contents).count c+
        (Table.added Handle.contents m.queueMsgs m'.queueMsgs).count c :=
  Table.count_gathered_le fun q x hx => by
    obtain ⟨new,hnew,-⟩ := h.new q x hx
    exact ⟨new,hnew.symm⟩

theorem mem_added (h : Grown P m m') {c : Content}
    (hc : c ∈ Table.added Handle.contents m.queueMsgs m'.queueMsgs) : P c := by
  obtain ⟨q,x,hx,hc⟩ := Table.mem_added hc
  obtain ⟨new,hnew,hP⟩ := h.new q x hx
  rw [hnew,List.drop_left] at hc
  exact hP c hc

end MessageManager.Grown

namespace MessageManager
variable {m : MessageManager} {d : Disk} {n : String}

theorem grown_insert (hb : m.Stores fun _ x => x.store.Bounded) (bp : Option BasicProperties)
    (body : String) (durable : Bool) (uuid : String) :
    Grown (Content.Of bp body) m (m.insert d n bp body durable uuid).2.1 := by
  unfold insert
  cases hl : m.queueMsgs.lookup n with
  | none => exact .refl m
  | some x =>
    obtain ⟨new,hnew,hof⟩ :=
      QueueMessage.contents_insert (d := d) (hb n x hl) bp body durable uuid
    exact .update hl hnew hof

theorem grown_init : Grown (fun _ => True) m (m.initQueueMessage d n).1 := by
  unfold initQueueMessage
  cases hl : m.queueMsgs.lookup n with
  | none => exact .insert_new hl _ fun _ _ => trivial
  | some x => exact .refl m

theorem grown_ack (hb : m.Stores fun _ x => x.store.Bounded) (msgId : String) :
    Grown (fun _ => True) m (m.ack d n msgId).1 := by
  unfold ack
  cases hl : m.queueMsgs.lookup n with
  | none => exact .refl m
  | some x =>
    obtain ⟨new,hnew⟩ := QueueMessage.contents_remove (hb n x hl)
      QueueMessage.garbageCollectionCheck d msgId
    exact .update hl hnew.symm fun _ _ => trivial

theorem count_destroy_le (c : Content) :
    ((m.destroyQueueMessage d n).1.queueMsgs.gathered Handle.contents).count c ≤
      (m.queueMsgs.gathered Handle.contents).count c := by
  unfold destroyQueueMessage
  cases m.queueMsgs.lookup n with
  | none => exact le_rfl
  | some x => exact Table.count_erase_le

/-- A message that is taken is in the hands of the worker instead. -/
theorem count_front (c : Content) :
    ((m.front n).2.queueMsgs.gathered Handle.contents).count c+
        ((m.front n).1.map fun t => t.payload.content).toList.count c =
      (m.queueMsgs.gathered Handle.contents).count c := by
  cases hl : m.queueMsgs.lookup n with
  | none =>
    simp only [front,hl]
    rfl
  | some x =>
    have hfront : x.contents = _ := x.store.contents_front
    rw [Table.count_gathered hl,hfront,List.count_append,front_some hl,Option.map_map]
    simp only [update,Table.count_gathered_insert,Handle.contents,Function.comp_def]
    omega

end MessageManager

/-- What a publish request is about. -/
def Event.publishes : Event → Option (Option BasicProperties × String)
  | .request _ (.basicPublish _ _ _ body bp) _ _ => some (bp,body)
  | _ => none

def Response.content? : Response → Option Content
  | .consume _ _ body properties => some (body,properties.getD {})
  | .common .. => none

/-- The message that a worker is about to push. -/
def Running.content? : Running → Option Content
  | .took _ m => some m.payload.content
  | .called .. => none

theorem filterMap_cons_toList {α β : Type*} (f : α → Option β) (a : α) (l : List α) :
    (a::l).filterMap f = (f a).toList ++ l.filterMap f := by
  cases hf : f a <;> simp [hf]

/-- One that is taken out of a list, and the others. -/
theorem count_filterMap_eraseIdx {α β : Type*} [BEq β] {f : α → Option β} {l : List α} {i : ℕ}
    {a : α} (hi : l[i]? = some a) (x : β) :
    (l.filterMap f).count x = (f a).toList.count x+((l.eraseIdx i).filterMap f).count x := by
  obtain ⟨hlt,rfl⟩ := List.getElem?_eq_some_iff.mp hi
  have hperm := (List.getElem_cons_eraseIdx_perm hlt).filterMap f
  rw [← hperm.count_eq,filterMap_cons_toList,List.count_append]

namespace Broker
variable {b b' : Broker} {i : ℕ}

/-- What is in the queues, and in the hands of the workers. -/
def contents (b : Broker) : List Content :=
  b.host.messages.queueMsgs.gathered Handle.contents ++ b.running.filterMap Running.content?

/-- What is in the queues and was not before. -/
def entered (b b' : Broker) : List Content :=
  Table.added Handle.contents b.host.messages.queueMsgs b'.host.messages.queueMsgs

/-- What an event puts into the queues, if it is one that does. -/
def comesIn (b : Broker) (ev : Event) (b' : Broker) : List Content :=
  if ev.publishes.isSome || ev.restores then b.entered b' else []

theorem count_contents (b : Broker) (x : Content) : b.contents.count x =
    (b.host.messages.queueMsgs.gathered Handle.contents).count x+
      (b.running.filterMap Running.content?).count x := List.count_append

theorem grown_publish {c : Channel} {rid cid ename body : String} {bp : Option BasicProperties}
    {it : Iteration} {uuid : String → String} {r : Broker × Response}
    (hb : b.host.messages.Stores fun _ x => x.store.Bounded)
    (h : c.basicPublish b rid cid ename body bp it uuid = some r) :
    b.host.messages.Grown (Content.Of bp body) r.1.host.messages := by
  rcases Channel.basicPublish_cases h with h | ⟨type,key,bs,h⟩
  · rw [h]
    exact .refl _
  · refine (Channel.publishLoop_invariant (P := fun b' : Broker =>
      (b'.host.messages.Stores fun _ x => x.store.Bounded) ∧
        b.host.messages.Grown (Content.Of bp body) b'.host.messages) ?_ h ⟨hb,.refl _⟩).2
    rintro b' qname ⟨hb',hg⟩
    refine ⟨QueueMessage.Bounded.keeps.basicPublish qname bp body (uuid qname) hb',hg.trans ?_⟩
    simp only [VirtualHost.basicPublish]
    split
    · exact .refl _
    · exact MessageManager.grown_insert hb' bp body _ _

theorem messages_bind (h : VirtualHost) (ename qname key : String) :
    (h.bind ename qname key).2.messages = h.messages := by
  unfold VirtualHost.bind
  split
  · rfl
  · split <;> rfl

/-- A handler adds what is published, or what it reads from a file, and nothing else. -/
theorem serve_grown {c : Channel} {req : Request} {it : Iteration} {uuid : String → String}
    {r : Broker × Response} (hb : b.host.messages.Stores fun _ x => x.store.Bounded)
    (h : c.serve b it uuid req = some r) (conn : ℕ) :
    (∃ bp body, (Event.request conn req it uuid).publishes = some (bp,body) ∧
        b.host.messages.Grown (Content.Of bp body) r.1.host.messages) ∨
      ((Event.request conn req it uuid).restores = true ∧
        b.host.messages.Grown (fun _ => True) r.1.host.messages) ∨
      ∀ x, (r.1.host.messages.queueMsgs.gathered Handle.contents).count x ≤
        (b.host.messages.queueMsgs.gathered Handle.contents).count x := by
  cases req with
  | basicPublish rid cid ename body bp => exact .inl ⟨bp,body,rfl,grown_publish hb h⟩
  | declareQueue rid cid name exclusive durable autoDelete args =>
    cases h
    refine .inr (.inl ⟨rfl,?_⟩)
    simp only [Channel.declareQueue]
    split <;> exact MessageManager.grown_init
  | basicAck rid cid qname msgId =>
    cases h
    exact .inr (.inl ⟨rfl,MessageManager.grown_ack hb msgId⟩)
  | deleteQueue rid cid name => cases h; exact .inr (.inr MessageManager.count_destroy_le)
  | basicConsume rid cid ctag qname autoAck =>
    cases h
    refine .inr (.inr fun x => ?_)
    simp only [Channel.basicConsume]
    split <;> exact le_rfl
  | queueBind rid cid ename qname key =>
    cases h
    refine .inr (.inr fun x => ?_)
    rw [messages_bind]
  | openChannel => cases h
  | closeChannel => cases h
  | declareExchange => cases h; exact .inr (.inr fun _ => le_rfl)
  | deleteExchange => cases h; exact .inr (.inr fun _ => le_rfl)
  | queueUnBind => cases h; exact .inr (.inr fun _ => le_rfl)
  | basicCancel => cases h; exact .inr (.inr fun _ => le_rfl)

/-- A task pushes its own message, or loses it. -/
theorem choose_contents {r : Broker × Option (Consumer × Response)} (h : b.choose i = some r)
    (x : Content) : r.1.contents.count x+(r.2.bind fun d => d.2.content?).toList.count x ≤
      b.contents.count x := by
  obtain ⟨task,m,hi,⟨-,rfl⟩ | ⟨cp,-,rfl⟩⟩ := choose_cases h
  · have hcount := count_filterMap_eraseIdx (f := Running.content?) hi x
    simp only [count_contents,Option.bind_none,Option.toList_none,List.count_nil]
    omega
  · have hcount := count_filterMap_eraseIdx (f := Running.content?) hi x
    have hset : (b.running.set i (.called task m)).filterMap Running.content? =
        (b.running.eraseIdx i).filterMap Running.content? := by
      have hlt := (List.getElem?_eq_some_iff.mp hi).1
      rw [List.set_eq_take_append_cons_drop,if_pos hlt,List.eraseIdx_eq_take_drop_succ,
        List.filterMap_append,List.filterMap_append,List.filterMap_cons_none rfl]
    have hpush : ((delivery cp m).2.content?).toList = (Running.took task m).content?.toList := rfl
    simp only [count_contents,Option.bind_some,hpush]
    split_ifs
    · rw [hset]
      omega
    · omega

/-- Whatever happens, what is there then was there before, or has come in. -/
theorem step_contents {ev : Event} (hb : b.host.messages.Stores fun _ x => x.store.Bounded)
    (h : b.step ev = some b') (hre : ∀ it, ev ≠ .restart it) (x : Content) :
    b'.contents.count x ≤ b.contents.count x+(b.comesIn ev b').count x := by
  cases ev with
  | connect conn => cases h; exact Nat.le_add_right _ _
  | disconnect conn it =>
    cases h
    obtain ⟨hh,-,hr⟩ := b.delConnection_frame conn it
    rw [count_contents,count_contents,hh,hr]
    exact Nat.le_add_right _ _
  | request conn req it uuid =>
    obtain ⟨r,hr,rfl⟩ := Option.map_eq_some_iff.mp h
    rw [count_contents,count_contents,handle_running hr]
    rcases handle_cases hr with ⟨hh,-⟩ | ⟨c,y,hy,he⟩
    · rw [hh]
      omega
    · rw [he]
      rcases serve_grown hb hy conn with ⟨bp,body,hpub,hg⟩ | ⟨hres,hg⟩ | hle
      · have hle := hg.count_le x
        simp only [comesIn,hpub,Option.isSome_some,Bool.true_or,if_true,entered]
        omega
      · have hle := hg.count_le x
        simp only [comesIn,hres,Bool.or_true,if_true,entered]
        omega
      · have := hle x
        omega
  | take i =>
    obtain ⟨task,-,rfl⟩ := take_cases h
    have hfront := b.host.messages.count_front (n := task.qname) x
    rw [count_contents,count_contents,List.filterMap_append,List.count_append]
    have hheld : (((b.host.basicConsume task.qname).1.map (Running.took task)).toList.filterMap
        Running.content?) = ((b.host.messages.front task.qname).1.map
          fun t => t.payload.content).toList := by
      cases hf : (b.host.messages.front task.qname).1 <;>
        simp [VirtualHost.basicConsume,hf,Running.content?]
    rw [hheld]
    simp only [VirtualHost.basicConsume]
    omega
  | choose i =>
    obtain ⟨r,hr,rfl⟩ := Option.map_eq_some_iff.mp h
    have hle := choose_contents hr x
    omega
  | autoAck i =>
    obtain ⟨task,m,hi,rfl⟩ := autoAck_cases h
    have hcount := count_filterMap_eraseIdx (f := Running.content?) hi x
    have hg := (MessageManager.grown_ack (d := b.host.disk) (n := task.qname) hb
      m.payload.id).count_le x
    simp only [count_contents,comesIn,Event.restores,Bool.or_true,if_true,entered,
      VirtualHost.basicAck]
    omega
  | restart it => exact absurd rfl (hre it)

/-- What a publish request puts into the queues is made of the request. -/
theorem comesIn_published {ev : Event} (hb : b.host.messages.Stores fun _ x => x.store.Bounded)
    (h : b.step ev = some b') {bp : Option BasicProperties} {body : String}
    (hev : ev.publishes = some (bp,body)) {x : Content} (hx : x ∈ b.comesIn ev b') :
    x.Of bp body := by
  cases ev with
  | request conn req it uuid =>
    obtain ⟨r,hr,rfl⟩ := Option.map_eq_some_iff.mp h
    have hx' : x ∈ b.entered r.1 := by
      rw [comesIn,hev] at hx
      exact hx
    have hsame : r.1.host = b.host → x ∉ b.entered r.1 := by
      intro hh hin
      rw [entered,hh] at hin
      exact (MessageManager.Grown.refl (P := fun _ => False) b.host.messages).mem_added hin
    rcases handle_cases hr with ⟨hh,-⟩ | ⟨c,y,hy,he⟩
    · exact absurd hx' (hsame hh)
    · rw [he] at hx'
      cases req with
      | basicPublish rid cid ename body' bp' =>
        cases hev
        exact (grown_publish hb hy).mem_added hx'
      | _ => cases hev
  | _ => cases hev

end Broker
end MessageQueue

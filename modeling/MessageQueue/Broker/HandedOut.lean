import MessageQueue.Broker.Stores
import MessageQueue.Broker.Subscriptions
import Mathlib.Data.List.Perm.Basic

/-! Messages that wait for an acknowledgement. A consume task takes its message before it looks
for a consumer, so a waiting message has been handed out as long as every task finds one. -/
namespace MessageQueue
open Base

/-- One call of a consumer's callback: from which queue, and which message object of it. -/
structure Delivery where
  consumer : Consumer
  qname : String
  object : ℕ
  message : MessagePtr

/-- A broker, and the calls of callbacks since its process started. -/
structure Observed where
  broker : Broker
  handed : List Delivery

namespace Observed

/-- The call that an event makes, if any. -/
def called (s : Observed) : Event → List Delivery
  | .choose i =>
    match s.broker.running[i]?,(s.broker.choose i).bind Prod.snd with
    | some (.took task m),some (cp,_) => [⟨cp,task.qname,m.object,m.message⟩]
    | _,_ => []
  | _ => []

def note (s : Observed) : Event → List Delivery
  | .restart _ => []
  | ev => s.handed ++ s.called ev

def step (s : Observed) (ev : Event) : Option Observed :=
  (s.broker.step ev).map fun b => ⟨b,s.note ev⟩

/-- A task that looks for a consumer finds its queue to have one. -/
def Attended (s : Observed) : Event → Prop
  | .choose i =>
    match s.broker.running[i]? with
    | some (.took task _) => s.broker.consumers.HasConsumer task.qname
    | _ => True
  | _ => True

instance (s : Observed) : ∀ ev, Decidable (s.Attended ev)
  | .choose i =>
    match h : s.broker.running[i]? with
    | some (.took task _) =>
      decidable_of_iff (s.broker.consumers.HasConsumer task.qname) (by simp only [Attended,h])
    | some (.called ..) => .isTrue (by simp only [Attended,h])
    | none => .isTrue (by simp only [Attended,h])
  | .connect _ | .disconnect .. | .request .. | .take _ | .autoAck _ | .restart _ => .isTrue trivial

def system : Lts Observed Event := .ofPartial step

/-- The runs in which every task finds a consumer. -/
def attendedSystem : Lts Observed Event := system.guarded Attended

/-- The message was handed to a consumer of its queue, or a task is about to look for one. -/
def Known (handed : List Delivery) (running : List Running) (q : String) (object : ℕ)
    (p : MessagePtr) : Prop :=
  (∃ e ∈ handed, e.qname = q ∧ e.object = object ∧ e.message = p) ∨
    ∃ task m, .took task m ∈ running ∧ task.qname = q ∧ m.object = object ∧ m.message = p

/-- Every waiting message is known, and the calls were calls of the queue's consumers. -/
structure Accounted (s : Observed) : Prop where
  waiting : s.broker.host.messages.Stores fun q x => ∀ p, x.store.Waits p →
    Known s.handed s.broker.running q x.object p
  subscribed : s.broker.consumers.Subscribed
  named : ∀ e ∈ s.handed, e.consumer.subscribeQueueName = e.qname

end Observed

namespace QueueMessage
variable {q : QueueMessage} {p : MessagePtr}

/-- A new store has no message out. -/
theorem recovery_waits (mapper : MessageMapper) (d : Disk) :
    ¬ ((QueueMessage.new mapper).recovery d).2.1.Waits p := by
  have hempty : ((QueueMessage.new mapper).recovery d).2.1.waitackMsgs = ∅ :=
    recovery_keeps (P := fun q => q.waitackMsgs = ∅) (fun _ _ _ hq => hq) (fun _ _ hq => hq) d rfl
  rintro ⟨id,hid⟩
  simp [hempty] at hid

theorem insert_waits {d : Disk} {bp : Option BasicProperties} {body : String} {durable : Bool}
    {uuid : String} (h : (q.insert d bp body durable uuid).2.1.Waits p) : q.Waits p := by
  rcases q.insert_cases d bp body durable uuid with ⟨d',he⟩ | ⟨q',d',m,he,-,-,-,hw,-⟩
  · rwa [he] at h
  · rw [he] at h
    simpa only [Waits,hw] using h

theorem garbageCollection_waitackMsgs (check : Policy) (d : Disk) :
    (q.garbageCollection check d).1.waitackMsgs = q.waitackMsgs := by
  refine garbageCollection_keeps (P := fun x => x.waitackMsgs = q.waitackMsgs)
    (fun _ _ _ hx => hx) (fun x m hx => ?_) check d rfl
  rw [← hx]
  unfold adopt
  split <;> rfl

/-- An acknowledgement only takes waiting messages away. -/
theorem remove_waits {check : Policy} {d : Disk} {msgId : String}
    (h : (q.remove check d msgId).2.1.Waits p) : q.Waits p := by
  obtain ⟨id,hid⟩ := h
  unfold remove at hid
  split at hid
  · exact ⟨id,hid⟩
  · split_ifs at hid
    · have hid := (Table.lookup_erase_eq_some.mp hid).2
      rw [garbageCollection_waitackMsgs] at hid
      exact ⟨id,hid⟩
    · exact ⟨id,(Table.lookup_erase_eq_some.mp hid).2⟩

/-- The message that was taken is the only one that can be new among the waiting ones. -/
theorem front_waits (h : q.front.2.Waits p) : q.Waits p ∨ q.front.1 = some p := by
  obtain ⟨id,hid⟩ := h
  unfold front at hid ⊢
  split at hid
  · exact .inl ⟨id,hid⟩
  · rcases Table.lookup_emplace_eq_some.mp hid with hid | ⟨-,-,rfl⟩
    · exact .inl ⟨id,hid⟩
    · exact .inr rfl

end QueueMessage

/-- Every handler keeps it that the waiting messages are known. -/
theorem knownKeeps (R : String → ℕ → MessagePtr → Prop) : VirtualHost.Keeps fun h =>
    h.messages.Stores fun q x => ∀ p, x.store.Waits p → R q x.object p :=
  MessageManager.Stores.keeps (fun q x => ∀ p, x.store.Waits p → R q x.object p)
    (fun _ _ mapper d _ hp => absurd hp (QueueMessage.recovery_waits mapper d))
    (fun _ _ _ _ _ _ _ h p hp => h p (QueueMessage.insert_waits hp))
    (fun _ _ _ _ h p hp => h p (QueueMessage.remove_waits hp))

/-- What a delivery takes off a queue is the head of its store. -/
theorem MessageManager.front_taken {m : MessageManager} {n : String} {x : Handle}
    {p : MessagePtr} (hl : m.queueMsgs.lookup n = some x) (hf : x.store.front.1 = some p) :
    ∃ t, (m.front n).1 = some t ∧ t.object = x.object ∧ t.message = p := by
  rw [front_some hl,hf]
  exact ⟨_,rfl,rfl,rfl⟩

theorem mem_eraseIdx_of_ne {α : Type*} {l : List α} {i : ℕ} {a x : α} (hi : l[i]? = some a)
    (hx : x ∈ l) (hne : x ≠ a) : x ∈ l.eraseIdx i := by
  obtain ⟨hlt,rfl⟩ := List.getElem?_eq_some_iff.mp hi
  have hp := (List.getElem_cons_eraseIdx_perm hlt).mem_iff.mpr hx
  exact (List.mem_cons.mp hp).resolve_left hne

namespace Observed
variable {s s' : Observed} {q : String} {object : ℕ} {p : MessagePtr}
  {handed : List Delivery} {running : List Running}

theorem Known.mono {handed' : List Delivery} {running' : List Running}
    (h : Known handed running q object p) (hh : ∀ e ∈ handed, e ∈ handed')
    (hr : ∀ task m, .took task m ∈ running → .took task m ∈ running' ∨
      ∃ e ∈ handed', e.qname = task.qname ∧ e.object = m.object ∧ e.message = m.message) :
    Known handed' running' q object p := by
  rcases h with ⟨e,he,hk⟩ | ⟨task,m,hm,rfl,rfl,rfl⟩
  · exact .inl ⟨e,hh e he,hk⟩
  · rcases hr task m hm with hm | he
    · exact .inr ⟨task,m,hm,rfl,rfl,rfl⟩
    · exact .inl he

/-- The step that takes a message makes it known. -/
theorem take_accounted {i : ℕ} {b : Broker} (hs : s.Accounted) (h : s.broker.take i = some b) :
    (⟨b,s.handed⟩ : Observed).Accounted := by
  obtain ⟨task,-,rfl⟩ := Broker.take_cases h
  refine ⟨?_,hs.subscribed,hs.named⟩
  let running := s.broker.running ++
    ((s.broker.host.basicConsume task.qname).1.map (Running.took task)).toList
  have hbefore : s.broker.host.messages.Stores fun q x => ∀ p, x.store.Waits p →
      Known s.handed running q x.object p := fun q x hx p hp =>
    (hs.waiting q x hx p hp).mono (fun _ he => he) fun _ _ hm => .inl (List.mem_append_left _ hm)
  refine MessageManager.Stores.front hbefore fun x hx p hp => ?_
  rcases QueueMessage.front_waits hp with hp | hp
  · exact hbefore _ x hx p hp
  · obtain ⟨t,ht,ho,hm⟩ := MessageManager.front_taken hx hp
    have ht : (s.broker.host.basicConsume task.qname).1 = some t := ht
    refine .inr ⟨task,t,?_,rfl,ho,hm⟩
    simp [ht]

/-- The step that looks for a consumer calls it. -/
theorem choose_accounted {i : ℕ} {r : Broker × Option (Consumer × Response)} (hs : s.Accounted)
    (hc : s.Attended (.choose i)) (h : s.broker.choose i = some r) :
    (⟨r.1,s.note (.choose i)⟩ : Observed).Accounted := by
  obtain ⟨task,m,hi,hcase⟩ := Broker.choose_cases h
  simp only [Attended,hi] at hc
  obtain ⟨cp',hcp'⟩ := hc.chooseConsumer
  rcases hcase with ⟨hnone,-⟩ | ⟨cp,hcp,rfl⟩
  · rw [hcp'] at hnone; cases hnone
  · have hnote : s.note (.choose i) = s.handed ++ [⟨cp,task.qname,m.object,m.message⟩] := by
      simp only [note,called,hi,h,Option.bind_some,Broker.delivery]
    rw [hnote]
    refine ⟨fun q x hx p hp => ?_,ConsumerManager.Subscribed.keeps.choose _ hs.subscribed,?_⟩
    · refine (hs.waiting q x hx p hp).mono (fun e he => List.mem_append_left _ he) ?_
      intro t m' hm'
      by_cases heq : Running.took t m' = .took task m
      · cases heq
        exact .inr ⟨_,List.mem_append_right _ (List.mem_singleton_self _),rfl,rfl,rfl⟩
      · have herase := mem_eraseIdx_of_ne hi hm' heq
        refine .inl ?_
        simp only
        split_ifs
        · obtain ⟨hlt,-⟩ := List.getElem?_eq_some_iff.mp hi
          exact (List.set_perm_cons_eraseIdx hlt _).mem_iff.mpr (List.mem_cons_of_mem _ herase)
        · exact herase
    · intro e he
      rcases List.mem_append.mp he with he | he
      · exact hs.named e he
      · rw [List.mem_singleton.mp he]
        exact hs.subscribed.chosen hcp

theorem step_accounted {ev : Event} (hs : s.Accounted) (hc : s.Attended ev)
    (h : s.step ev = some s') : s'.Accounted := by
  obtain ⟨b,hb,rfl⟩ := Option.map_eq_some_iff.mp h
  have hsub := ConsumerManager.Subscribed.keeps.step hb
    (fun _ _ _ _ _ => Broker.allows fun _ _ => trivial) hs.subscribed
  cases ev with
  | connect conn =>
    cases hb
    simp only [note,called,List.append_nil]
    exact ⟨hs.waiting,hsub,hs.named⟩
  | disconnect conn it =>
    cases hb
    refine ⟨?_,hsub,?_⟩
    · simp only [note,called,List.append_nil,Broker.delConnection_frame]
      exact hs.waiting
    · simpa only [note,called,List.append_nil] using hs.named
  | request conn req it uuid =>
    obtain ⟨r,hr,rfl⟩ := Option.map_eq_some_iff.mp hb
    refine ⟨?_,hsub,?_⟩
    · simp only [note,called,List.append_nil,Broker.handle_running hr]
      exact Broker.handle_keeps (knownKeeps _) hr hs.waiting
    · simpa only [note,called,List.append_nil] using hs.named
  | take i =>
    simp only [note,called,List.append_nil]
    exact take_accounted hs hb
  | choose i =>
    obtain ⟨r,hr,rfl⟩ := Option.map_eq_some_iff.mp hb
    exact choose_accounted hs hc hr
  | autoAck i =>
    obtain ⟨task,m,hi,rfl⟩ := Broker.autoAck_cases hb
    simp only [note,called,List.append_nil]
    refine ⟨?_,hsub,hs.named⟩
    have hbefore : s.broker.host.messages.Stores fun q x => ∀ p, x.store.Waits p →
        Known s.handed (s.broker.running.eraseIdx i) q x.object p := fun q x hx p hp =>
      (hs.waiting q x hx p hp).mono (fun _ he => he) fun t m' hm' =>
        .inl (mem_eraseIdx_of_ne hi hm' (by simp))
    exact (knownKeeps _).basicAck _ _ hbefore
  | restart it =>
    obtain ⟨host,hhost,rfl⟩ := Option.map_eq_some_iff.mp hb
    refine ⟨.construct hhost ?_,hsub,fun e he => absurd he List.not_mem_nil⟩
    exact fun _ _ mapper d _ hp => absurd hp (QueueMessage.recovery_waits mapper d)

end Observed

section Reachable
variable {basedir : String} {it : Iteration} {disk : Disk} {db : Database} {b₀ : Broker}
  {evs : List Event} {s : Observed}

/-- When every task finds a consumer, then between tasks every waiting message has been passed to
the callback of a consumer of its queue since the process started. -/
theorem waiting_handed_out (start : Broker.construct basedir it disk db = some b₀)
    (run : Observed.attendedSystem.Run ⟨b₀,[]⟩ evs s) (idle : s.broker.running = []) (q : String)
    (x : Handle) (hx : s.broker.host.messages.queueMsgs.lookup q = some x) (id : String)
    (p : MessagePtr) (hp : x.store.waitackMsgs.lookup id = some p) :
    ∃ e ∈ s.handed, e.qname = q ∧ e.object = x.object ∧ e.message = p ∧
      e.consumer.subscribeQueueName = q := by
  have hs : s.Accounted := by
    refine run.invariant ?_ fun hs step => Observed.step_accounted hs step.1 step.2
    refine ⟨?_,ConsumerManager.Subscribed.keeps.construct start,fun e he =>
      absurd he List.not_mem_nil⟩
    obtain ⟨host,hhost,rfl⟩ := Option.map_eq_some_iff.mp start
    exact .construct hhost fun _ _ mapper d _ hp =>
      absurd hp (QueueMessage.recovery_waits mapper d)
  rcases hs.waiting q x hx p ⟨id,hp⟩ with ⟨e,he,rfl,ho,hm⟩ | ⟨task,m,hm,-⟩
  · exact ⟨e,he,rfl,ho,hm,hs.named e he⟩
  · rw [idle] at hm
    cases hm

/-- A message is published, a worker takes it, and finds that nobody has subscribed. -/
def nobodySubscribed : List Event :=
  tradeSetup ++
    [.request 1 (.basicPublish "r5" "c1" "trade" "ten" (some ⟨"m1",.durable,"order.new"⟩)) .listed
        fun _ => "u5",
      .take 0,.choose 0]

/-- The message waits for an acknowledgement that nobody has been asked for. -/
theorem waiting_not_handed_out :
    ¬ ∀ (basedir : String) (it : Iteration) (disk : Disk) (db : Database) (b₀ : Broker)
      (evs : List Event) (s : Observed), Broker.construct basedir it disk db = some b₀ →
      Observed.system.Run ⟨b₀,[]⟩ evs s → s.broker.running = [] →
      ∀ q x, s.broker.host.messages.queueMsgs.lookup q = some x →
        ∀ id p, x.store.waitackMsgs.lookup id = some p →
          ∃ e ∈ s.handed, e.qname = q ∧ e.object = x.object ∧ e.message = p := by
  intro h
  have hall : ((Broker.construct "/data" .listed blankDisk {}).bind
      fun b₀ => nobodySubscribed.foldlM Observed.step ⟨b₀,[]⟩).any (fun s : Observed =>
        s.broker.running.isEmpty && s.handed.isEmpty &&
        (s.broker.host.messages.queueMsgs.lookup "orders").any fun x =>
          (x.store.waitackMsgs.lookup "m1").isSome) = true := by
    decide +kernel
  simp only [Option.any_eq_true,Bool.and_eq_true,List.isEmpty_iff] at hall
  obtain ⟨s,hs,⟨idle,none⟩,x,hx,hw⟩ := hall
  obtain ⟨b₀,start,hs⟩ := Option.bind_eq_some_iff.mp hs
  obtain ⟨p,hp⟩ := Option.isSome_iff_exists.mp hw
  obtain ⟨e,he,-⟩ := h _ _ _ _ b₀ _ s start (.of_foldlM hs) idle "orders" x hx "m1" p hp
  rw [none] at he
  cases he

/-- A consumer subscribes first, and then the message comes. -/
def subscribedFirst : List Event :=
  tradeSetup ++
    [.request 1 (.basicConsume "r5" "c1" "tag" "orders" false) .listed fun _ => "u5",
      .request 1 (.basicPublish "r6" "c1" "trade" "ten" (some ⟨"m1",.durable,"order.new"⟩)) .listed
        fun _ => "u6",
      .take 0,.choose 0]

theorem waiting_handed_out_first :
    ∃ b₀ s, Broker.construct "/data" .listed blankDisk {} = some b₀ ∧
      Observed.attendedSystem.Run ⟨b₀,[]⟩ subscribedFirst s ∧
      ∃ x id p, s.broker.host.messages.queueMsgs.lookup "orders" = some x ∧
        x.store.waitackMsgs.lookup id = some p ∧
        ∃ e ∈ s.handed, e.qname = "orders" ∧ e.object = x.object ∧ e.message = p ∧
          e.consumer.subscribeQueueName = "orders" := by
  have hall : ((Broker.construct "/data" .listed blankDisk {}).bind fun b₀ =>
      subscribedFirst.foldlM (fun s ev => if s.Attended ev then s.step ev else none)
        ⟨b₀,[]⟩).any (fun s : Observed => s.broker.running.isEmpty &&
          (s.broker.host.messages.queueMsgs.lookup "orders").any fun x =>
            (x.store.waitackMsgs.lookup "m1").isSome) = true := by
    decide +kernel
  simp only [Option.any_eq_true,Bool.and_eq_true,List.isEmpty_iff] at hall
  obtain ⟨s,hs,idle,x,hx,hw⟩ := hall
  obtain ⟨b₀,start,hs⟩ := Option.bind_eq_some_iff.mp hs
  obtain ⟨p,hp⟩ := Option.isSome_iff_exists.mp hw
  have run : Observed.attendedSystem.Run ⟨b₀,[]⟩ subscribedFirst s := .of_foldlM_guarded hs
  exact ⟨b₀,s,start,run,x,"m1",p,hx,hp,waiting_handed_out start run idle "orders" x hx "m1" p hp⟩

end Reachable
end MessageQueue

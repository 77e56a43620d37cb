import MessageQueue.Broker.Handlers
import MessageQueue.Store.Operations
import Mathlib.Data.List.Perm.Basic

/-! The backlog of a queue. A publish pushes one consume task for each message it appends, so the
messages without a task are those that were put into the list by something else: by recovery, or
by a compaction. -/
namespace MessageQueue
open Base

namespace Broker

/-- The number of messages in a queue's list. -/
def available (b : Broker) (q : String) : ℕ := b.host.messages.getAbleCount q

/-- The number of consume tasks for a queue that no worker has begun. -/
def pending (b : Broker) (q : String) : ℕ := b.pool.countP fun t => decide (t.qname = q)

end Broker

/-- The events in which messages come into a list without a publish: the handle of a new queue
recovers what is on file, and an acknowledgement can compact. -/
def Event.restores : Event → Bool
  | .request _ (.declareQueue ..) _ _ => true
  | .request _ (.basicAck ..) _ _ => true
  | .autoAck _ => true
  | _ => false

/-- A broker, and for each queue how many messages were put into its list without a publish. -/
structure Noted where
  broker : Broker
  restored : String → ℕ

namespace Noted

/-- A restart counts from new, and so does a queue that was deleted. -/
def note (s : Noted) (b : Broker) (q : String) : Event → ℕ
  | .restart _ => b.available q
  | ev =>
    if (b.host.messages.queueMsgs.lookup q).isNone then 0
    else if ev.restores then s.restored q + (b.available q - s.broker.available q)
    else s.restored q

def step (s : Noted) (ev : Event) : Option Noted :=
  (s.broker.step ev).map fun b => {broker := b, restored := fun q => s.note b q ev}

def system : Lts Noted Event := .ofPartial step

/-- The messages of a new process are all recovered ones. -/
def start (b : Broker) : Noted := ⟨b,b.available⟩

end Noted

namespace MessageManager
variable {m : MessageManager} {d : Disk} {q n : String}

theorem getAbleCount_congr {m' : MessageManager}
    (h : m'.queueMsgs.lookup q = m.queueMsgs.lookup q) : m'.getAbleCount q = m.getAbleCount q := by
  simp only [getAbleCount,h]

theorem getAbleCount_none (h : m.queueMsgs.lookup q = none) : m.getAbleCount q = 0 := by
  simp only [getAbleCount,h]

theorem getAbleCount_update {x : Handle} (store : QueueMessage) :
    (m.update n x store).getAbleCount q =
      if q = n then store.msgs.length else m.getAbleCount q := by
  by_cases hq : q = n
  · subst hq
    simp [getAbleCount,update,QueueMessage.getAbleCount]
  · simp [getAbleCount,update,AList.lookup_insert_ne hq,hq]

/-- An insertion adds at most one message, and to its own queue. -/
theorem getAbleCount_insert (bp : Option BasicProperties) (body : String) (durable : Bool)
    (uuid : String) : (m.insert d n bp body durable uuid).2.1.getAbleCount q ≤
      m.getAbleCount q + if n = q then 1 else 0 := by
  unfold insert
  cases hl : m.queueMsgs.lookup n with
  | none => exact Nat.le_add_right _ _
  | some x =>
    simp only [getAbleCount_update]
    by_cases hq : q = n
    · subst hq
      have hlen : (x.store.insert d bp body durable uuid).2.1.msgs.length ≤
          x.store.msgs.length+1 := by
        rcases x.store.insert_cases d bp body durable uuid with ⟨d',he⟩ | ⟨_,d',_,he,-,-,hm,-⟩
        · rw [he]; exact Nat.le_succ _
        · rw [he,hm]; simp
      simpa [getAbleCount,hl,QueueMessage.getAbleCount] using hlen
    · simp [hq,Ne.symm hq]

/-- Taking a message makes the list one shorter, unless it is empty. -/
theorem getAbleCount_front :
    (m.front n).2.getAbleCount q = m.getAbleCount q - if n = q then 1 else 0 := by
  cases hl : m.queueMsgs.lookup n with
  | none =>
    by_cases hq : n = q
    · subst hq; simp [front,hl,getAbleCount_none hl]
    · simp [front,hl,hq]
  | some x =>
    have hlen : x.store.front.2.msgs.length = x.store.msgs.length - 1 := by
      unfold QueueMessage.front
      cases hm : x.store.msgs with
      | nil => simp [hm]
      | cons p rest => simp
    rw [front_some hl,getAbleCount_update]
    by_cases hq : n = q
    · subst hq; simp [hlen,getAbleCount,hl,QueueMessage.getAbleCount]
    · simp [hq,Ne.symm hq]

theorem getAbleCount_destroy :
    (m.destroyQueueMessage d n).1.getAbleCount q ≤ m.getAbleCount q := by
  unfold destroyQueueMessage
  cases hl : m.queueMsgs.lookup n with
  | none => exact le_rfl
  | some x =>
    by_cases hq : q = n
    · subst hq
      simp [getAbleCount]
    · rw [getAbleCount_congr (AList.lookup_erase_ne hq)]

end MessageManager

namespace Channel
variable {c : Channel} {b : Broker} {it : Iteration} {uuid : String → String} {req : Request}
  {r : Broker × Response} {q : String}

/-- A publish appends no more messages than it pushes tasks. -/
theorem basicPublish_available {rid cid ename body : String} {bp : Option BasicProperties}
    (h : c.basicPublish b rid cid ename body bp it uuid = some r) :
    r.1.available q + b.pending q ≤ b.available q + r.1.pending q := by
  rcases basicPublish_cases h with h | ⟨type,key,bs,h⟩
  · rw [h]
  · refine publishLoop_invariant
      (P := fun b' => b'.available q + b.pending q ≤ b.available q + b'.pending q) ?_ h le_rfl
    intro b' qname hb
    have hins : (b'.host.basicPublish qname bp body (uuid qname)).2.messages.getAbleCount q ≤
        b'.host.messages.getAbleCount q + if qname = q then 1 else 0 := by
      unfold VirtualHost.basicPublish
      cases b'.host.queues.selectQueue qname with
      | none => exact Nat.le_add_right _ _
      | some mqp => exact MessageManager.getAbleCount_insert _ _ _ _
    simp only [Broker.available,Broker.pending,List.countP_append,List.countP_cons,List.countP_nil,
      decide_eq_true_eq] at hb hins ⊢
    omega

/-- The other handlers add messages only where they recover or compact. -/
theorem serve_available (h : c.serve b it uuid req = some r) (hreq : ¬ req.IsPublish)
    {conn : ℕ} (hev : (Event.request conn req it uuid).restores = false) :
    r.1.available q ≤ b.available q := by
  cases req with
  | basicPublish => exact absurd trivial hreq
  | declareQueue => cases hev
  | basicAck => cases hev
  | basicConsume rid cid ctag qname autoAck =>
    cases h
    simp only [Channel.basicConsume]
    split <;> exact le_rfl
  | queueBind rid cid ename qname key =>
    cases h
    have hm : (b.host.bind ename qname key).2.messages = b.host.messages := by
      unfold VirtualHost.bind
      split
      · rfl
      · split <;> rfl
    simp only [Broker.available,hm,le_rfl]
  | deleteQueue => cases h; exact MessageManager.getAbleCount_destroy
  | openChannel => cases h
  | closeChannel => cases h
  | declareExchange => cases h; exact le_rfl
  | deleteExchange => cases h; exact le_rfl
  | queueUnBind => cases h; exact le_rfl
  | basicCancel => cases h; exact le_rfl

end Channel

namespace Broker
variable {b b' : Broker} {q : String}

/-- A worker that begins a task takes a message along with it. -/
theorem take_available {i : ℕ} (h : b.take i = some b') :
    ∃ task : Task, b.pending q = b'.pending q + (if task.qname = q then 1 else 0) ∧
      b'.available q = b.available q - if task.qname = q then 1 else 0 := by
  obtain ⟨task,hi,rfl⟩ := take_cases h
  obtain ⟨hlt,hget⟩ := List.getElem?_eq_some_iff.mp hi
  have hperm : (task :: b.pool.eraseIdx i).Perm b.pool := by
    rw [← hget]
    exact List.getElem_cons_eraseIdx_perm hlt
  have hcount := hperm.countP_eq (fun t : Task => decide (t.qname = q))
  rw [List.countP_cons] at hcount
  simp only [decide_eq_true_eq] at hcount
  exact ⟨task,hcount.symm,MessageManager.getAbleCount_front⟩

/-- What an event does to the backlog, unless it restores messages. -/
theorem step_available {ev : Event} (h : b.step ev = some b') (hev : ev.restores = false)
    (hre : ∀ it, ev ≠ .restart it) {r : ℕ} (hb : b.available q ≤ b.pending q + r) :
    b'.available q ≤ b'.pending q + r := by
  cases ev with
  | connect conn => cases h; exact hb
  | disconnect conn it =>
    cases h
    obtain ⟨hh,hp,-⟩ := b.delConnection_frame conn it
    simpa only [available,pending,hh,hp] using hb
  | request conn req it uuid =>
    obtain ⟨x,hx,rfl⟩ := Option.map_eq_some_iff.mp h
    rcases handle_cases hx with ⟨hh,hp,-⟩ | ⟨c,y,hy,he⟩
    · simpa only [available,pending,hh,hp] using hb
    · rw [he]
      by_cases hreq : req.IsPublish
      · cases req with
        | basicPublish rid cid ename body bp =>
          have := Channel.basicPublish_available (q := q) hy
          omega
        | _ => exact absurd hreq id
      · have hle := Channel.serve_available (q := q) hy hreq hev
        have hp : y.1.pending q = b.pending q := by
          simp only [pending,Channel.serve_pool hy hreq]
        omega
  | take i =>
    obtain ⟨task,hp,ha⟩ := take_available (q := q) h
    omega
  | choose i =>
    obtain ⟨x,hx,rfl⟩ := Option.map_eq_some_iff.mp h
    obtain ⟨task,m,-,⟨-,rfl⟩ | ⟨cp,-,rfl⟩⟩ := choose_cases hx
    · exact hb
    · exact hb
  | autoAck i => cases hev
  | restart it => exact absurd rfl (hre it)

end Broker

/-- Every message in a list has its task, or is one of those that were restored. -/
def Noted.Covered (s : Noted) : Prop :=
  ∀ q, s.broker.available q ≤ s.broker.pending q + s.restored q

/-- Where messages are restored no task comes or goes. -/
theorem Broker.step_pending {b b' : Broker} {ev : Event} (h : b.step ev = some b')
    (hev : ev.restores = true) : b'.pool = b.pool := by
  cases ev with
  | request conn req it uuid =>
    obtain ⟨x,hx,rfl⟩ := Option.map_eq_some_iff.mp h
    refine handle_pool hx fun hreq => ?_
    cases req with
    | basicPublish => cases hev
    | _ => exact hreq
  | autoAck i =>
    obtain ⟨task,m,-,rfl⟩ := autoAck_cases h
    rfl
  | _ => cases hev

theorem Noted.note_eq {s : Noted} {b : Broker} {q : String} {ev : Event}
    (h : ∀ it, ev ≠ .restart it) : s.note b q ev =
      if (b.host.messages.queueMsgs.lookup q).isNone then 0
      else if ev.restores then s.restored q + (b.available q - s.broker.available q)
      else s.restored q := by
  cases ev with
  | restart it => exact absurd rfl (h it)
  | _ => rfl

theorem Noted.step_covered {s s' : Noted} {ev : Event} (hs : s.Covered)
    (h : s.step ev = some s') : s'.Covered := by
  obtain ⟨b,hb,rfl⟩ := Option.map_eq_some_iff.mp h
  intro q
  by_cases hre : ∃ it, ev = .restart it
  · obtain ⟨it,rfl⟩ := hre
    exact Nat.le_add_left _ _
  · have hne : ∀ it, ev ≠ .restart it := fun it he => hre ⟨it,he⟩
    have hq := hs q
    simp only [note_eq hne]
    split_ifs with hl hev
    · simp [Broker.available,MessageManager.getAbleCount_none (Option.isNone_iff_eq_none.mp hl)]
    · have hp : b.pending q = s.broker.pending q := by
        simp only [Broker.pending,Broker.step_pending hb hev]
      omega
    · exact Broker.step_available hb (by simpa using hev) hne hq

section Reachable
variable {basedir : String} {it : Iteration} {disk : Disk} {db : Database} {b₀ : Broker}
  {evs : List Event}

/-- In every run from any start, whatever fails, a queue's available messages are at most its
pending tasks and the messages that were restored; without restored messages and tasks nothing is
left in the list. -/
theorem backlog_covered {s : Noted} (run : Noted.system.Run (.start b₀) evs s) (q : String) :
    s.broker.available q ≤ s.broker.pending q + s.restored q ∧
      (s.broker.pending q = 0 → s.restored q = 0 → s.broker.available q = 0) := by
  have hs : s.Covered := run.invariant (P := Noted.Covered)
    (fun q => Nat.le_add_left _ _) fun hs h => Noted.step_covered hs h
  have hq := hs q
  exact ⟨hq,fun _ _ => by omega⟩

/-- A durable message is published, the broker restarts, and a consumer subscribes. -/
def subscribeLater : List Event :=
  tradeSetup ++
    [.request 1 (.basicPublish "r5" "c1" "trade" "ten" (some ⟨"m1",.durable,"order.new"⟩)) .listed
        fun _ => "u5",
      .restart .listed,.connect 1,
      .request 1 (.openChannel "r6" "c1") .listed fun _ => "u6",
      .request 1 (.basicConsume "r7" "c1" "tag" "orders" true) .listed fun _ => "u7"]

/-- The recovered message has no task, and none will come for it. -/
theorem recovered_without_task :
    ¬ ∀ (basedir : String) (it : Iteration) (disk : Disk) (b₀ b : Broker) (evs : List Event),
      Broker.construct basedir it disk {} = some b₀ → Broker.system.Run b₀ evs b →
      ∀ q qcp, b.consumers.lookup q = some qcp → qcp.consumers ≠ [] →
        b.available q ≤ b.pending q := by
  intro h
  obtain ⟨b₀,start⟩ := Broker.construct_blank "/data" .listed blankDisk
  have hall : ((Broker.construct "/data" .listed blankDisk {}).bind
      (subscribeLater.foldlM Broker.step)).any (fun b : Broker =>
        ((b.consumers.lookup "orders").any fun qcp => !qcp.consumers.isEmpty) &&
        decide (b.pending "orders" < b.available "orders")) = true := by
    decide +kernel
  simp only [Option.any_eq_true,Bool.and_eq_true,decide_eq_true_eq] at hall
  obtain ⟨b,hb,⟨qcp,hq,hne⟩,hlt⟩ := hall
  rw [start,Option.bind_some] at hb
  exact absurd (h _ _ _ b₀ b _ start (.of_foldlM hb) "orders" qcp hq (by simpa using hne))
    (Nat.not_le_of_lt hlt)

theorem backlog_covered_later :
    ∃ b₀ s, Broker.construct "/data" .listed blankDisk {} = some b₀ ∧
      subscribeLater.foldlM Noted.step (.start b₀) = some s ∧
      s.broker.available "orders" ≤ s.broker.pending "orders" + s.restored "orders" := by
  have hall : ((Broker.construct "/data" .listed blankDisk {}).bind
      fun b₀ => subscribeLater.foldlM Noted.step (.start b₀)).isSome := by decide +kernel
  obtain ⟨s,hs⟩ := Option.isSome_iff_exists.mp hall
  obtain ⟨b₀,start,hs⟩ := Option.bind_eq_some_iff.mp hs
  exact ⟨b₀,s,start,hs,(backlog_covered (.of_foldlM hs) "orders").1⟩

end Reachable
end MessageQueue

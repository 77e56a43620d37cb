import MessageQueue.Broker.Positions
import MessageQueue.Broker.Threads
import Mathlib.Data.List.Sort

/-! The order in which the messages of a queue are pushed. A worker takes a message off the queue
in one step and pushes it in a later one; a worker that comes between can push a later message
first. As long as the oldest of the messages that the workers hold is pushed first, the messages
are pushed in the order in which they were inserted. -/
namespace MessageQueue
open Base

/-- The queue and the position of the message that a worker has taken and not yet pushed. -/
def Worker.held (w : Worker) : Option (String × Position) :=
  match w.current with
  | some (task,.took m) => some (task.qname,m.position)
  | some (task,.found m _) => some (task.qname,m.position)
  | some (task,.chose m _) => some (task.qname,m.position)
  | _ => none

theorem Worker.held_took (batch : List Task) (task : Task) (o : Option MessageManager.Taken) :
    Worker.held ⟨batch,o.map fun m => (task,.took m)⟩ = o.map fun m => (task.qname,m.position) := by
  cases o <;> rfl

@[simp] theorem Worker.held_detach (w : Worker) (qname : String) (k : ℕ) :
    (w.detach qname k).held = w.held := by
  obtain ⟨batch,current⟩ := w
  unfold Worker.detach
  split
  · next task m hc =>
    cases hc
    split <;> rfl
  · rfl

namespace Threads
variable {s s' t : Threads} {mv : Move} {moves : List Move} {i : ℕ} {q : String}
  {hist : List Position}

abbrev messages (s : Threads) : MessageManager := s.broker.host.messages

def held (s : Threads) (i : ℕ) : Option (String × Position) := s.workers[i]?.bind Worker.held

/-- The messages of a queue that were pushed, in this order. -/
def pushedTo (s : Threads) (q : String) : List Position :=
  (s.pushed.filter fun x => x.qname = q).map fun x => x.message.position

/-- The messages that are in the queue after a step and were not before. -/
def inserted (q : String) (s t : Threads) : List Position :=
  (t.messages.positions q).filter fun r => r ∉ s.messages.positions q

/-- The messages of a queue in the order of insertion: those that are there first, and then what
the steps of a run insert. -/
def insertions (s : Threads) (moves : List Move) (q : String) : List Position :=
  s.messages.positions q ++ Lts.collect step (inserted q) s moves

/-- Of the messages of a queue that the workers hold, the oldest is pushed. -/
def InTurn (s : Threads) : Move → Prop
  | .callback i => ∀ q r, s.held i = some (q,r) → ∀ j r', s.held j = some (q,r') → r ≤ r'
  | _ => True

theorem inserted_nil (h : s'.messages.positions q ⊆ s.messages.positions q) :
    inserted q s s' = [] := by
  rw [inserted,List.filter_eq_nil_iff]
  intro r hr
  simpa using h hr

theorem held_set {w w' : Worker} (hi : s.workers[i]? = some w) (b : Broker) (pushed : List Push)
    (units : List QueueConsumer) (j : ℕ) :
    held {s with broker := b, workers := s.workers.set i w', pushed := pushed, detached := units}
      j = if j = i then w'.held else s.held j := by
  have hlt : i < s.workers.length := (List.getElem?_eq_some_iff.mp hi).1
  simp only [held,List.getElem?_set]
  by_cases hj : j = i
  · subst hj
    simp [hlt]
  · simp [hj,Ne.symm hj]

theorem held_detached (s : Threads) (b : Broker) (qname : String) (k : ℕ)
    (units : List QueueConsumer) (j : ℕ) :
    held {s with
      broker := b, workers := s.workers.map fun w => w.detach qname k, detached := units} j =
      s.held j := by
  simp only [held,List.getElem?_map]
  cases s.workers[j]? <;> simp

theorem held_of {w : Worker} (hi : s.workers[i]? = some w) : s.held i = w.held := by
  simp [held,hi]

/-- The pushed messages of a queue, those that the workers hold and those that are available are
all from its history, and in this order. -/
structure InOrder (s : Threads) (q : String) (hist : List Position) : Prop where
  ascending : s.messages.Ascending
  sorted : hist.Pairwise (· < ·)
  bound : ∀ r ∈ hist, r < s.messages.next q
  available : s.messages.positions q ⊆ hist
  held : ∀ i r, s.held i = some (q,r) → r ∈ hist ∧ ∀ a ∈ s.messages.positions q, r < a
  apart : ∀ i j r, s.held i = some (q,r) → s.held j = some (q,r) → i = j
  pushed : ∀ r ∈ s.pushedTo q, r ∈ hist ∧ (∀ a ∈ s.messages.positions q, r < a) ∧
    ∀ i x, s.held i = some (q,x) → r < x
  order : (s.pushedTo q).Pairwise (· < ·)

namespace InOrder

/-- Before anything is taken. -/
theorem initial (ha : s.messages.Ascending) (hheld : ∀ i, s.held i = none) (hp : s.pushed = []) :
    s.InOrder q (s.messages.positions q) := by
  have hpush : s.pushedTo q = [] := by simp [pushedTo,hp]
  refine ⟨ha,ha.sorted q,ha.bound q,List.Subset.refl _,fun i r hi => ?_,fun i j r hi => ?_,
    fun r hr => ?_,?_⟩
  · rw [hheld] at hi
    cases hi
  · rw [hheld] at hi
    cases hi
  · rw [hpush] at hr
    cases hr
  · rw [hpush]
    exact List.Pairwise.nil

/-- The queue goes on, and no worker takes anything. -/
theorem grow (h : s.InOrder q hist) (ha : s'.messages.Ascending)
    (hl : s.messages.Later s'.messages q)
    (hheld : ∀ i r, s'.held i = some (q,r) → s.held i = some (q,r))
    (hp : s'.pushedTo q = s.pushedTo q) : s'.InOrder q (hist ++ inserted q s s') := by
  have hnew : ∀ r ∈ inserted q s s', s.messages.next q ≤ r ∧ r ∈ s'.messages.positions q := by
    intro r hr
    obtain ⟨hr,hnot⟩ := List.mem_filter.mp hr
    exact ⟨(hl.inserted r hr).resolve_left (by simpa using hnot),hr⟩
  have hafter : ∀ r ∈ hist, (∀ a ∈ s.messages.positions q, r < a) →
      ∀ a ∈ s'.messages.positions q, r < a := by
    intro r hr hall a ha
    exact (hl.inserted a ha).elim (hall a) fun hle => (h.bound r hr).trans_le hle
  refine ⟨ha,?_,fun r hr => ?_,fun r hr => ?_,fun i r hi => ?_,fun i j r hi hj => ?_,
    fun r hr => ?_,hp ▸ h.order⟩
  · refine List.pairwise_append.mpr ⟨h.sorted,(ha.sorted q).filter _,fun a ha b hb => ?_⟩
    exact (h.bound a ha).trans_le (hnew b hb).1
  · cases List.mem_append.mp hr with
    | inl hr => exact (h.bound r hr).trans_le hl.next_le
    | inr hr => exact ha.bound q r (hnew r hr).2
  · rw [List.mem_append]
    by_cases hold : r ∈ s.messages.positions q
    · exact .inl (h.available hold)
    · exact .inr (List.mem_filter.mpr ⟨hr,by simpa using hold⟩)
  · obtain ⟨hmem,hall⟩ := h.held i r (hheld i r hi)
    exact ⟨List.mem_append_left _ hmem,hafter r hmem hall⟩
  · exact h.apart i j r (hheld i r hi) (hheld j r hj)
  · rw [hp] at hr
    obtain ⟨hmem,hall,hlt⟩ := h.pushed r hr
    exact ⟨List.mem_append_left _ hmem,hafter r hmem hall,fun i x hi => hlt i x (hheld i x hi)⟩

/-- A worker takes the head of the queue, which is later than all that was taken before. -/
theorem take (r₀ : Position) (h : s.InOrder q hist) (ha : s'.messages.Ascending)
    (hnext : s'.messages.next q = s.messages.next q)
    (hpos : s.messages.positions q = r₀::s'.messages.positions q)
    (hheld : ∀ j, s'.held j = if j = i then some (q,r₀) else s.held j)
    (hp : s'.pushedTo q = s.pushedTo q) : s'.InOrder q (hist ++ inserted q s s') := by
  have hhead : r₀ ∈ s.messages.positions q := by simp [hpos]
  have hsub : s'.messages.positions q ⊆ s.messages.positions q := by
    rw [hpos]
    exact List.subset_cons_self _ _
  have hafter : ∀ a ∈ s'.messages.positions q, r₀ < a := by
    have hsorted := h.ascending.sorted q
    rw [hpos,List.pairwise_cons] at hsorted
    exact hsorted.1
  have hold : ∀ {j r}, s'.held j = some (q,r) → j = i ∧ r = r₀ ∨ j ≠ i ∧ s.held j = some (q,r) := by
    intro j r hj
    rw [hheld] at hj
    split_ifs at hj with hji
    · cases hj
      exact .inl ⟨hji,rfl⟩
    · exact .inr ⟨hji,hj⟩
  rw [inserted_nil hsub,List.append_nil]
  refine ⟨ha,h.sorted,hnext ▸ h.bound,List.Subset.trans hsub h.available,fun j r hj => ?_,
    fun j k r hj hk => ?_,fun r hr => ?_,hp ▸ h.order⟩
  · cases hold hj with
    | inl hnew => exact hnew.2 ▸ ⟨h.available hhead,hafter⟩
    | inr hj =>
      obtain ⟨hmem,hall⟩ := h.held j r hj.2
      exact ⟨hmem,fun a ha => hall a (hsub ha)⟩
  · -- what the other workers hold is earlier than the head
    cases hold hj with
    | inl hnew =>
      cases hold hk with
      | inl hnew' => exact hnew.1.trans hnew'.1.symm
      | inr hk => exact absurd hnew.2 ((h.held k r hk.2).2 r₀ hhead).ne
    | inr hj =>
      cases hold hk with
      | inl hnew => exact absurd hnew.2 ((h.held j r hj.2).2 r₀ hhead).ne
      | inr hk => exact h.apart j k r hj.2 hk.2
  · rw [hp] at hr
    obtain ⟨hmem,hall,hlt⟩ := h.pushed r hr
    refine ⟨hmem,fun a ha => hall a (hsub ha),fun j x hj => ?_⟩
    cases hold hj with
    | inl hnew => exact hnew.2 ▸ hall r₀ hhead
    | inr hj => exact hlt j x hj.2

/-- A worker pushes the message it holds, and no other worker holds an earlier one. -/
theorem push (r₀ : Position) (h : s.InOrder q hist) (hm : s'.messages = s.messages)
    (hi : s.held i = some (q,r₀)) (hturn : ∀ j r, s.held j = some (q,r) → r₀ ≤ r)
    (hheld : ∀ j, s'.held j = if j = i then none else s.held j)
    (hp : s'.pushedTo q = s.pushedTo q ++ [r₀]) : s'.InOrder q (hist ++ inserted q s s') := by
  have hold : ∀ {j r}, s'.held j = some (q,r) → j ≠ i ∧ s.held j = some (q,r) := by
    intro j r hj
    rw [hheld] at hj
    split_ifs at hj with hji
    exact ⟨hji,hj⟩
  obtain ⟨hmem,hall⟩ := h.held i r₀ hi
  rw [inserted_nil (by rw [hm]; exact List.Subset.refl _),List.append_nil]
  refine ⟨hm ▸ h.ascending,h.sorted,hm ▸ h.bound,hm ▸ h.available,fun j r hj => ?_,
    fun j k r hj hk => h.apart j k r (hold hj).2 (hold hk).2,fun r hr => ?_,?_⟩
  · rw [hm]
    exact h.held j r (hold hj).2
  · rw [hp,List.mem_append,List.mem_singleton] at hr
    rw [hm]
    cases hr with
    | inl hr =>
      obtain ⟨hmem,hall,hlt⟩ := h.pushed r hr
      exact ⟨hmem,hall,fun j x hj => hlt j x (hold hj).2⟩
    | inr hr =>
      subst hr
      refine ⟨hmem,hall,fun j x hj => ?_⟩
      obtain ⟨hji,hj⟩ := hold hj
      refine (hturn j x hj).lt_of_ne fun heq => hji ?_
      exact h.apart j i x hj (heq ▸ hi)
  · rw [hp,List.pairwise_append]
    refine ⟨h.order,List.pairwise_singleton _ _,fun a ha b hb => ?_⟩
    rw [List.mem_singleton.mp hb]
    exact (h.pushed a ha).2.2 i r₀ hi

/-- The event loop goes on; the workers keep what they hold. -/
theorem loop (h : s.InOrder q hist) (hw : ∀ i, s'.held i = s.held i) (hp : s'.pushed = s.pushed)
    (hm : s'.messages.Ascending ∧ ∀ q, s.messages.Later s'.messages q) :
    s'.InOrder q (hist ++ inserted q s s') := by
  refine h.grow hm.1 (hm.2 q) (fun i r hi => ?_) (by simp only [pushedTo,hp])
  exact hw i ▸ hi

/-- A worker goes on with what it holds, or drops it; the messages stay. -/
theorem work {w w' : Worker} (h : s.InOrder q hist) (hi : s.workers[i]? = some w)
    (hb : s'.messages = s.messages) (hs : s'.workers = s.workers.set i w')
    (hp : s'.pushed = s.pushed) (hw : w'.held = w.held ∨ w'.held = none) :
    s'.InOrder q (hist ++ inserted q s s') := by
  have ha : s'.messages.Ascending := hb ▸ h.ascending
  have hl : s.messages.Later s'.messages q := hb ▸ .refl _ q
  have hheld : ∀ j, s'.held j = if j = i then w'.held else s.held j := by
    intro j
    rw [← held_set hi s.broker s.pushed s.detached j,Threads.held,hs]
    rfl
  refine h.grow ha hl (fun j r hj => ?_) (by simp only [pushedTo,hp])
  rw [hheld] at hj
  split_ifs at hj with hji
  · subst hji
    rw [held_of hi]
    cases hw with
    | inl hw => exact hw ▸ hj
    | inr hw => rw [hw] at hj; cases hj
  · exact hj

theorem front (h : s.InOrder q hist) (hs : s.front i = some s') :
    s'.InOrder q (hist ++ inserted q s s') := by
  obtain ⟨task,batch,hi,rfl⟩ := front_cases hs
  obtain ⟨hnext,hpos⟩ := MessageManager.front_positions s.messages task.qname q
  have ha := h.ascending.front task.qname
  by_cases hq : q = task.qname
  · subst hq
    rw [if_pos rfl] at hpos
    cases hm : (s.messages.front task.qname).1 with
    | none =>
      rw [hm] at hpos
      refine h.grow ha ⟨hnext.ge,fun r hr => .inl ?_⟩ (fun j r hj => ?_) rfl
      · rwa [hpos]
      · rw [held_set hi] at hj
        split_ifs at hj
        · rw [Worker.held_took,show (s.broker.host.basicConsume task.qname).1 = none from hm] at hj
          cases hj
        · exact hj
    | some m =>
      rw [hm] at hpos
      refine h.take (i := i) m.position ha hnext hpos (fun j => ?_) rfl
      rw [held_set hi,Worker.held_took,
        show (s.broker.host.basicConsume task.qname).1 = some m from hm]
      rfl
  · rw [if_neg hq,List.nil_append] at hpos
    refine h.grow ha ⟨hnext.ge,fun r hr => .inl ?_⟩ (fun j r hj => ?_) rfl
    · rwa [hpos]
    · rw [held_set hi] at hj
      split_ifs at hj
      · rw [Worker.held_took,Option.map_eq_some_iff] at hj
        obtain ⟨m,-,hm⟩ := hj
        exact absurd (congrArg Prod.fst hm).symm hq
      · exact hj

theorem callback (h : s.InOrder q hist) (hturn : s.InTurn (.callback i))
    (hs : s.callback i = some s') : s'.InOrder q (hist ++ inserted q s s') := by
  obtain ⟨task,batch,m,cp,hi,rfl⟩ := callback_cases hs
  have hheld : s.held i = some (task.qname,m.position) := by rw [held_of hi]; rfl
  have hdone : Worker.held ⟨batch,if cp.autoAck then some (task,.called m) else none⟩ = none := by
    cases cp.autoAck <;> rfl
  by_cases hq : q = task.qname
  · subst hq
    refine h.push m.position rfl hheld (hturn _ _ hheld) (fun j => ?_) ?_
    · rw [held_set hi,hdone]
    · simp [pushedTo]
  · refine h.grow h.ascending (.refl _ q) (fun j r hj => ?_) ?_
    · rw [held_set hi,hdone] at hj
      split_ifs at hj
      exact hj
    · simp [pushedTo,Ne.symm hq]

theorem round (h : s.InOrder q hist) (hs : s.round = some s') :
    s'.InOrder q (hist ++ inserted q s s') := by
  have hstay : s.messages.Ascending ∧ ∀ q, s.messages.Later s.messages q :=
    ⟨h.ascending,.refl _⟩
  rcases round_cases hs with ⟨handling,-,-,rfl⟩ | ⟨job,qname,-,rfl⟩ | ⟨job,qname,rest,-,rfl⟩ |
    ⟨c,cs,-,rfl⟩
  · exact h.loop (fun _ => rfl) rfl hstay
  · exact h.loop (fun _ => rfl) rfl hstay
  · exact h.loop (fun _ => rfl) rfl
      ((MessageManager.later_keeps s.messages).basicPublish _ _ _ _ hstay)
  · refine h.loop (fun _ => rfl) rfl ?_
    simpa only [messages,Broker.destroyChannel_host] using hstay

theorem request (h : s.InOrder q hist) {conn : ℕ} {req : Request} {it : Iteration}
    {uuid : String → String} (hs : s.request conn req it uuid = some s') :
    s'.InOrder q (hist ++ inserted q s s') := by
  have hstay : s.messages.Ascending ∧ ∀ q, s.messages.Later s.messages q :=
    ⟨h.ascending,.refl _⟩
  rcases request_cases hs with rfl | ⟨r,-,hr,hs⟩ | ⟨channels,cid,-,rfl⟩ |
    ⟨channels,cid,c,job,-,-,-,rfl⟩
  · exact h.loop (fun _ => rfl) rfl hstay
  · have hkeep := Broker.handle_keeps (MessageManager.later_keeps s.messages) hr hstay
    rcases hs with rfl | ⟨qname,qcp,-,rfl⟩
    · exact h.loop (fun _ => rfl) rfl hkeep
    · exact h.loop (held_detached s r.1 qname _ _) rfl hkeep
  · exact h.loop (fun _ => rfl) rfl hstay
  · exact h.loop (fun _ => rfl) rfl hstay

theorem autoAck (h : s.InOrder q hist) (hs : s.autoAck i = some s') :
    s'.InOrder q (hist ++ inserted q s s') := by
  obtain ⟨task,batch,m,hi,rfl⟩ := autoAck_cases hs
  have hack := (MessageManager.later_keeps s.messages).basicAck (h := s.broker.host) task.qname
    m.payload.id ⟨h.ascending,.refl _⟩
  refine h.grow hack.1 (hack.2 q) (fun j r hj => ?_) rfl
  rw [held_set hi] at hj
  split_ifs at hj
  · cases hj
  · exact hj

/-- Every step keeps the order, as long as a worker pushes in its turn. -/
theorem step (h : s.InOrder q hist) (hturn : s.InTurn mv) (hs : s.step mv = some s') :
    s'.InOrder q (hist ++ inserted q s s') := by
  have hstay : s.messages.Ascending ∧ ∀ q, s.messages.Later s.messages q :=
    ⟨h.ascending,.refl _⟩
  cases mv with
  | connect conn =>
    obtain ⟨-,rfl⟩ := connect_cases hs
    exact h.loop (fun _ => rfl) rfl hstay
  | disconnect conn it =>
    obtain ⟨-,rfl⟩ := disconnect_cases hs
    exact h.loop (fun _ => rfl) rfl hstay
  | request conn req it uuid => exact h.request (request_idle hs).2
  | round => exact h.round hs
  | swap i =>
    obtain ⟨hi,rfl⟩ := swap_cases hs
    exact h.work hi rfl rfl rfl (.inr rfl)
  | front i => exact h.front hs
  | find i =>
    obtain ⟨task,batch,m,hi,rfl⟩ := find_cases hs
    refine h.work hi rfl rfl rfl ?_
    cases s.broker.consumers.lookup task.qname with
    | none => exact .inr rfl
    | some qcp => exact .inl rfl
  | choose i =>
    rcases choose_cases hs with ⟨task,batch,m,hi,rfl⟩ | ⟨task,batch,m,k,qcp,hi,-,rfl⟩
    · refine h.work hi rfl rfl rfl ?_
      cases (s.broker.consumers.chooseConsumer task.qname).1 with
      | none => exact .inr rfl
      | some cp => exact .inl rfl
    · refine h.work hi rfl rfl rfl ?_
      cases qcp.choose.1 with
      | none => exact .inr rfl
      | some cp => exact .inl rfl
  | callback i => exact h.callback hturn hs
  | autoAck i => exact h.autoAck hs

/-- The run lemma. -/
theorem run (h : s.InOrder q (s.messages.positions q))
    (run : (system.guarded InTurn).Run s moves t) : t.InOrder q (s.insertions moves q) := by
  induction run with
  | nil => simpa only [insertions,Lts.collect,List.append_nil] using h
  | @snoc t u moves mv before last ih =>
    have before' : system.Run _ moves t := before.mono fun h => h.2
    have hnext := ih.step last.1 last.2
    rwa [insertions,before'.collect_snoc _ last.2,← List.append_assoc]

/-- The messages that were pushed are from the history, in its order. -/
theorem sublist (h : s.InOrder q hist) : (s.pushedTo q).Sublist hist := by
  have hnodup : (s.pushedTo q).Nodup := h.order.imp fun hlt => hlt.ne
  have hsub : s.pushedTo q ⊆ hist := fun r hr => (h.pushed r hr).1
  exact List.sublist_of_subperm_of_pairwise (List.subperm_of_subset hnodup hsub) h.order h.sorted

end InOrder

instance (s : Threads) : ∀ mv, Decidable (s.InTurn mv)
  | .callback i =>
    match h : s.held i with
    | none => .isTrue (by simp [InTurn,h])
    | some (q,r) =>
      decidable_of_iff (∀ w ∈ s.workers, ∀ x ∈ w.held, x.1 = q → r ≤ x.2) <| by
        simp only [InTurn,h]
        constructor
        · rintro hall q' r' heq j x hj
          cases heq
          obtain ⟨w,hw,hx⟩ := Option.bind_eq_some_iff.mp hj
          exact hall w (List.mem_of_getElem? hw) (q,x) hx rfl
        · rintro hall w hw ⟨q',x⟩ hx rfl
          obtain ⟨j,hj⟩ := List.mem_iff_getElem?.mp hw
          exact hall q' r rfl j x ((held_of hj).trans hx)
  | .connect _ | .disconnect .. | .request .. | .round | .swap _ | .front _ | .find _
  | .choose _ | .autoAck _ => .isTrue trivial

/-- One worker is always in its turn. -/
theorem inTurn_of_single (h : s.workers.length ≤ 1) (mv : Move) : s.InTurn mv := by
  have honly : ∀ j x, s.held j = some x → j = 0 := by
    intro j x hj
    obtain ⟨w,hw,-⟩ := Option.bind_eq_some_iff.mp hj
    have hlt := (List.getElem?_eq_some_iff.mp hw).1
    omega
  cases mv with
  | callback i =>
    intro q r hi j r' hj
    rw [honly i _ hi] at hi
    rw [honly j _ hj,hi] at hj
    cases hj
    exact le_rfl
  | _ => trivial

/-- No step makes or ends a worker. -/
theorem step_workers (hs : s.step mv = some s') : s'.workers.length = s.workers.length := by
  cases mv with
  | connect conn =>
    obtain ⟨-,rfl⟩ := connect_cases hs
    rfl
  | disconnect conn it =>
    obtain ⟨-,rfl⟩ := disconnect_cases hs
    rfl
  | request conn req it uuid =>
    rcases request_cases (request_idle hs).2 with rfl | ⟨r,-,-,rfl | ⟨qname,qcp,-,rfl⟩⟩ |
      ⟨channels,cid,-,rfl⟩ | ⟨channels,cid,c,job,-,-,-,rfl⟩
    · rfl
    · rfl
    · exact List.length_map _
    · rfl
    · rfl
  | round =>
    rcases round_cases hs with ⟨handling,-,-,rfl⟩ | ⟨job,qname,-,rfl⟩ | ⟨job,qname,rest,-,rfl⟩ |
      ⟨c,cs,-,rfl⟩ <;> rfl
  | swap i =>
    obtain ⟨hi,rfl⟩ := swap_cases hs
    exact List.length_set
  | front i =>
    obtain ⟨task,batch,hi,rfl⟩ := front_cases hs
    exact List.length_set
  | find i =>
    obtain ⟨task,batch,m,hi,rfl⟩ := find_cases hs
    exact List.length_set
  | choose i =>
    rcases choose_cases hs with ⟨task,batch,m,hi,rfl⟩ | ⟨task,batch,m,k,qcp,hi,-,rfl⟩ <;>
      exact List.length_set
  | callback i =>
    obtain ⟨task,batch,m,cp,hi,rfl⟩ := callback_cases hs
    exact List.length_set
  | autoAck i =>
    obtain ⟨task,batch,m,hi,rfl⟩ := autoAck_cases hs
    exact List.length_set

end Threads

section Reachable
variable {basedir : String} {it : Iteration} {disk : Disk} {db : Database} {b₀ : Broker}
  {moves : List Move} {s : Threads}

/-- A broker that has just started, with any number of workers. -/
theorem Threads.InOrder.start (start : Broker.construct basedir it disk db = some b₀) (n : ℕ)
    (q : String) : InOrder {broker := b₀, workers := List.replicate n {}} q
      (b₀.host.messages.positions q) := by
  obtain ⟨host,hhost,rfl⟩ := Option.map_eq_some_iff.mp start
  refine .initial (MessageManager.ascending_construct hhost) (fun i => ?_) rfl
  simp only [Threads.held,List.getElem?_replicate]
  split_ifs <;> rfl

/-- In a run in which a worker pushes a message only if no worker holds an earlier one of the same
queue, the messages of a queue are pushed in the order in which they were inserted. -/
theorem pushed_in_order (start : Broker.construct basedir it disk db = some b₀)
    (run : (Threads.system.guarded Threads.InTurn).Run (.start b₀) moves s) (q : String) :
    (s.pushedTo q).Sublist ((Threads.start b₀).insertions moves q) :=
  ((Threads.InOrder.start start thrCount q).run run).sublist

/-- With one worker in the pool they always are. -/
theorem single_worker_in_order (start : Broker.construct basedir it disk db = some b₀)
    (run : Threads.system.Run {broker := b₀, workers := [{}]} moves s) (q : String) :
    (s.pushedTo q).Sublist (Threads.insertions {broker := b₀, workers := [{}]} moves q) := by
  have guarded : (Threads.system.guarded Threads.InTurn).Run {broker := b₀, workers := [{}]}
      moves s ∧ s.workers.length = 1 := by
    induction run with
    | nil => exact ⟨.nil _,rfl⟩
    | snoc before last ih =>
      have hone := Threads.step_workers last
      exact ⟨ih.1.snoc ⟨Threads.inTurn_of_single ih.2.le _,last⟩,hone.trans ih.2⟩
  exact ((Threads.InOrder.start start 1 q).run guarded.1).sublist

/-- One consumer, and two messages, whose tasks the two workers have swapped out. -/
def tradeMoves : List Move :=
  [.connect 1,.request 1 (.openChannel "r1" "c1") .listed fun _ => "u1",
    .request 1 (.declareExchange "r2" "c1" "trade" .fanout true false ∅) .listed fun _ => "u2",
    .request 1 (.declareQueue "r3" "c1" "orders" false true false ∅) .listed fun _ => "u3",
    .request 1 (.queueBind "r4" "c1" "trade" "orders" "") .listed fun _ => "u4",
    .request 1 (.basicConsume "r5" "c1" "t1" "orders" false) .listed fun _ => "u5"]

def publishMoves : List Move :=
  [.request 1 (.basicPublish "r6" "c1" "trade" "first" none) .listed fun _ => "u6",
    .round,.round,.round,.swap 0,
    .request 1 (.basicPublish "r7" "c1" "trade" "second" none) .listed fun _ => "u7",
    .round,.round,.round,.swap 1,.front 0,.front 1]

/-- The worker that took the first message pushes it first. -/
def turnMoves : List Move :=
  publishMoves ++ [.find 1,.choose 1,.find 0,.choose 0,.callback 0,.callback 1]

/-- The worker that took the second message is faster. -/
def overtakingMoves : List Move :=
  publishMoves ++ [.find 1,.choose 1,.callback 1,.find 0,.choose 0,.callback 0]

theorem pushed_in_order_turn :
    ∃ b₀ s, Broker.construct "/data" .listed blankDisk {} = some b₀ ∧
      Threads.system.Run (.start b₀) (tradeMoves ++ turnMoves) s ∧
      s.pushedTo "orders" = [toLex (0,0),toLex (0,1)] ∧
      (s.pushedTo "orders").Sublist
        ((Threads.start b₀).insertions (tradeMoves ++ turnMoves) "orders") := by
  have hall : ((Broker.construct "/data" .listed blankDisk {}).bind fun b =>
      (tradeMoves ++ turnMoves).foldlM (fun s mv => if s.InTurn mv then s.step mv else none)
        (Threads.start b)).any
          (fun s => decide (s.pushedTo "orders" = [toLex (0,0),toLex (0,1)])) = true := by
    decide +kernel
  obtain ⟨b₀,s,start,guarded,hpushed⟩ := Lts.Run.of_any_guarded hall
  rw [decide_eq_true_eq] at hpushed
  have run : Threads.system.Run (.start b₀) (tradeMoves ++ turnMoves) s :=
    guarded.mono fun h => h.2
  exact ⟨b₀,s,start,run,hpushed,pushed_in_order start guarded "orders"⟩

/-- The consumers of a queue. -/
def Threads.subscribers (s : Threads) (q : String) : List Consumer :=
  ((s.broker.consumers.lookup q).map QueueConsumer.consumers).getD []

/-- The queue has one consumer from the first publish on, and its messages are pushed in the other
order. -/
theorem message_overtaken :
    ∃ b₀ s t cp, Broker.construct "/data" .listed blankDisk {} = some b₀ ∧
      Threads.system.Run (.start b₀) tradeMoves s ∧ s.pushed = [] ∧
      (Threads.system.guarded fun s _ => s.subscribers "orders" = [cp]).Run s overtakingMoves t ∧
      t.subscribers "orders" = [cp] ∧
      ¬ (t.pushedTo "orders").Sublist
        ((Threads.start b₀).insertions (tradeMoves ++ overtakingMoves) "orders") := by
  let cp : Consumer := ⟨false,"orders","t1",⟨0,"c1",1⟩⟩
  obtain ⟨b₀,start⟩ := Broker.construct_blank "/data" .listed blankDisk
  have hsetup : ((Broker.construct "/data" .listed blankDisk {}).bind fun b =>
      tradeMoves.foldlM Threads.step (Threads.start b)).any (fun s => s.pushed.isEmpty &&
        (overtakingMoves.foldlM (fun s mv =>
          if s.subscribers "orders" = [cp] then s.step mv else none) s).any fun t =>
            decide (t.subscribers "orders" = [cp] ∧
              t.pushedTo "orders" = [toLex (0,1),toLex (0,0)])) = true := by
    decide +kernel
  have hinserted : (Broker.construct "/data" .listed blankDisk {}).any (fun b => decide
      ((Threads.start b).insertions (tradeMoves ++ overtakingMoves) "orders" =
        [toLex (0,0),toLex (0,1)])) = true := by
    decide +kernel
  simp only [Option.any_eq_true,Bool.and_eq_true,decide_eq_true_eq] at hsetup
  obtain ⟨s,hs,hempty,t,ht,hsingle,hpushed⟩ := hsetup
  rw [start,Option.bind_some] at hs
  simp only [start,Option.any_some,decide_eq_true_eq] at hinserted
  refine ⟨b₀,s,t,cp,start,.of_foldlM hs,List.isEmpty_iff.mp hempty,.of_foldlM_guarded ht,
    hsingle,?_⟩
  rw [hpushed,hinserted]
  decide

end Reachable
end MessageQueue

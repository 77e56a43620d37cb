import MessageQueue.Store.Guarantees

/-! The order in which one process hands the messages of a queue out. What `front` has returned
and what is still available are together what `recovery` found, and then the accepted insertions
in their order; a compaction in between changes nothing. -/
namespace MessageQueue
open Base Payload MessageMapper Entry

/-- A message object, and what it says. -/
abbrev Item := MessagePtr × Payload

namespace QueueMessage

/-- The list goes on with the addresses that are handed out, and nothing leaves it. -/
def Grows (q q' : QueueMessage) : Prop :=
  ∃ n, q'.msgs = q.msgs ++ List.range' q.fresh n ∧ q'.fresh = q.fresh+n

namespace Grows
variable {q q' q'' : QueueMessage}

theorem refl (q : QueueMessage) : q.Grows q := ⟨0,by simp,rfl⟩

theorem trans (h : q.Grows q') (k : q'.Grows q'') : q.Grows q'' := by
  obtain ⟨n,hm,hf⟩ := h
  obtain ⟨n',hm',hf'⟩ := k
  refine ⟨n+n',?_,by rw [hf',hf,Nat.add_assoc]⟩
  rw [hm',hm,hf,List.append_assoc,List.range'_append_1]

theorem fresh_le (h : q.Grows q') : q.fresh ≤ q'.fresh := by
  obtain ⟨n,-,hf⟩ := h
  exact hf ▸ Nat.le_add_right _ n

theorem adopt (q : QueueMessage) (msg : Message) : q.Grows (q.adopt msg) := by
  unfold QueueMessage.adopt
  split
  · exact ⟨1,rfl,rfl⟩
  · exact ⟨0,(List.append_nil _).symm,rfl⟩

theorem garbageCollection (check : Policy) (q : QueueMessage) (d : Disk) :
    q.Grows (q.garbageCollection check d).1 :=
  garbageCollection_keeps (fun _ _ _ h => h) (fun x m h => h.trans (adopt x m)) check d (refl q)

/-- A compaction can queue messages again, as new objects. -/
theorem remove (check : Policy) (q : QueueMessage) (d : Disk) (msgId : String) :
    q.Grows (q.remove check d msgId).2.1 := by
  unfold QueueMessage.remove
  split
  · exact refl q
  next p hp =>
    split
    · let q' : QueueMessage := {q.store p (q.mapper.remove d (q.heap p)).2.1 with
        durableMsgs := q.durableMsgs.erase msgId
        validCount := q.validCount-1}
      exact garbageCollection check q' (q.mapper.remove d (q.heap p)).2.2
    · exact refl q

theorem insert (q : QueueMessage) (d : Disk) (bp : Option BasicProperties) (body : String)
    (durable : Bool) (uuid : String) : q.Grows (q.insert d bp body durable uuid).2.1 := by
  cases q.insert_cases d bp body durable uuid with
  | inl h =>
    obtain ⟨d',he⟩ := h
    rw [he]
    exact refl q
  | inr h =>
    obtain ⟨q',d',m,he,-,-,hmsgs,-,-,hfresh⟩ := h
    rw [he]
    exact ⟨1,hmsgs,hfresh⟩

theorem recovery (mapper : MessageMapper) (d : Disk) :
    (QueueMessage.new mapper).Grows ((QueueMessage.new mapper).recovery d).2.1 :=
  recovery_keeps (fun _ _ _ h => h) (fun _ _ h => h.trans ⟨1,rfl,rfl⟩) d (refl (.new mapper))

end Grows
end QueueMessage

namespace Store
variable {check : QueueMessage.Policy} {s t : Store} {op : Op}

/-- The available messages, in order. -/
def queued (s : Store) : List Item := s.queue.msgs.map fun p => (p,s.queue.payload p)

/-- What a call of `front` returns. -/
def returned (s : Store) : Op → List Item
  | .front => s.queue.front.1.toList.map fun p => (p,s.queue.payload p)
  | _ => []

/-- The new message of an insertion that is accepted. -/
def accepted (s : Store) : Op → List Item
  | .insert bp body durable uuid =>
    if (s.queue.insert s.disk bp body durable uuid).1 then
      [(s.queue.fresh,insertedPayload bp body durable uuid)]
    else []
  | _ => []

/-- What the calls of a run contribute, one after the other. -/
def collect (check : QueueMessage.Policy) (f : Store → Op → List Item) : Store → List Op → List Item
  | _,[] => []
  | s,op::ops => f s op ++ collect check f (s.apply check op) ops

theorem collect_snoc (f : Store → Op → List Item) (s : Store) (ops : List Op) (op : Op) :
    collect check f s (ops ++ [op]) =
      collect check f s ops ++ f (ops.foldl (apply check) s) op := by
  induction ops generalizing s with
  | nil => exact List.append_nil _
  | cons o ops ih =>
    rw [List.cons_append,collect,collect,ih,List.append_assoc]
    rfl

/-- The store is in service, and represents a ledger with distinct ids. -/
def Serves (s : Store) : Prop := s.recovered = true ∧ ∃ l, Represents s l ∧ l.Distinct

theorem Serves.step (h : s.Serves) (life : op ≠ .construct) (hs : (system check).step s op t) :
    t.Serves := by
  obtain ⟨hrec,l,hl⟩ := h
  refine ⟨?_,l.apply op,step_ledger hl hs⟩
  obtain ⟨⟨hready,-,-⟩,rfl⟩ := hs
  cases op with
  | construct => exact absurd rfl life
  | recovery => rfl
  | _ => exact hrec

/-- A message that is queued is older than the next object. -/
theorem Serves.queued_fresh (h : s.Serves) :
    (s.queued.map Prod.fst).Nodup ∧ ∀ x ∈ s.queued, x.1 < s.queue.fresh := by
  obtain ⟨hrec,l,hl,-⟩ := h
  cases hl with
  | left => cases hrec
  | @ready q d es hc =>
    have hfst : (queued ⟨q,d,true⟩).map Prod.fst = q.msgs := by
      simp [queued,Function.comp_def]
    refine ⟨hfst ▸ hc.inMemory.msgsNodup,fun x hx => ?_⟩
    exact hc.inMemory.bound x.1 (.inl (hfst ▸ List.mem_map_of_mem hx))

theorem insert_queued (hq : ∀ x ∈ s.queued, x.1 < s.queue.fresh) (bp : Option BasicProperties)
    (body : String) (durable : Bool) (uuid : String) :
    (s.apply check (.insert bp body durable uuid)).queued =
      s.queued ++ s.accepted (.insert bp body durable uuid) := by
  cases s.queue.insert_cases s.disk bp body durable uuid with
  | inl h =>
    obtain ⟨d',h⟩ := h
    simp [queued,accepted,apply,h]
  | inr h =>
    obtain ⟨q',d',m,h,hm,-,hmsgs,-,hheap,-⟩ := h
    have hold : ∀ p ∈ s.queue.msgs, q'.payload p = s.queue.payload p := by
      intro p hp
      have hne : p ≠ s.queue.fresh := (hq _ (List.mem_map_of_mem hp)).ne
      simp [QueueMessage.payload,hheap,Function.update_of_ne hne]
    have hnew : q'.payload s.queue.fresh = insertedPayload bp body durable uuid := by
      rw [QueueMessage.payload,hheap,Function.update_self,hm]
    simp only [queued,accepted,apply,h,hmsgs,List.map_append,List.map_singleton,hnew,↓reduceIte]
    refine congrArg (· ++ _) (List.map_congr_left fun p hp => ?_)
    rw [hold p hp]

theorem front_queued : s.returned .front ++ (s.apply check .front).queued = s.queued := by
  unfold returned queued apply QueueMessage.front
  cases hm : s.queue.msgs with
  | nil => simp [hm]
  | cons p rest => simp [QueueMessage.payload]

/-- An acknowledgement leaves the available messages, whether it compacts the file or not. -/
theorem Serves.remove_queued (h : s.Serves) (msgId : String) :
    (s.apply check (.remove msgId)).queued = s.queued := by
  obtain ⟨hrec,l,hl,-⟩ := h
  cases hl with
  | left => cases hrec
  | @ready q d es hc =>
    obtain ⟨-,es',-,hledger,hown⟩ := hc.remove check msgId
    have hpay : (q.remove check d msgId).2.1.msgs.map (q.remove check d msgId).2.1.payload =
        q.msgs.map q.payload := by
      refine (congrArg Ledger.available hledger).trans ?_
      unfold Ledger.remove
      split <;> rfl
    have hmsgs : (q.remove check d msgId).2.1.msgs = q.msgs := by
      cases hw : q.waitackMsgs.lookup msgId with
      | none => simp [QueueMessage.remove,hw]
      | some p => exact (hown p hw).2.1
    rw [hmsgs,List.map_inj_left] at hpay
    simp only [queued,apply,hmsgs]
    exact List.map_congr_left fun p hp => by rw [hpay p hp]

/-- What a call returns and what is then queued are what was queued and what the call adds. -/
theorem Serves.step_queued (h : s.Serves) (life : op ≠ .construct)
    (hs : (system check).step s op t) :
    s.returned op ++ t.queued = s.queued ++ s.accepted op := by
  obtain ⟨⟨hready,-,-⟩,rfl⟩ := hs
  cases op with
  | construct => exact absurd rfl life
  | recovery => exact absurd (h.1.symm.trans hready) (by simp)
  | insert bp body durable uuid => exact insert_queued h.queued_fresh.2 bp body durable uuid
  | front => exact front_queued.trans (List.append_nil _).symm
  | remove msgId => exact (h.remove_queued msgId).trans (List.append_nil _).symm

/-- A call adds new objects only. -/
theorem Serves.step_fresh (h : s.Serves) (life : op ≠ .construct)
    (hs : (system check).step s op t) {xs : List Item} (hnodup : (xs.map Prod.fst).Nodup)
    (hxs : ∀ x ∈ xs, x.1 < s.queue.fresh) :
    ((xs ++ s.accepted op).map Prod.fst).Nodup ∧
      ∀ x ∈ xs ++ s.accepted op, x.1 < t.queue.fresh := by
  obtain ⟨⟨hready,-,-⟩,rfl⟩ := hs
  have hstay : ∀ t : Store, s.queue.fresh ≤ t.queue.fresh →
      ((xs ++ []).map Prod.fst).Nodup ∧ ∀ x ∈ xs ++ [], x.1 < t.queue.fresh := by
    intro t ht
    rw [List.append_nil]
    exact ⟨hnodup,fun x hx => (hxs x hx).trans_le ht⟩
  cases op with
  | construct => exact absurd rfl life
  | recovery => exact absurd (h.1.symm.trans hready) (by simp)
  | insert bp body durable uuid =>
    cases s.queue.insert_cases s.disk bp body durable uuid with
    | inl hi =>
      obtain ⟨d',hi⟩ := hi
      have hadd : s.accepted (.insert bp body durable uuid) = [] := by simp [accepted,hi]
      rw [hadd]
      exact hstay _ (by simp [apply,hi])
    | inr hi =>
      obtain ⟨q',d',m,hi,-,-,-,-,-,hfresh⟩ := hi
      have hadd : s.accepted (.insert bp body durable uuid) =
          [(s.queue.fresh,insertedPayload bp body durable uuid)] := by simp [accepted,hi]
      rw [hadd]
      constructor
      · rw [List.map_append]
        refine hnodup.append (List.nodup_singleton _) ?_
        simp only [List.map_singleton,List.disjoint_singleton]
        intro hmem
        obtain ⟨x,hx,heq⟩ := List.mem_map.mp hmem
        exact (hxs x hx).ne heq
      · intro x hx
        simp only [apply,hi,hfresh]
        cases List.mem_append.mp hx with
        | inl hx => exact (hxs x hx).trans (Nat.lt_succ_self _)
        | inr hx =>
          rw [List.mem_singleton.mp hx]
          exact Nat.lt_succ_self _
  | front =>
    refine hstay _ ?_
    simp only [apply,QueueMessage.front]
    split <;> exact le_rfl
  | remove msgId => exact hstay _ (QueueMessage.Grows.remove check s.queue s.disk msgId).fresh_le

/-- What a run of one process keeps. -/
structure InOrder (check : QueueMessage.Policy) (s : Store) (ops : List Op) (t : Store) : Prop where
  serves : t.Serves
  order : collect check returned s ops ++ t.queued = s.queued ++ collect check accepted s ops
  nodup : ((s.queued ++ collect check accepted s ops).map Prod.fst).Nodup
  fresh : ∀ x ∈ s.queued ++ collect check accepted s ops, x.1 < t.queue.fresh

theorem run_inOrder {ops : List Op} (h : s.Serves) (life : Op.construct ∉ ops)
    (run : (system check).Run s ops t) : InOrder check s ops t := by
  induction run with
  | nil =>
    refine ⟨h,by simp [collect],?_,?_⟩
    · simpa [collect] using h.queued_fresh.1
    · simpa [collect] using h.queued_fresh.2
  | @snoc t u ops op run last ih =>
    have ih := ih fun hm => life (List.mem_append_left _ hm)
    have hop : op ≠ .construct := by
      rintro rfl
      exact life (by simp)
    have hend : ops.foldl (apply check) s = t := run.eq_foldl_of_guarded.symm
    have hfresh := ih.serves.step_fresh hop last ih.nodup ih.fresh
    refine ⟨ih.serves.step hop last,?_,?_,?_⟩
    · rw [collect_snoc,collect_snoc,hend,List.append_assoc,ih.serves.step_queued hop last,
        ← List.append_assoc,ih.order,List.append_assoc]
    · rw [collect_snoc,hend,← List.append_assoc]
      exact hfresh.1
    · rw [collect_snoc,hend,← List.append_assoc]
      exact hfresh.2

/-- A restart finds the valid records of the file, in their order. -/
theorem restart_serves {l : Ledger} (h : Represents s l ∧ l.Distinct) :
    (s.restart check).Serves ∧ ∃ ps,
      (s.apply check .construct).disk.files (resolve s.queue.mapper.nameDataFile) =
          some (journal ps) ∧
        (s.restart check).queued.map Prod.snd = valids ps := by
  refine ⟨⟨rfl,l.restart,h.1.restart,h.2.restart⟩,?_⟩
  have havail : (s.restart check).queued.map Prod.snd = l.durable := by
    have hrestart : Represents (s.restart check) l.restart := h.1.restart
    have hav := hrestart.available_eq
    simpa [available,queued,Function.comp_def,Ledger.restart] using hav
  rw [havail]
  generalize hc : s.apply check .construct = c
  have hrep : Represents c (l.apply .construct) := hc ▸ h.1.construct
  generalize hl : l.apply .construct = l' at hrep
  have hdur : l.durable = l'.durable := hl ▸ rfl
  have hmap : c.queue.mapper = s.queue.mapper := hc ▸ rfl
  cases hrep with
  | ready =>
    have hrec := congrArg Store.recovered hc
    cases hrec
  | @left m d ps plan file hleft =>
    rw [← hmap]
    exact ⟨ps,file,hdur⟩

end Store

section Runs
variable {check : QueueMessage.Policy} {m : MessageMapper} {d : Disk} {before ops : List Op}
  {s t : Store}

/-- After a restart the calls of `front` return the recovered messages in file order and then the
accepted ones in their order, every object once; null means that all of them were returned. -/
theorem front_in_order (hp : d.plan = ∅) (he : FileHelper.contents d m.nameDataFile = [])
    (earlier : (Store.system check).Run (.start m d) before s)
    (run : (Store.system check).Run (s.restart check) ops t) (life : Op.construct ∉ ops) :
    (∃ ps, (s.apply check .construct).disk.files (resolve s.queue.mapper.nameDataFile) =
          some (journal ps) ∧
        (s.restart check).queued.map Prod.snd = valids ps) ∧
      Store.collect check Store.returned (s.restart check) ops <+:
        (s.restart check).queued ++ Store.collect check Store.accepted (s.restart check) ops ∧
      (((s.restart check).queued ++
        Store.collect check Store.accepted (s.restart check) ops).map Prod.fst).Nodup ∧
      (t.queue.front.1 = none → Store.collect check Store.returned (s.restart check) ops =
        (s.restart check).queued ++ Store.collect check Store.accepted (s.restart check) ops) := by
  obtain ⟨hserves,hfile⟩ : (s.restart check).Serves ∧ _ :=
    Store.restart_serves (Store.run_ledger m hp he earlier)
  have h := Store.run_inOrder hserves life run
  refine ⟨hfile,⟨_,h.order⟩,h.nodup,fun hnull => ?_⟩
  have hempty : t.queued = [] := by
    unfold QueueMessage.front at hnull
    cases hm : t.queue.msgs with
    | nil => simp [Store.queued,hm]
    | cons p rest => simp [hm] at hnull
  have horder := h.order
  rwa [hempty,List.append_nil] at horder

/-- The next process, with one message recovered, after a run of calls. -/
def ordersAgain : Store :=
  (orderCalls.foldl (Store.apply QueueMessage.garbageCollectionCheck)
    (.start ordersMapper blankDisk)).restart QueueMessage.garbageCollectionCheck

def laterCalls : List Op := [.insert none "fourth" true "u4",.front,.remove "u3",.front]

theorem front_in_order_orders :
    Store.collect QueueMessage.garbageCollectionCheck Store.returned ordersAgain laterCalls <+:
      ordersAgain.queued ++
        Store.collect QueueMessage.garbageCollectionCheck Store.accepted ordersAgain laterCalls :=
  (front_in_order rfl (by decide) orders_run (Lts.Admitted.run (by decide))
    (by simp [laterCalls])).2.1

end Runs
end MessageQueue

import MessageQueue.Base.Cyclic
import MessageQueue.Base.Run
import MessageQueue.Server.Consumer

/-! The turns of a queue's consumers: in a stretch without changes of membership they are chosen
one after the other, and each its share of times, as long as the places fit an `int`. -/
namespace MessageQueue
open Base

namespace QueueConsumer

inductive Call
  | create (ctag queueName : String) (ackFlag : Bool) (cb : ChannelRef)
  | remove (ctag : String)
  | choose
  | clear

/-- `none` where the code leaves the vector. -/
def call (q : QueueConsumer) : Call → Option QueueConsumer
  | .create ctag queueName ackFlag cb => some (q.create ctag queueName ackFlag cb).2
  | .remove ctag => some (q.remove ctag)
  | .choose => q.chooseAt.map Prod.snd
  | .clear => some q.clear

def system : Lts QueueConsumer Call := .ofPartial call

/-- What `k` calls of `choose` return. -/
def chooseMany : ℕ → QueueConsumer → Option (List (Option Consumer) × QueueConsumer)
  | 0,q => some ([],q)
  | k+1,q =>
    match q.chooseAt with
    | none => none
    | some (cp,q) => (chooseMany k q).map fun r => (cp::r.1,r.2)

def DistinctTags (q : QueueConsumer) : Prop := (q.consumers.map Consumer.consumerTag).Nodup

/-- The next `k` calls stay inside the vector and return the consumers in the order of their
registration, one after the other, each its share of times. -/
structure Fair (q : QueueConsumer) (k : ℕ) : Prop where
  inside : ∀ i < k, ∀ r, q.chooseMany i = some r →
    0 ≤ r.2.index ∧ r.2.index < r.2.consumers.length
  returned : (q.chooseMany k).map Prod.fst = some (turns q.consumers q.rrSeq.toNat k)
  share : ∀ cp ∈ q.consumers, ∀ r, q.chooseMany k = some r →
    r.1.count (some cp) = k / q.consumers.length ∨
      r.1.count (some cp) = (k+q.consumers.length-1) / q.consumers.length
  tags : q.DistinctTags

variable {q q' : QueueConsumer} {k : ℕ}

/-- A place that fits an `int` is the one that is meant. -/
theorem index_of_lt (h : q.rrSeq.toNat % q.consumers.length < 2^31) :
    q.index = (q.rrSeq.toNat % q.consumers.length : ℕ) := Int32.toInt_ofNat_of_lt h

/-- For as many consumers as an `int` can count, `choose` is the code's. -/
theorem chooseAt_eq (h : q.rrSeq.toNat % q.consumers.length < 2^31) :
    q.chooseAt = some q.choose := by
  unfold chooseAt choose
  split_ifs with hn hneg
  · rfl
  · rw [index_of_lt h] at hneg
    omega
  · have hlt : q.rrSeq.toNat % q.consumers.length < q.consumers.length :=
      Nat.mod_lt _ (Nat.pos_of_ne_zero hn)
    simp only [index_of_lt h,Int.toNat_natCast,List.getElem?_eq_getElem hlt,Option.map_some]

/-- No two consumers of a queue have one tag. -/
theorem DistinctTags.step {c : Call} (h : q.DistinctTags) (hs : q.call c = some q') :
    q'.DistinctTags := by
  cases c with
  | create ctag queueName ackFlag cb =>
    cases hs
    exact create_tags h ctag queueName ackFlag cb
  | remove ctag =>
    cases hs
    exact h.sublist (List.eraseP_sublist.map _)
  | choose =>
    obtain ⟨r,hr,rfl⟩ := Option.map_eq_some_iff.mp hs
    unfold chooseAt at hr
    split_ifs at hr
    · cases hr
      exact h
    · obtain ⟨cp,-,rfl⟩ := Option.map_eq_some_iff.mp hr
      exact h
  | clear =>
    cases hs
    exact List.nodup_nil

theorem chooseAt_cases (hn : q.consumers ≠ []) {r : Option Consumer × QueueConsumer}
    (h : q.chooseAt = some r) : 0 ≤ q.index ∧ q.index < q.consumers.length ∧
      r = (q.consumers[q.index.toNat]?,{q with rrSeq := q.rrSeq+1}) := by
  unfold chooseAt at h
  rw [if_neg (by simpa using hn)] at h
  split_ifs at h with hneg
  obtain ⟨cp,hcp,rfl⟩ := Option.map_eq_some_iff.mp h
  have hlt := (List.getElem?_eq_some_iff.mp hcp).1
  exact ⟨by omega,by omega,by rw [hcp]⟩

/-- The calls of a stretch without wrap: each uses the next sequence number. -/
theorem chooseMany_spec (hn : q.consumers ≠ []) {r : List (Option Consumer) × QueueConsumer}
    (hwrap : q.rrSeq.toNat+k < 2^64) (h : q.chooseMany k = some r) :
    r.2.consumers = q.consumers ∧ r.2.rrSeq.toNat = q.rrSeq.toNat+k ∧
      r.1 = (List.range k).map fun i =>
        q.consumers[(Int32.ofNat ((q.rrSeq.toNat+i) % q.consumers.length)).toInt.toNat]? := by
  induction k generalizing q r with
  | zero =>
    cases h
    exact ⟨rfl,rfl,rfl⟩
  | succ k ih =>
    rw [chooseMany] at h
    cases hc : q.chooseAt with
    | none => simp [hc] at h
    | some c =>
      obtain ⟨cp,q₁⟩ := c
      obtain ⟨-,-,e⟩ := chooseAt_cases hn hc
      cases e
      simp only [hc] at h
      obtain ⟨r,hr,rfl⟩ := Option.map_eq_some_iff.mp h
      have hseq : (q.rrSeq+1).toNat = q.rrSeq.toNat+1 := by
        rw [UInt64.toNat_add]
        exact Nat.mod_eq_of_lt (by simp; omega)
      obtain ⟨hcs,hrr,hret⟩ := ih (q := {q with rrSeq := q.rrSeq+1}) hn
        (by simp only [hseq]; omega) hr
      refine ⟨hcs,by rw [hrr]; simp only [hseq]; omega,?_⟩
      simp only [hret,hseq,List.range_succ_eq_map,List.map_cons,List.map_map,Nat.add_zero]
      congr 1
      refine List.map_congr_left fun i _ => ?_
      simp only [Function.comp_apply,Nat.succ_eq_add_one,Nat.add_comm i 1,← Nat.add_assoc]

/-- As long as the places fit an `int`, the calls return what the turns are. -/
theorem chooseMany_turns (hn : q.consumers ≠ []) (hwrap : q.rrSeq.toNat+k < 2^64)
    (h : ∀ i < k, (q.rrSeq.toNat+i) % q.consumers.length < 2^31) :
    (q.chooseMany k).map Prod.fst = some (turns q.consumers q.rrSeq.toNat k) := by
  induction k generalizing q with
  | zero => rfl
  | succ k ih =>
    have hseq : (q.rrSeq+1).toNat = q.rrSeq.toNat+1 := by
      rw [UInt64.toNat_add]
      exact Nat.mod_eq_of_lt (by simp; omega)
    have hfirst := chooseAt_eq (h 0 (Nat.succ_pos k))
    have hlen : q.consumers.length ≠ 0 := by simpa using hn
    have hrest := ih (q := {q with rrSeq := q.rrSeq+1}) hn (by simp only [hseq]; omega)
      fun i hi => by
        have := h (i+1) (by omega)
        simp only [hseq]
        rwa [Nat.add_right_comm,Nat.add_assoc]
    rw [chooseMany,hfirst,turns_succ]
    simp only [choose,if_neg hlen,Option.map_map]
    simp only [hseq] at hrest
    obtain ⟨r,hr,hturns⟩ := Option.map_eq_some_iff.mp hrest
    rw [hr,← hturns]
    rfl

/-- The calls of a stretch are fair exactly if the places that they use fit an `int`. -/
theorem fair_iff (hn : q.consumers ≠ []) (htags : q.DistinctTags)
    (hwrap : q.rrSeq.toNat+k < 2^64) :
    q.Fair k ↔ ∀ i < k, (q.rrSeq.toNat+i) % q.consumers.length < 2^31 := by
  have hnd : q.consumers.Nodup := .of_map _ htags
  have hpos : 0 < q.consumers.length := List.length_pos_iff.mpr hn
  constructor
  · intro h i hi
    obtain ⟨r,hr,hret⟩ := Option.map_eq_some_iff.mp h.returned
    obtain ⟨-,-,hmap⟩ := chooseMany_spec hn hwrap hr
    rw [hmap,turns,List.map_inj_left] at hret
    have hsame := hret i (List.mem_range.mpr hi)
    -- an element that is read at two places is read at one
    have hlt : (q.rrSeq.toNat+i) % q.consumers.length < q.consumers.length := Nat.mod_lt _ hpos
    have hplace := (List.getElem?_inj hlt hnd).mp hsame.symm
    have hbound := (Int32.ofNat ((q.rrSeq.toNat+i) % q.consumers.length)).toInt_lt
    omega
  · intro h
    have hret := chooseMany_turns hn hwrap h
    refine ⟨fun i hi r hr => ?_,hret,fun cp hcp r hr => ?_,htags⟩
    · obtain ⟨hcs,hrr,-⟩ := chooseMany_spec hn (by omega) hr
      have hlt := h i hi
      rw [← hcs,← hrr] at hlt
      rw [index_of_lt hlt]
      refine ⟨Int.natCast_nonneg _,Int.ofNat_lt.mpr (Nat.mod_lt _ ?_)⟩
      rwa [hcs]
    · rw [hr] at hret
      rw [Option.some.inj hret]
      exact count_turns hnd hcp _ _

end QueueConsumer

section Reachable
open QueueConsumer
variable {calls : List QueueConsumer.Call} {q : QueueConsumer}

/-- Whatever consumers came and went before: a stretch of calls without a change of membership
returns the consumers in turn, each its share of times, exactly if none of its places is past an
`int`. -/
theorem consumers_in_turn_iff (run : QueueConsumer.system.Run {} calls q)
    (hn : q.consumers ≠ []) (k : ℕ) (hwrap : q.rrSeq.toNat+k < 2^64) :
    q.Fair k ↔ ∀ i < k, (q.rrSeq.toNat+i) % q.consumers.length < 2^31 := by
  have htags : q.DistinctTags := run.invariant List.nodup_nil fun h hs => h.step hs
  exact fair_iff hn htags hwrap

/-- Three consumers, of which one goes between two calls. -/
def threeCalls : List QueueConsumer.Call :=
  [.create "t1" "orders" true ⟨0,"c1",1⟩,.create "t2" "orders" true ⟨0,"c1",1⟩,.choose,
    .create "t3" "orders" true ⟨1,"c2",1⟩,.remove "t1",.choose]

theorem consumers_in_turn_three : ∃ q, QueueConsumer.system.Run {} threeCalls q ∧
    (q.Fair 5 ↔ ∀ i < 5, (q.rrSeq.toNat+i) % q.consumers.length < 2^31) := by
  have run : QueueConsumer.system.Run {} threeCalls
      ⟨2,[⟨true,"orders","t2",⟨0,"c1",1⟩⟩,⟨true,"orders","t3",⟨1,"c2",1⟩⟩]⟩ :=
    .of_foldlM rfl
  exact ⟨_,run,consumers_in_turn_iff run (by simp) 5 (by decide)⟩

section Crowd

/-- The consumer that comes with the `i`-th tag. -/
def crowdConsumer (i : ℕ) : Consumer :=
  ⟨true,"orders",.ofList (List.replicate i 't'),⟨0,"c1",1⟩⟩

theorem run_crowd (n : ℕ) : ∃ calls, QueueConsumer.system.Run {} calls
    ⟨0,(List.range n).map crowdConsumer⟩ := by
  induction n with
  | zero => exact ⟨[],.nil _⟩
  | succ n ih =>
    obtain ⟨calls,run⟩ := ih
    refine ⟨calls ++ [.create (crowdConsumer n).consumerTag "orders" true ⟨0,"c1",1⟩],run.snoc ?_⟩
    have hfree : (((List.range n).map crowdConsumer).any
        (·.consumerTag = (crowdConsumer n).consumerTag)) = false := by
      rw [List.any_eq_false]
      intro cp hcp
      obtain ⟨i,hi,rfl⟩ := List.mem_map.mp hcp
      have hlt := List.mem_range.mp hi
      have hne : (crowdConsumer i).consumerTag ≠ (crowdConsumer n).consumerTag := by
        intro e
        have hlen := congrArg (fun t : String => t.toList.length) e
        simp only [crowdConsumer,String.toList_ofList,List.length_replicate] at hlen
        omega
      simpa using hne
    change some _ = some _
    rw [QueueConsumer.create,if_neg (by rw [hfree]; simp),List.range_succ,List.map_append]
    rfl

theorem run_chosen {cs : List Consumer} {n k : ℕ} (hcs : cs.length = n+1) (hk : k ≤ n)
    (hn : n < 2^64) (hint : n ≤ 2^31) : ∃ calls,
    QueueConsumer.system.Run ⟨0,cs⟩ calls ⟨UInt64.ofNat k,cs⟩ := by
  induction k with
  | zero => exact ⟨[],.nil _⟩
  | succ k ih =>
    obtain ⟨calls,run⟩ := ih (by omega)
    have hlt : k < 2^64 := by omega
    have hseq : (UInt64.ofNat k).toNat = k := UInt64.toNat_ofNat_of_lt' hlt
    refine ⟨calls ++ [.choose],run.snoc ?_⟩
    have hplace : (UInt64.ofNat k).toNat % cs.length < 2^31 := by
      rw [hseq,Nat.mod_eq_of_lt (by omega)]
      omega
    change ((⟨UInt64.ofNat k,cs⟩ : QueueConsumer).chooseAt).map Prod.snd = some _
    rw [chooseAt_eq hplace,choose,if_neg (by change cs.length ≠ 0; omega)]
    rw [UInt64.ofNat_add]
    rfl

/-- With 2^31+1 consumers the last of them has a place that is past an `int`. -/
theorem crowd_leaves_vector : ¬ ∀ (calls : List QueueConsumer.Call) (q : QueueConsumer) (k : ℕ),
    QueueConsumer.system.Run {} calls q → q.consumers ≠ [] → q.rrSeq.toNat+k < 2^64 →
      q.Fair k := by
  intro hall
  obtain ⟨n,hn⟩ : ∃ n, n = 2^31 := ⟨_,rfl⟩
  obtain ⟨calls,run⟩ := run_crowd (n+1)
  have hlen : ((List.range (n+1)).map crowdConsumer).length = n+1 := by simp
  obtain ⟨calls',run'⟩ := run_chosen hlen le_rfl (by omega) hn.le
  have hrun := run.append run'
  have hseq : (UInt64.ofNat n).toNat = n := UInt64.toNat_ofNat_of_lt' (by rw [hn]; norm_num)
  have hne : (List.range (n+1)).map crowdConsumer ≠ [] :=
    List.ne_nil_of_length_pos (by rw [hlen]; exact Nat.succ_pos n)
  have htags : DistinctTags ⟨UInt64.ofNat n,(List.range (n+1)).map crowdConsumer⟩ :=
    hrun.invariant (P := DistinctTags) List.nodup_nil fun h hs => h.step hs
  have hfair := hall _ _ 1 hrun hne (by simp only [hseq]; omega)
  have hbad := (fair_iff hne htags (by simp only [hseq]; omega)).mp hfair 0 Nat.one_pos
  simp only [hseq,hlen,Nat.add_zero,Nat.mod_eq_of_lt (Nat.lt_succ_self n)] at hbad
  omega

end Crowd
end Reachable
end MessageQueue

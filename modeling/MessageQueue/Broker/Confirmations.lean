import MessageQueue.Broker.Evictions
import MessageQueue.Broker.Registrations

/-! What the reply to a subscription stands for: it is confirmed whether a consumer was created
or not. -/
namespace MessageQueue
open Base

namespace ConsumerManager
variable {m : ConsumerManager} {qname ctag : String} {ackFlag : Bool} {cb : ChannelRef}

/-- A consumer is created where the queue has a handle and none of its consumers has the tag. -/
theorem createConsumer_free {qcp : QueueConsumer} (hq : m.lookup qname = some qcp)
    (hfree : ∀ cp ∈ qcp.consumers, cp.consumerTag ≠ ctag) :
    (m.createConsumer ctag qname ackFlag cb).2.Holds qname ⟨ackFlag,qname,ctag,cb⟩ := by
  have hany : ¬ qcp.consumers.any (·.consumerTag = ctag) = true := by
    simpa using hfree
  simp only [createConsumer,hq,QueueConsumer.create,if_neg hany]
  exact ⟨_,AList.lookup_insert _,List.mem_append_right _ (List.mem_singleton_self _)⟩

/-- Otherwise the consumers are the same. -/
theorem createConsumer_taken {qcp : QueueConsumer} (hq : m.lookup qname = some qcp)
    (htaken : ∃ cp ∈ qcp.consumers, cp.consumerTag = ctag) (n : String) (cp : Consumer) :
    (m.createConsumer ctag qname ackFlag cb).2.Holds n cp ↔ m.Holds n cp := by
  have hany : qcp.consumers.any (·.consumerTag = ctag) = true := by
    simpa using htaken
  simp only [createConsumer,hq,QueueConsumer.create,if_pos hany]
  rw [holds_insert]
  split_ifs with hn
  · subst hn
    simp [Holds,hq]
  · exact Iff.rfl

end ConsumerManager

namespace Broker
variable {b b' : Broker} {conn : ℕ} {rid cid qname ctag : String} {autoAck : Bool}
  {it : Iteration} {uuid : String → String} {x : Broker × Option Response}

/-- Every registered queue has a consumer handle. -/
def Subscribable (b : Broker) : Prop :=
  ∀ n, (b.host.queues.lookup n).isSome → (b.consumers.lookup n).isSome

/-- A declaration makes the consumer handle after the queue. -/
theorem Subscribable.declareQueue (h : b.Subscribable) (rid cid name : String)
    (durable exclusive autoDelete : Bool) (args : Args) :
    (Channel.declareQueue b rid cid name durable exclusive autoDelete args).1.Subscribable := by
  intro n hn
  cases hst : b.storesQueue name durable with
  | true =>
    cases hl : b.host.queues.lookup name with
    | some q =>
      have hr : (b.host.declareQueue name durable exclusive autoDelete args).1 = true ∧
          (b.host.declareQueue name durable exclusive autoDelete args).2.queues =
            b.host.queues := by
        simp only [VirtualHost.declareQueue,QueueManager.declareQueue,hl,and_self]
      simp only [Channel.declareQueue,hr.1,hr.2,Bool.true_eq_false,↓reduceIte] at hn ⊢
      exact ConsumerManager.initQueueConsumer_isSome.mpr (.inr (h n hn))
    | none =>
      obtain ⟨db,hq⟩ := @declareQueue_new b name durable exclusive autoDelete args hl
      rw [hst,if_pos rfl] at hq
      simp only [Channel.declareQueue,VirtualHost.declareQueue,hq,Bool.true_eq_false,
        ↓reduceIte] at hn ⊢
      refine ConsumerManager.initQueueConsumer_isSome.mpr ?_
      by_cases hne : n = name
      · exact .inl hne
      · rw [AList.lookup_insert_ne hne] at hn
        exact .inr (h n hn)
  | false =>
    have hnone : b.host.queues.lookup name = none := by
      simp only [storesQueue,Bool.or_eq_false_iff] at hst
      simpa using hst.1.1
    obtain ⟨db,hq⟩ := @declareQueue_new b name durable exclusive autoDelete args hnone
    rw [hst,if_neg (by simp)] at hq
    simp only [Channel.declareQueue,VirtualHost.declareQueue,hq,↓reduceIte] at hn ⊢
    exact h n hn

theorem Subscribable.deleteQueue (h : b.Subscribable) (rid cid name : String) :
    (Channel.deleteQueue b rid cid name).1.Subscribable := by
  intro n hn
  have hq : (Channel.deleteQueue b rid cid name).1.host.queues.lookup n =
      if n = name then none else b.host.queues.lookup n := QueueManager.lookup_deleteQueue
  rw [hq] at hn
  split_ifs at hn with hne
  · cases hn
  · change ((b.consumers.erase name).lookup n).isSome
    rw [AList.lookup_erase_ne hne]
    exact h n hn

theorem Subscribable.step {ev : Event} (h : b.Subscribable) (hs : b.step ev = some b') :
    b'.Subscribable := by
  by_cases hev : ev.Registers
  · cases ev with
    | request conn req it uuid =>
      obtain ⟨r,hx,rfl⟩ := Option.map_eq_some_iff.mp hs
      have hreq : req.Registers := hev
      cases handle_serve hreq hx with
      | inl hno => rw [hno.2]; exact h
      | inr hserve =>
        obtain ⟨c,x,-,hserved,rfl⟩ := hserve
        cases req with
        | declareQueue rid cid name exclusive durable autoDelete args =>
          cases hserved
          exact h.declareQueue rid cid name durable exclusive autoDelete args
        | deleteQueue rid cid name =>
          cases hserved
          exact h.deleteQueue rid cid name
        | _ => exact absurd hreq id
    | restart it =>
      have hw := construct_whole hs
      exact fun n hn => (hw.consumers n).trans hn
    | _ => exact absurd hev id
  · have hn := step_names hs hev
    intro n hq
    rw [hn.queues] at hq
    rw [hn.consumers]
    exact h n hq

/-- The request entered a new consumer, with the tag and the callback of the channel, in the
queue's registry. -/
def Subscribed (b b' : Broker) (conn : ℕ) (cid qname ctag : String) : Prop :=
  ∃ c cp, b.channelAt conn cid = some c ∧ cp.consumerTag = ctag ∧ cp.callback = c.self ∧
    ¬ b.consumers.Holds qname cp ∧ b'.consumers.Holds qname cp

/-- What the reply to a subscription says is so. -/
structure SubscriptionTold (b : Broker) (conn : ℕ) (rid cid qname ctag : String)
    (x : Broker × Option Response) : Prop where
  confirmed : x.2 = some (.common rid cid true) ↔ b.Subscribed x.1 conn cid qname ctag
  refused : x.2 = some (.common rid cid false) → x.1.consumers = b.consumers ∧
    (x.1.channelAt conn cid).map Channel.consumer = (b.channelAt conn cid).map Channel.consumer

/-- A request that is not served, or that names no queue, changes nothing. -/
theorem subscriptionTold_same {o : Option Response} (h : o ≠ some (.common rid cid true)) :
    b.SubscriptionTold conn rid cid qname ctag (b,o) :=
  ⟨iff_of_false h fun ⟨_,_,_,_,_,hold,hnew⟩ => hold hnew,fun _ => ⟨rfl,rfl⟩⟩

theorem told_iff (hsub : b.Subscribable)
    (hx : b.handle conn (.basicConsume rid cid ctag qname autoAck) it uuid = some x) :
    b.SubscriptionTold conn rid cid qname ctag x ↔
      ((b.channelAt conn cid).isSome → b.host.existQueue qname = true →
        ∀ cp, b.consumers.Holds qname cp → cp.consumerTag ≠ ctag) := by
  rw [handle_channel id] at hx
  cases hc : b.channelAt conn cid with
  | none =>
    simp only [Request.cid,hc] at hx
    cases hx
    exact iff_of_true (subscriptionTold_same (by simp)) fun h => by simp at h
  | some c =>
    simp only [Request.cid,hc] at hx
    cases hx
    cases hq : b.host.existQueue qname with
    | false =>
      simp only [Channel.basicConsume,hq,↓reduceIte]
      exact iff_of_true (subscriptionTold_same (by simp)) fun _ h => by simp at h
    | true =>
      obtain ⟨qcp,hqcp⟩ := Option.isSome_iff_exists.mp (hsub qname hq)
      simp only [Channel.basicConsume,hq,Bool.true_eq_false,↓reduceIte,Option.isSome_some,
        forall_true_left]
      constructor
      · intro h cp hcp htag
        obtain ⟨qcp',hqcp',hmem⟩ := hcp
        cases hqcp.symm.trans hqcp'
        obtain ⟨d,cp',hd,htag',hcb,hold,hnew⟩ := h.confirmed.mp rfl
        exact hold ((ConsumerManager.createConsumer_taken hqcp ⟨cp,hmem,htag⟩ qname cp').mp hnew)
      · intro h
        have hfree : ∀ cp ∈ qcp.consumers, cp.consumerTag ≠ ctag :=
          fun cp hcp => h cp ⟨qcp,hqcp,hcp⟩
        refine ⟨iff_of_true rfl ⟨c,⟨autoAck,qname,ctag,c.self⟩,hc,rfl,rfl,fun hold => ?_,?_⟩,
          fun hr => by simp at hr⟩
        · exact h _ hold rfl
        · exact ConsumerManager.createConsumer_free hqcp hfree

section Reachable
variable {basedir : String} {it₀ : Iteration} {disk : Disk} {db : Database} {b₀ : Broker}
  {evs : List Event}

/-- In every reachable state the reply to a subscription tells what became of it exactly if no
consumer of the queue has the tag already. -/
theorem subscription_told_iff (start : construct basedir it₀ disk db = some b₀)
    (run : system.Run b₀ evs b)
    (hx : b.handle conn (.basicConsume rid cid ctag qname autoAck) it uuid = some x) :
    b.SubscriptionTold conn rid cid qname ctag x ↔
      ((b.channelAt conn cid).isSome → b.host.existQueue qname = true →
        ∀ cp, b.consumers.Holds qname cp → cp.consumerTag ≠ ctag) := by
  have hstart : b₀.Subscribable := fun n hn => ((construct_whole start).consumers n).trans hn
  exact told_iff (run.invariant hstart fun h hs => h.step hs) hx

/-- The first subscriber of a queue. -/
theorem subscription_told_first : ∃ b x, (construct "/data" .listed blankDisk {}).bind
      (tradeSetup.foldlM step) = some b ∧
    b.handle 1 (.basicConsume "r5" "c1" "tag" "orders" true) .listed (fun _ => "") = some x ∧
    (b.SubscriptionTold 1 "r5" "c1" "orders" "tag" x ↔
      ((b.channelAt 1 "c1").isSome → b.host.existQueue "orders" = true →
        ∀ cp, b.consumers.Holds "orders" cp → cp.consumerTag ≠ "tag")) := by
  obtain ⟨b₀,start⟩ := construct_blank "/data" .listed blankDisk
  have hall : ((construct "/data" .listed blankDisk {}).bind (tradeSetup.foldlM step)).any
      (fun b : Broker => (b.handle 1 (.basicConsume "r5" "c1" "tag" "orders" true) .listed
        fun _ => "").isSome) = true := by
    decide +kernel
  simp only [Option.any_eq_true] at hall
  obtain ⟨b,hb,hx⟩ := hall
  obtain ⟨x,hx⟩ := Option.isSome_iff_exists.mp hx
  have hrun := hb
  rw [start,Option.bind_some] at hrun
  exact ⟨b,x,hb,hx,subscription_told_iff start (.of_foldlM hrun) hx⟩

/-- Two channels that ask for one tag. -/
def sameTag : List Event :=
  tradeSetup ++
    [.request 1 (.openChannel "r5" "c2") .listed fun _ => "u5",
      .request 1 (.basicConsume "r6" "c1" "tag" "orders" true) .listed fun _ => "u6"]

/-- The second of them is told that it is a subscriber. -/
theorem second_told_true : ¬ ∀ (basedir : String) (it₀ : Iteration) (disk : Disk) (db : Database)
    (b₀ b : Broker) (evs : List Event) (conn : ℕ) (rid cid ctag qname : String) (autoAck : Bool)
    (it : Iteration) (uuid : String → String) (x : Broker × Option Response),
    construct basedir it₀ disk db = some b₀ → system.Run b₀ evs b →
      b.handle conn (.basicConsume rid cid ctag qname autoAck) it uuid = some x →
        b.SubscriptionTold conn rid cid qname ctag x := by
  intro h
  have hall : ((construct "/data" .listed blankDisk {}).bind (sameTag.foldlM step)).any
      (fun b : Broker => (b.channelAt 1 "c2").isSome && (b.host.existQueue "orders" &&
        ((b.consumers.lookup "orders").any fun qcp =>
          qcp.consumers.any fun cp => decide (cp.consumerTag = "tag")))) = true := by
    decide +kernel
  obtain ⟨b₀,b,start,run,hb⟩ := Lts.Run.of_any hall
  simp only [Bool.and_eq_true,Option.any_eq_true,List.any_eq_true,decide_eq_true_eq] at hb
  obtain ⟨hc,hq,qcp,hqcp,cp,hcp,htag⟩ := hb
  obtain ⟨c,hc'⟩ := Option.isSome_iff_exists.mp hc
  have hstart : b₀.Subscribable := fun n hn => ((construct_whole start).consumers n).trans hn
  have hsub := run.invariant (P := Subscribable) hstart fun h hs => h.step hs
  have hx : b.handle 1 (.basicConsume "r7" "c2" "tag" "orders" true) .listed (fun _ => "") =
      some ((c.basicConsume b "r7" "c2" "tag" "orders" true).1,
        some (c.basicConsume b "r7" "c2" "tag" "orders" true).2) := by
    rw [handle_channel id]
    simp only [Request.cid,hc']
    rfl
  have htold := h _ _ _ _ b₀ b _ 1 "r7" "c2" "tag" "orders" true _ _ _ start run hx
  exact (told_iff hsub hx).mp htold hc hq cp ⟨qcp,hqcp,hcp⟩ htag

end Reachable
end Broker
end MessageQueue

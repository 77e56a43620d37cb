import MessageQueue.Broker.Evictions
import MessageQueue.Broker.Threads

/-! Which channels the workers use. A task and a callback hold a channel without owning it; they
may outlive it unless it is done with when it is destroyed. -/
namespace MessageQueue
open Base

namespace Broker
variable {b b' : Broker} {conn : ℕ} {cid : String}

/-- A channel that is opened is a new object. -/
theorem openChannel_objects {channels : ChannelManager} (rid : String)
    (hl : b.connections.lookup conn = some channels) :
    b.fresh ≤ (b.openChannel conn channels rid cid).1.fresh ∧
      ∀ n i c, (b.openChannel conn channels rid cid).1.channelAt n i = some c →
        (∃ d, b.channelAt n i = some d ∧ d.self = c.self) ∨
          c.self.object = b.fresh ∧
            b.fresh < (b.openChannel conn channels rid cid).1.fresh := by
  unfold openChannel
  cases hc : channels.lookup cid with
  | some c => exact ⟨le_rfl,fun n i c hc => .inl ⟨c,hc,rfl⟩⟩
  | none =>
    refine ⟨Nat.le_succ _,fun n i c hci => ?_⟩
    rw [channelAt_insert rfl] at hci
    split_ifs at hci with hn
    · rcases Table.lookup_insert_eq_some.mp hci with ⟨rfl,rfl⟩ | ⟨-,hci⟩
      · exact .inr ⟨rfl,Nat.lt_succ_self _⟩
      · exact .inl ⟨c,by rw [hn,channelAt_of_lookup hl]; exact hci,rfl⟩
    · exact .inl ⟨c,hci,rfl⟩

theorem closeChannel_fresh (channels : ChannelManager) (rid : String) :
    (b.closeChannel conn channels rid cid).1.fresh = b.fresh := by
  unfold closeChannel destroyChannel
  split
  · rfl
  · split <;> rfl

/-- Serving a request replaces no channel object. -/
theorem serve_objects {channels : ChannelManager} {c : Channel} {it : Iteration}
    {uuid : String → String} {req : Request} {x : Broker × Response} (hn : b.Named)
    (hl : b.connections.lookup conn = some channels) (hc : channels.lookup cid = some c)
    (hx : c.serve b it uuid req = some x) {n : ℕ} {i : String} {d : Channel}
    (hd : x.1.channelAt n i = some d) : ∃ d', b.channelAt n i = some d' ∧ d'.self = d.self := by
  cases (Channel.serve_reply hx).2 with
  | inl hsame => exact ⟨d,by simpa [channelAt,hsame] using hd,rfl⟩
  | inr hset =>
    obtain ⟨c',hcself,hset⟩ := hset
    have hat : b.channelAt conn cid = some c := (channelAt_of_lookup hl _).trans hc
    obtain ⟨hid,hconn⟩ := hn.self_eq hat
    have hins : x.1.connections = b.connections.insert conn (channels.insert cid c') := by
      rw [hset]
      simp only [setChannel]
      rw [hcself,hid,hconn,hl,Option.getD_some]
    rw [channelAt_insert hins] at hd
    split_ifs at hd with hnc
    · subst hnc
      rcases Table.lookup_insert_eq_some.mp hd with ⟨rfl,rfl⟩ | ⟨-,hd⟩
      · exact ⟨c,hat,hcself.symm⟩
      · exact ⟨d,(channelAt_of_lookup hl _).trans hd,rfl⟩
    · exact ⟨d,hd,rfl⟩

/-- The channels that are registered after a request were so before, or one is new. -/
theorem handle_objects {req : Request} {it : Iteration} {uuid : String → String}
    {r : Broker × Option Response} (hn : b.Named) (h : b.handle conn req it uuid = some r) :
    b.fresh ≤ r.1.fresh ∧ ∀ n i c, r.1.channelAt n i = some c →
      (∃ d, b.channelAt n i = some d ∧ d.self = c.self) ∨
        c.self.object = b.fresh ∧ b.fresh < r.1.fresh := by
  have hhandle := h
  unfold handle at h
  cases hl : b.connections.lookup conn with
  | none =>
    simp only [hl] at h
    cases h
    exact ⟨le_rfl,fun n i c hc => .inl ⟨c,hc,rfl⟩⟩
  | some channels =>
    simp only [hl] at h
    split at h
    · cases h
      exact openChannel_objects _ hl
    · have hclose := handle_close hhandle
      cases h
      refine ⟨(closeChannel_fresh channels _).ge,fun n i c hc => ?_⟩
      rw [hclose.2] at hc
      split_ifs at hc
      exact .inl ⟨c,hc,rfl⟩
    · cases hc : channels.lookup req.cid with
      | none =>
        simp only [hc] at h
        cases h
        exact ⟨le_rfl,fun n i c hc => .inl ⟨c,hc,rfl⟩⟩
      | some c =>
        simp only [hc] at h
        obtain ⟨x,hx,rfl⟩ := Option.map_eq_some_iff.mp h
        exact ⟨(Channel.serve_fresh hx).ge,fun n i d hd => .inl (serve_objects hn hl hc hx hd)⟩

/-- The channels that are destroyed are not registered, and have no consumers. -/
structure Sound (b : Broker) (gone : List ChannelRef) : Prop where
  named : b.Named
  tags : b.consumers.DistinctTags
  objects : ∀ n i c, b.channelAt n i = some c → c.self.object < b.fresh ∧ c.self ∉ gone
  old : ∀ r ∈ gone, r.object < b.fresh
  consumers : b.consumers.All fun _ cp => cp.callback ∉ gone

namespace Sound
variable {gone : List ChannelRef}

theorem handle (hb : b.Sound gone) {req : Request} {it : Iteration} {uuid : String → String}
    {r : Broker × Option Response} (h : b.handle conn req it uuid = some r) :
    r.1.Sound gone := by
  obtain ⟨hfresh,hobjects⟩ := handle_objects hb.named h
  refine ⟨(handle_channels hb.named h).named,?_,fun n i c hc => ?_,
    fun x hx => (hb.old x hx).trans_le hfresh,?_⟩
  · exact ConsumerManager.distinctTags_keeps.handle h (allows fun _ _ => trivial) hb.tags
  · cases hobjects n i c hc with
    | inl hold =>
      obtain ⟨d,hd,hself⟩ := hold
      obtain ⟨hlt,hgone⟩ := hb.objects n i d hd
      exact ⟨hself ▸ hlt.trans_le hfresh,hself ▸ hgone⟩
    | inr hnew =>
      refine ⟨hnew.1 ▸ hnew.2,fun hgone => ?_⟩
      exact (hb.old _ hgone).ne hnew.1
  · have keeps : ConsumerManager.Keeps (fun _ cb => cb ∉ gone)
        (ConsumerManager.All fun _ cp => cp.callback ∉ gone) :=
      ConsumerManager.All.keeps fun _ _ _ _ hcb => hcb
    refine keeps.handle h ?_ hb.consumers
    intro ctag qname channels c _ _ hl hc
    exact (hb.objects conn req.cid c ((channelAt_of_lookup hl _).trans hc)).2

/-- Fewer registered channels, and nothing else. -/
theorem shrink (hb : b.Sound gone)
    (hat : ∀ n i c, b'.channelAt n i = some c → b.channelAt n i = some c)
    (hcons : b'.consumers = b.consumers) (hfresh : b'.fresh = b.fresh) : b'.Sound gone := by
  refine ⟨fun n channels i c hl hc => ?_,by rw [hcons]; exact hb.tags,fun n i c hc => ?_,?_,
    by rw [hcons]; exact hb.consumers⟩
  · exact hb.named.self_eq (hat n i c ((channelAt_of_lookup hl _).trans hc))
  · rw [hfresh]
    exact hb.objects n i c (hat n i c hc)
  · rw [hfresh]
    exact hb.old

/-- A channel that is not registered and remembers its consumers may be destroyed. -/
theorem destroyChannel (hb : b.Sound gone) {c : Channel} (hold : c.self.object < b.fresh)
    (hat : ∀ n i d, b.channelAt n i = some d → d.self ≠ c.self)
    (hcons : ∀ q cp, b.consumers.Holds q cp → cp.callback = c.self →
      c.Remembers q cp.consumerTag) : (b.destroyChannel c).Sound (gone ++ [c.self]) := by
  have hsame : ∀ n i, (b.destroyChannel c).channelAt n i = b.channelAt n i := by
    intro n i
    simp only [channelAt,destroyChannel_connections]
  have hfresh : (b.destroyChannel c).fresh = b.fresh := by
    unfold Broker.destroyChannel
    split <;> rfl
  refine ⟨fun n channels i d hl hd => ?_,?_,fun n i d hd => ?_,fun r hr => ?_,?_⟩
  · exact hb.named n channels i d ((destroyChannel_connections c) ▸ hl) hd
  · rw [destroyChannel_consumers]
    exact ConsumerManager.distinctTags_without hb.tags c
  · rw [hsame] at hd
    obtain ⟨hlt,hgone⟩ := hb.objects n i d hd
    rw [hfresh,List.mem_append,List.mem_singleton]
    exact ⟨hlt,fun hmem => hmem.elim hgone (hat n i d hd)⟩
  · rw [hfresh]
    cases List.mem_append.mp hr with
    | inl hr => exact hb.old r hr
    | inr hr => exact List.mem_singleton.mp hr ▸ hold
  · refine ConsumerManager.all_iff.mpr fun q cp hq => ?_
    rw [destroyChannel_consumers,ConsumerManager.holds_without hb.tags] at hq
    rw [List.mem_append,List.mem_singleton]
    rintro (hgone | hself)
    · exact ConsumerManager.all_iff.mp hb.consumers q cp hq.1 hgone
    · exact hq.2 (hcons q cp hq.1 hself)

end Sound
end Broker

/-- The channels of its consumers. -/
def QueueConsumer.callbacks (q : QueueConsumer) : List ChannelRef :=
  q.consumers.map Consumer.callback

namespace Worker

/-- The channels of the task that a worker executes, of the consumer that it chose, and of those that
it may choose in the unit of a deleted queue. -/
def uses (units : List QueueConsumer) (w : Worker) : List ChannelRef :=
  match w.current with
  | none => []
  | some (task,.chose _ cp) => [task.channel,cp.callback]
  | some (task,.found _ (some k)) =>
    task.channel::units[k]?.elim [] QueueConsumer.callbacks
  | some (task,.found _ none) => [task.channel]
  | some (task,.took _) => [task.channel]
  | some (task,.called _) => [task.channel]

def bound (units : List QueueConsumer) (w : Worker) : List ChannelRef :=
  w.batch.map Task.channel ++ w.uses units

variable {units : List QueueConsumer} {qcp : QueueConsumer} {w : Worker} {r : ChannelRef}

/-- A turn in a unit changes nothing about its consumers. -/
theorem bound_choose {k : ℕ} (hk : units[k]? = some qcp) (w : Worker) :
    w.bound (units.set k qcp.choose.2) = w.bound units := by
  have hlt := (List.getElem?_eq_some_iff.mp hk).1
  unfold bound uses
  split <;> try rfl
  next task m j hj =>
    by_cases hjk : k = j
    · subst hjk
      rw [List.getElem?_set_self hlt,hk]
      simp [QueueConsumer.callbacks,qcp.choose_consumers]
    · rw [List.getElem?_set_ne hjk]

/-- A worker whose unit is dropped from the manager may choose its consumers from now on. -/
theorem bound_detach {qname : String}
    (hr : r ∈ (w.detach qname units.length).bound (units ++ [qcp])) :
    r ∈ w.bound units ∨ r ∈ qcp.callbacks := by
  have hlast : ∀ k : ℕ, r ∈ (units ++ [qcp])[k]?.elim [] QueueConsumer.callbacks →
      r ∈ units[k]?.elim [] QueueConsumer.callbacks ∨ r ∈ qcp.callbacks := by
    intro k hk
    obtain hlt | heq | hgt := Nat.lt_trichotomy k units.length
    · exact .inl (by rwa [List.getElem?_append_left hlt] at hk)
    · subst heq
      exact .inr (by simpa using hk)
    · rw [List.getElem?_eq_none (by simp; omega)] at hk
      cases hk
  obtain ⟨batch,current⟩ := w
  simp only [bound,List.mem_append] at hr ⊢
  rcases current with - | ⟨task,m | ⟨m,- | k⟩ | ⟨m,cp⟩ | m⟩
  · exact .inl hr
  · exact .inl hr
  · by_cases hq : task.qname = qname
    · simp only [detach,hq,↓reduceIte,uses,List.mem_cons] at hr ⊢
      rcases hr with hr | hr | hr
      · exact .inl (.inl hr)
      · exact .inl (.inr (.inl hr))
      · exact (hlast _ hr).imp_left fun hold => absurd hold (by simp)
    · simp only [detach,hq,↓reduceIte] at hr
      exact .inl hr
  · simp only [detach,uses,List.mem_cons] at hr ⊢
    rcases hr with hr | hr | hr
    · exact .inl (.inl hr)
    · exact .inl (.inr (.inl hr))
    · exact (hlast _ hr).imp_left fun hold => .inr (.inr hold)
  · exact .inl hr
  · exact .inl hr

end Worker

namespace Threads
variable {s s' : Threads} {mv : Move} {i : ℕ} {r : ChannelRef}

/-- The channels that the workers may still use. -/
def bound (s : Threads) : List ChannelRef :=
  s.broker.pool.map Task.channel ++ s.workers.flatMap (Worker.bound s.detached)

/-- When a channel is destroyed, no worker may still use it, and it remembers every consumer that
the manager has of it. -/
def Settled (s : Threads) : Move → Prop
  | .round =>
    match s.handling with
    | .closing (c::_) => c.self ∉ s.bound ∧ ∀ q cp, s.broker.consumers.Holds q cp →
        cp.callback = c.self → c.Remembers q cp.consumerTag
    | _ => True
  | _ => True

theorem mem_bound : r ∈ s.bound ↔
    (∃ task ∈ s.broker.pool, task.channel = r) ∨ ∃ w ∈ s.workers, r ∈ w.bound s.detached := by
  simp [bound]

/-- A worker that goes on uses what it used, and what is not destroyed. -/
theorem bound_set {w : Worker} {b : Broker} {units : List QueueConsumer}
    (hp : ∀ task ∈ b.pool, task ∈ s.broker.pool)
    (hu : ∀ x : Worker, x.bound units = x.bound s.detached)
    (hw : ∀ r ∈ w.bound s.detached, r ∈ s.bound ∨ r ∉ s.destroyed)
    (tasks : ∀ r ∈ s.bound, r ∉ s.destroyed) :
    ∀ r ∈ bound {s with broker := b, workers := s.workers.set i w, detached := units},
      r ∉ s.destroyed := by
  intro r hr
  cases mem_bound.mp hr with
  | inl htask =>
    obtain ⟨task,ht,rfl⟩ := htask
    exact tasks _ (mem_bound.mpr (.inl ⟨task,hp task ht,rfl⟩))
  | inr hworker =>
    obtain ⟨x,hx,hr⟩ := hworker
    rw [hu] at hr
    cases List.mem_or_eq_of_mem_set hx with
    | inl hx => exact tasks r (mem_bound.mpr (.inr ⟨x,hx,hr⟩))
    | inr hx =>
      cases hw r (hx ▸ hr) with
      | inl hold => exact tasks r hold
      | inr hnew => exact hnew

theorem bound_of_worker {w : Worker} (hw : s.workers[i]? = some w) (hr : r ∈ w.bound s.detached) :
    r ∈ s.bound := mem_bound.mpr (.inr ⟨w,List.mem_of_getElem? hw,hr⟩)

/-- A worker executes on channels that are bound. -/
theorem executes_bound (hr : r ∈ s.executes mv) : r ∈ s.bound := by
  cases mv with
  | front i =>
    simp only [executes] at hr
    split at hr
    · next task batch hi =>
      refine bound_of_worker hi ?_
      simp_all [Worker.bound]
    · cases hr
  | find i =>
    simp only [executes] at hr
    split at hr
    · next batch task m hi =>
      refine bound_of_worker hi ?_
      simp_all [Worker.bound,Worker.uses]
    · cases hr
  | choose i =>
    simp only [executes] at hr
    split at hr
    · next batch task m unit hi =>
      refine bound_of_worker hi ?_
      cases unit <;> simp_all [Worker.bound,Worker.uses]
    · cases hr
  | callback i =>
    simp only [executes] at hr
    split at hr
    · next batch task m cp hi =>
      refine bound_of_worker hi ?_
      simp_all [Worker.bound,Worker.uses]
    · cases hr
  | autoAck i =>
    simp only [executes] at hr
    split at hr
    · next batch task m hi =>
      refine bound_of_worker hi ?_
      simp_all [Worker.bound,Worker.uses]
    · cases hr
  | _ => cases hr

/-- The channels being closed are neither registered nor destroyed. -/
structure Closing (s : Threads) (cs : List Channel) : Prop where
  nodup : (cs.map Channel.self).Nodup
  old : ∀ c ∈ cs, c.self.object < s.broker.fresh
  apart : ∀ c ∈ cs, c.self ∉ s.destroyed
  registered : ∀ c ∈ cs, ∀ n i d, s.broker.channelAt n i = some d → d.self ≠ c.self

/-- No thread holds a channel that is destroyed. -/
structure Sound (s : Threads) : Prop where
  broker : s.broker.Sound s.destroyed
  tasks : ∀ r ∈ s.bound, r ∉ s.destroyed
  publishing : ∀ job, s.handling = .publishing job → job.channel ∉ s.destroyed
  closing : ∀ cs, s.handling = .closing cs → s.Closing cs

namespace Sound

theorem start {basedir : String} {it : Iteration} {disk : Disk} {db : Database} {b : Broker}
    (h : Broker.construct basedir it disk db = some b) : (Threads.start b).Sound := by
  have hord := Broker.construct_orderly h
  have howners := Broker.construct_ownersOpen h
  obtain ⟨host,-,rfl⟩ := Option.map_eq_some_iff.mp h
  refine ⟨⟨hord.named,hord.tags,fun n i c hc => ?_,by simp [Threads.start],
    howners.mono fun _ _ _ => List.not_mem_nil⟩,fun r _ => List.not_mem_nil,by simp [Threads.start],
    by simp [Threads.start]⟩
  simp [Threads.start,Broker.channelAt] at hc

/-- The event loop begins to close channels that were registered. -/
theorem close (h : s.Sound) (connections : Table ℕ ChannelManager) (cs : List Channel)
    (hat : ∀ n i c, Broker.channelAt {s.broker with connections := connections} n i = some c →
      s.broker.channelAt n i = some c ∧ ∀ d ∈ cs, c.self ≠ d.self)
    (hcs : ∀ c ∈ cs, ∃ n i, s.broker.channelAt n i = some c)
    (hnodup : (cs.map Channel.self).Nodup) :
    Sound {s with
      broker := {s.broker with connections := connections}
      handling := .closing cs} := by
  refine ⟨h.broker.shrink (fun n i c hc => (hat n i c hc).1) rfl rfl,h.tasks,by simp,?_⟩
  rintro cs' heq
  cases heq
  refine ⟨hnodup,fun c hc => ?_,fun c hc => ?_,fun c hc n i d hd => (hat n i d hd).2 c hc⟩
  · obtain ⟨n,i,hat⟩ := hcs c hc
    exact (h.broker.objects n i c hat).1
  · obtain ⟨n,i,hat⟩ := hcs c hc
    exact (h.broker.objects n i c hat).2

/-- A worker goes on; the channels stay as they are. -/
theorem work (h : s.Sound) {b : Broker} {w : Worker} {units : List QueueConsumer}
    (pushed : List Push) (hu : ∀ x : Worker, x.bound units = x.bound s.detached)
    (hb : b.Sound s.destroyed) (hat : ∀ n i, b.channelAt n i = s.broker.channelAt n i)
    (hfresh : b.fresh = s.broker.fresh) (hp : ∀ task ∈ b.pool, task ∈ s.broker.pool)
    (hw : ∀ r ∈ w.bound s.detached, r ∈ s.bound ∨ r ∉ s.destroyed) :
    Sound {s with
      broker := b
      workers := s.workers.set i w
      pushed := pushed
      detached := units} := by
  refine ⟨hb,bound_set hp hu hw h.tasks,h.publishing,fun cs hcs => ?_⟩
  have hc := h.closing cs hcs
  refine ⟨hc.nodup,fun c hm => ?_,hc.apart,fun c hm n i d hd => ?_⟩
  · exact (hc.old c hm).trans_eq hfresh.symm
  · exact hc.registered c hm n i d ((hat n i) ▸ hd)

theorem swap (h : s.Sound) (hs : s.swap i = some s') : s'.Sound := by
  obtain ⟨hi,rfl⟩ := swap_cases hs
  refine h.work s.pushed (fun _ => rfl) (h.broker.shrink (fun _ _ _ hat => hat) rfl rfl)
    (fun _ _ => rfl) rfl (by simp) fun r hr => .inl (mem_bound.mpr (.inl ?_))
  simpa [Worker.bound,Worker.uses] using hr

theorem front (h : s.Sound) (hs : s.front i = some s') : s'.Sound := by
  obtain ⟨task,batch,hi,rfl⟩ := front_cases hs
  refine h.work s.pushed (fun _ => rfl) (h.broker.shrink (fun _ _ _ hat => hat) rfl rfl)
    (fun _ _ => rfl) rfl (fun _ ht => ht) fun r hr => .inl (bound_of_worker hi ?_)
  cases hm : (s.broker.host.basicConsume task.qname).1 with
  | none =>
    rw [hm] at hr
    simp_all [Worker.bound,Worker.uses]
  | some m =>
    rw [hm] at hr
    simp only [Worker.bound,Worker.uses,Option.map_some,List.mem_append,List.mem_map,
      List.map_cons,List.mem_cons,List.append_nil] at hr ⊢
    tauto

theorem find (h : s.Sound) (hs : s.find i = some s') : s'.Sound := by
  obtain ⟨task,batch,m,hi,rfl⟩ := find_cases hs
  refine h.work s.pushed (fun _ => rfl) h.broker (fun _ _ => rfl) rfl (fun _ ht => ht) fun r hr =>
    .inl (bound_of_worker hi ?_)
  cases hl : s.broker.consumers.lookup task.qname with
  | none =>
    rw [hl] at hr
    simp_all [Worker.bound,Worker.uses]
  | some qcp =>
    rw [hl] at hr
    simpa [Worker.bound,Worker.uses] using hr

/-- The chosen consumer's channel comes to those of the task. -/
theorem bound_chosen {batch : List Task} {task : Task} {m : MessageManager.Taken}
    {o : Option Consumer} {units : List QueueConsumer}
    (hr : r ∈ Worker.bound units ⟨batch,o.map fun cp => (task,.chose m cp)⟩) :
    r ∈ batch.map Task.channel ∨ r = task.channel ∨ ∃ cp, o = some cp ∧ r = cp.callback := by
  cases o with
  | none => exact .inl (by simpa [Worker.bound,Worker.uses] using hr)
  | some cp => simpa [Worker.bound,Worker.uses] using hr

theorem choose (h : s.Sound) (hs : s.choose i = some s') : s'.Sound := by
  have hb := h.broker
  rcases choose_cases hs with ⟨task,batch,m,hi,rfl⟩ | ⟨task,batch,m,k,qcp,hi,hk,rfl⟩
  · -- in the unit that the manager has
    have keeps : ConsumerManager.Keeps (fun _ cb => cb ∉ s.destroyed)
        (ConsumerManager.All fun _ cp => cp.callback ∉ s.destroyed) :=
      ConsumerManager.All.keeps fun _ _ _ _ hcb => hcb
    refine h.work s.pushed (fun _ => rfl) ⟨hb.named,
      ConsumerManager.distinctTags_keeps.choose _ hb.tags,hb.objects,hb.old,
      keeps.choose _ hb.consumers⟩ (fun _ _ => rfl) rfl (fun _ ht => ht) fun r hr => ?_
    rcases bound_chosen hr with hr | rfl | ⟨cp,hc,rfl⟩
    · exact .inl (bound_of_worker hi (List.mem_append_left _ hr))
    · exact .inl (bound_of_worker hi (List.mem_append_right _ (by simp [Worker.uses])))
    · exact .inr (hb.consumers.chosen hc)
  · -- in one that the worker has kept
    refine h.work s.pushed (Worker.bound_choose hk) hb (fun _ _ => rfl) rfl (fun _ ht => ht)
      fun r hr => .inl ?_
    rcases bound_chosen hr with hr | rfl | ⟨cp,hc,rfl⟩
    · exact bound_of_worker hi (List.mem_append_left _ hr)
    · exact bound_of_worker hi (List.mem_append_right _ (by simp [Worker.uses]))
    · refine bound_of_worker hi (List.mem_append_right _ ?_)
      simp only [Worker.uses,hk,Option.elim_some,List.mem_cons]
      exact .inr (List.mem_map_of_mem (QueueConsumer.choose_mem hc))

theorem callback (h : s.Sound) (hs : s.callback i = some s') : s'.Sound := by
  obtain ⟨task,batch,m,cp,hi,rfl⟩ := callback_cases hs
  refine h.work _ (fun _ => rfl) h.broker (fun _ _ => rfl) rfl (fun _ ht => ht) fun r hr =>
    .inl (bound_of_worker hi ?_)
  have hsub : r ∈ batch.map Task.channel ∨ r = task.channel := by
    cases hack : cp.autoAck with
    | false => exact .inl (by simpa [Worker.bound,Worker.uses,hack] using hr)
    | true => simpa [Worker.bound,Worker.uses,hack] using hr
  simp only [Worker.bound,Worker.uses,List.mem_append,List.mem_cons]
  exact hsub.imp_right .inl

theorem autoAck (h : s.Sound) (hs : s.autoAck i = some s') : s'.Sound := by
  obtain ⟨task,batch,m,hi,rfl⟩ := autoAck_cases hs
  refine h.work s.pushed (fun _ => rfl) (h.broker.shrink (fun _ _ _ hat => hat) rfl rfl)
    (fun _ _ => rfl) rfl (fun _ ht => ht) fun r hr => .inl (bound_of_worker hi ?_)
  simp_all [Worker.bound,Worker.uses]

/-- What the event loop is in the middle of has moved on. -/
theorem move (h : s.Sound) {handling : Handling}
    (hclosing : ∀ cs, handling = .closing cs → s.handling = .closing cs)
    (hpublishing : ∀ job', handling = .publishing job' →
      ∃ job, s.handling = .publishing job ∧ job'.channel = job.channel) :
    Sound {s with handling := handling} := by
  refine ⟨h.broker,h.tasks,fun job' hj => ?_,fun cs hcs => ?_⟩
  · obtain ⟨job,hj,hc⟩ := hpublishing job' hj
    exact hc ▸ h.publishing job hj
  · have hc := h.closing cs (hclosing cs hcs)
    exact ⟨hc.nodup,hc.old,hc.apart,hc.registered⟩

theorem round (h : s.Sound) (hset : s.Settled .round) (hs : s.round = some s') : s'.Sound := by
  have hb := h.broker
  rcases round_cases hs with ⟨handling,hc,hp,rfl⟩ | ⟨job,qname,hj,rfl⟩ | ⟨job,qname,rest,hj,rfl⟩ |
    ⟨c,cs,hc,rfl⟩
  · exact h.move hc hp
  · -- a task is pushed for the channel that is publishing
    refine ⟨hb.shrink (fun _ _ _ hat => hat) rfl rfl,fun r hr => ?_,?_,by simp⟩
    · cases mem_bound.mp hr with
      | inl htask =>
        obtain ⟨task,ht,rfl⟩ := htask
        cases List.mem_append.mp ht with
        | inl ht => exact h.tasks _ (mem_bound.mpr (.inl ⟨task,ht,rfl⟩))
        | inr ht =>
          rw [List.mem_singleton.mp ht]
          exact h.publishing job hj
      | inr hworker => exact h.tasks r (mem_bound.mpr (.inr hworker))
    · rintro job' heq
      cases heq
      exact h.publishing job hj
  · refine ⟨hb.shrink (fun _ _ _ hat => hat) rfl rfl,h.tasks,?_,by simp⟩
    rintro job' heq
    cases heq
    exact h.publishing job hj
  · -- a channel is destroyed
    obtain ⟨hfree,hcons⟩ : c.self ∉ s.bound ∧ ∀ q cp, s.broker.consumers.Holds q cp →
        cp.callback = c.self → c.Remembers q cp.consumerTag := by
      simpa only [Settled,hc] using hset
    have hcl := h.closing _ hc
    have hnodup := hcl.nodup
    rw [List.map_cons,List.nodup_cons] at hnodup
    have hsame : ∀ n i, (s.broker.destroyChannel c).channelAt n i = s.broker.channelAt n i := by
      intro n i
      simp only [Broker.channelAt,Broker.destroyChannel_connections]
    have hfresh : (s.broker.destroyChannel c).fresh = s.broker.fresh := by
      unfold Broker.destroyChannel
      split <;> rfl
    refine ⟨hb.destroyChannel (hcl.old c (by simp)) (hcl.registered c (by simp)) hcons,
      fun r hr => ?_,by simp,?_⟩
    · have hr : r ∈ s.bound := by
        rw [mem_bound] at hr ⊢
        simpa only [Broker.destroyChannel_pool] using hr
      rw [List.mem_append,List.mem_singleton]
      exact fun hmem => hmem.elim (h.tasks r hr) fun heq => hfree (heq ▸ hr)
    · rintro cs' heq
      cases heq
      refine ⟨hnodup.2,fun d hd => ?_,fun d hd => ?_,fun d hd n i x hx => ?_⟩
      · exact (hcl.old d (List.mem_cons_of_mem _ hd)).trans_eq hfresh.symm
      · rw [List.mem_append,List.mem_singleton]
        rintro (hgone | heq)
        · exact hcl.apart d (List.mem_cons_of_mem _ hd) hgone
        · exact hnodup.1 (heq ▸ List.mem_map_of_mem hd)
      · exact hcl.registered d (List.mem_cons_of_mem _ hd) n i x ((hsame n i) ▸ hx)

/-- The broker has served a request as a whole. -/
theorem served (h : s.Sound) (hidle : s.handling = .idle) {conn : ℕ} {req : Request}
    {it : Iteration} {uuid : String → String} {r : Broker × Option Response}
    (hreq : ¬ req.IsPublish) (hr : s.broker.handle conn req it uuid = some r) :
    Sound {s with broker := r.1} := by
  refine ⟨h.broker.handle hr,fun x hx => ?_,?_,?_⟩
  · refine h.tasks x ?_
    rw [mem_bound] at hx ⊢
    rwa [Broker.handle_pool hr hreq] at hx
  · simp [hidle]
  · simp [hidle]

/-- It may have dropped the unit of a queue, whose consumers' channels are there. -/
theorem dropped (h : s.Sound) (hidle : s.handling = .idle) {conn : ℕ} {req : Request}
    {it : Iteration} {uuid : String → String} {r : Broker × Option Response} {qname : String}
    {qcp : QueueConsumer} (hreq : ¬ req.IsPublish) (hr : s.broker.handle conn req it uuid = some r)
    (hl : s.broker.consumers.lookup qname = some qcp) :
    Sound {s with
      broker := r.1
      workers := s.workers.map fun w => w.detach qname s.detached.length
      detached := s.detached ++ [qcp]} := by
  refine ⟨h.broker.handle hr,fun x hx => ?_,by simp [hidle],by simp [hidle]⟩
  rcases mem_bound.mp hx with ⟨task,ht,rfl⟩ | ⟨w,hw,hx⟩
  · rw [Broker.handle_pool hr hreq] at ht
    exact h.tasks _ (mem_bound.mpr (.inl ⟨task,ht,rfl⟩))
  · obtain ⟨w,hmem,rfl⟩ := List.mem_map.mp hw
    cases Worker.bound_detach hx with
    | inl hx => exact h.tasks x (mem_bound.mpr (.inr ⟨w,hmem,hx⟩))
    | inr hx =>
      obtain ⟨cp,hcp,rfl⟩ := List.mem_map.mp hx
      exact h.broker.consumers qname qcp hl cp hcp

theorem request (h : s.Sound) (hidle : s.handling = .idle) {conn : ℕ} {req : Request}
    {it : Iteration} {uuid : String → String} (hs : s.request conn req it uuid = some s') :
    s'.Sound := by
  rcases request_cases hs with rfl | ⟨r,hreq,hr,rfl | ⟨qname,qcp,hl,rfl⟩⟩ |
    ⟨channels,cid,hl,rfl⟩ | ⟨channels,cid,c,job,hl,hc,hj,rfl⟩
  · exact h
  · exact h.served hidle hreq hr
  · exact h.dropped hidle hreq hr hl
  · refine h.close _ _ (fun n i c hc => ?_) (fun c hc => ?_) ?_
    · rw [Broker.channelAt_insert (b := s.broker) rfl] at hc
      split_ifs at hc with hn
      · rw [Registry.lookup_erase] at hc
        split_ifs at hc with hi
        refine ⟨by rw [hn,Broker.channelAt_of_lookup hl]; exact hc,fun d hd heq => hi ?_⟩
        have hd' := (Broker.channelAt_of_lookup hl cid).trans (Option.mem_toList.mp hd)
        have hc' := (Broker.channelAt_of_lookup hl i).trans hc
        rw [← (h.broker.named.self_eq hc').1,← (h.broker.named.self_eq hd').1,heq]
      · refine ⟨hc,fun d hd heq => hn ?_⟩
        have hd' := (Broker.channelAt_of_lookup hl cid).trans (Option.mem_toList.mp hd)
        rw [← (h.broker.named.self_eq hc).2,← (h.broker.named.self_eq hd').2,heq]
    · exact ⟨conn,cid,(Broker.channelAt_of_lookup hl cid).trans (Option.mem_toList.mp hc)⟩
    · cases channels.lookup cid <;> simp
  · have hgone := (h.broker.objects conn cid c ((Broker.channelAt_of_lookup hl cid).trans hc)).2
    refine ⟨h.broker,h.tasks,?_,by simp⟩
    rintro job' heq
    cases heq
    exact hj ▸ hgone

theorem disconnect (h : s.Sound) (conn : ℕ) (it : Iteration) : (s.disconnect conn it).Sound := by
  have hmem : ∀ c ∈ (it.order ((s.broker.connections.lookup conn).getD ∅).entries).map
      (fun e => e.2), ∃ i, s.broker.channelAt conn i = some c := by
    intro c hc
    obtain ⟨e,he,rfl⟩ := List.mem_map.mp hc
    rw [Iteration.mem_order] at he
    cases hl : s.broker.connections.lookup conn with
    | none => rw [hl] at he; cases he
    | some channels =>
      rw [hl,Option.getD_some] at he
      exact ⟨e.1,(Broker.channelAt_of_lookup hl _).trans (AList.mem_lookup_iff.mpr he)⟩
  refine h.close _ _ (fun n i c hc => ?_) (fun c hc => ?_) ?_
  · have hne : n ≠ conn := by
      rintro rfl
      simp [Broker.channelAt] at hc
    have hold : s.broker.channelAt n i = some c := by
      simpa [Broker.channelAt,AList.lookup_erase_ne hne] using hc
    refine ⟨hold,fun d hd heq => hne ?_⟩
    obtain ⟨j,hd⟩ := hmem d hd
    rw [← (h.broker.named.self_eq hold).2,← (h.broker.named.self_eq hd).2,heq]
  · obtain ⟨i,hc⟩ := hmem c hc
    exact ⟨conn,i,hc⟩
  · -- different keys, different objects
    rw [List.map_map]
    refine ((it.perm _).map _).nodup_iff.mpr ?_
    cases hl : s.broker.connections.lookup conn with
    | none => simp
    | some channels =>
      have hkeys : (channels.entries.map Sigma.fst).Nodup := channels.nodupKeys
      refine List.Nodup.of_map (fun r : ChannelRef => r.id) ?_
      rw [List.map_map]
      refine (List.map_congr_left fun e he => ?_) ▸ hkeys
      have hat := (Broker.channelAt_of_lookup hl e.1).trans (AList.mem_lookup_iff.mpr he)
      exact (h.broker.named.self_eq hat).1.symm

theorem connect (h : s.Sound) (hidle : s.handling = .idle) (conn : ℕ) :
    Sound {s with broker := s.broker.newConnection conn} := by
  refine ⟨h.broker.shrink (fun n i c hc => ?_) rfl rfl,h.tasks,by simp [hidle],by simp [hidle]⟩
  obtain ⟨channels,hl,hc⟩ := Option.bind_eq_some_iff.mp hc
  cases Table.lookup_emplace_eq_some.mp hl with
  | inl hl => exact (Broker.channelAt_of_lookup hl _).trans hc
  | inr hnew =>
    rw [hnew.2.2] at hc
    cases hc

/-- Every step keeps the threads sound, as long as no channel is destroyed before its time. -/
theorem step (h : s.Sound) (hset : s.Settled mv) (hs : s.step mv = some s') : s'.Sound := by
  cases mv with
  | connect conn =>
    obtain ⟨hi,rfl⟩ := connect_cases hs
    exact h.connect hi conn
  | disconnect conn it =>
    obtain ⟨-,rfl⟩ := disconnect_cases hs
    exact h.disconnect conn it
  | request conn req it uuid =>
    obtain ⟨hi,hs⟩ := request_idle hs
    exact h.request hi hs
  | round => exact h.round hset hs
  | swap i => exact h.swap hs
  | front i => exact h.front hs
  | find i => exact h.find hs
  | choose i => exact h.choose hs
  | callback i => exact h.callback hs
  | autoAck i => exact h.autoAck hs

end Sound

instance (s : Threads) : ∀ mv, Decidable (s.Settled mv)
  | .round =>
    match h : s.handling with
    | .closing (c::_) =>
      decidable_of_iff (c.self ∉ s.bound ∧ ∀ e ∈ s.broker.consumers.entries,
          ∀ cp ∈ e.2.consumers, cp.callback = c.self → c.Remembers e.1 cp.consumerTag) <| by
        simp only [Settled,h]
        refine and_congr_right fun _ => ⟨fun h q cp hq => ?_,fun h e he cp hcp => ?_⟩
        · obtain ⟨qcp,hl,hcp⟩ := hq
          exact h ⟨q,qcp⟩ (AList.mem_lookup_iff.mp hl) cp hcp
        · exact h e.1 cp ⟨e.2,AList.mem_lookup_iff.mpr he,hcp⟩
    | .closing [] => .isTrue (by simp only [Settled,h])
    | .idle => .isTrue (by simp only [Settled,h])
    | .publishing _ => .isTrue (by simp only [Settled,h])
  | .connect _ | .disconnect .. | .request .. | .swap _ | .front _ | .find _ | .choose _
  | .callback _ | .autoAck _ => .isTrue trivial

end Threads

section Reachable
variable {basedir : String} {it : Iteration} {disk : Disk} {db : Database} {b₀ : Broker}
  {moves : List Move} {s : Threads}

/-- In a run in which no channel is destroyed before its time, no worker is about to execute a
member function of a destroyed channel, whatever step comes next. -/
theorem no_call_into_destroyed (start : Broker.construct basedir it disk db = some b₀)
    (run : (Threads.system.guarded Threads.Settled).Run (.start b₀) moves s) :
    ∀ mv, ∀ r ∈ s.executes mv, r ∉ s.destroyed := by
  have hsound : s.Sound := run.invariant (Threads.Sound.start start) fun h hs => h.step hs.1 hs.2
  exact fun mv r hr => hsound.tasks r (Threads.executes_bound hr)

/-- A message is published, and a worker deals with it before the channel closes. -/
def settledMoves : List Move :=
  [.connect 1,.request 1 (.openChannel "r1" "c1") .listed fun _ => "u1",
    .request 1 (.declareExchange "r2" "c1" "trade" .fanout true false ∅) .listed fun _ => "u2",
    .request 1 (.declareQueue "r3" "c1" "orders" false true false ∅) .listed fun _ => "u3",
    .request 1 (.queueBind "r4" "c1" "trade" "orders" "") .listed fun _ => "u4",
    .request 1 (.basicConsume "r5" "c1" "t1" "orders" true) .listed fun _ => "u5",
    .request 1 (.basicPublish "r6" "c1" "trade" "hello" none) .listed fun _ => "u6",
    .round,.round,.round,.swap 0,.front 0,.find 0,.choose 0,.callback 0,.autoAck 0,
    .request 1 (.closeChannel "r7" "c1") .listed fun _ => "u7",.round,.round]

theorem no_call_into_destroyed_settled :
    ∃ b₀ s, Broker.construct "/data" .listed blankDisk {} = some b₀ ∧
      Threads.system.Run (.start b₀) settledMoves s ∧ s.destroyed = [⟨0,"c1",1⟩] ∧
      ∀ mv, ∀ r ∈ s.executes mv, r ∉ s.destroyed := by
  have hall : ((Broker.construct "/data" .listed blankDisk {}).bind fun b =>
      settledMoves.foldlM (fun s mv => if s.Settled mv then s.step mv else none)
        (Threads.start b)).any (fun s => decide (s.destroyed = [⟨0,"c1",1⟩])) = true := by
    decide +kernel
  obtain ⟨b₀,s,start,guarded,hgone⟩ := Lts.Run.of_any_guarded hall
  rw [decide_eq_true_eq] at hgone
  have run : Threads.system.Run (.start b₀) settledMoves s := guarded.mono fun h => h.2
  exact ⟨b₀,s,start,run,hgone,no_call_into_destroyed start guarded⟩

/-- A message is published, and the channel closes at once. -/
def hastyMoves : List Move :=
  [.connect 1,.request 1 (.openChannel "r1" "c1") .listed fun _ => "u1",
    .request 1 (.declareExchange "r2" "c1" "trade" .fanout true false ∅) .listed fun _ => "u2",
    .request 1 (.declareQueue "r3" "c1" "orders" false true false ∅) .listed fun _ => "u3",
    .request 1 (.queueBind "r4" "c1" "trade" "orders" "") .listed fun _ => "u4",
    .request 1 (.basicPublish "r5" "c1" "trade" "hello" none) .listed fun _ => "u5",
    .round,.round,.round,.request 1 (.closeChannel "r6" "c1") .listed fun _ => "u6",.round,
    .swap 0]

/-- The worker executes the task on the channel that is gone. -/
theorem task_outlives_channel :
    ∃ b₀ s, Broker.construct "/data" .listed blankDisk {} = some b₀ ∧
      Threads.system.Run (.start b₀) hastyMoves s ∧ (s.step (.front 0)).isSome ∧
      ∃ r ∈ s.executes (.front 0), r ∈ s.destroyed := by
  have hall : ((Broker.construct "/data" .listed blankDisk {}).bind fun b =>
      hastyMoves.foldlM Threads.step (Threads.start b)).any (fun s : Threads =>
        (s.step (.front 0)).isSome && decide (∃ r ∈ s.executes (.front 0), r ∈ s.destroyed)) =
      true := by
    decide +kernel
  obtain ⟨b₀,s,start,run,hcall⟩ := Lts.Run.of_any hall
  rw [Bool.and_eq_true,decide_eq_true_eq] at hcall
  exact ⟨b₀,s,start,run,hcall⟩

end Reachable
end MessageQueue

import MessageQueue.Broker.Evictions
import MessageQueue.Broker.Publish

/-! What the reply to a publication stands for. The handler drops what the queues answer, and
replies true when the exchange exists. -/
namespace MessageQueue
open Base Base.Bytes

namespace Disk
variable {d e : Disk} {name : String}

/-- Writes of these lengths, one after the other, are answered with true. -/
def Lets (d : Disk) (lengths : List ℕ) : Prop :=
  ∀ x ∈ d.plan.outcomes.zip lengths, x.1.answers d.direct x.2 = true

instance (d : Disk) (lengths : List ℕ) : Decidable (d.Lets lengths) :=
  inferInstanceAs (Decidable (∀ x ∈ _, _))

theorem lets_nil : d.Lets [] := by simp [Lets]

theorem lets_one (hr : d.plan.Reaches name) (n : ℕ) :
    d.Lets [n] ↔ (d.next [name]).1.answers d.direct n = true := by
  have hnames : ∀ x ∈ [name], d.plan.Reaches x := by simpa using hr
  unfold Lets next
  rw [if_pos hnames]
  cases d.plan.outcomes with
  | nil => simp [Outcome.answers]
  | cons o rest => cases o <;> simp

/-- Only the stop of the process is not used up. -/
theorem next_outcomes {n : ℕ} (hr : d.plan.Reaches name)
    (h : (d.next [name]).1.answers d.direct n = true) :
    (d.next [name]).2.plan.outcomes = d.plan.outcomes.drop 1 := by
  have hnames : ∀ x ∈ [name], d.plan.Reaches x := by simpa using hr
  unfold next at h ⊢
  rw [if_pos hnames] at h ⊢
  cases ho : d.plan.outcomes with
  | nil => simp [ho]
  | cons o rest => cases o <;> simp_all [Outcome.answers]

/-- Writes that are answered are followed by the rest of what is planned. -/
theorem lets_append {ls : List ℕ} (ho : e.plan.outcomes = d.plan.outcomes.drop ls.length)
    (hd : e.direct = d.direct) (ms : List ℕ) : d.Lets (ls ++ ms) ↔ d.Lets ls ∧ e.Lets ms := by
  have hzip : ∀ (os : List Outcome) (ls : List ℕ), os.zip (ls ++ ms) =
      os.zip ls ++ (os.drop ls.length).zip ms := by
    intro os ls
    induction ls generalizing os with
    | nil => simp
    | cons l ls ih => cases os <;> simp [ih]
  unfold Lets
  rw [hzip,ho,hd]
  simp only [List.mem_append]
  exact ⟨fun hall => ⟨fun o ho => hall o (.inl ho),fun o ho => hall o (.inr ho)⟩,
    fun hall o ho => ho.elim (hall.1 o) (hall.2 o)⟩

theorem isSome_file : (d.file name).isSome ↔
    d.plan.Reaches name ∧ (d.files (resolve name)).isSome := by
  unfold file
  split_ifs with hr <;> simp [hr]

end Disk

/-- What an operation that writes needs of the disk, and how it leaves it. -/
structure Writes (d e : Disk) (ok : Bool) (name : String) (lengths : List ℕ) : Prop where
  succeeds : ok = true ↔ (d.file name).isSome ∧ d.Lets lengths
  files : ∀ n, (e.file n).isSome = (d.file n).isSome
  direct : e.direct = d.direct
  outcomes : ok = true → e.plan.outcomes = d.plan.outcomes.drop lengths.length

theorem FileHelper.write_writes (d : Disk) (name : String) (body : Bytes) (offset : ℕ) :
    Writes d (write d name body offset).2 (write d name body offset).1 name [body.length] := by
  have hf : (d.next [name]).2.files = d.files := d.next_files
  have hdirs : (d.next [name]).2.plan.dirs = d.plan.dirs := d.next_dirs
  have hdirect : (d.next [name]).2.direct = d.direct := d.next_direct
  have hone := fun (hr : d.plan.Reaches name) => Disk.lets_one hr body.length
  have hdrop := fun (hr : d.plan.Reaches name) => Disk.next_outcomes (n := body.length) hr
  have hnone := fun o (ho : d.next [name] = (o,(d.next [name]).2)) => Disk.next_reaches ho
  unfold write
  generalize d.next [name] = r at hf hdirs hdirect hone hdrop hnone ⊢
  obtain ⟨o,e⟩ := r
  simp only at hf hdirs hdirect hone hdrop hnone ⊢
  have hreach : ∀ n, e.plan.Reaches n ↔ d.plan.Reaches n := by
    intro n
    unfold Plan.Reaches
    rw [hdirs]
  rw [hf]
  cases hfile : d.files (resolve name) with
  | none =>
    refine ⟨?_,fun n => ?_,hdirect,fun h => by simp at h⟩
    · simp [Disk.isSome_file,hfile]
    · rw [Bool.eq_iff_iff,Disk.isSome_file,Disk.isSome_file,hreach,hf]
  | some f =>
    refine ⟨?_,fun n => ?_,hdirect,fun h => ?_⟩
    · rw [Disk.isSome_file,hfile,hdirect]
      constructor
      · intro hans
        have hr := hnone o rfl (fun hbad => by simp [hbad,Outcome.answers] at hans) name (by simp)
        exact ⟨⟨hr,rfl⟩,(hone hr).mpr hans⟩
      · exact fun h => (hone h.1.1).mp h.2
    · rw [Bool.eq_iff_iff,Disk.isSome_file,Disk.isSome_file]
      refine and_congr (hreach n) ?_
      by_cases hn : resolve n = resolve name
      · simp [hn,hfile]
      · rw [Disk.put_ne hn,hf]
    · rw [hdirect] at h
      have hr := hnone o rfl (fun hbad => by simp [hbad,Outcome.answers] at h) name (by simp)
      exact hdrop hr h

/-- The second of two writes comes if the first has been answered with true. -/
theorem Writes.seq {d e e' : Disk} {ok : Bool} {name : String} {ls ms : List ℕ}
    (h : Writes d e true name ls) (h' : Writes e e' ok name ms) :
    Writes d e' ok name (ls ++ ms) := by
  have hplan := h.outcomes rfl
  obtain ⟨hf,hl⟩ := h.succeeds.mp rfl
  refine ⟨?_,fun n => (h'.files n).trans (h.files n),h'.direct.trans h.direct,fun hok => ?_⟩
  · rw [h'.succeeds,Disk.lets_append hplan h.direct,h.files]
    simp [hl]
  · rw [h'.outcomes hok,hplan,List.drop_drop,List.length_append]

theorem Writes.stop {d e : Disk} {name : String} {ls : List ℕ} (h : Writes d e false name ls)
    (ms : List ℕ) : Writes d e false name (ls ++ ms) := by
  refine ⟨iff_of_false (by simp) fun hall => ?_,h.files,h.direct,fun hok => by simp at hok⟩
  have hls : d.Lets ls := ((Disk.lets_append
    (e := {d with plan.outcomes := d.plan.outcomes.drop ls.length}) rfl rfl ms).mp hall.2).1
  exact absurd (h.succeeds.mpr ⟨hall.1,hls⟩) (by simp)

/-- A record gets on file in two writes. -/
theorem MessageMapper.insert_writes (d : Disk) (filename : String) (message : Message) :
    Writes d (insert d filename message).2.2 (insert d filename message).1 filename
      [8,message.payload.serializeAsString.length] := by
  unfold insert
  simp only
  have h := FileHelper.write_writes d filename
    (leBytes 8 message.payload.serializeAsString.length) (FileHelper.size d filename)
  rw [leBytes_length] at h
  generalize FileHelper.write d filename _ _ = r at h
  obtain ⟨ok,e⟩ := r
  cases ok with
  | false => exact h.stop [message.payload.serializeAsString.length]
  | true =>
    have h' := FileHelper.write_writes e filename message.payload.serializeAsString
      (FileHelper.size d filename+8)
    simp only
    generalize FileHelper.write e filename _ _ = r at h'
    obtain ⟨ok,e'⟩ := r
    cases ok <;> exact h.seq h'

/-- The lengths of the writes that put a message on file: its length and its payload, if it is to
be stored at all. -/
def QueueMessage.writes (bp : Option BasicProperties) (body : String) (durable : Bool)
    (uuid : String) : List ℕ :=
  if durable = true ∧ ∀ p ∈ bp, p.deliveryMode = .durable then
    [8,(insertedPayload bp body durable uuid).serializeAsString.length]
  else []

/-- A queue takes any message that it does not persist. -/
theorem QueueMessage.insert_writes (q : QueueMessage) (d : Disk) (bp : Option BasicProperties)
    (body : String) (durable : Bool) (uuid : String) :
    let r := q.insert d bp body durable uuid
    r.2.1.mapper = q.mapper ∧
      if durable = true ∧ ∀ p ∈ bp, p.deliveryMode = .durable then
        Writes d r.2.2 r.1 q.mapper.nameDataFile (writes bp body durable uuid)
      else r.1 = true ∧ r.2.2 = d := by
  simp only [insert,writes,← newMessage_durable bp body durable uuid]
  split_ifs with hmode
  · have h := MessageMapper.insert_writes d q.mapper.nameDataFile
      {newMessage bp body durable uuid with payload :=
        {(newMessage bp body durable uuid).payload with valid := "1"}}
    simp only [MessageMapper.insertDataFile,insertedPayload,if_pos hmode] at h ⊢
    generalize MessageMapper.insert d q.mapper.nameDataFile _ = r at h
    obtain ⟨ok,m,e⟩ := r
    cases ok <;> exact ⟨rfl,h⟩
  · exact ⟨rfl,rfl,rfl⟩

namespace VirtualHost
variable {h : VirtualHost} {bp : Option BasicProperties} {body q : String}
  {uuid : String → String}

/-- The lengths of the writes with which the queue puts the message on file. -/
def writes (h : VirtualHost) (bp : Option BasicProperties) (body : String)
    (uuid : String → String) (q : String) : List ℕ :=
  (h.queues.lookup q).elim [] fun mqp => QueueMessage.writes bp body mqp.durable (uuid q)

/-- The queue is registered and has a message handle, and the data file if the message is to be
put on file. -/
def Takes (h : VirtualHost) (bp : Option BasicProperties) (body : String)
    (uuid : String → String) (q : String) : Prop :=
  (h.queues.lookup q).isSome ∧ ∃ x, h.messages.queueMsgs.lookup q = some x ∧
    (h.writes bp body uuid q ≠ [] → (h.disk.file x.store.mapper.nameDataFile).isSome)

/-- Each of the queues can take the message, and their writes will be answered with true. -/
def Accepting (h : VirtualHost) (bp : Option BasicProperties) (body : String)
    (uuid : String → String) (qs : List String) : Prop :=
  (∀ q ∈ qs, h.Takes bp body uuid q) ∧ h.disk.Lets (qs.flatMap (h.writes bp body uuid))

/-- What each round of the loop answers, and what the rounds leave. -/
def publishRounds (type : ExchangeType) (routingKey : String) (bp : Option BasicProperties)
    (body : String) (uuid : String → String) :
    List (Sigma fun _ : String => Binding) → VirtualHost → List (String × Bool) × VirtualHost
  | [],h => ([],h)
  | ⟨qname,binding⟩::rest,h =>
    if RouteManager.route type routingKey binding.bindingKey = some true then
      let r := h.basicPublish qname bp body (uuid qname)
      let rs := publishRounds type routingKey bp body uuid rest r.2
      ((qname,r.1)::rs.1,rs.2)
    else publishRounds type routingKey bp body uuid rest h

/-- One round. The queue accepts the message if it takes it and its writes are answered. -/
structure Round (h h' : VirtualHost) (bp : Option BasicProperties) (body : String)
    (uuid : String → String) (q : String) (ok : Bool) : Prop where
  accepts : ok = true ↔ h.Takes bp body uuid q ∧ h.disk.Lets (h.writes bp body uuid q)
  queues : h'.queues = h.queues
  others : ∀ n, n ≠ q → h'.messages.queueMsgs.lookup n = h.messages.queueMsgs.lookup n
  files : ∀ n, (h'.disk.file n).isSome = (h.disk.file n).isSome
  direct : h'.disk.direct = h.disk.direct
  outcomes : ok = true → h'.disk.plan.outcomes =
    h.disk.plan.outcomes.drop (h.writes bp body uuid q).length

theorem round (h : VirtualHost) (bp : Option BasicProperties) (body q : String)
    (uuid : String → String) : h.Round (h.basicPublish q bp body (uuid q)).2 bp body uuid q
      (h.basicPublish q bp body (uuid q)).1 := by
  unfold basicPublish
  cases hq : h.queues.lookup q with
  | none =>
    simp only [QueueManager.selectQueue,hq]
    exact ⟨by simp [Takes,hq],rfl,fun _ _ => rfl,fun _ => rfl,rfl,fun h => by simp at h⟩
  | some mqp =>
    simp only [QueueManager.selectQueue,hq,MessageManager.insert]
    cases hx : h.messages.queueMsgs.lookup q with
    | none =>
      exact ⟨by simp [Takes,hx],rfl,fun _ _ => rfl,fun _ => rfl,rfl,fun h => by simp at h⟩
    | some x =>
      have hw := (x.store.insert_writes h.disk bp body mqp.durable (uuid q)).2
      have hwrites : h.writes bp body uuid q =
          QueueMessage.writes bp body mqp.durable (uuid q) := by simp [writes,hq]
      split_ifs at hw with hd
      · have hne : h.writes bp body uuid q ≠ [] := by
          rw [hwrites,QueueMessage.writes,if_pos hd]
          simp
        refine ⟨?_,rfl,fun n hn => AList.lookup_insert_ne hn,hw.files,hw.direct,fun hok => ?_⟩
        · rw [hwrites,hw.succeeds]
          simp [Takes,hq,hx,hne]
        · rw [hwrites]
          exact hw.outcomes hok
      · have hnil : h.writes bp body uuid q = [] := by
          rw [hwrites,QueueMessage.writes,if_neg hd]
        refine ⟨iff_of_true hw.1 ?_,rfl,fun n hn => AList.lookup_insert_ne hn,fun n => ?_,?_,
          fun _ => ?_⟩
        · rw [hnil]
          simp [Takes,hq,hx,hnil,Disk.lets_nil]
        · simp only [hw.2]
        · simp only [hw.2]
        · simp only [hw.2,hnil,List.length_nil,List.drop_zero]

/-- A round leaves it to the other queues whether they take the message. -/
theorem Round.takes {h h' : VirtualHost} {ok : Bool} (hr : h.Round h' bp body uuid q ok)
    {n : String} (hn : n ≠ q) : h'.Takes bp body uuid n ↔ h.Takes bp body uuid n := by
  simp only [Takes,writes,hr.queues,hr.others n hn,hr.files]

theorem Round.accepting {h h' : VirtualHost} (hr : h.Round h' bp body uuid q true)
    {qs : List String} (hn : q ∉ qs) :
    h.Accepting bp body uuid (q::qs) ↔ h'.Accepting bp body uuid qs := by
  obtain ⟨htakes,hlets⟩ := hr.accepts.mp rfl
  have hw : h'.writes bp body uuid = h.writes bp body uuid := by
    unfold writes
    rw [hr.queues]
  unfold Accepting
  rw [List.flatMap_cons,Disk.lets_append (hr.outcomes rfl) hr.direct,hw,List.forall_mem_cons]
  have hothers : (∀ n ∈ qs, h'.Takes bp body uuid n) ↔ ∀ n ∈ qs, h.Takes bp body uuid n :=
    forall₂_congr fun n hm => hr.takes fun e => hn (e ▸ hm)
  rw [hothers]
  exact ⟨fun hall => ⟨hall.1.2,hall.2.2⟩,fun hall => ⟨⟨htakes,hall.1⟩,hlets,hall.2⟩⟩

theorem Round.refused {h h' : VirtualHost} (hr : h.Round h' bp body uuid q false)
    (qs : List String) : ¬ h.Accepting bp body uuid (q::qs) := by
  intro hall
  have hlets := hall.2
  rw [List.flatMap_cons,Disk.lets_append
    (e := {h.disk with plan.outcomes := h.disk.plan.outcomes.drop (h.writes bp body uuid q).length})
    rfl rfl] at hlets
  exact absurd (hr.accepts.mpr ⟨hall.1 q List.mem_cons_self,hlets.1⟩) (by simp)

section Rounds
variable (type : ExchangeType) (routingKey : String) (bp : Option BasicProperties) (body : String)
  (uuid : String → String)

theorem map_publishRounds (bs : List (Sigma fun _ : String => Binding)) (h : VirtualHost) :
    (publishRounds type routingKey bp body uuid bs h).1.map Prod.fst =
      reached type routingKey bs := by
  induction bs generalizing h with
  | nil => rfl
  | cons e bs ih =>
    obtain ⟨q,binding⟩ := e
    unfold publishRounds
    split_ifs with hroute
    · rw [List.map_cons,ih]
      simp [reached,hroute]
    · rw [ih]
      simp [reached,hroute]

theorem publishRounds_accept (bs : List (Sigma fun _ : String => Binding))
    (hnodup : (bs.map Sigma.fst).Nodup) (h : VirtualHost) :
    (∀ r ∈ (publishRounds type routingKey bp body uuid bs h).1, r.2 = true) ↔
      h.Accepting bp body uuid (reached type routingKey bs) := by
  induction bs generalizing h with
  | nil => simp [publishRounds,reached,Accepting,Disk.lets_nil]
  | cons e bs ih =>
    obtain ⟨q,binding⟩ := e
    obtain ⟨hq,hnodup⟩ := List.nodup_cons.mp hnodup
    unfold publishRounds
    split_ifs with hroute
    · have hr : reached type routingKey (⟨q,binding⟩::bs) = q :: reached type routingKey bs := by
        simp [reached,hroute]
      have hout : q ∉ reached type routingKey bs := fun hm =>
        hq ((List.filter_sublist.map Sigma.fst).subset hm)
      have hround := h.round bp body q uuid
      rw [hr]
      simp only [List.forall_mem_cons]
      generalize h.basicPublish q bp body (uuid q) = r at hround
      obtain ⟨ok,h'⟩ := r
      cases ok with
      | true => simpa [hround.accepting hout] using ih hnodup h'
      | false => exact iff_of_false (by simp) (hround.refused _)
    · have hr : reached type routingKey (⟨q,binding⟩::bs) = reached type routingKey bs := by
        simp [reached,hroute]
      rw [hr]
      exact ih hnodup h

/-- All the queues that are reached accept the message exactly if they are able to. -/
theorem reached_accept (bs : List (Sigma fun _ : String => Binding))
    (hnodup : (bs.map Sigma.fst).Nodup) (h : VirtualHost) :
    (∀ q ∈ reached type routingKey bs,
      (q,true) ∈ (publishRounds type routingKey bp body uuid bs h).1) ↔
      h.Accepting bp body uuid (reached type routingKey bs) := by
  rw [← publishRounds_accept type routingKey bp body uuid bs hnodup h]
  have hmap := map_publishRounds type routingKey bp body uuid bs h
  have hone : ((publishRounds type routingKey bp body uuid bs h).1.map Prod.fst).Nodup := by
    rw [hmap]
    exact hnodup.sublist (List.filter_sublist.map Sigma.fst)
  rw [← hmap]
  constructor
  · intro hall r hr
    have htrue := hall r.1 (List.mem_map_of_mem hr)
    exact congrArg Prod.snd (List.inj_on_of_nodup_map hone hr htrue rfl)
  · intro hall q hq
    obtain ⟨r,hr,rfl⟩ := List.mem_map.mp hq
    have htrue := hall r hr
    rw [← htrue]
    exact hr

end Rounds
end VirtualHost

/-- What the loop leaves is what its rounds leave. -/
theorem Channel.publishLoop_rounds {c : ChannelRef} {type : ExchangeType} {routingKey : String}
    {bp : Option BasicProperties} {body : String} {uuid : String → String}
    {bs : List (Sigma fun _ : String => Binding)} {b b' : Broker}
    (hloop : publishLoop c type routingKey bp body uuid bs b = some b') :
    b'.host = (VirtualHost.publishRounds type routingKey bp body uuid bs b.host).2 := by
  induction bs generalizing b with
  | nil => cases hloop; rfl
  | cons e bs ih =>
    obtain ⟨q,binding⟩ := e
    rw [publishLoop] at hloop
    unfold VirtualHost.publishRounds
    cases hroute : RouteManager.route type routingKey binding.bindingKey with
    | none => simp [hroute] at hloop
    | some r =>
      cases r with
      | false =>
        simp only [hroute] at hloop
        exact ih hloop
      | true =>
        simp only [hroute] at hloop
        exact ih hloop

namespace Broker
variable {b : Broker} {conn : ℕ} {c : Channel} {rid cid ename body : String}
  {bp : Option BasicProperties} {it : Iteration} {uuid : String → String}
  {x : Broker × Option Response}

/-- The rounds that a publication to the exchange goes through. -/
def rounds (b : Broker) (ename : String) (ep : Exchange) (bp : Option BasicProperties)
    (body : String) (it : Iteration) (uuid : String → String) : List (String × Bool) × VirtualHost :=
  b.host.publishRounds ep.type (bp.elim "" BasicProperties.routingKey) bp body uuid
    (it.order (b.host.exchangeBindings ename).entries)

/-- The queues of its rounds. -/
def matched (b : Broker) (ename : String) (ep : Exchange) (bp : Option BasicProperties)
    (it : Iteration) : List String :=
  reached ep.type (bp.elim "" BasicProperties.routingKey)
    (it.order (b.host.exchangeBindings ename).entries)

/-- They are those that are bound with a key that matches. -/
theorem mem_matched {ep : Exchange} {q : String} :
    q ∈ b.matched ename ep bp it ↔ Matches b.host ename ep.type bp q := by
  have hperm := it.perm (b.host.exchangeBindings ename).entries
  have hmem := @VirtualHost.mem_exchangeBindings b.host ename
  simp only [matched,reached,List.mem_map,List.mem_filter,decide_eq_true_eq]
  constructor
  · rintro ⟨⟨n,binding⟩,⟨hm,hr⟩,rfl⟩
    exact ⟨binding,hmem.mp (hperm.mem_iff.mp hm),hr⟩
  · rintro ⟨binding,hb,hr⟩
    exact ⟨⟨q,binding⟩,⟨hperm.mem_iff.mpr (hmem.mpr hb),hr⟩,rfl⟩

/-- What the reply to a publication says is so. -/
structure PublicationTold (b : Broker) (rid cid ename : String) (bp : Option BasicProperties)
    (body : String) (it : Iteration) (uuid : String → String) (x : Broker × Option Response) :
    Prop where
  accepted : x.2 = some (.common rid cid true) → ∃ ep, b.host.selectExchange ename = some ep ∧
    ∀ q, Matches b.host ename ep.type bp q → (q,true) ∈ (b.rounds ename ep bp body it uuid).1
  refused : ∀ ep, b.host.selectExchange ename = some ep →
    (∃ q, Matches b.host ename ep.type bp q ∧
      (q,true) ∉ (b.rounds ename ep bp body it uuid).1) → x.2 = some (.common rid cid false)

/-- The handler ends with the state that the rounds leave, whatever they answered, and replies
true. -/
theorem handle_basicPublish {ep : Exchange} (hchan : b.channelAt conn cid = some c)
    (hexch : b.host.selectExchange ename = some ep)
    (hx : b.handle conn (.basicPublish rid cid ename body bp) it uuid = some x) :
    x.1.host = (b.rounds ename ep bp body it uuid).2 ∧ x.2 = some (.common rid cid true) := by
  rw [handle_channel id] at hx
  simp only [Request.cid,hchan,Channel.serve,Channel.basicPublish_eq hexch] at hx
  obtain ⟨r,hr,rfl⟩ := Option.map_eq_some_iff.mp hx
  obtain ⟨b',hloop,rfl⟩ := Option.map_eq_some_iff.mp hr
  exact ⟨Channel.publishLoop_rounds hloop,rfl⟩

theorem handle_noExchange (hchan : b.channelAt conn cid = some c)
    (hexch : b.host.selectExchange ename = none)
    (hx : b.handle conn (.basicPublish rid cid ename body bp) it uuid = some x) :
    x.2 = some (.common rid cid false) := by
  rw [handle_channel id] at hx
  simp only [Request.cid,hchan,Channel.serve,Channel.basicPublish,hexch] at hx
  cases hx
  rfl

/-- The reply to a publication tells what became of it exactly if the queues that match are able to
take the message, and all their writes are answered with true. -/
theorem publication_told_iff (hchan : b.channelAt conn cid = some c)
    (hx : b.handle conn (.basicPublish rid cid ename body bp) it uuid = some x) :
    (∀ ep, b.host.selectExchange ename = some ep →
      x.1.host = (b.rounds ename ep bp body it uuid).2) ∧
    (b.PublicationTold rid cid ename bp body it uuid x ↔
      ∀ ep, b.host.selectExchange ename = some ep →
        b.host.Accepting bp body uuid (b.matched ename ep bp it)) := by
  refine ⟨fun ep hexch => (handle_basicPublish hchan hexch hx).1,?_⟩
  have hnodup : ((it.order (b.host.exchangeBindings ename).entries).map Sigma.fst).Nodup :=
    ((it.perm _).map Sigma.fst).nodup_iff.mpr (b.host.exchangeBindings ename).nodupKeys
  have hall : ∀ ep, b.host.Accepting bp body uuid (b.matched ename ep bp it) ↔
      ∀ q, Matches b.host ename ep.type bp q →
        (q,true) ∈ (b.rounds ename ep bp body it uuid).1 := by
    intro ep
    rw [matched,← VirtualHost.reached_accept _ _ bp body uuid _ hnodup b.host]
    exact forall_congr' fun q => imp_congr_left mem_matched
  constructor
  · intro h ep hexch
    obtain ⟨ep',hexch',hep⟩ := h.accepted (handle_basicPublish hchan hexch hx).2
    cases hexch.symm.trans hexch'
    exact (hall ep).mpr hep
  · intro h
    cases hexch : b.host.selectExchange ename with
    | none =>
      refine ⟨fun htrue => ?_,fun ep hep => ?_⟩
      · rw [handle_noExchange hchan hexch hx] at htrue
        simp at htrue
      · rw [hexch] at hep
        cases hep
    | some ep =>
      have hep := (hall ep).mp (h ep hexch)
      refine ⟨fun _ => ⟨ep,hexch,hep⟩,fun ep' hep' => ?_⟩
      rintro ⟨q,hq,hnot⟩
      cases hexch.symm.trans hep'
      exact absurd (hep q hq) hnot

/-- A publication to a queue that stores it. -/
theorem publication_told_trade : ∃ b c x, (construct "/data" .listed blankDisk {}).bind
      (tradeSetup.foldlM step) = some b ∧ b.channelAt 1 "c1" = some c ∧
    b.handle 1 (.basicPublish "r5" "c1" "trade" "ten" (some ⟨"m1",.durable,"order.new"⟩)) .listed
      (fun _ => "") = some x ∧
    (b.PublicationTold "r5" "c1" "trade" (some ⟨"m1",.durable,"order.new"⟩) "ten" .listed
        (fun _ => "") x ↔
      ∀ ep, b.host.selectExchange "trade" = some ep → b.host.Accepting
        (some ⟨"m1",.durable,"order.new"⟩) "ten" (fun _ => "")
        (b.matched "trade" ep (some ⟨"m1",.durable,"order.new"⟩) .listed)) := by
  have hall : ((construct "/data" .listed blankDisk {}).bind (tradeSetup.foldlM step)).any
      (fun b : Broker => (b.channelAt 1 "c1").isSome &&
        (b.handle 1 (.basicPublish "r5" "c1" "trade" "ten" (some ⟨"m1",.durable,"order.new"⟩))
          .listed fun _ => "").isSome) = true := by
    decide +kernel
  simp only [Option.any_eq_true,Bool.and_eq_true] at hall
  obtain ⟨b,hb,hc,hx⟩ := hall
  obtain ⟨c,hc⟩ := Option.isSome_iff_exists.mp hc
  obtain ⟨x,hx⟩ := Option.isSome_iff_exists.mp hx
  exact ⟨b,c,x,hb,hc,hx,(publication_told_iff hc hx).2⟩

/-- The declaration of the queue takes four operations on files, and the first of the publication
cannot open the data file. -/
def exhaustedDisk : Disk :=
  {blankDisk with plan := {outcomes := [.done,.done,.done,.done,.fails none]}}

theorem lost_told_true : ¬ ∀ (basedir : String) (it₀ : Iteration) (disk : Disk) (db : Database)
    (b₀ b : Broker) (evs : List Event) (conn : ℕ) (rid cid ename body : String)
    (bp : Option BasicProperties) (it : Iteration) (uuid : String → String)
    (x : Broker × Option Response),
    construct basedir it₀ disk db = some b₀ → system.Run b₀ evs b →
      (b.channelAt conn cid).isSome →
        b.handle conn (.basicPublish rid cid ename body bp) it uuid = some x →
          b.PublicationTold rid cid ename bp body it uuid x := by
  intro h
  let bp : Option BasicProperties := some ⟨"m1",.durable,"order.new"⟩
  have hall : ((construct "/data" .listed exhaustedDisk {}).bind (tradeSetup.foldlM step)).any
      (fun b : Broker => (b.channelAt 1 "c1").isSome &&
        ((b.handle 1 (.basicPublish "r5" "c1" "trade" "ten" bp) .listed fun _ => "").isSome &&
        (b.host.selectExchange "trade").any fun ep =>
          decide ("orders" ∈ b.matched "trade" ep bp .listed ∧
            ("orders",true) ∉ (b.rounds "trade" ep bp "ten" .listed fun _ => "").1))) = true := by
    decide +kernel
  obtain ⟨b₀,b,start,run,hb⟩ := Lts.Run.of_any hall
  simp only [Bool.and_eq_true,Option.any_eq_true,decide_eq_true_eq] at hb
  obtain ⟨hc,hx,ep,hexch,hq,hnot⟩ := hb
  obtain ⟨x,hx⟩ := Option.isSome_iff_exists.mp hx
  obtain ⟨c,hchan⟩ := Option.isSome_iff_exists.mp hc
  have htold := h _ _ _ _ b₀ b _ 1 "r5" "c1" "trade" "ten" bp .listed _ x start run hc hx
  have hfalse := htold.refused ep hexch ⟨"orders",mem_matched.mp hq,hnot⟩
  rw [(handle_basicPublish hchan hexch hx).2] at hfalse
  simp at hfalse

end Broker
end MessageQueue

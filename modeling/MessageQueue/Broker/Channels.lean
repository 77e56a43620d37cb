import MessageQueue.Broker.Handlers

/-! The channels of the broker's connections: which of them exist after a request, and that a
request which reaches its channel is answered once, under its own ids. -/
namespace MessageQueue
open Base

namespace Broker

/-- A channel is registered under its own id and on its own connection. -/
def Named (b : Broker) : Prop :=
  ∀ conn channels cid c, b.connections.lookup conn = some channels →
    channels.lookup cid = some c → c.self.id = cid ∧ c.self.connection = conn

def hasChannel (b : Broker) (conn : ℕ) (cid : String) : Bool :=
  ((b.connections.lookup conn).bind fun channels => channels.lookup cid).isSome

end Broker

namespace Request

/-- The channels there are after a request, given those before. -/
def opens (req : Request) (has : String → Bool) (cid : String) : Bool :=
  match req with
  | .openChannel _ c => decide (cid = c) || has cid
  | .closeChannel _ c => decide (cid ≠ c) && has cid
  | _ => has cid

/-- The connection answers these two by itself. -/
def ForConnection : Request → Prop
  | .openChannel .. => True
  | .closeChannel .. => True
  | _ => False

/-- What is not for the connection is for a channel. -/
theorem not_forConnection {req : Request}
    (hopen : ∀ rid cid, req = .openChannel rid cid → False)
    (hclose : ∀ rid cid, req = .closeChannel rid cid → False) : ¬ req.ForConnection := by
  cases req with
  | openChannel rid cid => exact absurd rfl (hopen rid cid)
  | closeChannel rid cid => exact absurd rfl (hclose rid cid)
  | _ => exact id

theorem opens_eq {req : Request} (h : ¬ req.ForConnection) (has : String → Bool) :
    req.opens has = has := by
  cases req with
  | openChannel => exact absurd trivial h
  | closeChannel => exact absurd trivial h
  | _ => rfl

end Request

namespace Channel
variable {c : Channel} {b : Broker} {it : Iteration} {uuid : String → String} {req : Request}
  {r : Broker × Response}

/-- Every handler answers, and only a subscription writes to the channels. -/
theorem serve_reply (h : c.serve b it uuid req = some r) :
    (∃ ok, r.2 = .common req.rid req.cid ok) ∧
      (r.1.connections = b.connections ∨
        ∃ c', c'.self = c.self ∧ r.1.connections = (b.setChannel c').connections) := by
  cases req with
  | basicPublish rid cid ename body bp =>
    have hc : r.1.connections = b.connections := by
      rcases basicPublish_cases h with h | ⟨type,key,bs,h⟩
      · rw [h]
      · exact publishLoop_invariant (P := fun b' => b'.connections = b.connections)
          (fun _ _ same => same) h rfl
    refine ⟨?_,.inl hc⟩
    simp only [serve,basicPublish] at h
    split at h
    · cases h; exact ⟨_,rfl⟩
    · obtain ⟨b',-,rfl⟩ := Option.map_eq_some_iff.mp h
      exact ⟨_,rfl⟩
  | declareQueue rid cid name exclusive durable autoDelete args =>
    cases h
    simp only [Channel.declareQueue]
    split <;> exact ⟨⟨_,rfl⟩,.inl rfl⟩
  | basicConsume rid cid ctag qname autoAck =>
    cases h
    simp only [Channel.basicConsume]
    split
    · exact ⟨⟨_,rfl⟩,.inl rfl⟩
    · exact ⟨⟨_,rfl⟩,.inr ⟨{c with
        consumer := (b.consumers.createConsumer ctag qname autoAck c.self).1},rfl,rfl⟩⟩
  | openChannel => cases h
  | closeChannel => cases h
  | declareExchange => cases h; exact ⟨⟨_,rfl⟩,.inl rfl⟩
  | deleteExchange => cases h; exact ⟨⟨_,rfl⟩,.inl rfl⟩
  | deleteQueue => cases h; exact ⟨⟨_,rfl⟩,.inl rfl⟩
  | queueBind => cases h; exact ⟨⟨_,rfl⟩,.inl rfl⟩
  | queueUnBind => cases h; exact ⟨⟨_,rfl⟩,.inl rfl⟩
  | basicAck => cases h; exact ⟨⟨_,rfl⟩,.inl rfl⟩
  | basicCancel => cases h; exact ⟨⟨_,rfl⟩,.inl rfl⟩

end Channel

namespace Broker
variable {b b' : Broker} {conn conn' : ℕ} {cid : String} {channels : ChannelManager}

@[simp] theorem destroyChannel_connections (c : Channel) :
    (b.destroyChannel c).connections = b.connections := by
  unfold destroyChannel
  split <;> rfl

/-- Between `b` and `b'` the channels of `conn` have become those that `has` names, and the other
connections have kept theirs. -/
structure Moved (b b' : Broker) (conn : ℕ) (has : String → Bool) : Prop where
  named : b'.Named
  others : ∀ conn', conn' ≠ conn → b'.connections.lookup conn' = b.connections.lookup conn'
  own : (b.connections.lookup conn).isSome → (b'.connections.lookup conn).isSome ∧
    ∀ cid, b'.hasChannel conn cid = has cid

theorem Named.stay (hn : b.Named) (hc : b'.connections = b.connections) :
    b.Moved b' conn (b.hasChannel conn) := by
  refine ⟨?_,fun _ _ => by rw [hc],fun hs => ⟨by rwa [hc],fun cid => by simp only [hasChannel,hc]⟩⟩
  unfold Named
  rw [hc]
  exact hn

theorem Named.replace {has : String → Bool} (hn : b.Named)
    (hc : b'.connections = b.connections.insert conn channels)
    (hch : ∀ cid c, channels.lookup cid = some c → c.self.id = cid ∧ c.self.connection = conn)
    (hhas : ∀ cid, (channels.lookup cid).isSome = has cid) : b.Moved b' conn has := by
  have hself : b'.connections.lookup conn = some channels := by rw [hc,AList.lookup_insert]
  have hne : ∀ conn', conn' ≠ conn →
      b'.connections.lookup conn' = b.connections.lookup conn' := fun conn' h => by
    rw [hc,AList.lookup_insert_ne h]
  refine ⟨?_,hne,fun _ => ⟨Option.isSome_of_eq_some hself,fun cid => by simp [hasChannel,hself,hhas]⟩⟩
  intro conn' channels' cid c hl hl'
  by_cases h : conn' = conn
  · subst h
    cases hself.symm.trans hl
    exact hch cid c hl'
  · rw [hne conn' h] at hl
    exact hn conn' channels' cid c hl hl'

theorem Named.insert {c : Channel} (hn : b.Named) (hch : b.connections.lookup conn = some channels)
    (hid : c.self.id = cid) (hconn : c.self.connection = conn) (n : String) (d : Channel)
    (hd : (channels.insert cid c).lookup n = some d) :
    d.self.id = n ∧ d.self.connection = conn := by
  rcases Table.lookup_insert_eq_some.mp hd with ⟨rfl,rfl⟩ | ⟨-,hd⟩
  · exact ⟨hid,hconn⟩
  · exact hn conn channels n d hch hd

theorem hasChannel_eq (hch : b.connections.lookup conn = some channels) (cid : String) :
    b.hasChannel conn cid = (channels.lookup cid).isSome := by
  simp [hasChannel,hch]

theorem openChannel_moved {rid : String} (hn : b.Named)
    (hch : b.connections.lookup conn = some channels) :
    b.Moved (b.openChannel conn channels rid cid).1 conn
      (Request.opens (.openChannel rid cid) (b.hasChannel conn)) := by
  unfold openChannel
  cases hl : channels.lookup cid with
  | some c =>
    have hsame : Request.opens (.openChannel rid cid) (b.hasChannel conn) = b.hasChannel conn := by
      funext n
      by_cases hnc : n = cid
      · subst hnc; simp [Request.opens,hasChannel_eq hch,hl]
      · simp [Request.opens,hnc]
    rw [hsame]
    exact hn.stay rfl
  | none =>
    refine hn.replace rfl (hn.insert hch rfl rfl) fun n => ?_
    by_cases hnc : n = cid
    · subst hnc; simp [Request.opens]
    · simp [Request.opens,hasChannel_eq hch,hnc,AList.lookup_insert_ne hnc]

theorem closeChannel_moved {rid : String} (hn : b.Named)
    (hch : b.connections.lookup conn = some channels) :
    b.Moved (b.closeChannel conn channels rid cid).1 conn
      (Request.opens (.closeChannel rid cid) (b.hasChannel conn)) := by
  have hc : (b.closeChannel conn channels rid cid).1.connections =
      b.connections.insert conn (channels.erase cid) := by
    unfold closeChannel
    split <;> simp
  refine hn.replace hc
    (fun n c hl => hn conn channels n c hch (Table.lookup_erase_eq_some.mp hl).2) fun n => ?_
  by_cases hnc : n = cid
  · subst hnc; simp [Request.opens]
  · simp [Request.opens,hasChannel_eq hch,hnc,AList.lookup_erase_ne hnc]

/-- A channel that serves a request puts back itself at most. -/
theorem serve_moved {req : Request} {it : Iteration} {uuid : String → String} {c : Channel}
    {r : Broker × Response} (hn : b.Named) (hch : b.connections.lookup conn = some channels)
    (hl : channels.lookup cid = some c) (h : c.serve b it uuid req = some r) :
    b.Moved r.1 conn (b.hasChannel conn) := by
  obtain ⟨hid,hconn⟩ := hn conn channels cid c hch hl
  rcases (Channel.serve_reply h).2 with hc | ⟨c',hself,hc⟩
  · exact hn.stay hc
  have hc : r.1.connections = b.connections.insert conn (channels.insert cid c') := by
    rw [hc]
    simp only [setChannel]
    rw [hself,hid,hconn,hch,Option.getD_some]
  refine hn.replace hc (hn.insert hch (hself ▸ hid) (hself ▸ hconn)) fun n => ?_
  rw [hasChannel_eq hch]
  by_cases hnc : n = cid
  · rw [hnc,hl]; simp
  · rw [AList.lookup_insert_ne hnc]

/-- What a request on `conn` does to the channels: to its own connection as its kind says, and to
the others nothing. -/
theorem handle_channels {req : Request} {it : Iteration} {uuid : String → String}
    {r : Broker × Option Response} (hn : b.Named) (h : b.handle conn req it uuid = some r) :
    b.Moved r.1 conn (req.opens (b.hasChannel conn)) := by
  unfold handle at h
  split at h
  · next hnone => cases h; exact ⟨hn,fun _ _ => rfl,fun hs => by simp [hnone] at hs⟩
  next channels hch =>
  split at h
  · cases h; exact openChannel_moved hn hch
  · cases h; exact closeChannel_moved hn hch
  next hopen hclose =>
  rw [Request.opens_eq (Request.not_forConnection hopen hclose)]
  cases hl : channels.lookup req.cid with
  | none => simp only [hl] at h; cases h; exact hn.stay rfl
  | some c =>
    simp only [hl] at h
    obtain ⟨x,hx,rfl⟩ := Option.map_eq_some_iff.mp h
    exact serve_moved hn hch hl hx

/-- Who is answered is answered under the ids of the request. -/
theorem handle_answer {req : Request} {it : Iteration} {uuid : String → String}
    {r : Broker × Option Response} {resp : Response} (h : b.handle conn req it uuid = some r)
    (hr : r.2 = some resp) : ∃ ok, resp = .common req.rid req.cid ok := by
  unfold handle at h
  split at h
  · cases h; cases hr
  split at h
  · cases h
    simp only [openChannel] at hr
    split at hr <;> cases hr <;> exact ⟨_,rfl⟩
  · cases h
    simp only [closeChannel] at hr
    split at hr <;> cases hr <;> exact ⟨_,rfl⟩
  · split at h
    · cases h; cases hr
    · obtain ⟨x,hx,rfl⟩ := Option.map_eq_some_iff.mp h
      cases hr
      exact (Channel.serve_reply hx).1

/-- A request that finds its channel is answered. -/
theorem handle_reply {req : Request} {it : Iteration} {uuid : String → String}
    {r : Broker × Option Response} (hconn : (b.connections.lookup conn).isSome)
    (hchan : ¬ req.ForConnection → b.hasChannel conn req.cid = true)
    (h : b.handle conn req it uuid = some r) :
    ∃ ok, r.2 = some (.common req.rid req.cid ok) := by
  suffices hs : ∃ resp, r.2 = some resp by
    obtain ⟨resp,hresp⟩ := hs
    obtain ⟨ok,rfl⟩ := handle_answer h hresp
    exact ⟨ok,hresp⟩
  obtain ⟨channels,hch⟩ := Option.isSome_iff_exists.mp hconn
  simp only [handle,hch] at h
  split at h
  · cases h; exact ⟨_,rfl⟩
  · cases h; exact ⟨_,rfl⟩
  · next hopen hclose =>
    have hreq := Request.not_forConnection hopen hclose
    obtain ⟨c,hc⟩ := Option.isSome_iff_exists.mp (by simpa [hasChannel,hch] using hchan hreq)
    simp only [hc] at h
    obtain ⟨x,-,rfl⟩ := Option.map_eq_some_iff.mp h
    exact ⟨x.2,rfl⟩

@[simp] theorem delConnection_connections :
    (b.delConnection conn it).connections = b.connections.erase conn :=
  delConnection_keeps (P := fun x => x.connections = b.connections.erase conn)
    (fun _ c hx => (destroyChannel_connections c).trans hx) rfl

end Broker

/-- The events that are not about the connection, and send nothing on it. -/
def Event.Elsewhere (conn : ℕ) : Event → Prop
  | .connect _ => True
  | .disconnect c _ => c ≠ conn
  | .request c .. => c ≠ conn
  | .take _ => True
  | .autoAck _ => True
  | .choose _ => False
  | .restart _ => False

instance (conn : ℕ) : ∀ ev : Event, Decidable (ev.Elsewhere conn)
  | .connect _ | .take _ | .autoAck _ => .isTrue trivial
  | .disconnect c _ | .request c .. => inferInstanceAs (Decidable (c ≠ conn))
  | .choose _ | .restart _ => .isFalse id

/-- They leave the channels of the connection alone. -/
theorem Broker.step_elsewhere {b b' : Broker} {conn : ℕ} {ev : Event} (hn : b.Named)
    (hs : (b.connections.lookup conn).isSome) (hev : ev.Elsewhere conn)
    (h : b.step ev = some b') : b'.connections.lookup conn = b.connections.lookup conn := by
  cases ev with
  | connect c =>
    cases h
    obtain ⟨channels,hl⟩ := Option.isSome_iff_exists.mp hs
    rw [hl]
    exact Table.lookup_emplace_eq_some.mpr (.inl hl)
  | disconnect c it =>
    cases h
    rw [delConnection_connections]
    exact AList.lookup_erase_ne (Ne.symm hev)
  | request c req it uuid =>
    obtain ⟨r,hr,rfl⟩ := Option.map_eq_some_iff.mp h
    exact (handle_channels hn hr).others conn (Ne.symm hev)
  | take i =>
    obtain ⟨task,-,rfl⟩ := take_cases h
    rfl
  | autoAck i =>
    obtain ⟨task,m,-,rfl⟩ := autoAck_cases h
    rfl
  | choose i => exact absurd hev id
  | restart it => exact absurd hev id

namespace Broker
variable {b b' : Broker}

theorem Named.connect (hn : b.Named) (conn : ℕ) : (b.newConnection conn).Named := by
  intro c channels cid ch hl hch
  rcases Table.lookup_emplace_eq_some.mp hl with hl | ⟨-,-,rfl⟩
  · exact hn c channels cid ch hl hch
  · simp at hch

theorem construct_named {basedir : String} {it : Iteration} {disk : Disk} {db : Database}
    (h : construct basedir it disk db = some b) : b.Named := by
  obtain ⟨host,-,rfl⟩ := Option.map_eq_some_iff.mp h
  intro c channels cid ch hl
  simp at hl

theorem step_named {ev : Event} (hn : b.Named) (h : b.step ev = some b') : b'.Named := by
  cases ev with
  | connect c => cases h; exact hn.connect c
  | disconnect c it =>
    cases h
    intro c' channels cid ch hl hch
    rw [delConnection_connections] at hl
    exact hn c' channels cid ch (Table.lookup_erase_eq_some.mp hl).2 hch
  | request c req it uuid =>
    obtain ⟨r,hr,rfl⟩ := Option.map_eq_some_iff.mp h
    exact (handle_channels hn hr).named
  | take i =>
    obtain ⟨task,-,rfl⟩ := take_cases h
    exact hn
  | autoAck i =>
    obtain ⟨task,m,-,rfl⟩ := autoAck_cases h
    exact hn
  | choose i =>
    obtain ⟨r,hr,rfl⟩ := Option.map_eq_some_iff.mp h
    obtain ⟨task,m,-,⟨-,rfl⟩ | ⟨cp,-,rfl⟩⟩ := choose_cases hr
    · exact hn
    · exact hn
  | restart it => exact construct_named h

/-- Every reachable broker has its channels under their own ids. -/
theorem run_named {basedir : String} {it : Iteration} {disk : Disk} {db : Database} {b₀ : Broker}
    {evs : List Event} (start : construct basedir it disk db = some b₀)
    (run : system.Run b₀ evs b) : b.Named :=
  run.invariant (construct_named start) fun hn h => step_named hn h

end Broker
end MessageQueue

import MessageQueue.Broker.Channels
import MessageQueue.Broker.Contents
import MessageQueue.Link.Network

/-! Messages on their way from clients to clients. While the broker's process runs, each copy of a
message is in one place: in a queue, with a worker, on a link, in the pool of a client, or it was
handed to a callback. Copies come from publishing and from the data files, and from nowhere else. -/
namespace MessageQueue
open Base Client

/-- What the broker has sent, or is about to, and the client has not yet handled. -/
def Ends.contents (e : Ends) : List Content :=
  (e.replying.toList ++ e.responses ++ e.client.pool.map Prod.snd).filterMap Response.content?

/-- The message that an event hands to a callback, if any. -/
def Ends.called (e : Ends) : LinkEvent → List Content
  | .work i =>
    match e.client.pool[i]?,(e.client.work i).bind Prod.snd with
    | some task,some _ => task.2.content?.toList
    | _,_ => []
  | _ => []

namespace Network

/-- All messages that somebody still has. -/
def underWay (n : Network) : List Content := n.broker.contents ++ n.ends.gathered Ends.contents

def called (n : Network) : NetworkEvent → List Content
  | .link conn ev =>
    match n.ends.lookup conn with
    | none => []
    | some e => e.called ev
  | _ => []

/-- What comes into the queues. -/
def comesIn (n : Network) (nev : NetworkEvent) (n' : Network) : List Content :=
  match n.brokerEvent nev with
  | some ev => n.broker.comesIn ev n'.broker
  | none => []

variable {n n' : Network} {conn : ℕ} {e : Ends} {ev : LinkEvent} {nev : NetworkEvent}

theorem count_underWay (n : Network) (x : Content) : n.underWay.count x =
    n.broker.contents.count x+(n.ends.gathered Ends.contents).count x := List.count_append

theorem count_ends (e : Ends) (x : Content) : e.contents.count x =
    (e.replying.bind Response.content?).toList.count x+
      (e.responses.filterMap Response.content?).count x+
      ((e.client.pool.map Prod.snd).filterMap Response.content?).count x := by
  rw [Ends.contents,List.filterMap_append,List.filterMap_append,List.count_append,
    List.count_append]
  cases e.replying with
  | none => rfl
  | some resp =>
    rw [Option.toList_some,filterMap_cons_toList,List.filterMap_nil,List.append_nil,
      Option.bind_some]

/-- A connection hands messages on, from the link to the pool and from the pool to callbacks. -/
theorem session_contents {s s' : Session} (hown : ev.isOwn = true) (h : s.step ev = some s')
    (x : Content) : s'.ends.contents.count x+(s.ends.called ev).count x ≤
      s.ends.contents.count x := by
  have hcases := Session.step_cases h
  rw [count_ends,count_ends]
  cases ev with
  | openChannel cid rid =>
    obtain ⟨-,-,-,rfl⟩ := hcases
    exact le_rfl
  | call cid rid api => obtain ⟨-,c,-,⟨-,rfl⟩ | ⟨req,-,rfl⟩⟩ := hcases <;> exact le_rfl
  | dropChannel cid rid =>
    obtain ⟨-,c,-,-,-,⟨-,rfl⟩ | ⟨req,-,rfl⟩⟩ := hcases <;> exact le_rfl
  | resume i =>
    obtain ⟨k,hk,rfl⟩ := hcases
    have hpool := Connection.resume_pool hk
    simp only [Session.ends,Ends.called,hpool]
    exact le_rfl
  | receive =>
    obtain ⟨resp,rest,hresp,rfl⟩ := hcases
    have hpool : (((s.client.receive resp).pool.map Prod.snd).filterMap Response.content?).count x ≤
        ((s.client.pool.map Prod.snd).filterMap Response.content?).count x+
          resp.content?.toList.count x := by
      cases resp with
      | common rid cid ok => simp [Connection.receive]
      | consume cid tag body props =>
        simp only [Connection.receive,Connection.consumeResponse]
        split_ifs
        · simp [Response.content?]
        · exact Nat.le_add_right _ _
    have hlink : (s.responses.filterMap Response.content?).count x =
        resp.content?.toList.count x+(rest.filterMap Response.content?).count x := by
      rw [hresp,filterMap_cons_toList,List.count_append]
    simp only [Session.ends,Ends.called,List.count_nil]
    omega
  | work i =>
    obtain ⟨r,hr,rfl⟩ := hcases
    obtain ⟨cid,resp,hi,-,-⟩ := Connection.work_cases hr
    have hmap : (s.client.pool.map Prod.snd)[i]? = some resp := by simp [hi]
    have hcount := count_filterMap_eraseIdx (f := Response.content?) hmap x
    have hcalled : (s.ends.called (.work i)).count x ≤ resp.content?.toList.count x := by
      simp only [Ends.called,Session.ends,hi]
      split
      · next heq _ => cases heq; exact le_rfl
      · exact Nat.zero_le _
    rw [List.eraseIdx_map] at hcount
    simp only [Session.ends] at hcalled ⊢
    omega
  | serve it uuid =>
    obtain ⟨req,rest,r,hreply,hreq,hr,rfl⟩ := hcases
    have hanswer : r.2.bind Response.content? = none := by
      cases hresp : r.2 with
      | none => rfl
      | some resp =>
        obtain ⟨ok,rfl⟩ := Broker.handle_answer hr hresp
        rfl
    simp only [Session.ends,Ends.called,hanswer,hreply]
    exact le_rfl
  | reply =>
    obtain ⟨resp,hreply,rfl⟩ := hcases
    simp only [Session.ends,Ends.called,hreply,Option.bind_none,Option.bind_some,
      List.filterMap_append,List.count_append,filterMap_cons_toList,List.filterMap_nil,
      Option.toList_none,List.count_nil]
    omega
  | choose i => cases hown
  | other ev => cases hown

/-- What is sent is on the link then, if there is one. -/
theorem count_push (n : Network) (d : Option (Consumer × Response)) (x : Content) :
    (n.push d).broker = n.broker ∧ ((n.push d).ends.gathered Ends.contents).count x ≤
      (n.ends.gathered Ends.contents).count x+(d.bind fun d => d.2.content?).toList.count x := by
  cases d with
  | none => exact ⟨rfl,Nat.le_add_right _ _⟩
  | some d =>
    obtain ⟨cp,resp⟩ := d
    simp only [push]
    cases he : n.ends.lookup cp.callback.connection with
    | none => exact ⟨rfl,Nat.le_add_right _ _⟩
    | some e =>
      refine ⟨rfl,Table.count_insert_le (a := 0) ?_⟩
      rw [Table.listAt_some he,count_ends,count_ends,List.filterMap_append,filterMap_cons_toList,
        List.count_append,List.count_append,List.filterMap_nil,List.count_nil]
      simp only [Option.bind_some]
      omega

/-- Whatever happens, each copy stays where it is, goes on, is handed to a callback or is lost; and
it was there before, or has come into a queue. -/
theorem step_underWay (hb : n.broker.host.messages.Stores fun _ x => x.store.Bounded)
    (h : n.step nev = some n') (x : Content) : n'.underWay.count x+(n.called nev).count x ≤
      n.underWay.count x+(n.comesIn nev n').count x := by
  rw [count_underWay,count_underWay]
  have hbroker : (∀ i, nev ≠ .choose i) → n'.broker.contents.count x ≤
      n.broker.contents.count x+(n.comesIn nev n').count x := by
    intro hne
    have hstep := step_broker h
    unfold comesIn
    cases hev : n.brokerEvent nev with
    | none =>
      rw [hev] at hstep
      rw [hstep]
      exact Nat.le_add_right _ _
    | some ev =>
      rw [hev] at hstep
      refine Broker.step_contents hb hstep (fun it hre => ?_) x
      rw [hre] at hev
      cases nev with
      | link conn ev =>
        cases ev with
        | serve it' uuid =>
          simp only [brokerEvent,Option.bind_eq_some_iff,Option.map_eq_some_iff] at hev
          obtain ⟨e,-,req,-,hev⟩ := hev
          cases hev
        | _ => cases hev
      | _ => cases hev
  cases nev with
  | connect conn =>
    have hle := hbroker fun i => by simp
    simp only [step] at h
    split_ifs at h with hup
    cases h
    have hends := Table.count_insert_le (f := Ends.contents) (m := n.ends) (k := conn) (v := {})
      (b := x) (a := 0) (c := 0) (by simp [Ends.contents])
    simp only [called,List.count_nil] at hle ⊢
    omega
  | disconnect conn it =>
    have hle := hbroker fun i => by simp
    simp only [step] at h
    split_ifs at h
    cases h
    have hends := Table.count_erase_le (f := Ends.contents) (m := n.ends) (k := conn) (b := x)
    simp only [called,List.count_nil] at hle ⊢
    omega
  | link conn ev =>
    have hle := hbroker fun i => by simp
    obtain ⟨hown,e,s,he,hs,rfl⟩ := link_cases h
    have hsess : s.ends.contents.count x+(e.called ev).count x ≤ e.contents.count x :=
      session_contents hown hs x
    have hends := Table.count_insert_le (f := Ends.contents) (m := n.ends) (k := conn)
      (v := s.ends) (b := x) (a := (e.called ev).count x) (c := 0) (by
        rw [Table.listAt_some he]
        exact hsess)
    simp only [called,he] at hle ⊢
    omega
  | take i =>
    have hle := hbroker fun i => by simp
    obtain ⟨b,hb,rfl⟩ := Option.map_eq_some_iff.mp h
    simp only [called,List.count_nil] at hle ⊢
    omega
  | autoAck i =>
    have hle := hbroker fun i => by simp
    obtain ⟨b,hb,rfl⟩ := Option.map_eq_some_iff.mp h
    simp only [called,List.count_nil] at hle ⊢
    omega
  | choose i =>
    obtain ⟨⟨b,d⟩,hr,rfl⟩ := Option.map_eq_some_iff.mp h
    have hle := Broker.choose_contents hr x
    obtain ⟨hbroker',hends⟩ := count_push {n with broker := b} d x
    simp only [called,List.count_nil,hbroker'] at hle hends ⊢
    omega

end Network

/-- A network, with what publishing put into the queues, what was read from data files, and what was
handed to callbacks. -/
structure Accounts where
  network : Network
  published : List Content := []
  restored : List Content
  handed : List Content := []

namespace Accounts

/-- A new process has recovered what is in its queues. -/
def start (b : Broker) : Accounts := {network := ⟨b,∅⟩, restored := b.contents}

def step (t : Accounts) (nev : NetworkEvent) : Option Accounts :=
  (t.network.step nev).map fun n =>
    let new := t.network.comesIn nev n
    let isPublish := ((t.network.brokerEvent nev).bind Event.publishes).isSome
    { network := n
      published := if isPublish then t.published ++ new else t.published
      restored := if isPublish then t.restored else t.restored ++ new
      handed := t.handed ++ t.network.called nev }

def system : Lts Accounts NetworkEvent := .ofPartial step

end Accounts

/-- A client has asked to publish this. -/
def Posted (nevs : List NetworkEvent) (bp : Option BasicProperties) (body : String) : Prop :=
  ∃ conn cid rid ename, .link conn (.call cid rid (.basicPublish ename bp body)) ∈ nevs

theorem Posted.mono {nevs : List NetworkEvent} {bp : Option BasicProperties} {body : String}
    (h : Posted nevs bp body) (nev : NetworkEvent) : Posted (nevs ++ [nev]) bp body := by
  obtain ⟨conn,cid,rid,ename,h⟩ := h
  exact ⟨conn,cid,rid,ename,List.mem_append_left _ h⟩

/-- The publish requests on the link come from calls. -/
def Ends.Asked (nevs : List NetworkEvent) (e : Ends) : Prop :=
  ∀ rid cid ename body bp, .basicPublish rid cid ename body bp ∈ e.requests →
    Posted nevs bp body

namespace Ends.Asked
variable {nevs : List NetworkEvent} {e : Ends} {conn : ℕ} {ev : LinkEvent} {s s' : Session}

theorem mono (h : e.Asked nevs) (nev : NetworkEvent) : e.Asked (nevs ++ [nev]) :=
  fun rid cid ename body bp hreq => (h rid cid ename body bp hreq).mono nev

theorem step (h : s.ends.Asked nevs) (hs : s.step ev = some s') :
    s'.ends.Asked (nevs ++ [.link conn ev]) := by
  intro rid cid ename body bp hreq
  rcases Network.session_requests hs hreq with hold | ⟨cid',rid',⟨-,heq⟩ | ⟨c,api,-,hreq,hev⟩⟩
  · exact (h rid cid ename body bp hold).mono _
  · cases heq
  · obtain rfl : api = .basicPublish ename bp body := by
      cases api with
      | basicPublish => cases hreq; rfl
      | basicAck => obtain ⟨sub,-,heq⟩ := Option.map_eq_some_iff.mp hreq; cases heq
      | basicCancel => obtain ⟨sub,-,heq⟩ := Option.map_eq_some_iff.mp hreq; cases heq
      | basicConsume =>
        simp only [Client.Channel.request] at hreq
        split at hreq <;> cases hreq
      | _ => cases hreq
    rcases hev with rfl | ⟨-,heq⟩
    · exact ⟨conn,cid',rid',ename,List.mem_append_right _ (List.mem_singleton.mpr rfl)⟩
    · cases heq

end Ends.Asked

namespace Accounts

/-- What there is, has come in, and what was published, clients have posted. -/
structure Balanced (nevs : List NetworkEvent) (t : Accounts) : Prop where
  bounded : t.network.broker.host.messages.Stores fun _ x => x.store.Bounded
  asked : ∀ conn e, t.network.ends.lookup conn = some e → e.Asked nevs
  posted : ∀ x ∈ t.published, ∃ bp body, Posted nevs bp body ∧ x.Of bp body
  count : ∀ x, t.handed.count x+t.network.underWay.count x ≤ t.published.count x+t.restored.count x

namespace Balanced
variable {nevs : List NetworkEvent} {nev : NetworkEvent} {t t' : Accounts} {n : Network}

theorem start {basedir : String} {it : Iteration} {disk : Disk} {db : Database} {b : Broker}
    (h : Broker.construct basedir it disk db = some b) : (Accounts.start b).Balanced [] where
  bounded := Broker.run_bounded h (.nil b)
  asked conn e he := by cases he
  posted x hx := by cases hx
  count x := by
    have hnone : (Table.gathered Ends.contents (∅ : Table ℕ Ends)).count x = 0 := rfl
    simp only [Accounts.start,Network.count_underWay,List.count_nil,hnone]
    omega

/-- The stores stay bounded as long as the process runs. -/
theorem step_bounded (h : t.Balanced nevs) (hs : t.network.step nev = some n) :
    n.broker.host.messages.Stores fun _ x => x.store.Bounded := by
  have hb := Network.step_broker hs
  cases hev : t.network.brokerEvent nev with
  | none =>
    rw [hev] at hb
    exact hb ▸ h.bounded
  | some ev =>
    rw [hev] at hb
    refine Broker.step_keeps QueueMessage.Bounded.keeps hb h.bounded ?_ ?_
    · intro qname hb
      exact MessageManager.Stores.front hb fun x hx => QueueMessage.Bounded.front (hb qname x hx)
    · intro it host hhost
      exact .construct hhost fun _ _ mapper d => .recovery mapper d

theorem step_asked (h : t.Balanced nevs) (hs : t.network.step nev = some n) (conn : ℕ) (e : Ends)
    (he : n.ends.lookup conn = some e) : e.Asked (nevs ++ [nev]) := by
  cases nev with
  | connect c =>
    simp only [Network.step] at hs
    split_ifs at hs
    cases hs
    rcases Table.lookup_insert_eq_some.mp he with ⟨rfl,rfl⟩ | ⟨-,he⟩
    · intro rid cid ename body bp hreq
      cases hreq
    · exact (h.asked conn e he).mono _
  | disconnect c it =>
    simp only [Network.step] at hs
    split_ifs at hs
    cases hs
    exact (h.asked conn e (Table.lookup_erase_eq_some.mp he).2).mono _
  | link c ev =>
    obtain ⟨hown,e₀,s,he₀,hstep,rfl⟩ := Network.link_cases hs
    rcases Table.lookup_insert_eq_some.mp he with ⟨rfl,rfl⟩ | ⟨-,he⟩
    · have hold : (e₀.session conn t.network.broker).ends.Asked nevs := h.asked conn e₀ he₀
      exact hold.step hstep
    · exact (h.asked conn e he).mono _
  | take i =>
    obtain ⟨b,-,rfl⟩ := Option.map_eq_some_iff.mp hs
    exact (h.asked conn e he).mono _
  | autoAck i =>
    obtain ⟨b,-,rfl⟩ := Option.map_eq_some_iff.mp hs
    exact (h.asked conn e he).mono _
  | choose i =>
    obtain ⟨⟨b,d⟩,-,rfl⟩ := Option.map_eq_some_iff.mp hs
    cases d with
    | none => exact (h.asked conn e he).mono _
    | some d =>
      obtain ⟨cp,resp⟩ := d
      simp only [Network.push] at he
      split at he
      · exact (h.asked conn e he).mono _
      · next e₀ he₀ =>
        rcases Table.lookup_insert_eq_some.mp he with ⟨rfl,rfl⟩ | ⟨-,he⟩
        · exact (h.asked _ e₀ he₀).mono _
        · exact (h.asked conn e he).mono _

/-- What a publish puts into the queues, a client has posted. -/
theorem comesIn_posted (h : t.Balanced nevs) (hs : t.network.step nev = some n)
    (hpub : ((t.network.brokerEvent nev).bind Event.publishes).isSome) {x : Content}
    (hx : x ∈ t.network.comesIn nev n) : ∃ bp body, Posted nevs bp body ∧ x.Of bp body := by
  obtain ⟨⟨bp,body⟩,hpub⟩ := Option.isSome_iff_exists.mp hpub
  obtain ⟨ev,hev,hbp⟩ := Option.bind_eq_some_iff.mp hpub
  have hb := Network.step_broker hs
  rw [hev] at hb
  rw [Network.comesIn,hev] at hx
  refine ⟨bp,body,?_,Broker.comesIn_published h.bounded hb hbp hx⟩
  -- the request was the first on a link
  cases nev with
  | link conn lev =>
    cases lev with
    | serve it uuid =>
      simp only [Network.brokerEvent,Option.bind_eq_some_iff,Option.map_eq_some_iff] at hev
      obtain ⟨e,he,req,hreq,rfl⟩ := hev
      cases req with
      | basicPublish rid cid ename body' bp' =>
        cases hbp
        exact h.asked conn e he rid cid ename body bp (List.mem_of_mem_head? hreq)
      | _ => cases hbp
    | _ => cases hev
  | _ => cases hev; cases hbp

theorem step (h : t.Balanced nevs) (hs : t.step nev = some t') : t'.Balanced (nevs ++ [nev]) := by
  obtain ⟨n,hn,rfl⟩ := Option.map_eq_some_iff.mp hs
  refine ⟨h.step_bounded hn,h.step_asked hn,fun x hx => ?_,fun x => ?_⟩
  · have hold : x ∈ t.published → ∃ bp body, Posted (nevs ++ [nev]) bp body ∧ x.Of bp body := by
      intro hx
      obtain ⟨bp,body,hposted,hof⟩ := h.posted x hx
      exact ⟨bp,body,hposted.mono nev,hof⟩
    simp only at hx
    split_ifs at hx with hpub
    · rcases List.mem_append.mp hx with hx | hx
      · exact hold hx
      · obtain ⟨bp,body,hposted,hof⟩ := h.comesIn_posted hn hpub hx
        exact ⟨bp,body,hposted.mono nev,hof⟩
    · exact hold hx
  · have hstep := Network.step_underWay h.bounded hn x
    have hcount := h.count x
    simp only [List.count_append]
    split_ifs <;> rw [List.count_append] <;> omega

end Balanced
end Accounts

/-- No message is made up, altered or doubled on its way: what was handed to callbacks and what is
still under way are together at most what came into the queues, and that was posted by some client
or is from a data file. -/
theorem messages_conserved {basedir : String} {it : Iteration} {disk : Disk} {db : Database}
    {b : Broker} {nevs : List NetworkEvent} {t : Accounts}
    (start : Broker.construct basedir it disk db = some b)
    (run : Accounts.system.Run (.start b) nevs t) :
    (t.handed ++ t.network.underWay).Subperm (t.published ++ t.restored) ∧
      ∀ x ∈ t.published, ∃ bp body, Posted nevs bp body ∧ x.Of bp body := by
  have hall : t.Balanced nevs := by
    induction run with
    | nil => exact .start start
    | snoc _ last ih => exact ih.step last
  refine ⟨List.subperm_ext_iff.mpr fun x _ => ?_,hall.posted⟩
  rw [List.count_append,List.count_append]
  exact hall.count x

/-- The message that the callback got is the one that was posted. -/
theorem messages_conserved_one : ∃ b t, Broker.construct "/data" .listed blankDisk {} = some b ∧
    Accounts.system.Run (.start b) Network.oneForTheOther t ∧
      ∃ x ∈ t.handed, ∃ bp body, Posted Network.oneForTheOther bp body ∧ x.Of bp body := by
  have hall : ((Broker.construct "/data" .listed blankDisk {}).bind fun b =>
      Network.oneForTheOther.foldlM Accounts.step (.start b)).any (fun t =>
        !t.handed.isEmpty && t.restored.isEmpty) = true := by
    decide +kernel
  obtain ⟨b,t,start,run,hone⟩ := Lts.Run.of_any hall
  simp only [Bool.and_eq_true,Bool.not_eq_true',List.isEmpty_eq_false_iff,List.isEmpty_iff] at hone
  obtain ⟨hsub,hposted⟩ := messages_conserved start run
  obtain ⟨x,hx⟩ := List.exists_mem_of_ne_nil _ hone.1
  have hin := hsub.subset (List.mem_append_left _ hx)
  rw [hone.2,List.append_nil] at hin
  exact ⟨b,t,start,run,x,hx,hposted x hin⟩

end MessageQueue

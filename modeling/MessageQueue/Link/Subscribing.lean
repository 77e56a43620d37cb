import MessageQueue.Link.Ids

/-! A channel that is not cancelled or closed, and on which one thread at a time subscribes: the
subscriber comes after its request has been granted, and stays. -/
namespace MessageQueue
open Base Client

namespace Client

namespace Connection
variable {k k' : Connection} {cid n : String}

/-- A thread is inside `basicConsume` on the channel. -/
def Subscribing (k : Connection) (cid : String) : Prop :=
  ∃ c ∈ k.calls, c.cid = cid ∧ c.pending.tag.isSome = true

instance : Decidable (k.Subscribing cid) :=
  inferInstanceAs (Decidable (∃ c ∈ k.calls, c.cid = cid ∧ c.pending.tag.isSome = true))

/-- The channel is in the manager, at most one thread is subscribing on it, and only while it has
no subscriber. -/
structure Steady (k : Connection) (cid : String) : Prop where
  managed : (k.channels.lookup cid).isSome → cid ∈ k.manager
  exist : ∀ c ∈ k.calls, c.cid = cid → (k.channels.lookup cid).isSome
  quiet : ∀ c ∈ k.calls, c.cid = cid → ¬ c.pending.Ends
  single : ∀ c ∈ k.calls, ∀ c' ∈ k.calls, c.cid = cid → c'.cid = cid → c.pending.tag.isSome →
    c'.pending.tag.isSome → c = c'
  vacant : k.Subscribing cid → k.subscriberOf cid = none

namespace Steady

theorem start : Steady {} cid where
  managed := by simp
  exist := by simp
  quiet := by simp
  single := by simp
  vacant := by simp [Subscribing]

/-- Calls can end. -/
theorem shrink (h : k.Steady cid) (hcalls : ∀ c ∈ k'.calls, c ∈ k.calls)
    (hsome : (k'.channels.lookup cid).isSome = (k.channels.lookup cid).isSome)
    (hman : cid ∈ k.manager → cid ∈ k'.manager)
    (hvac : k'.Subscribing cid → k'.subscriberOf cid = none) : k'.Steady cid where
  managed hs := hman (h.managed (hsome ▸ hs))
  exist c hc heq := hsome ▸ h.exist c (hcalls c hc) heq
  quiet c hc := h.quiet c (hcalls c hc)
  single c hc c' hc' := h.single c (hcalls c hc) c' (hcalls c' hc')
  vacant := hvac

/-- Nothing happens to the channel. -/
theorem congr (h : k.Steady cid) (hcalls : k'.calls = k.calls)
    (hch : k'.channels.lookup cid = k.channels.lookup cid)
    (hman : cid ∈ k.manager → cid ∈ k'.manager) : k'.Steady cid := by
  refine h.shrink (fun c hc => hcalls ▸ hc) (by rw [hch]) hman ?_
  intro hs
  unfold Subscribing at hs
  rw [hcalls] at hs
  unfold subscriberOf
  rw [hch]
  exact h.vacant hs

/-- A new channel comes into the manager. -/
theorem create (h : k.Steady cid) (hfresh : k.channels.lookup n = none) :
    Steady {k with
      channels := k.channels.insert n {channelId := n}
      manager := n::k.manager} cid := by
  by_cases heq : cid = n
  · subst heq
    have hnone : ∀ c ∈ k.calls, c.cid ≠ cid := by
      intro c hc hcid
      have hs := h.exist c hc hcid
      simp [hfresh] at hs
    refine ⟨fun _ => List.mem_cons_self,fun _ _ _ => by simp,h.quiet,h.single,?_⟩
    rintro ⟨c,hc,hcid,-⟩
    exact absurd hcid (hnone c hc)
  · exact h.congr rfl (AList.lookup_insert_ne heq) (List.mem_cons_of_mem _)

/-- A thread enters a call. -/
theorem add (h : k.Steady cid) (c : Call) (held : List String)
    (hex : c.cid = cid → (k.channels.lookup cid).isSome)
    (hends : c.cid = cid → ¬ c.pending.Ends)
    (hone : c.cid = cid → c.pending.tag.isSome → ¬ k.Subscribing cid ∧ k.subscriberOf cid = none) :
    Steady {k with held := held, calls := k.calls ++ [c]} cid := by
  have hcall : ∀ c' ∈ k.calls ++ [c], c' ∈ k.calls ∨ c' = c := fun c' hc => by simpa using hc
  constructor
  case managed => exact h.managed
  case exist =>
    intro c' hc'
    rcases hcall c' hc' with hc' | rfl
    · exact h.exist c' hc'
    · exact hex
  case quiet =>
    intro c' hc'
    rcases hcall c' hc' with hc' | rfl
    · exact h.quiet c' hc'
    · exact hends
  case single =>
    intro c₁ hc₁ c₂ hc₂ hcid₁ hcid₂ ht₁ ht₂
    rcases hcall c₁ hc₁ with hm₁ | rfl
    · rcases hcall c₂ hc₂ with hm₂ | rfl
      · exact h.single c₁ hm₁ c₂ hm₂ hcid₁ hcid₂ ht₁ ht₂
      · exact absurd ⟨c₁,hm₁,hcid₁,ht₁⟩ (hone hcid₂ ht₂).1
    · rcases hcall c₂ hc₂ with hm₂ | rfl
      · exact absurd ⟨c₂,hm₂,hcid₂,ht₂⟩ (hone hcid₁ ht₁).1
      · rfl
  case vacant =>
    rintro ⟨c',hc',hcid,ht⟩
    rcases hcall c' hc' with hc' | rfl
    · exact h.vacant ⟨c',hc',hcid,ht⟩
    · exact (hone hcid ht).2

/-- What waking up does to the channel. -/
theorem resume (h : k.Steady cid) {flow : List (String × String)} {drawn : List String}
    (ids : Ids flow k drawn) {i : ℕ} (hr : k.resume i = some k') :
    k'.Steady cid ∧ ∃ call c ok, k.calls[i]? = some call ∧
      k.channels.lookup call.cid = some c ∧ c.basicResp.lookup call.rid = some ok ∧
      k'.calls = k.calls.eraseIdx i ∧ k'.channels.lookup cid =
        if call.cid = cid then some (c.finish call.rid ok call.pending)
        else k.channels.lookup cid := by
  obtain ⟨call,c,ok,hi,hc,hok,woken,hwoken,hcases⟩ := resume_cases hr
  have hmem : call ∈ k.calls := List.mem_of_getElem? hi
  obtain ⟨herase,-⟩ := ids.calls_erase hi
  have hwoke : woken.channels.lookup cid =
      if call.cid = cid then some (c.finish call.rid ok call.pending)
      else k.channels.lookup cid := by
    rw [hwoken]
    split_ifs with heq
    · rw [heq,AList.lookup_insert]
    · exact AList.lookup_insert_ne (Ne.symm heq)
  have hframe : k'.calls = k.calls.eraseIdx i ∧
      k'.channels.lookup cid = woken.channels.lookup cid ∧ (cid ∈ k.manager → cid ∈ k'.manager) := by
    rcases hcases with ⟨-,rfl⟩ | ⟨hp,rfl⟩ | ⟨api,-,rfl⟩ | ⟨hp,rfl⟩
    · split_ifs <;> simp [hwoken]
    · have hne : cid ≠ call.cid := fun heq => h.quiet call hmem heq.symm (by simp [hp,Pending.Ends])
      simp [hwoken,hne]
    · simp [hwoken]
    · have hne : cid ≠ call.cid := fun heq => h.quiet call hmem heq.symm (by simp [hp,Pending.Ends])
      simp [hwoken,AList.lookup_erase_ne hne]
  obtain ⟨hcalls,hch,hman⟩ := hframe
  refine ⟨?_,call,c,ok,hi,hc,hok,hcalls,hch.trans hwoke⟩
  have hsub : ∀ c' ∈ k'.calls, c' ∈ k.calls ∧ c'.rid ≠ call.rid := fun c' hc' =>
    (herase c').mp (hcalls ▸ hc')
  refine h.shrink (fun c' hc' => (hsub c' hc').1) ?_ hman ?_
  · rw [hch,hwoke]
    split_ifs with heq
    · rw [← heq,hc]
      rfl
    · rfl
  · rintro ⟨c',hc',hcid,ht⟩
    obtain ⟨hc',hne⟩ := hsub c' hc'
    have hvac := h.vacant ⟨c',hc',hcid,ht⟩
    unfold subscriberOf at hvac ⊢
    rw [hch,hwoke]
    split_ifs with heq
    · rw [← heq,hc] at hvac
      -- the thread that ends its call is not the one that subscribes
      have htag : call.pending.tag = none := by
        rw [← Option.not_isSome_iff_eq_none]
        intro hs
        exact hne (congrArg Call.rid (h.single c' hc' call hmem hcid heq ht hs))
      rw [Option.bind_some] at hvac ⊢
      rw [Channel.finish_other (h.quiet call hmem heq) htag]
      exact hvac
    · exact hvac

end Steady
end Connection
end Client

/-- The application ends the subscription of the channel. -/
def LinkEvent.Ends (cid : String) : LinkEvent → Prop
  | .call c _ .basicCancel => c = cid
  | .call c _ .closeChannel => c = cid
  | _ => False

instance (cid : String) : ∀ ev : LinkEvent, Decidable (ev.Ends cid)
  | .call c _ .basicCancel | .call c _ .closeChannel => inferInstanceAs (Decidable (c = cid))
  | .call _ _ (.declareExchange ..) | .call _ _ (.deleteExchange _)
  | .call _ _ (.declareQueue ..) | .call _ _ (.deleteQueue _) | .call _ _ (.queueBind ..)
  | .call _ _ (.queueUnBind ..) | .call _ _ (.basicPublish ..) | .call _ _ (.basicAck _)
  | .call _ _ (.basicConsume ..) | .openChannel .. | .dropChannel .. | .resume _ | .receive
  | .work _ | .serve .. | .reply | .choose _ | .other _ => .isFalse id

namespace Session

/-- A worker finds no thread inside `basicConsume` on the channel of its task, and neither does a
thread that enters it. -/
def Patient (s : Session) (cid : String) : LinkEvent → Prop
  | .call c _ (.basicConsume ..) => c = cid → ¬ s.client.Subscribing cid
  | .work i => ∀ task ∈ s.client.pool[i]?, task.1 = cid → ¬ s.client.Subscribing cid
  | _ => True

instance (s : Session) (cid : String) : ∀ ev, Decidable (s.Patient cid ev)
  | .call c _ (.basicConsume ..) =>
    inferInstanceAs (Decidable (c = cid → ¬ s.client.Subscribing cid))
  | .work i => inferInstanceAs (Decidable
    (∀ task ∈ s.client.pool[i]?, task.1 = cid → ¬ s.client.Subscribing cid))
  | .call _ _ (.declareExchange ..) | .call _ _ (.deleteExchange _)
  | .call _ _ (.declareQueue ..) | .call _ _ (.deleteQueue _) | .call _ _ (.queueBind ..)
  | .call _ _ (.queueUnBind ..) | .call _ _ (.basicPublish ..) | .call _ _ (.basicAck _)
  | .call _ _ .basicCancel | .call _ _ .closeChannel | .openChannel .. | .dropChannel ..
  | .resume _ | .receive | .serve .. | .reply | .choose _ | .other _ => .isTrue trivial

/-- The replies under way. -/
def replies (s : Session) : List Response := s.responses ++ s.replying.toList

/-- The broker has done what the thread waits for. -/
def Granted (s : Session) (c : Call) : Prop :=
  .common c.rid c.cid true ∈ s.replies ∨
    ∃ ch, s.client.channels.lookup c.cid = some ch ∧ ch.basicResp.lookup c.rid = some true

/-- A message with the tag finds its subscriber, or will find it when a thread wakes up. -/
def Ready (s : Session) (cid tag : String) : Prop :=
  (∃ sub, s.client.subscriberOf cid = some sub ∧ sub.subscribeQueueTag = tag) ∨
    ∃ c ∈ s.client.calls, c.cid = cid ∧ c.pending.tag = some tag ∧ s.Granted c

/-- What is ready stays ready. -/
structure Carries (s s' : Session) (cid : String) : Prop where
  subscriber : ∀ sub, s.client.subscriberOf cid = some sub → s'.client.subscriberOf cid = some sub
  ready : ∀ tag, s.Ready cid tag → s'.Ready cid tag

/-- Every subscription that the broker has not seen yet is waited for. -/
structure Steady (s : Session) (cid : String) : Prop where
  client : s.client.Steady cid
  asked : ∀ rid tag qname autoAck, .basicConsume rid cid tag qname autoAck ∈ s.requests →
    ∃ c ∈ s.client.calls, c.cid = cid ∧ c.rid = rid ∧ c.pending.tag = some tag

variable {s s' : Session} {cid : String}

/-- The channel stays as it is, and no call and no reply is lost. -/
theorem Carries.grow
    (hch : ∀ ch, s.client.channels.lookup cid = some ch → s'.client.channels.lookup cid = some ch)
    (hcalls : ∀ c ∈ s.client.calls, c ∈ s'.client.calls)
    (hreplies : ∀ rid, .common rid cid true ∈ s.replies → .common rid cid true ∈ s'.replies) :
    s.Carries s' cid := by
  have hsub : ∀ sub, s.client.subscriberOf cid = some sub →
      s'.client.subscriberOf cid = some sub := by
    intro sub hs
    obtain ⟨ch,hl,hs⟩ := Option.bind_eq_some_iff.mp hs
    exact Option.bind_eq_some_iff.mpr ⟨ch,hch ch hl,hs⟩
  refine ⟨hsub,fun tag hr => ?_⟩
  rcases hr with ⟨sub,hs,ht⟩ | ⟨c,hc,rfl,ht,hg⟩
  · exact .inl ⟨sub,hsub sub hs,ht⟩
  · refine .inr ⟨c,hcalls c hc,rfl,ht,?_⟩
    rcases hg with hg | ⟨ch,hl,hg⟩
    · exact .inl (hreplies c.rid hg)
    · exact .inr ⟨ch,hch ch hl,hg⟩

/-- A reply under way answers a request under way. -/
theorem mem_flow {rid : String} {ok : Bool} (h : .common rid cid ok ∈ s.replies) :
    (cid,rid) ∈ s.flow := by
  unfold flow
  rw [← List.filterMap_append]
  exact List.mem_append_left _ (List.mem_filterMap.mpr ⟨_,h,rfl⟩)

namespace Steady

theorem start {b : Broker} {conn : ℕ} : (Session.start b conn).Steady cid :=
  ⟨.start,fun _ _ _ _ hm => by simp [Session.start] at hm⟩

/-- A step that ends no call and takes no request in. -/
theorem frame (h : s.Steady cid) (hk : s'.client.Steady cid)
    (hcalls : s'.client.calls = s.client.calls) (hreq : ∀ req ∈ s'.requests, req ∈ s.requests) :
    s'.Steady cid :=
  ⟨hk,fun rid tag qname autoAck hm => hcalls ▸ h.asked rid tag qname autoAck (hreq _ hm)⟩

/-- A thread enters a call and sends its request. -/
theorem send (h : s.Steady cid) {k : Client.Connection} {c : Call} {req : Request}
    (hk : k.Steady cid) (hcalls : k.calls = s.client.calls ++ [c])
    (hreq : ∀ rid tag qname autoAck, req = .basicConsume rid cid tag qname autoAck →
      c.cid = cid ∧ c.rid = rid ∧ c.pending.tag = some tag) : (s.send k req).Steady cid := by
  refine ⟨hk,?_⟩
  intro rid tag qname autoAck hm
  simp only [Session.send,hcalls]
  rcases List.mem_append.mp hm with hm | hm
  · obtain ⟨c',hc',hw⟩ := h.asked rid tag qname autoAck hm
    exact ⟨c',List.mem_append_left _ hc',hw⟩
  · exact ⟨c,List.mem_append_right _ (List.mem_singleton_self _),
      hreq rid tag qname autoAck (List.mem_singleton.mp hm).symm⟩

/-- The client opens a channel. -/
theorem openChannel (h : s.Steady cid) (ids : Ids s.flow s.client s.drawn) {n rid : String}
    (hn : n ∉ s.drawn) :
    let s' := ({s with drawn := n::s.drawn} : Session).send (s.client.openChannel n rid).1
      (s.client.openChannel n rid).2
    s'.Steady cid ∧ s.Carries s' cid := by
  have hfresh := ids.fresh hn
  have hadd := (h.client.create hfresh).add ⟨n,rid,.openChannel⟩ s.client.held
    (by rintro rfl; simp) (fun _ => id) (fun _ ht => by cases ht)
  refine ⟨send (s := {s with drawn := n::s.drawn}) (h.frame h.client rfl fun _ hm => hm) hadd rfl
    (fun _ _ _ _ heq => by cases heq),.grow ?_ ?_ fun _ hm => hm⟩
  · intro ch hch
    have hne : cid ≠ n := by
      rintro rfl
      rw [hfresh] at hch
      cases hch
    exact (AList.lookup_insert_ne hne).trans hch
  · exact fun c hc => List.mem_append_left _ hc

/-- The client makes a call on a channel, and sends its request. -/
theorem call (h : s.Steady cid) (ids : Ids s.flow s.client s.drawn) {n rid : String} {api : Api}
    {c : Client.Channel} {req : Request} (hp : s.Patient cid (.call n rid api))
    (hends : ¬ LinkEvent.Ends cid (.call n rid api)) (hc : s.client.channels.lookup n = some c)
    (hreq : c.request rid api = some req) :
    let s' := s.send {s.client with calls := s.client.calls ++ [⟨n,rid,.call api⟩]} req
    s'.Steady cid ∧ s.Carries s' cid := by
  obtain ⟨rfl,hcid,-⟩ := Client.Channel.request_ids hreq
  rw [ids.named n c hc] at hcid
  have hadd := h.client.add ⟨n,req.rid,.call api⟩ s.client.held
    (by rintro rfl; exact Option.isSome_of_eq_some hc) ?_ ?_
  · refine ⟨send h hadd rfl ?_,
      .grow (fun _ hch => hch) (fun c hc => List.mem_append_left _ hc) fun _ hm => hm⟩
    rintro rid tag qname autoAck rfl
    exact ⟨hcid.symm,rfl,Client.Channel.request_tag hreq⟩
  · rintro rfl hends'
    cases api with
    | closeChannel => exact hends rfl
    | basicCancel => exact hends rfl
    | _ => exact hends'
  · rintro rfl ht
    constructor
    · cases api with
      | basicConsume => exact hp rfl
      | _ => cases ht
    · simp only [Client.Connection.subscriberOf,hc,Option.bind_some]
      exact Client.Channel.request_vacant hreq ht

/-- Another channel object goes. -/
theorem drop (h : s.Steady cid) {n : String} (hne : cid ≠ n) {held : List String} :
    let s' : Session := {s with client := {s.client with
      channels := s.client.channels.erase n
      held := held}}
    s'.Steady cid ∧ s.Carries s' cid := by
  have hch : (s.client.channels.erase n).lookup cid = s.client.channels.lookup cid :=
    AList.lookup_erase_ne hne
  exact ⟨h.frame (h.client.congr rfl hch id) rfl fun _ hm => hm,
    .grow (fun _ hl => hch.trans hl) (fun _ hm => hm) fun _ hm => hm⟩

/-- The destructor of another channel cancels its subscription. -/
theorem destructor (h : s.Steady cid) {n rid : String} (hne : cid ≠ n) {c : Client.Channel}
    {req : Request} (hreq : c.request rid .basicCancel = some req) {held : List String} :
    let s' := s.send {s.client with
      held := held
      calls := s.client.calls ++ [⟨n,rid,.destructor⟩]} req
    s'.Steady cid ∧ s.Carries s' cid := by
  have hadd := h.client.add ⟨n,rid,.destructor⟩ held
    (fun heq => absurd heq.symm hne) (fun heq => absurd heq.symm hne)
    (fun heq => absurd heq.symm hne)
  refine ⟨send h hadd rfl ?_,
    .grow (fun _ hch => hch) (fun c hc => List.mem_append_left _ hc) fun _ hm => hm⟩
  rintro rid tag qname autoAck rfl
  cases Client.Channel.request_tag hreq

/-- A thread wakes up. If it was subscribing, its subscriber is there from now on. -/
theorem resume (h : s.Steady cid) (ids : Ids s.flow s.client s.drawn) {i : ℕ}
    {k : Client.Connection} (hr : s.client.resume i = some k) :
    Steady {s with client := k} cid ∧ s.Carries {s with client := k} cid := by
  obtain ⟨hk,call,c,ok,hi,hc,hok,hcalls,hch⟩ := h.client.resume ids hr
  have hmem : call ∈ s.client.calls := List.mem_of_getElem? hi
  obtain ⟨herase,-⟩ := ids.calls_erase hi
  have hsub : ∀ sub, s.client.subscriberOf cid = some sub → k.subscriberOf cid = some sub := by
    intro sub hs
    unfold Client.Connection.subscriberOf at hs ⊢
    rw [hch]
    split_ifs with heq
    · have htag : call.pending.tag = none := by
        rw [← Option.not_isSome_iff_eq_none]
        intro ht
        have hnone := h.client.vacant ⟨call,hmem,heq,ht⟩
        cases hnone.symm.trans hs
      rw [← heq,hc,Option.bind_some] at hs
      rw [Option.bind_some,Client.Channel.finish_other (h.client.quiet call hmem heq) htag]
      exact hs
    · exact hs
  refine ⟨⟨hk,?_⟩,hsub,?_⟩
  · intro rid tag qname autoAck hm
    obtain ⟨c',hc',hcid,hrid,ht⟩ := h.asked rid tag qname autoAck hm
    refine ⟨c',?_,hcid,hrid,ht⟩
    simp only [hcalls]
    refine (herase c').mpr ⟨hc',fun heq => ?_⟩
    obtain rfl := List.inj_on_of_nodup_map ids.calls hc' hmem heq
    refine ids.unanswered (cid,rid) ?_ ⟨c,ok,hcid ▸ hc,hrid ▸ hok⟩
    exact List.mem_append_right _ (List.mem_map.mpr ⟨_,hm,rfl⟩)
  · intro tag hr
    rcases hr with ⟨sub,hs,ht⟩ | ⟨c',hc',rfl,ht,hg⟩
    · exact .inl ⟨sub,hsub sub hs,ht⟩
    by_cases hrid : c'.rid = call.rid
    · -- the thread that wakes up takes the reply that granted its subscription
      obtain rfl := List.inj_on_of_nodup_map ids.calls hc' hmem hrid
      obtain rfl : ok = true := by
        rcases hg with hg | ⟨ch,hl,hg⟩
        · exact absurd ⟨c,ok,hc,hok⟩ (ids.unanswered _ (mem_flow hg))
        · rw [hc,Option.some.injEq] at hl
          rw [← hl,hok,Option.some.injEq] at hg
          exact hg
      obtain ⟨sub,hs,htag⟩ := c.finish_granted c'.rid ht
      refine .inl ⟨sub,?_,htag⟩
      simp only [Client.Connection.subscriberOf,hch,if_pos,Option.bind_some]
      exact hs
    · refine .inr ⟨c',?_,rfl,ht,?_⟩
      · simp only [hcalls]
        exact (herase c').mpr ⟨hc',hrid⟩
      · rcases hg with hg | ⟨ch,hl,hg⟩
        · exact .inl hg
        · simp only [Granted,hch]
          refine .inr ?_
          split_ifs with heq
          · rw [heq,hl,Option.some.injEq] at hc
            refine ⟨_,rfl,?_⟩
            rw [Client.Channel.finish_basicResp,AList.lookup_erase_ne hrid,← hc]
            exact hg
          · exact ⟨ch,hl,hg⟩

/-- The event loop takes in the oldest response. -/
theorem receive (h : s.Steady cid) (ids : Ids s.flow s.client s.drawn) {resp : Response}
    {rest : List Response} (hresp : s.responses = resp::rest) :
    let s' : Session := {s with responses := rest, client := s.client.receive resp}
    s'.Steady cid ∧ s.Carries s' cid := by
  cases resp with
  | consume n tag body props =>
    have hreplies : ∀ rid, .common rid cid true ∈ s.replies →
        .common rid cid true ∈ rest ++ s.replying.toList := by
      intro rid hm
      simpa [replies,hresp] using hm
    simp only [Client.Connection.receive,Client.Connection.consumeResponse]
    split_ifs
    · exact ⟨h.frame (h.client.congr rfl rfl id) rfl fun _ hm => hm,
        .grow (fun _ hl => hl) (fun _ hm => hm) hreplies⟩
    · exact ⟨h.frame h.client rfl fun _ hm => hm,
        .grow (fun _ hl => hl) (fun _ hm => hm) hreplies⟩
  | common rid n ok =>
    obtain ⟨hcalls,hman,hch⟩ := s.client.basicResponse_frame cid rid n ok
    have hsub := (s.client.receive_frame (.common rid n ok)).2 cid
    refine ⟨h.frame (h.client.shrink (fun c hc => hcalls ▸ hc) ?_ (fun hm => hman ▸ hm) ?_) hcalls
      fun _ hm => hm,fun sub hs => hsub.trans hs,?_⟩
    · simp [Client.Connection.receive,hch]
    · rintro ⟨c,hc,hw⟩
      exact hsub.trans (h.client.vacant ⟨c,hcalls ▸ hc,hw⟩)
    · intro tag hr
      rcases hr with ⟨sub,hs,ht⟩ | ⟨c,hc,rfl,ht,hg⟩
      · exact .inl ⟨sub,hsub.trans hs,ht⟩
      refine .inr ⟨c,hcalls.symm ▸ hc,rfl,ht,?_⟩
      obtain ⟨ch,hl⟩ := Option.isSome_iff_exists.mp (h.client.exist c hc rfl)
      have hput : ∀ v : Bool, ch.basicResp.lookup c.rid = some v →
          (ch.putBasicResponse rid ok).basicResp.lookup c.rid = some v := fun v hv =>
        Table.lookup_emplace_eq_some.mpr (.inl hv)
      simp only [Granted,Client.Connection.receive,hch,hl,Option.map_some]
      rcases hg with hg | ⟨ch',hl',hg⟩
      · simp only [replies,hresp,List.cons_append,List.mem_cons] at hg
        rcases hg with hg | hg
        · -- the reply that grants the subscription is this one
          cases hg
          have hnone : ch.basicResp.lookup c.rid = none := by
            rw [← Option.not_isSome_iff_eq_none]
            intro hs
            obtain ⟨v,hv⟩ := Option.isSome_iff_exists.mp hs
            refine ids.unanswered (c.cid,c.rid) ?_ ⟨ch,v,hl,hv⟩
            have hfirst : .common c.rid c.cid true ∈ s.replies := by simp [replies,hresp]
            exact mem_flow hfirst
          refine .inr ⟨_,rfl,?_⟩
          rw [if_pos ⟨rfl,h.client.managed (h.client.exist c hc rfl)⟩]
          exact Table.lookup_emplace_none hnone
        · exact .inl hg
      · rw [hl,Option.some.injEq] at hl'
        refine .inr ⟨_,rfl,?_⟩
        split_ifs
        · exact hput true (hl' ▸ hg)
        · exact hl' ▸ hg

/-- A pointer that the application drops is not one to the channel: that one is in the manager. -/
theorem step (h : s.Steady cid) (ids : Ids s.flow s.client s.drawn) {ev : LinkEvent}
    (hp : s.Patient cid ev) (hends : ¬ ev.Ends cid) (hs : s.step ev = some s') :
    s'.Steady cid ∧ s.Carries s' cid := by
  have hcases := step_cases hs
  cases ev with
  | openChannel n rid =>
    obtain ⟨hn,-,-,rfl⟩ := hcases
    exact h.openChannel ids hn
  | call n rid api =>
    obtain ⟨-,c,hc,⟨-,rfl⟩ | ⟨req,hreq,rfl⟩⟩ := hcases
    · exact ⟨h,.grow (fun _ hch => hch) (fun _ hm => hm) fun _ hm => hm⟩
    · exact h.call ids hp hends hc hreq
  | dropChannel n rid =>
    obtain ⟨-,c,hc,hman,-,hdrop⟩ := hcases
    have hne : cid ≠ n := by
      rintro rfl
      exact hman (h.client.managed (Option.isSome_of_eq_some hc))
    rcases hdrop with ⟨-,rfl⟩ | ⟨req,hreq,rfl⟩
    · exact h.drop hne
    · exact h.destructor hne hreq
  | resume i =>
    obtain ⟨k,hk,rfl⟩ := hcases
    exact h.resume ids hk
  | receive =>
    obtain ⟨resp,rest,hresp,rfl⟩ := hcases
    exact h.receive ids hresp
  | work i =>
    obtain ⟨r,-,rfl⟩ := hcases
    exact ⟨h.frame (h.client.congr rfl rfl id) rfl fun _ hm => hm,
      .grow (fun _ hl => hl) (fun _ hm => hm) fun _ hm => hm⟩
  | serve it uuid =>
    obtain ⟨req,rest,r,hidle,hreq,-,rfl⟩ := hcases
    refine ⟨h.frame h.client rfl fun _ hm => hreq ▸ List.mem_cons_of_mem _ hm,
      .grow (fun _ hl => hl) (fun _ hm => hm) fun rid hm => ?_⟩
    simp only [replies,hidle,Option.toList_none,List.append_nil] at hm
    exact List.mem_append_left _ hm
  | reply =>
    obtain ⟨resp,hresp,rfl⟩ := hcases
    refine ⟨h.frame h.client rfl fun _ hm => hm,
      .grow (fun _ hl => hl) (fun _ hm => hm) fun rid hm => ?_⟩
    simpa [replies,hresp] using hm
  | choose i =>
    obtain ⟨r,-,rfl⟩ := hcases
    refine ⟨h.frame h.client rfl fun _ hm => hm,
      .grow (fun _ hl => hl) (fun _ hm => hm) fun rid hm => ?_⟩
    simp only [replies,List.mem_append] at hm ⊢
    exact hm.imp_left .inl
  | other ev =>
    obtain ⟨-,b,-,rfl⟩ := hcases
    exact ⟨h.frame h.client rfl fun _ hm => hm,
      .grow (fun _ hl => hl) (fun _ hm => hm) fun _ hm => hm⟩

end Steady
end Session
end MessageQueue

import MessageQueue.Broker.Channels
import MessageQueue.Client.Connection

/-! What the calls of the application, its threads that wake up, the event loop and the workers do
to the client. -/
namespace MessageQueue.Client
open Base

/-- The subscriber that a thread has given to `basicConsume`. -/
def Pending.subscriber : Pending → Option Subscriber
  | .call (.basicConsume consumerTag queueName autoAck cb) =>
    some ⟨autoAck,queueName,consumerTag,cb⟩
  | _ => none

/-- The tag that a thread is subscribing with. -/
def Pending.tag (pending : Pending) : Option String :=
  pending.subscriber.map Subscriber.subscribeQueueTag

/-- The calls that end a subscription. -/
def Pending.Ends : Pending → Prop
  | .call .closeChannel => True
  | .call .basicCancel => True
  | .destructor => True
  | _ => False

namespace Channel
variable {c : Channel} {rid tag : String} {ok : Bool} {pending : Pending}

/-- The end of a call takes the answer out of its table, whatever the call was. -/
theorem finish_frame : (c.finish rid ok pending).channelId = c.channelId ∧
    (c.finish rid ok pending).basicResp = c.basicResp.erase rid := by
  unfold finish
  simp only
  split
  · exact ⟨rfl,rfl⟩
  · exact ⟨rfl,rfl⟩
  · split <;> exact ⟨rfl,rfl⟩
  · exact ⟨rfl,rfl⟩

@[simp] theorem finish_channelId : (c.finish rid ok pending).channelId = c.channelId :=
  finish_frame.1

@[simp] theorem finish_basicResp : (c.finish rid ok pending).basicResp = c.basicResp.erase rid :=
  finish_frame.2

/-- Every request is sent under the id of its channel and the id that was drawn for it. -/
theorem request_ids {api : Api} {req : Request} (h : c.request rid api = some req) :
    req.rid = rid ∧ req.cid = c.channelId ∧
      (api = .closeChannel ∧ req = .closeChannel rid c.channelId ∨
        api ≠ .closeChannel ∧ ¬ req.ForConnection) := by
  cases api with
  | closeChannel => cases h; exact ⟨rfl,rfl,.inl ⟨rfl,rfl⟩⟩
  | basicAck msgid =>
    obtain ⟨s,-,rfl⟩ := Option.map_eq_some_iff.mp h
    exact ⟨rfl,rfl,.inr ⟨by simp,id⟩⟩
  | basicCancel =>
    obtain ⟨s,-,rfl⟩ := Option.map_eq_some_iff.mp h
    exact ⟨rfl,rfl,.inr ⟨by simp,id⟩⟩
  | basicConsume consumerTag queueName autoAck cb =>
    simp only [request] at h
    split at h
    · cases h
    · cases h; exact ⟨rfl,rfl,.inr ⟨by simp,id⟩⟩
  | declareExchange => cases h; exact ⟨rfl,rfl,.inr ⟨by simp,id⟩⟩
  | deleteExchange => cases h; exact ⟨rfl,rfl,.inr ⟨by simp,id⟩⟩
  | declareQueue => cases h; exact ⟨rfl,rfl,.inr ⟨by simp,id⟩⟩
  | deleteQueue => cases h; exact ⟨rfl,rfl,.inr ⟨by simp,id⟩⟩
  | queueBind => cases h; exact ⟨rfl,rfl,.inr ⟨by simp,id⟩⟩
  | queueUnBind => cases h; exact ⟨rfl,rfl,.inr ⟨by simp,id⟩⟩
  | basicPublish => cases h; exact ⟨rfl,rfl,.inr ⟨by simp,id⟩⟩

/-- Only a subscription, and what ends it, changes the subscriber. -/
theorem finish_other (hends : ¬ pending.Ends) (htag : pending.tag = none) :
    (c.finish rid ok pending).subscriber = c.subscriber := by
  cases pending with
  | openChannel => rfl
  | destructor => exact absurd trivial hends
  | call api =>
    cases api with
    | closeChannel => exact absurd trivial hends
    | basicCancel => exact absurd trivial hends
    | basicConsume => cases htag
    | _ => rfl

/-- A subscription that was granted puts in its subscriber. -/
theorem finish_granted (c : Channel) (rid : String) (htag : pending.tag = some tag) :
    ∃ sub, (c.finish rid true pending).subscriber = some sub ∧ sub.subscribeQueueTag = tag := by
  cases pending with
  | openChannel => cases htag
  | destructor => cases htag
  | call api =>
    cases api with
    | basicConsume => cases htag; exact ⟨_,rfl,rfl⟩
    | _ => cases htag

/-- No call puts in a subscriber but its own. -/
theorem finish_from {sub : Subscriber} (h : (c.finish rid ok pending).subscriber = some sub) :
    c.subscriber = some sub ∨ pending.subscriber = some sub := by
  cases pending with
  | openChannel => exact .inl h
  | destructor => cases h
  | call api =>
    cases api with
    | basicCancel => cases h
    | basicConsume =>
      simp only [finish] at h
      split_ifs at h
      · exact .inr h
      · exact .inl h
    | _ => exact .inl h

/-- A channel that has a subscriber sends no second subscription. -/
theorem request_vacant {api : Api} {req : Request} (h : c.request rid api = some req)
    (htag : (Pending.call api).tag.isSome) : c.subscriber = none := by
  cases api with
  | basicConsume =>
    simp only [request] at h
    split at h
    · cases h
    · assumption
  | _ => cases htag

theorem request_tag {api : Api} {rid' cid' qname : String} {autoAck : Bool}
    (h : c.request rid api = some (.basicConsume rid' cid' tag qname autoAck)) :
    (Pending.call api).tag = some tag := by
  cases api with
  | basicConsume =>
    simp only [request] at h
    split at h <;> cases h
    rfl
  | basicAck =>
    obtain ⟨sub,-,heq⟩ := Option.map_eq_some_iff.mp h
    cases heq
  | basicCancel =>
    obtain ⟨sub,-,heq⟩ := Option.map_eq_some_iff.mp h
    cases heq
  | _ => cases h

end Channel

namespace Connection
variable {k k' : Connection} {cid : String}

/-- The subscriber of the channel, if there are both. -/
def subscriberOf (k : Connection) (cid : String) : Option Subscriber :=
  (k.channels.lookup cid).bind Channel.subscriber

/-- What the application does on a channel sends at most one request, under the new id. -/
theorem call_cases {rid : String} {api : Api} {r : Connection × Option Request}
    (h : k.call cid rid api = some r) :
    ∃ c, k.channels.lookup cid = some c ∧ ((c.request rid api = none ∧ r = (k,none)) ∨
      ∃ req, c.request rid api = some req ∧
        r = ({k with calls := k.calls ++ [⟨cid,rid,.call api⟩]},some req)) := by
  unfold call at h
  split_ifs at h
  obtain ⟨c,hc,rfl⟩ := Option.map_eq_some_iff.mp h
  refine ⟨c,hc,?_⟩
  cases hreq : c.request rid api with
  | none => exact .inl ⟨rfl,rfl⟩
  | some req => exact .inr ⟨req,rfl,rfl⟩

/-- A channel object goes at once, or when its destructor has cancelled the subscription. -/
theorem dropChannel_cases {rid : String} {r : Connection × Option Request}
    (h : k.dropChannel cid rid = some r) :
    ∃ c, k.channels.lookup cid = some c ∧ cid ∉ k.manager ∧ (∀ c ∈ k.calls, c.cid ≠ cid) ∧
      ((c.request rid .basicCancel = none ∧ r = ({k with
          channels := k.channels.erase cid
          held := k.held.filter (· ≠ cid)},none)) ∨
        ∃ req, c.request rid .basicCancel = some req ∧ r = ({k with
          held := k.held.filter (· ≠ cid)
          calls := k.calls ++ [⟨cid,rid,.destructor⟩]},some req)) := by
  unfold dropChannel at h
  split_ifs at h with hlast
  obtain ⟨-,hman,hcalls,-⟩ := hlast
  obtain ⟨c,hc,rfl⟩ := Option.map_eq_some_iff.mp h
  refine ⟨c,hc,hman,hcalls,?_⟩
  cases hreq : c.request rid .basicCancel with
  | none => exact .inl ⟨rfl,rfl⟩
  | some req => exact .inr ⟨req,rfl,rfl⟩

/-- A thread that wakes up takes its response out of the table; what else happens depends on its
call. -/
theorem resume_cases {i : ℕ} (h : k.resume i = some k') :
    ∃ call c ok, k.calls[i]? = some call ∧ k.channels.lookup call.cid = some c ∧
      c.basicResp.lookup call.rid = some ok ∧ ∃ woken, woken = {k with
          calls := k.calls.eraseIdx i
          channels := k.channels.insert call.cid (c.finish call.rid ok call.pending)} ∧
        ((call.pending = .openChannel ∧
            k' = if ok then {woken with held := call.cid::woken.held} else woken) ∨
          (call.pending = .call .closeChannel ∧
            k' = {woken with manager := woken.manager.filter (· ≠ call.cid)}) ∨
          (∃ api, call.pending = .call api ∧ k' = woken) ∨
          (call.pending = .destructor ∧
            k' = {woken with channels := woken.channels.erase call.cid})) := by
  unfold resume at h
  split at h
  · cases h
  next call hcall =>
  split at h
  · cases h
  next c hc =>
  split at h
  · cases h
  next ok hok =>
  refine ⟨call,c,ok,hcall,hc,hok,_,rfl,?_⟩
  simp only at h
  split at h <;> rename_i hp <;> cases h
  · exact .inl ⟨hp,rfl⟩
  · exact .inr (.inl ⟨hp,rfl⟩)
  · exact .inr (.inr (.inl ⟨_,hp,rfl⟩))
  · exact .inr (.inr (.inr ⟨hp,rfl⟩))

theorem resume_pool {i : ℕ} (h : k.resume i = some k') : k'.pool = k.pool := by
  obtain ⟨call,c,ok,-,-,-,woken,hwoken,hcases⟩ := resume_cases h
  rcases hcases with ⟨-,rfl⟩ | ⟨-,rfl⟩ | ⟨api,-,rfl⟩ | ⟨-,rfl⟩
  · split_ifs <;> rw [hwoken]
  · rw [hwoken]
  · rw [hwoken]
  · rw [hwoken]

theorem resume_calls {i : ℕ} (h : k.resume i = some k') : k'.calls = k.calls.eraseIdx i := by
  obtain ⟨call,c,ok,-,-,-,woken,hwoken,hcases⟩ := resume_cases h
  rcases hcases with ⟨-,rfl⟩ | ⟨-,rfl⟩ | ⟨api,-,rfl⟩ | ⟨-,rfl⟩
  · split_ifs <;> rw [hwoken]
  · rw [hwoken]
  · rw [hwoken]
  · rw [hwoken]

/-- A basic response gets into the table of its channel, if the manager finds that. -/
theorem basicResponse_frame (k : Connection) (cid rid n : String) (ok : Bool) :
    (k.basicResponse rid n ok).calls = k.calls ∧ (k.basicResponse rid n ok).manager = k.manager ∧
      (k.basicResponse rid n ok).channels.lookup cid = (k.channels.lookup cid).map fun c =>
        if n = cid ∧ n ∈ k.manager then c.putBasicResponse rid ok else c := by
  by_cases hman : n ∈ k.manager
  · rw [basicResponse,if_pos hman]
    cases hc : k.channels.lookup n with
    | none =>
      refine ⟨rfl,rfl,?_⟩
      by_cases heq : n = cid
      · subst heq
        simp [hc]
      · simp [heq]
    | some c =>
      refine ⟨rfl,rfl,?_⟩
      by_cases heq : n = cid
      · subst heq
        simp [hc,hman]
      · simp [heq,AList.lookup_insert_ne (Ne.symm heq)]
  · rw [basicResponse,if_neg hman]
    exact ⟨rfl,rfl,by simp [hman]⟩

/-- What comes in leaves the calls and the subscribers alone. -/
theorem receive_frame (k : Connection) (resp : Response) : (k.receive resp).calls = k.calls ∧
    ∀ n, (k.receive resp).subscriberOf n = k.subscriberOf n := by
  cases resp with
  | common rid cid ok =>
    refine ⟨(k.basicResponse_frame cid rid cid ok).1,fun n => ?_⟩
    obtain ⟨-,-,hch⟩ := k.basicResponse_frame n rid cid ok
    simp only [receive,subscriberOf,hch]
    cases k.channels.lookup n with
    | none => rfl
    | some c =>
      simp only [Option.map_some,Option.bind_some]
      split_ifs <;> rfl
  | consume cid tag body props =>
    simp only [receive,consumeResponse]
    split_ifs <;> exact ⟨rfl,fun _ => rfl⟩

@[simp] theorem basicResponse_pool {rid n : String} {ok : Bool} :
    (k.basicResponse rid n ok).pool = k.pool := by
  unfold basicResponse
  split_ifs
  · split <;> rfl
  · rfl

/-- A worker takes a task, and a message reaches the callback of the subscriber that has its
tag. -/
theorem work_cases {i : ℕ} {r : Connection × Option ℕ} (h : k.work i = some r) :
    ∃ n resp, k.pool[i]? = some (n,resp) ∧ r.1 = {k with pool := k.pool.eraseIdx i} ∧
      ∀ tag body props, resp = .consume n tag body props →
        r.2 = ((k.subscriberOf n).filter (·.subscribeQueueTag = tag)).map Subscriber.callback := by
  unfold work at h
  split at h
  · cases h
  next n resp hi =>
  cases h
  refine ⟨n,resp,hi,rfl,?_⟩
  rintro tag body props rfl
  unfold subscriberOf
  cases hl : k.channels.lookup n with
  | none => rfl
  | some c =>
    simp only [Option.bind_some,Channel.consume]
    cases hs : c.subscriber with
    | none => rfl
    | some sub => by_cases ht : sub.subscribeQueueTag = tag <;> simp [ht]

end Connection
end MessageQueue.Client

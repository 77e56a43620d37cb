import MessageQueue.Broker.Contents
import MessageQueue.Broker.Subscriptions
import MessageQueue.Link.Network

/-! Where the messages of a callback come from. A client gets messages on a channel only under the
tags that it has subscribed with there, and only such as were in a queue that it subscribed to. -/
namespace MessageQueue
open Base Client

/-- What clients have asked for on their channels, and what was seen in the queues. -/
structure Record where
  asked : ℕ → String → Subscriber → Prop
  seen : String → Content → Prop

namespace Record

/-- A client has subscribed to the queue, on the channel and with the tag. -/
def Wants (r : Record) (conn : ℕ) (cid tag qname : String) : Prop :=
  ∃ sub, r.asked conn cid sub ∧ sub.subscribeQueueTag = tag ∧ sub.subscribeQueueName = qname

/-- A message is on its way for a reason: it was in a queue, and the channel wants that. -/
def Owes (r : Record) (conn : ℕ) : Response → Prop
  | .common .. => True
  | .consume cid tag body props =>
    ∃ qname, r.Wants conn cid tag qname ∧ r.seen qname (body,props.getD {})

variable {r r' : Record} {conn : ℕ}

/-- Records only grow. -/
structure Le (r r' : Record) : Prop where
  asked : ∀ conn cid sub, r.asked conn cid sub → r'.asked conn cid sub
  seen : ∀ qname x, r.seen qname x → r'.seen qname x

theorem Le.wants (h : r.Le r') {cid tag qname : String} (hw : r.Wants conn cid tag qname) :
    r'.Wants conn cid tag qname := by
  obtain ⟨sub,hask,hsub⟩ := hw
  exact ⟨sub,h.asked conn cid sub hask,hsub⟩

theorem Le.owes (h : r.Le r') {resp : Response} (ho : r.Owes conn resp) : r'.Owes conn resp := by
  cases resp with
  | common => trivial
  | consume cid tag body props =>
    obtain ⟨qname,hw,hs⟩ := ho
    exact ⟨qname,h.wants hw,h.seen qname _ hs⟩

end Record

/-- A call of the event, if it is a subscription. -/
def LinkEvent.subscription : LinkEvent → Option (String × Subscriber)
  | .call cid _ (.basicConsume tag qname autoAck cb) => some (cid,⟨autoAck,qname,tag,cb⟩)
  | _ => none

/-- Both ends of a connection have what the record says. -/
structure Ends.Traced (r : Record) (conn : ℕ) (e : Ends) : Prop where
  requests : ∀ rid cid tag qname autoAck, .basicConsume rid cid tag qname autoAck ∈ e.requests →
    r.Wants conn cid tag qname
  replying : ∀ resp ∈ e.replying, r.Owes conn resp
  responses : ∀ resp ∈ e.responses, r.Owes conn resp
  pool : ∀ t ∈ e.client.pool, t.1 = t.2.cid ∧ r.Owes conn t.2
  calls : ∀ c ∈ e.client.calls, ∀ sub, c.pending.subscriber = some sub → r.asked conn c.cid sub
  named : ∀ cid c, e.client.channels.lookup cid = some c → c.channelId = cid
  subscribers : ∀ cid sub, e.client.subscriberOf cid = some sub → r.asked conn cid sub

namespace Ends.Traced
variable {r r' : Record} {conn : ℕ} {e : Ends} {ev : LinkEvent} {s s' : Session}

theorem start : Ends.Traced r conn {} where
  requests _ _ _ _ _ h := by cases h
  replying _ h := by cases h
  responses _ h := by cases h
  pool _ h := by cases h
  calls _ h := by cases h
  named _ _ h := by cases h
  subscribers _ _ h := by cases h

theorem mono (h : e.Traced r conn) (hle : r.Le r') : e.Traced r' conn where
  requests rid cid tag qname autoAck hreq := hle.wants (h.requests rid cid tag qname autoAck hreq)
  replying resp hr := hle.owes (h.replying resp hr)
  responses resp hr := hle.owes (h.responses resp hr)
  pool t ht := ⟨(h.pool t ht).1,hle.owes (h.pool t ht).2⟩
  calls c hc sub hsub := hle.asked conn c.cid sub (h.calls c hc sub hsub)
  named := h.named
  subscribers cid sub hsub := hle.asked conn cid sub (h.subscribers cid sub hsub)

/-- A request is sent, and its thread waits. -/
theorem send (h : s.ends.Traced r conn) (k : Client.Connection) {req : Request} {c : Call}
    {held : List String}
    (hk : k = {s.client with held := held, calls := s.client.calls ++ [c]})
    (hreq : ∀ rid cid tag qname autoAck, req = .basicConsume rid cid tag qname autoAck →
      r.Wants conn cid tag qname)
    (hcall : ∀ sub, c.pending.subscriber = some sub → r.asked conn c.cid sub) :
    (s.send k req).ends.Traced r conn := by
  subst hk
  refine ⟨fun rid cid tag qname autoAck hin => ?_,h.replying,h.responses,h.pool,fun c' hc' => ?_,
    h.named,h.subscribers⟩
  · rcases List.mem_append.mp hin with hin | hin
    · exact h.requests rid cid tag qname autoAck hin
    · exact hreq rid cid tag qname autoAck (List.mem_singleton.mp hin).symm
  · rcases List.mem_append.mp hc' with hc' | hc'
    · exact h.calls c' hc'
    · rw [List.mem_singleton.mp hc']
      exact hcall

/-- A thread wakes up, and puts in the subscriber that it waited for at most. -/
theorem resume (h : s.ends.Traced r conn) {i : ℕ} {k : Client.Connection}
    (hk : s.client.resume i = some k) : ({s with client := k} : Session).ends.Traced r conn := by
  have hpool := Connection.resume_pool hk
  obtain ⟨call,c,ok,hi,hc,-,woken,hwoken,hcases⟩ := Connection.resume_cases hk
  have hcall : call ∈ s.client.calls := List.mem_of_getElem? hi
  have hwokenNamed : ∀ cid c', woken.channels.lookup cid = some c' → c'.channelId = cid := by
    intro cid c' hl
    rw [hwoken] at hl
    rcases Table.lookup_insert_eq_some.mp hl with ⟨rfl,rfl⟩ | ⟨-,hl⟩
    · rw [Channel.finish_channelId]
      exact h.named _ c hc
    · exact h.named cid c' hl
  have hwokenSub : ∀ cid c' sub, woken.channels.lookup cid = some c' → c'.subscriber = some sub →
      r.asked conn cid sub := by
    intro cid c' sub hl hsub
    rw [hwoken] at hl
    rcases Table.lookup_insert_eq_some.mp hl with ⟨rfl,rfl⟩ | ⟨-,hl⟩
    · rcases Channel.finish_from hsub with hsub | hsub
      · exact h.subscribers call.cid sub (Option.bind_eq_some_iff.mpr ⟨c,hc,hsub⟩)
      · exact h.calls call hcall sub hsub
    · exact h.subscribers cid sub (Option.bind_eq_some_iff.mpr ⟨c',hl,hsub⟩)
  -- whatever call it was, no other channel is put in
  have hframe : ∀ cid c', k.channels.lookup cid = some c' →
      woken.channels.lookup cid = some c' := by
    rcases hcases with ⟨-,rfl⟩ | ⟨-,rfl⟩ | ⟨api,-,rfl⟩ | ⟨-,rfl⟩
    · split_ifs <;> exact fun _ _ hl => hl
    · exact fun _ _ hl => hl
    · exact fun _ _ hl => hl
    · exact fun _ _ hl => (Table.lookup_erase_eq_some.mp hl).2
  refine ⟨h.requests,h.replying,h.responses,?_,fun c' hc' => ?_,fun cid c' hl => ?_,
    fun cid sub hsub => ?_⟩
  · change ∀ t ∈ k.pool, _
    rw [hpool]
    exact h.pool
  · change c' ∈ k.calls at hc'
    rw [Connection.resume_calls hk] at hc'
    exact h.calls c' (List.mem_of_mem_eraseIdx hc')
  · exact hwokenNamed cid c' (hframe cid c' hl)
  · obtain ⟨c',hl,hsub⟩ := Option.bind_eq_some_iff.mp hsub
    exact hwokenSub cid c' sub (hframe cid c' hl) hsub

/-- The event loop takes in the oldest response. -/
theorem receive (h : s.ends.Traced r conn) {resp : Response} {rest : List Response}
    (hresp : s.responses = resp::rest) :
    ({s with responses := rest, client := s.client.receive resp} : Session).ends.Traced r conn := by
  have howes : r.Owes conn resp := h.responses resp (by
    change resp ∈ s.responses
    rw [hresp]
    exact List.mem_cons_self)
  have hrest : ∀ resp' ∈ rest, r.Owes conn resp' := fun resp' hin => h.responses resp' (by
    change resp' ∈ s.responses
    rw [hresp]
    exact List.mem_cons_of_mem _ hin)
  obtain ⟨hcalls,hsub⟩ := s.client.receive_frame resp
  refine ⟨h.requests,h.replying,hrest,?_,?_,?_,?_⟩
  · change ∀ t ∈ (s.client.receive resp).pool, _
    cases resp with
    | common rid cid ok =>
      rw [Connection.receive,Connection.basicResponse_pool]
      exact h.pool
    | consume cid tag body props =>
      simp only [Connection.receive,Connection.consumeResponse]
      split_ifs
      · intro t ht
        rcases List.mem_append.mp ht with ht | ht
        · exact h.pool t ht
        · rw [List.mem_singleton.mp ht]
          exact ⟨rfl,howes⟩
      · exact h.pool
  · change ∀ c ∈ (s.client.receive resp).calls, _
    rw [hcalls]
    exact h.calls
  · intro cid c hl
    change (s.client.receive resp).channels.lookup cid = some c at hl
    cases resp with
    | common rid n ok =>
      obtain ⟨-,-,hch⟩ := s.client.basicResponse_frame cid rid n ok
      rw [Connection.receive,hch,Option.map_eq_some_iff] at hl
      obtain ⟨c₀,hl,rfl⟩ := hl
      split_ifs <;> exact h.named cid c₀ hl
    | consume n tag body props =>
      simp only [Connection.receive,Connection.consumeResponse] at hl
      split_ifs at hl <;> exact h.named cid c hl
  · intro cid sub hsome
    change (s.client.receive resp).subscriberOf cid = some sub at hsome
    rw [hsub] at hsome
    exact h.subscribers cid sub hsome

/-- What happens on a connection is in keeping with the record, if its subscription is. -/
theorem step (h : s.ends.Traced r conn) (hown : ev.isOwn = true) (hs : s.step ev = some s')
    (hask : ∀ cid sub, ev.subscription = some (cid,sub) → r.asked conn cid sub) :
    s'.ends.Traced r conn := by
  have hcases := Session.step_cases hs
  cases ev with
  | openChannel cid rid =>
    obtain ⟨-,-,-,rfl⟩ := hcases
    refine ⟨fun rid' cid' tag qname autoAck hin => ?_,h.replying,h.responses,h.pool,
      fun c hc sub hsub => ?_,fun cid' c hl => ?_,fun cid' sub hsub => ?_⟩
    · rcases List.mem_append.mp hin with hin | hin
      · exact h.requests rid' cid' tag qname autoAck hin
      · cases List.mem_singleton.mp hin
    · rcases List.mem_append.mp hc with hc | hc
      · exact h.calls c hc sub hsub
      · rw [List.mem_singleton.mp hc] at hsub
        cases hsub
    · rcases Table.lookup_insert_eq_some.mp hl with ⟨rfl,rfl⟩ | ⟨-,hl⟩
      · rfl
      · exact h.named cid' c hl
    · obtain ⟨c,hl,hsub⟩ := Option.bind_eq_some_iff.mp hsub
      rcases Table.lookup_insert_eq_some.mp hl with ⟨rfl,rfl⟩ | ⟨-,hl⟩
      · cases hsub
      · exact h.subscribers cid' sub (Option.bind_eq_some_iff.mpr ⟨c,hl,hsub⟩)
  | call cid rid api =>
    obtain ⟨-,c,hc,⟨-,rfl⟩ | ⟨req,hreq,rfl⟩⟩ := hcases
    · exact h
    · have hsub : ∀ sub, (Pending.call api).subscriber = some sub → r.asked conn cid sub := by
        intro sub hsub
        cases api with
        | basicConsume tag qname autoAck cb =>
          cases hsub
          exact hask cid _ rfl
        | _ => cases hsub
      refine h.send _ (c := ⟨cid,rid,.call api⟩) rfl ?_ hsub
      rintro rid' cid' tag qname autoAck rfl
      cases api with
      | basicConsume tag' qname' autoAck' cb =>
        have hasked := hsub _ rfl
        have hname := h.named cid c hc
        simp only [Client.Channel.request] at hreq
        split at hreq
        · cases hreq
        · cases hreq
          rw [← hname] at hasked
          exact ⟨_,hasked,rfl,rfl⟩
      | basicAck msgid =>
        obtain ⟨sub,-,heq⟩ := Option.map_eq_some_iff.mp hreq
        cases heq
      | basicCancel =>
        obtain ⟨sub,-,heq⟩ := Option.map_eq_some_iff.mp hreq
        cases heq
      | _ => cases hreq
  | dropChannel cid rid =>
    obtain ⟨-,c,-,-,-,⟨-,rfl⟩ | ⟨req,hreq,rfl⟩⟩ := hcases
    · refine ⟨h.requests,h.replying,h.responses,h.pool,h.calls,fun cid' c hl => ?_,
        fun cid' sub hsub => ?_⟩
      · exact h.named cid' c (Table.lookup_erase_eq_some.mp hl).2
      · obtain ⟨c,hl,hsub⟩ := Option.bind_eq_some_iff.mp hsub
        exact h.subscribers cid' sub
          (Option.bind_eq_some_iff.mpr ⟨c,(Table.lookup_erase_eq_some.mp hl).2,hsub⟩)
    · refine h.send _ (c := ⟨cid,rid,.destructor⟩) rfl ?_ fun sub hsub => by cases hsub
      rintro rid' cid' tag qname autoAck rfl
      obtain ⟨sub,-,heq⟩ := Option.map_eq_some_iff.mp hreq
      cases heq
  | resume i =>
    obtain ⟨k,hk,rfl⟩ := hcases
    exact h.resume hk
  | receive =>
    obtain ⟨resp,rest,hresp,rfl⟩ := hcases
    exact h.receive hresp
  | work i =>
    obtain ⟨w,-,rfl⟩ := hcases
    exact ⟨h.requests,h.replying,h.responses,fun t ht => h.pool t (List.mem_of_mem_eraseIdx ht),
      h.calls,h.named,h.subscribers⟩
  | serve it uuid =>
    obtain ⟨req,rest,w,-,hreq,hw,rfl⟩ := hcases
    refine ⟨fun rid cid tag qname autoAck hin => ?_,fun resp hresp => ?_,h.responses,h.pool,h.calls,
      h.named,h.subscribers⟩
    · refine h.requests rid cid tag qname autoAck ?_
      change _ ∈ s.requests
      rw [hreq]
      exact List.mem_cons_of_mem _ hin
    · obtain ⟨ok,rfl⟩ := Broker.handle_answer hw hresp
      trivial
  | reply =>
    obtain ⟨resp,hresp,rfl⟩ := hcases
    refine ⟨h.requests,fun _ hnone => ?_,fun resp' hin => ?_,h.pool,h.calls,h.named,h.subscribers⟩
    · cases hnone
    · rcases List.mem_append.mp hin with hin | hin
      · exact h.responses resp' hin
      · rw [List.mem_singleton.mp hin]
        exact h.replying resp hresp
  | choose i => cases hown
  | other ev => cases hown

end Ends.Traced

/-- Where nobody subscribes, the consumers stay as they are. -/
theorem ConsumerManager.All.undisturbed (P : String → Consumer → Prop) :
    ConsumerManager.Keeps (fun _ _ => False) (ConsumerManager.All P) :=
  All.keeps fun _ _ _ _ h => h.elim

namespace Broker
variable {b b' : Broker} {ev : Event} {P : String → Consumer → Prop}

/-- The message is available in the queue. -/
def Has (b : Broker) (qname : String) (x : Content) : Prop :=
  ∃ h, b.host.messages.queueMsgs.lookup qname = some h ∧ x ∈ h.contents

/-- A message that is taken was available. -/
theorem has_front {qname : String} {m : MessageManager.Taken}
    (h : (b.host.basicConsume qname).1 = some m) : b.Has qname m.payload.content := by
  change (b.host.messages.front qname).1 = some m at h
  cases hl : b.host.messages.queueMsgs.lookup qname with
  | none =>
    simp only [MessageManager.front,hl] at h
    cases h
  | some x =>
    rw [MessageManager.front_some hl] at h
    obtain ⟨p,hp,rfl⟩ := Option.map_eq_some_iff.mp h
    refine ⟨x,hl,?_⟩
    rw [Handle.contents,x.store.contents_front,hp]
    exact List.mem_append_left _ (List.mem_singleton.mpr rfl)

/-- A new consumer comes from a subscription, on the channel that served it. -/
theorem step_consumers (h : b.consumers.All P) (hn : b.Named) (hs : b.step ev = some b')
    (new : ∀ conn req it uuid tag qname, ev = .request conn req it uuid →
      req.subscribes = some (tag,qname) → ∀ autoAck object,
        P qname ⟨autoAck,qname,tag,⟨object,req.cid,conn⟩⟩) : b'.consumers.All P := by
  have hother : (∀ conn req it uuid, ev = .request conn req it uuid → req.subscribes = none) →
      b'.consumers.All P := by
    intro hnone
    refine (ConsumerManager.All.undisturbed P).step hs ?_ h
    rintro conn req it uuid rfl tag qname channels c hsub
    rw [hnone conn req it uuid rfl] at hsub
    cases hsub
  cases ev with
  | request conn req it uuid =>
    cases req with
    | basicConsume rid cid tag qname autoAck =>
      obtain ⟨r,hr,rfl⟩ := Option.map_eq_some_iff.mp hs
      unfold handle at hr
      split at hr
      · cases hr
        exact h
      · next channels hch =>
        simp only at hr
        split at hr
        · cases hr
          exact h
        · next c hc =>
          obtain ⟨x,hx,rfl⟩ := Option.map_eq_some_iff.mp hr
          cases hx
          obtain ⟨hid,hconn⟩ := hn conn channels cid c hch hc
          simp only [Channel.basicConsume]
          split_ifs
          · exact h
          · refine h.create ?_
            have hself : c.self = ⟨c.self.object,cid,conn⟩ := by rw [← hid,← hconn]
            rw [hself]
            exact new conn _ it uuid tag qname rfl rfl autoAck c.self.object
    | _ =>
      refine hother fun conn' req' it' uuid' heq => ?_
      cases heq
      rfl
  | _ => exact hother fun conn' req' it' uuid' heq => by cases heq

/-- What a worker holds was in its queue. -/
theorem step_running {seen : String → Content → Prop} (hs : b.step ev = some b')
    (hre : ∀ it, ev ≠ .restart it)
    (h : ∀ task m, .took task m ∈ b.running → seen task.qname m.payload.content)
    (hseen : ∀ qname x, b.Has qname x → seen qname x) :
    ∀ task m, .took task m ∈ b'.running → seen task.qname m.payload.content := by
  cases ev with
  | connect conn => cases hs; exact h
  | disconnect conn it =>
    cases hs
    rw [(b.delConnection_frame conn it).2.2]
    exact h
  | request conn req it uuid =>
    obtain ⟨r,hr,rfl⟩ := Option.map_eq_some_iff.mp hs
    rw [handle_running hr]
    exact h
  | take i =>
    obtain ⟨task',-,rfl⟩ := take_cases hs
    intro task m hin
    rcases List.mem_append.mp hin with hin | hin
    · exact h task m hin
    · obtain ⟨t,ht,heq⟩ := Option.map_eq_some_iff.mp (Option.mem_toList.mp hin)
      cases heq
      exact hseen _ _ (has_front ht)
  | choose i =>
    obtain ⟨r,hr,rfl⟩ := Option.map_eq_some_iff.mp hs
    obtain ⟨task',m',-,⟨-,rfl⟩ | ⟨cp,-,rfl⟩⟩ := choose_cases hr
    · exact fun task m hin => h task m (List.mem_of_mem_eraseIdx hin)
    · intro task m hin
      simp only at hin
      split_ifs at hin
      · rcases List.mem_or_eq_of_mem_set hin with hin | hin
        · exact h task m hin
        · cases hin
      · exact h task m (List.mem_of_mem_eraseIdx hin)
  | autoAck i =>
    obtain ⟨task',m',-,rfl⟩ := autoAck_cases hs
    exact fun task m hin => h task m (List.mem_of_mem_eraseIdx hin)
  | restart it => exact absurd rfl (hre it)

end Broker
namespace Network
variable {n n' : Network} {nev : NetworkEvent} {r r' : Record} {conn : ℕ} {e : Ends}

/-- Everything that is on its way is in keeping with the record. -/
structure Traced (r : Record) (n : Network) : Prop where
  named : n.broker.Named
  consumers : n.broker.consumers.All fun qname cp =>
    r.Wants cp.callback.connection cp.callback.id cp.consumerTag qname
  running : ∀ task m, .took task m ∈ n.broker.running → r.seen task.qname m.payload.content
  ends : ∀ conn e, n.ends.lookup conn = some e → e.Traced r conn

namespace Traced

theorem mono (h : n.Traced r) (hle : r.Le r') : n.Traced r' where
  named := h.named
  consumers := h.consumers.mono fun _ _ hw => hle.wants hw
  running task m hin := hle.seen _ _ (h.running task m hin)
  ends conn e he := (h.ends conn e he).mono hle

/-- The broker takes its part of the step. -/
theorem step_broker (h : n.Traced r) (hs : n.step nev = some n')
    (hseen : ∀ qname x, n.broker.Has qname x → r.seen qname x) : n'.broker.Named ∧
      (n'.broker.consumers.All fun qname cp =>
        r.Wants cp.callback.connection cp.callback.id cp.consumerTag qname) ∧
      ∀ task m, .took task m ∈ n'.broker.running → r.seen task.qname m.payload.content := by
  have hb := Network.step_broker hs
  cases hev : n.brokerEvent nev with
  | none =>
    rw [hev] at hb
    rw [hb]
    exact ⟨h.named,h.consumers,h.running⟩
  | some ev =>
    rw [hev] at hb
    refine ⟨Broker.step_named h.named hb,Broker.step_consumers h.consumers h.named hb ?_,
      Broker.step_running hb ?_ h.running hseen⟩
    · rintro conn req it uuid tag qname rfl hsub autoAck object
      cases nev with
      | link c ev =>
        cases ev with
        | serve it' uuid' =>
          simp only [brokerEvent,Option.bind_eq_some_iff,Option.map_eq_some_iff] at hev
          obtain ⟨e,he,req',hreq,heq⟩ := hev
          cases heq
          cases req with
          | basicConsume rid cid tag' qname' autoAck' =>
            cases hsub
            exact (h.ends conn e he).requests rid cid tag qname autoAck'
              (List.mem_of_mem_head? hreq)
          | _ => cases hsub
        | _ => cases hev
      | _ => cases hev
    · rintro it rfl
      cases nev with
      | link c ev =>
        cases ev with
        | serve it' uuid' =>
          simp only [brokerEvent,Option.bind_eq_some_iff,Option.map_eq_some_iff] at hev
          obtain ⟨e,-,req',-,heq⟩ := hev
          cases heq
        | _ => cases hev
      | _ => cases hev

/-- What is pushed goes to a channel that wants it. -/
theorem push (h : n.Traced r) {i : ℕ} {w : Broker × Option (Consumer × Response)}
    (hw : n.broker.choose i = some w) : ∀ conn e,
      (({n with broker := w.1} : Network).push w.2).ends.lookup conn = some e →
        e.Traced r conn := by
  intro conn e he
  obtain ⟨task,m,hi,⟨-,rfl⟩ | ⟨cp,hcp,rfl⟩⟩ := Broker.choose_cases hw
  · exact h.ends conn e he
  · simp only [Network.push,Broker.delivery] at he
    split at he
    · exact h.ends conn e he
    · next e₀ he₀ =>
      rcases Table.lookup_insert_eq_some.mp he with ⟨rfl,rfl⟩ | ⟨-,he⟩
      · have hold := h.ends cp.callback.connection e₀ he₀
        refine ⟨hold.requests,hold.replying,fun resp hin => ?_,hold.pool,hold.calls,hold.named,
          hold.subscribers⟩
        rcases List.mem_append.mp hin with hin | hin
        · exact hold.responses resp hin
        · rw [List.mem_singleton.mp hin]
          exact ⟨task.qname,h.consumers.chosen hcp,h.running task m (List.mem_of_getElem? hi)⟩
      · exact h.ends conn e he

theorem step (h : n.Traced r) (hs : n.step nev = some n')
    (hseen : ∀ qname x, n.broker.Has qname x → r.seen qname x)
    (hask : ∀ conn ev cid sub, nev = .link conn ev → ev.subscription = some (cid,sub) →
      r.asked conn cid sub) : n'.Traced r := by
  obtain ⟨hnamed,hconsumers,hrunning⟩ := h.step_broker hs hseen
  refine ⟨hnamed,hconsumers,hrunning,?_⟩
  cases nev with
  | connect c =>
    simp only [Network.step] at hs
    split_ifs at hs
    cases hs
    intro conn e he
    rcases Table.lookup_insert_eq_some.mp he with ⟨rfl,rfl⟩ | ⟨-,he⟩
    · exact .start
    · exact h.ends conn e he
  | disconnect c it =>
    simp only [Network.step] at hs
    split_ifs at hs
    cases hs
    exact fun conn e he => h.ends conn e (Table.lookup_erase_eq_some.mp he).2
  | link c ev =>
    obtain ⟨hown,e₀,s,he₀,hstep,rfl⟩ := link_cases hs
    intro conn e he
    rcases Table.lookup_insert_eq_some.mp he with ⟨rfl,rfl⟩ | ⟨-,he⟩
    · have hold : (e₀.session conn n.broker).ends.Traced r conn := h.ends conn e₀ he₀
      exact hold.step hown hstep fun cid sub => hask conn ev cid sub rfl
    · exact h.ends conn e he
  | take i =>
    obtain ⟨b,-,rfl⟩ := Option.map_eq_some_iff.mp hs
    exact h.ends
  | autoAck i =>
    obtain ⟨b,-,rfl⟩ := Option.map_eq_some_iff.mp hs
    exact h.ends
  | choose i =>
    obtain ⟨w,hw,rfl⟩ := Option.map_eq_some_iff.mp hs
    exact h.push hw

end Traced

/-- What clients asked for, and what the queues had, up to a point of a run. -/
def recordOf (b₀ : Broker) (nevs : List NetworkEvent) : Record where
  asked conn cid sub := ∃ ev, .link conn ev ∈ nevs ∧ ev.subscription = some (cid,sub)
  seen qname x := ∃ before after n, nevs = before ++ after ∧ system.Run ⟨b₀,∅⟩ before n ∧
    n.broker.Has qname x

theorem recordOf_le (b₀ : Broker) (nevs : List NetworkEvent) (nev : NetworkEvent) :
    (recordOf b₀ nevs).Le (recordOf b₀ (nevs ++ [nev])) where
  asked := by
    rintro conn cid sub ⟨ev,hev,hsub⟩
    exact ⟨ev,List.mem_append_left _ hev,hsub⟩
  seen := by
    rintro qname x ⟨before,after,n,rfl,run,hx⟩
    exact ⟨before,after ++ [nev],n,List.append_assoc ..,run,hx⟩

/-- Every run leaves the network in keeping with its record. -/
theorem run_traced {basedir : String} {it : Iteration} {disk : Disk} {db : Database} {b₀ : Broker}
    {nevs : List NetworkEvent} (start : Broker.construct basedir it disk db = some b₀)
    (run : system.Run ⟨b₀,∅⟩ nevs n) : n.Traced (recordOf b₀ nevs) := by
  induction run with
  | nil =>
    refine ⟨Broker.construct_named start,
      (ConsumerManager.All.undisturbed _).construct start,fun task m hin => ?_,
      fun conn e he => ?_⟩
    · obtain ⟨host,-,rfl⟩ := Option.map_eq_some_iff.mp start
      cases hin
    · cases he
  | @snoc n n' nevs nev run last ih =>
    refine (ih.mono (recordOf_le b₀ nevs nev)).step last ?_ ?_
    · exact fun qname x hx => ⟨nevs,[nev],n,rfl,run,hx⟩
    · rintro conn ev cid sub rfl hsub
      exact ⟨ev,List.mem_append_right _ (List.mem_singleton.mpr rfl),hsub⟩

theorem call_of_subscription {ev : LinkEvent} {cid : String} {sub : Subscriber}
    (h : ev.subscription = some (cid,sub)) : ∃ rid, ev = .call cid rid (.basicConsume
      sub.subscribeQueueTag sub.subscribeQueueName sub.autoAck sub.callback) := by
  cases ev with
  | call cid' rid api =>
    cases api with
    | basicConsume tag qname autoAck cb =>
      cases h
      exact ⟨rid,rfl⟩
    | _ => cases h
  | _ => cases h

/-- A callback is called for a message under its own tag, and the message was in a queue that the
client subscribed to with that tag, on that channel. -/
theorem only_to_subscribers {basedir : String} {it : Iteration} {disk : Disk} {db : Database}
    {b₀ : Broker} {nevs : List NetworkEvent} {i cb : ℕ} {k : Client.Connection}
    (start : Broker.construct basedir it disk db = some b₀)
    (run : system.Run ⟨b₀,∅⟩ nevs n) (he : n.ends.lookup conn = some e)
    (work : e.client.work i = some (k,some cb)) :
    ∃ cid tag body props qname, e.client.pool[i]? = some (cid,.consume cid tag body props) ∧
      (∃ rid qname' autoAck,
        .link conn (.call cid rid (.basicConsume tag qname' autoAck cb)) ∈ nevs) ∧
      (∃ rid autoAck cb',
        .link conn (.call cid rid (.basicConsume tag qname autoAck cb')) ∈ nevs) ∧
      ∃ before after n', nevs = before ++ after ∧ system.Run ⟨b₀,∅⟩ before n' ∧
        n'.broker.Has qname (body,props.getD {}) := by
  have hall := (run_traced start run).ends conn e he
  obtain ⟨cid,resp,hi,-,hcall⟩ := Connection.work_cases work
  obtain ⟨hcid,howes⟩ := hall.pool (cid,resp) (List.mem_of_getElem? hi)
  cases resp with
  | common rid cid' ok =>
    simp only [Connection.work,hi,Option.some.injEq,Prod.mk.injEq] at work
    cases work.2
  | consume cid' tag body props =>
    cases hcid
    obtain ⟨sub,hsub,hcb⟩ := Option.map_eq_some_iff.mp (hcall tag body props rfl).symm
    obtain ⟨hsub,htag⟩ := Option.filter_eq_some_iff.mp hsub
    obtain ⟨ev,hin,hev⟩ := hall.subscribers _ sub hsub
    obtain ⟨rid,rfl⟩ := call_of_subscription hev
    obtain ⟨qname,⟨sub',⟨ev',hin',hev'⟩,htag',rfl⟩,hseen⟩ := howes
    obtain ⟨rid',rfl⟩ := call_of_subscription hev'
    have htag : sub.subscribeQueueTag = tag := by simpa using htag
    rw [htag,hcb] at hin
    rw [htag'] at hin'
    exact ⟨_,tag,body,props,_,hi,⟨rid,_,_,hin⟩,⟨rid',_,_,hin'⟩,hseen⟩

/-- Just before the callback of the second client is called. -/
theorem only_to_subscribers_two : ∃ b₀ n e k, Broker.construct "/data" .listed blankDisk {} =
    some b₀ ∧ system.Run ⟨b₀,∅⟩ oneForTheOther.dropLast n ∧ n.ends.lookup 2 = some e ∧
      e.client.work 0 = some (k,some 7) ∧ ∃ qname rid cid tag autoAck cb',
        .link 2 (.call cid rid (.basicConsume tag qname autoAck cb')) ∈ oneForTheOther.dropLast := by
  have hall : ((Broker.construct "/data" .listed blankDisk {}).bind fun b₀ =>
      oneForTheOther.dropLast.foldlM step ⟨b₀,∅⟩).any (fun n => (n.ends.lookup 2).any fun e =>
        (e.client.work 0).any fun w => w.2 = some 7) = true := by
    decide +kernel
  obtain ⟨b₀,n,start,run,hcalled⟩ := Lts.Run.of_any hall
  simp only [Option.any_eq_true,decide_eq_true_eq] at hcalled
  obtain ⟨e,he,⟨k,cb⟩,hwork,rfl⟩ := hcalled
  obtain ⟨cid,tag,-,-,qname,-,-,⟨rid,autoAck,cb',hin⟩,-⟩ :=
    only_to_subscribers start run he hwork
  exact ⟨b₀,n,e,k,start,run,he,hwork,qname,rid,cid,tag,autoAck,cb',hin⟩

end Network
end MessageQueue

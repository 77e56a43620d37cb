import MessageQueue.Client.Channel

/-! The client's connection: its channels, the threads that wait in one of their calls, the
event loop that takes in what the broker sends, and the worker pool. -/
namespace MessageQueue.Client
open Base

/-- A thread that is blocked in `waitResponse`. -/
structure Call where
  cid : String
  rid : String
  pending : Pending

/-- `channels` are the channel objects that exist, by their ids. The manager points to some of
them, and the application holds pointers to those that were opened for it. -/
structure Connection where
  channels : Table String Channel := ∅
  manager : List String := []
  held : List String := []
  calls : List Call := []
  pool : List (String × Response) := []

namespace Connection
variable (k : Connection)

/-- A new channel is in the manager before its request is sent. -/
def openChannel (cid rid : String) : Connection × Request :=
  ({k with
    channels := k.channels.insert cid {channelId := cid}
    manager := cid::k.manager
    calls := k.calls ++ [⟨cid,rid,.openChannel⟩]},.openChannel rid cid)

/-- A call on a channel that the application holds. -/
def call (cid rid : String) (api : Api) : Option (Connection × Option Request) :=
  if cid ∈ k.held then
    (k.channels.lookup cid).map fun c =>
      match c.request rid api with
      | none => (k,none)
      | some req => ({k with calls := k.calls ++ [⟨cid,rid,.call api⟩]},some req)
  else none

/-- The application drops its pointer, and nobody else has one: not the manager, not a thread
inside a call, not a task of the pool. The destructor cancels the subscription. -/
def dropChannel (cid rid : String) : Option (Connection × Option Request) :=
  if cid ∈ k.held ∧ cid ∉ k.manager ∧ (∀ c ∈ k.calls, c.cid ≠ cid) ∧ ∀ t ∈ k.pool, t.1 ≠ cid then
    (k.channels.lookup cid).map fun c =>
      match c.request rid .basicCancel with
      | none => ({k with
          channels := k.channels.erase cid
          held := k.held.filter (· ≠ cid)},none)
      | some req => ({k with
          held := k.held.filter (· ≠ cid)
          calls := k.calls ++ [⟨cid,rid,.destructor⟩]},some req)
  else none

/-- A thread finds its response and ends its call. -/
def resume (i : ℕ) : Option Connection :=
  match k.calls[i]? with
  | none => none
  | some call =>
    match k.channels.lookup call.cid with
    | none => none
    | some c =>
      match c.basicResp.lookup call.rid with
      | none => none
      | some ok =>
        let k := {k with
          calls := k.calls.eraseIdx i
          channels := k.channels.insert call.cid (c.finish call.rid ok call.pending)}
        match call.pending with
        | .openChannel => some (if ok then {k with held := call.cid::k.held} else k)
        | .call .closeChannel => some {k with manager := k.manager.filter (· ≠ call.cid)}
        | .call _ => some k
        | .destructor => some {k with channels := k.channels.erase call.cid}

/-- The event loop finds the channel of a response through the manager. -/
def basicResponse (rid cid : String) (ok : Bool) : Connection :=
  if cid ∈ k.manager then
    match k.channels.lookup cid with
    | none => k
    | some c => {k with channels := k.channels.insert cid (c.putBasicResponse rid ok)}
  else k

def consumeResponse (resp : Response) : Connection :=
  if resp.cid ∈ k.manager then {k with pool := k.pool ++ [(resp.cid,resp)]} else k

def receive : Response → Connection
  | .common rid cid ok => k.basicResponse rid cid ok
  | .consume cid consumerTag body properties =>
    k.consumeResponse (.consume cid consumerTag body properties)

/-- A worker runs a task: the callback that it calls, if it calls one. -/
def work (i : ℕ) : Option (Connection × Option ℕ) :=
  match k.pool[i]? with
  | none => none
  | some (cid,resp) =>
    some ({k with pool := k.pool.eraseIdx i},
      match resp with
      | .consume _ consumerTag .. => (k.channels.lookup cid).bind fun c => c.consume consumerTag
      | .common .. => none)

end Connection
end MessageQueue.Client

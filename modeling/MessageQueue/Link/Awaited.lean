import MessageQueue.Link.Ids

/-! The client's side of the waits. As long as nothing is sent on a channel after its close
request, every response comes back to a channel that is still there. -/
namespace MessageQueue
open Base Client

/-- The client's side: `flow` is what is on its way, `closing` the close requests it has sent. -/
structure Awaited (flow : List (String × String)) (k : Client.Connection)
    (closing : List (String × String)) (drawn : List String) : Prop where
  ids : Ids flow k drawn
  waits : ∀ c ∈ k.calls, (c.cid,c.rid) ∈ flow ∨ k.Answered c.cid c.rid
  managed : ∀ x ∈ flow, x.1 ∈ k.manager
  kept : ∀ cid, (k.channels.lookup cid).isSome → cid ∉ closing.map Prod.fst → cid ∈ k.manager
  exist : ∀ cid ∈ k.manager, (k.channels.lookup cid).isSome
  held : ∀ cid ∈ k.held, (k.channels.lookup cid).isSome
  last : ∀ x ∈ closing, ∀ y ∈ (flow.filter fun y => y.1 = x.1).getLast?, y = x
  closers : ∀ c ∈ k.calls, c.pending = .call .closeChannel → (c.cid,c.rid) ∈ closing
  destructors : ∀ c ∈ k.calls, c.pending ≠ .destructor
  drawnClosing : ∀ x ∈ closing, x.1 ∈ drawn

namespace Awaited
variable {flow : List (String × String)} {k : Client.Connection}
  {closing : List (String × String)} {drawn : List String} {cid rid : String}

theorem start : Awaited [] {} [] [] where
  ids := .start
  waits := by simp
  managed := by simp
  kept := by simp
  exist := by simp
  held := by simp
  last := by simp
  closers := by simp
  destructors := by simp
  drawnClosing := by simp

/-- Only the calls, the tables and the manager matter. -/
theorem congr (h : Awaited flow k closing drawn) {k' : Client.Connection}
    (hch : k'.channels = k.channels) (hm : k'.manager = k.manager) (hh : k'.held = k.held)
    (hc : k'.calls = k.calls) : Awaited flow k' closing drawn := by
  have hids := h.ids.congr hch hc
  obtain ⟨channels,manager,held,calls,pool⟩ := k'
  obtain ⟨channels',manager',held',calls',pool'⟩ := k
  simp only at hch hm hh hc
  subst hch hm hh hc
  exact ⟨hids,h.waits,h.managed,h.kept,h.exist,h.held,h.last,h.closers,h.destructors,
    h.drawnClosing⟩

/-- The close requests, once this one has been sent, too, or another request. -/
def Closes (pending : Pending) (cid rid : String) (closing closing' : List (String × String)) :
    Prop :=
  (pending ≠ .call .closeChannel ∧ closing' = closing) ∨ closing' = (cid,rid)::closing

/-- A thread sends a request on a channel that is not being closed, and waits. -/
theorem send (h : Awaited flow k closing drawn) (hex : (k.channels.lookup cid).isSome)
    (hopen : cid ∉ closing.map Prod.fst) (hrid : rid ∉ drawn) {pending : Pending}
    (hp : pending ≠ .destructor) {closing' : List (String × String)}
    (hcl : Closes pending cid rid closing closing') :
    Awaited (flow ++ [(cid,rid)]) {k with calls := k.calls ++ [⟨cid,rid,pending⟩]} closing'
      (rid::drawn) := by
  have hsub : ∀ x ∈ closing, x ∈ closing' := by
    rcases hcl with ⟨-,rfl⟩ | rfl
    · exact fun _ hx => hx
    · exact fun _ hx => List.mem_cons_of_mem _ hx
  have hcases : ∀ x ∈ closing', x ∈ closing ∨ x = (cid,rid) := by
    rcases hcl with ⟨-,rfl⟩ | rfl
    · exact fun _ hx => .inl hx
    · exact fun _ hx => (List.mem_cons.mp hx).symm
  have hcall : ∀ c : Call, c ∈ k.calls ++ [⟨cid,rid,pending⟩] →
      c ∈ k.calls ∨ c = ⟨cid,rid,pending⟩ := fun c hc => by simpa using hc
  constructor
  case ids => exact h.ids.send hrid pending
  case waits =>
    intro c hc
    rcases hcall c hc with hc | rfl
    · exact (h.waits c hc).imp_left (List.mem_append_left _)
    · exact .inl (List.mem_append_right _ (List.mem_singleton_self _))
  case managed =>
    intro x hx
    rcases List.mem_append.mp hx with hx | hx
    · exact h.managed x hx
    · rw [List.mem_singleton.mp hx]
      exact h.kept cid hex hopen
  case kept =>
    intro n hn hne
    refine h.kept n hn fun hm => hne ?_
    obtain ⟨x,hx,rfl⟩ := List.mem_map.mp hm
    exact List.mem_map_of_mem (hsub x hx)
  case exist => exact h.exist
  case held => exact h.held
  case last =>
    intro x hx y hy
    rw [List.filter_append,List.filter_singleton] at hy
    rcases hcases x hx with hx | rfl
    · have hne : x.1 ≠ cid := fun heq => hopen (heq ▸ List.mem_map_of_mem hx)
      simp only [hne.symm,Bool.cond_decide,↓reduceIte,List.append_nil] at hy
      exact h.last x hx y hy
    · simpa using hy.symm
  case closers =>
    intro c hc hclose
    rcases hcall c hc with hc | rfl
    · exact hsub _ (h.closers c hc hclose)
    · rcases hcl with ⟨hne,-⟩ | rfl
      · exact absurd hclose hne
      · exact List.mem_cons_self
  case destructors =>
    intro c hc
    rcases hcall c hc with hc | rfl
    · exact h.destructors c hc
    · exact hp
  case drawnClosing =>
    intro x hx
    rcases hcases x hx with hx | rfl
    · exact List.mem_cons_of_mem _ (h.drawnClosing x hx)
    · exact List.mem_cons_of_mem _ (h.ids.drawnChannels cid hex)

/-- A new channel object comes into the manager. -/
theorem create (h : Awaited flow k closing drawn) (hcid : cid ∉ drawn) :
    Awaited flow {k with
      channels := k.channels.insert cid {channelId := cid}
      manager := cid::k.manager} closing (cid::drawn) := by
  have hne : ∀ {n : String}, (k.channels.lookup n).isSome → n ≠ cid := by
    rintro n hs rfl
    exact hcid (h.ids.drawnChannels n hs)
  constructor
  case ids => exact h.ids.create hcid _
  case waits => exact fun c hc => (h.waits c hc).imp_right (h.ids.answered_create hcid).mpr
  case managed => exact fun x hx => List.mem_cons_of_mem _ (h.managed x hx)
  case kept =>
    intro n hn hcl
    by_cases heq : n = cid
    · exact heq ▸ List.mem_cons_self
    · rw [AList.lookup_insert_ne heq] at hn
      exact List.mem_cons_of_mem _ (h.kept n hn hcl)
  case exist =>
    intro n hn
    rcases List.mem_cons.mp hn with rfl | hn
    · simp
    · rw [AList.lookup_insert_ne (hne (h.exist n hn))]
      exact h.exist n hn
  case held =>
    intro n hn
    rw [AList.lookup_insert_ne (hne (h.held n hn))]
    exact h.held n hn
  case last => exact h.last
  case closers => exact h.closers
  case destructors => exact h.destructors
  case drawnClosing => exact fun x hx => List.mem_cons_of_mem _ (h.drawnClosing x hx)

/-- A channel that nobody points to any more goes. -/
theorem drop (h : Awaited flow k closing drawn) (hm : cid ∉ k.manager)
    (hc : ∀ c ∈ k.calls, c.cid ≠ cid) :
    Awaited flow {k with
      channels := k.channels.erase cid
      held := k.held.filter (· ≠ cid)} closing drawn := by
  constructor
  case ids => exact h.ids.drop cid _
  case waits =>
    intro c hmem
    refine (h.waits c hmem).imp_right ?_
    rintro ⟨ch,ok,hl,hr⟩
    exact ⟨ch,ok,(AList.lookup_erase_ne (hc c hmem)).trans hl,hr⟩
  case managed => exact h.managed
  case kept =>
    intro n hn
    obtain ⟨c,hl⟩ := Option.isSome_iff_exists.mp hn
    exact h.kept n (Option.isSome_of_eq_some (Table.lookup_erase_eq_some.mp hl).2)
  case exist =>
    intro n hn
    have hne : n ≠ cid := fun heq => hm (heq ▸ hn)
    rw [AList.lookup_erase_ne hne]
    exact h.exist n hn
  case held =>
    intro n hn
    obtain ⟨hn,hne⟩ := List.mem_filter.mp hn
    rw [AList.lookup_erase_ne (by simpa using hne)]
    exact h.held n hn
  case last => exact h.last
  case closers => exact h.closers
  case destructors => exact h.destructors
  case drawnClosing => exact h.drawnClosing

/-- The oldest response reaches its channel. -/
theorem answer (h : Awaited ((cid,rid)::flow) k closing drawn) (ok : Bool) :
    Awaited flow (k.basicResponse rid cid ok) closing drawn := by
  have hm : cid ∈ k.manager := h.managed (cid,rid) List.mem_cons_self
  have hex := h.exist cid hm
  obtain ⟨ch,hch⟩ := Option.isSome_iff_exists.mp hex
  have hk : k.basicResponse rid cid ok =
      {k with channels := k.channels.insert cid (ch.putBasicResponse rid ok)} := by
    simp only [Client.Connection.basicResponse,if_pos hm,hch]
  rw [hk]
  have hsome : ∀ {n : String}, (AList.lookup n (k.channels.insert cid
      (ch.putBasicResponse rid ok))).isSome = (k.channels.lookup n).isSome :=
    Table.isSome_lookup_insert hex
  constructor
  case ids => exact h.ids.put hch ok
  case waits =>
    intro c hc
    rcases h.waits c hc with hw | hw
    · rcases List.mem_cons.mp hw with hw | hw
      · exact .inr ((h.ids.answered_put hch ok).mpr (.inr hw))
      · exact .inl hw
    · exact .inr ((h.ids.answered_put hch ok).mpr (.inl hw))
  case managed => exact fun x hx => h.managed x (List.mem_cons_of_mem _ hx)
  case kept => exact fun n hn => h.kept n (hsome ▸ hn)
  case exist => exact fun n hn => hsome ▸ h.exist n hn
  case held => exact fun n hn => hsome ▸ h.held n hn
  case last =>
    intro x hx y hy
    refine h.last x hx y ?_
    by_cases heq : cid = x.1
    · rw [List.filter_cons_of_pos (by simpa using heq),List.getLast?_cons]
      have hy : (flow.filter fun y => y.1 = x.1).getLast? = some y := hy
      simp [hy]
    · rwa [List.filter_cons_of_neg (by simpa using heq)]
  case closers => exact h.closers
  case destructors => exact h.destructors
  case drawnClosing => exact h.drawnClosing

/-- A thread takes its answer out of the table; the channel it was on stays. -/
theorem finish (h : Awaited flow k closing drawn) {i : ℕ} {call : Call} {ch : Client.Channel}
    {ok : Bool} (hi : k.calls[i]? = some call) (hch : k.channels.lookup call.cid = some ch) :
    Awaited flow {k with
      calls := k.calls.eraseIdx i
      channels := k.channels.insert call.cid (ch.finish call.rid ok call.pending)} closing drawn := by
  have hsome : ∀ {n : String}, (AList.lookup n (k.channels.insert call.cid
      (ch.finish call.rid ok call.pending))).isSome = (k.channels.lookup n).isSome :=
    Table.isSome_lookup_insert (Option.isSome_of_eq_some hch)
  obtain ⟨hmem,-⟩ := h.ids.calls_erase hi
  constructor
  case ids => exact h.ids.finish hi hch
  case waits =>
    intro c hc
    obtain ⟨hc,hne⟩ := (hmem c).mp hc
    refine (h.waits c hc).imp_right fun ha => (Ids.answered_finish hch).mpr ⟨ha,fun heq => hne ?_⟩
    exact congrArg Prod.snd heq
  case managed => exact h.managed
  case kept => exact fun n hn => h.kept n (hsome ▸ hn)
  case exist => exact fun n hn => hsome ▸ h.exist n hn
  case held => exact fun n hn => hsome ▸ h.held n hn
  case last => exact h.last
  case closers => exact fun c hc => h.closers c ((hmem c).mp hc).1
  case destructors => exact fun c hc => h.destructors c ((hmem c).mp hc).1
  case drawnClosing => exact h.drawnClosing

/-- A channel that was opened is handed to the application. -/
theorem hold (h : Awaited flow k closing drawn) (hex : (k.channels.lookup cid).isSome) :
    Awaited flow {k with held := cid::k.held} closing drawn where
  __ := h
  ids := h.ids.congr rfl rfl
  held := by
    intro n hn
    rcases List.mem_cons.mp hn with rfl | hn
    · exact hex
    · exact h.held n hn

/-- A channel whose close request was answered leaves the manager, and nothing is under way to
it any more. -/
theorem unmanage (h : Awaited flow k closing drawn) (hcl : (cid,rid) ∈ closing)
    (hout : (cid,rid) ∉ flow) :
    Awaited flow {k with manager := k.manager.filter (· ≠ cid)} closing drawn where
  __ := h
  ids := h.ids.congr rfl rfl
  managed := by
    intro x hx
    refine List.mem_filter.mpr ⟨h.managed x hx,?_⟩
    by_contra heq
    have hmem : x ∈ flow.filter fun y => y.1 = cid :=
      List.mem_filter.mpr ⟨hx,by simpa using heq⟩
    have hlast := List.getLast?_eq_some_getLast (List.ne_nil_of_mem hmem)
    have heq := h.last (cid,rid) hcl _ hlast
    exact hout (heq ▸ (List.mem_filter.mp (List.mem_of_getLast? hlast)).1)
  kept := by
    intro n hn hne
    refine List.mem_filter.mpr ⟨h.kept n hn hne,?_⟩
    have hne : n ≠ cid := fun heq => hne (heq ▸ List.mem_map_of_mem hcl)
    simpa using hne
  exist := fun n hn => h.exist n (List.mem_filter.mp hn).1

/-- A thread wakes up and ends its call. -/
theorem resume (h : Awaited flow k closing drawn) {i : ℕ} {k' : Client.Connection}
    (hr : k.resume i = some k') : Awaited flow k' closing drawn := by
  obtain ⟨call,c,ok,hi,hc,hok,woken,hwoken,hcases⟩ := Client.Connection.resume_cases hr
  have hmem : call ∈ k.calls := List.mem_of_getElem? hi
  have hf : Awaited flow woken closing drawn := hwoken ▸ h.finish hi hc
  rcases hcases with ⟨-,rfl⟩ | ⟨hp,rfl⟩ | ⟨api,-,rfl⟩ | ⟨hp,-⟩
  · split_ifs
    · exact hf.hold (by simp [hwoken])
    · exact hf
  · refine hf.unmanage (h.closers call hmem hp) fun hflow => ?_
    exact h.ids.unanswered _ hflow ⟨c,ok,hc,hok⟩
  · exact hf
  · exact absurd hp (h.destructors call hmem)

end Awaited
end MessageQueue

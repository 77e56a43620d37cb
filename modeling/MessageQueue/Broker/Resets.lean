import MessageQueue.Broker.Isolation
import MessageQueue.Broker.Volatile
import Mathlib.Data.List.Induction

/-! `clear` of the virtual host, and a new host in its place. The registries and the stores are
emptied and the tables dropped, so the two are told apart by what has to be stored later on. -/
namespace MessageQueue
open Base

/-- The path is one of the two files of the queue. -/
def MessageMapper.Owns (m : MessageMapper) (p : Path) : Prop :=
  p = resolve m.nameDataFile ∨ p = resolve m.nameTempFile

theorem FileHelper.removeFile_gone {d : Disk} (hp : d.plan = ∅) (name : String) :
    (removeFile d name).2.plan = ∅ ∧ ∀ p f, (removeFile d name).2.files p = some f ↔
      d.files p = some f ∧ p ≠ resolve name := by
  simp only [removeFile,Disk.next_done hp]
  cases hf : d.files (resolve name) with
  | none =>
    refine ⟨hp,fun p f => (and_iff_left_of_imp fun h e => ?_).symm⟩
    rw [e,hf] at h
    cases h
  | some c =>
    refine ⟨hp,fun p f => ?_⟩
    by_cases h : p = resolve name
    · simp [h]
    · simp [h]

theorem MessageMapper.removeFile_gone (m : MessageMapper) {d : Disk} (hp : d.plan = ∅) :
    (m.removeFile d).plan = ∅ ∧ ∀ p f, (m.removeFile d).files p = some f ↔
      d.files p = some f ∧ ¬ m.Owns p := by
  obtain ⟨hplan,hdata⟩ := FileHelper.removeFile_gone hp m.nameDataFile
  obtain ⟨hplan',htemp⟩ := FileHelper.removeFile_gone hplan m.nameTempFile
  refine ⟨hplan',fun p f => (htemp p f).trans ?_⟩
  rw [hdata,and_assoc,Owns,not_or]

namespace MessageManager
variable {m : MessageManager} {d : Disk} {n q : String}

/-- The files of the queue's handle. -/
def mapper (m : MessageManager) (q : String) : Option MessageMapper :=
  (m.queueMsgs.lookup q).map fun x => x.store.mapper

/-- Whether a store holds a message. -/
def Emptied (x : Handle) : Prop := x.store.msgs = [] ∧ x.store.waitackMsgs = ∅

/-- One round of `clear`. -/
theorem clearQueueMessage_spec (hp : d.plan = ∅) {ks : List String}
    (he : m.Stores fun q x => q = n ∨ q ∈ ks ∨ Emptied x) :
    (m.clearQueueMessage d n).2.plan = ∅ ∧
      (m.clearQueueMessage d n).1.basedir = m.basedir ∧
      (m.clearQueueMessage d n).1.mapper = m.mapper ∧
      ((m.clearQueueMessage d n).1.Stores fun q x => q ∈ ks ∨ Emptied x) ∧
      ∀ p f, (m.clearQueueMessage d n).2.files p = some f ↔
        d.files p = some f ∧ ∀ w ∈ m.mapper n, ¬ w.Owns p := by
  unfold clearQueueMessage
  cases hl : m.queueMsgs.lookup n with
  | none =>
    refine ⟨hp,rfl,rfl,fun q x hx => ?_,fun p f => by simp [mapper,hl]⟩
    cases he q x hx with
    | inl hq =>
      subst hq
      cases hl.symm.trans hx
    | inr h => exact h
  | some x =>
    obtain ⟨hplan,hfiles⟩ := x.store.mapper.removeFile_gone hp
    refine ⟨hplan,rfl,?_,fun q y hy => ?_,fun p f => (hfiles p f).trans (by simp [mapper,hl])⟩
    · funext q
      by_cases hq : q = n
      · subst hq
        simp [mapper,update,hl,QueueMessage.clear]
      · simp only [mapper,update,AList.lookup_insert_ne hq]
    · rcases Table.lookup_insert_eq_some.mp hy with ⟨rfl,rfl⟩ | ⟨hq,hy⟩
      · exact .inr ⟨rfl,rfl⟩
      · exact (he q y hy).resolve_left hq

/-- What the loop of `clear` leaves. -/
theorem clear_loop (ks : List String) (hp : d.plan = ∅)
    (he : m.Stores fun q x => q ∈ ks ∨ Emptied x) :
    let r := ks.foldl (fun r qname => r.1.clearQueueMessage r.2 qname) (m,d)
    r.2.plan = ∅ ∧ r.1.basedir = m.basedir ∧ (r.1.Stores fun _ x => Emptied x) ∧
      ∀ p f, r.2.files p = some f ↔
        d.files p = some f ∧ ∀ k ∈ ks, ∀ w ∈ m.mapper k, ¬ w.Owns p := by
  induction ks generalizing m d with
  | nil => exact ⟨hp,rfl,fun q x hx => (he q x hx).resolve_left List.not_mem_nil,by simp⟩
  | cons k ks ih =>
    have hround : m.Stores fun q x => q = k ∨ q ∈ ks ∨ Emptied x :=
      fun q x hx => by simpa [or_assoc] using he q x hx
    obtain ⟨hplan,hbase,hmap,hstores,hfiles⟩ := clearQueueMessage_spec hp hround
    obtain ⟨hplan',hbase',hstores',hfiles'⟩ := ih hplan hstores
    refine ⟨hplan',hbase'.trans hbase,hstores',fun p f => ?_⟩
    rw [List.foldl_cons,hfiles',hfiles,hmap,and_assoc,List.forall_mem_cons]

/-- `clear` empties every store and removes the files of the handles, and no others. -/
theorem clear_spec (it : Iteration) (hp : d.plan = ∅) :
    (m.clear it d).2.plan = ∅ ∧ (m.clear it d).1.basedir = m.basedir ∧
      (m.clear it d).1.Fleeting ∧ ((m.clear it d).1.ledger = fun _ => .blank) ∧
      ∀ p f, (m.clear it d).2.files p = some f ↔
        d.files p = some f ∧ ∀ q x, m.queueMsgs.lookup q = some x → ¬ x.store.mapper.Owns p := by
  have hall : ∀ q, q ∈ it.order m.queueMsgs.keys ↔ (m.queueMsgs.lookup q).isSome :=
    fun q => Iteration.mem_order.trans Table.isSome_lookup.symm
  obtain ⟨hplan,hbase,hstores,hfiles⟩ := clear_loop (m := m) (it.order m.queueMsgs.keys) hp
    fun q x hx => .inl ((hall q).mpr (Option.isSome_of_eq_some hx))
  refine ⟨hplan,hbase,fun q x hx => ?_,funext fun q => ?_,fun p f => (hfiles p f).trans ?_⟩
  · obtain ⟨hm,hw⟩ := hstores q x hx
    exact (QueueMessage.Fleeting.of_empty hm hw).1
  · cases hl : (m.clear it d).1.queueMsgs.lookup q with
    | none => simp [ledger,hl]
    | some x =>
      obtain ⟨hm,hw⟩ := hstores q x hl
      rw [ledger_of_some hl]
      exact (QueueMessage.Fleeting.of_empty hm hw).2
  · refine and_congr_right fun _ => ⟨fun h q x hx => ?_,fun h k _ w hw => ?_⟩
    · exact h q ((hall q).mpr (Option.isSome_of_eq_some hx)) x.store.mapper (by simp [mapper,hx])
    · obtain ⟨x,hx,rfl⟩ := Option.map_eq_some_iff.mp hw
      exact h k x hx

theorem Homed.clear {basedir : String} (h : Homed basedir m) (it : Iteration) :
    Homed basedir (m.clear it d).1 := by
  have hround : ∀ (r : MessageManager × Disk) (n : String), Homed basedir r.1 →
      Homed basedir (r.1.clearQueueMessage r.2 n).1 := by
    intro r n hr
    unfold clearQueueMessage
    cases hl : r.1.queueMsgs.lookup n with
    | none => exact hr
    | some x => exact ⟨hr.base,hr.mapper.update (hr.mapper n x hl)⟩
  have hloop : ∀ (ks : List String) (r : MessageManager × Disk), Homed basedir r.1 →
      Homed basedir (ks.foldl (fun r qname => r.1.clearQueueMessage r.2 qname) r).1 := by
    intro ks
    induction ks with
    | nil => exact fun _ hr => hr
    | cons k ks ih => exact fun r hr => ih _ (hround r k hr)
  exact hloop _ _ h

end MessageManager

/-- The database of a host that has stored nothing yet. -/
def Database.tables : Database :=
  {exchangeTable := some [], queueTable := some [], bindingTable := some []}

/-- An operation on a host, or `clear`. -/
inductive HostCall
  | op (op : HostOp)
  | clear (it : Iteration)

namespace VirtualHost
variable {h h' c n : VirtualHost} {basedir : String} {it : Iteration} {disk : Disk} {db : Database}

def call (h : VirtualHost) : HostCall → Option VirtualHost
  | .op op => h.step op
  | .clear it => h.clear it

def callSystem : Lts VirtualHost HostCall := .ofPartial call

/-- The answers to the operations, one after the other, and the host that is left. -/
def serve (h : VirtualHost) : List HostOp → Option (List Answer × VirtualHost)
  | [] => some ([],h)
  | op::ops => (h.step op).bind fun h' => (h'.serve ops).map fun r => (h.answer op::r.1,r.2)

theorem serve_snoc {ops : List HostOp} {op : HostOp} {as : List Answer}
    (hs : h.serve ops = some (as,h')) :
    h.serve (ops ++ [op]) = (h'.step op).map fun h'' => (as ++ [h'.answer op],h'') := by
  induction ops generalizing h as with
  | nil =>
    cases hs
    simp only [List.nil_append,serve]
    cases h'.step op <;> rfl
  | cons o ops ih =>
    obtain ⟨x,hx,hs⟩ := Option.bind_eq_some_iff.mp hs
    obtain ⟨r,hr,he⟩ := Option.map_eq_some_iff.mp hs
    cases he
    rw [List.cons_append,serve,hx,Option.bind_some,ih hr,Option.map_map]
    rfl

theorem serve_run {ops : List HostOp} {as : List Answer} (hs : h.serve ops = some (as,h')) :
    system.Run h ops h' := by
  induction ops generalizing h as with
  | nil => cases hs; exact .nil _
  | cons op ops ih =>
    obtain ⟨x,hx,hs⟩ := Option.bind_eq_some_iff.mp hs
    obtain ⟨r,hr,he⟩ := Option.map_eq_some_iff.mp hs
    cases he
    have first : system.Run h [op] x := .single hx
    exact first.append (ih hr)

theorem clear_eq (hp : h.db.plan = []) (it : Iteration) : h.clear it =
    some ⟨∅,∅,(h.messages.clear it h.disk).1,∅,(h.messages.clear it h.disk).2,{}⟩ := by
  obtain ⟨exchanges,queues,messages,bindings,disk,e,q,b,plan⟩ := h
  subst hp
  rfl

/-- A host on a database in which there is nothing. -/
theorem construct_bare (hp : db.plan = []) (he : db.exchangeTable.getD [] = [])
    (hq : db.queueTable.getD [] = []) (hb : db.bindingTable.getD [] = []) :
    construct basedir it disk db = some ⟨∅,∅,.new basedir,∅,disk,.tables⟩ := by
  obtain ⟨e,q,b,plan⟩ := db
  have horder : it.order ([] : List String) = [] := (it.perm _).eq_nil
  simp only at hp he hq hb
  subst hp
  simp [construct,ExchangeManager.construct_eq,QueueManager.construct_eq,
    BindingManager.construct_eq,Database.succeeds,Database.spent,he,hq,hb,horder,Database.tables]

theorem run_basedir {past : List HostCall} (start : construct basedir it disk db = some h)
    (run : callSystem.Run h past h') : h'.messages.basedir = basedir := by
  have hhomed : h'.messages.Homed basedir := by
    refine run.invariant (P := fun h : VirtualHost => h.messages.Homed basedir)
      (.construct start) fun {s a t} hh hs => ?_
    cases a with
    | op op => exact homed_step hh hs
    | clear it =>
      change s.clear it = some t at hs
      unfold VirtualHost.clear at hs
      split at hs
      · cases hs
      · cases hs
        exact hh.clear it
  exact hhomed.base

/-- Two hosts are the same: registries, handles and tables are, and so are the bytes of every
file, one that is not there being as good as empty. -/
structure SameState (h h' : VirtualHost) : Prop where
  exchanges : h.exchanges = h'.exchanges
  queues : h.queues = h'.queues
  bindings : h.bindings = h'.bindings
  messages : h.messages = h'.messages
  db : h.db = h'.db
  files : ∀ p, (h.disk.files p).getD [] = (h'.disk.files p).getD []

/-- Both hosts give the same answers to the operations, and a restart then makes the same host of
both. -/
def Alike (c n : VirtualHost) (ops : List HostOp) : Prop :=
  ∃ as c' n', c.serve ops = some (as,c') ∧ n.serve ops = some (as,n') ∧
    ∀ it, ∃ c'' n'', c'.step (.restart it) = some c'' ∧ n'.step (.restart it) = some n'' ∧
      SameState c'' n''

/-- Every file with bytes in it belongs to a message handle. -/
def Swept (h : VirtualHost) : Prop :=
  ∀ p f, h.disk.files p = some f → f ≠ [] →
    ∃ q x, h.messages.queueMsgs.lookup q = some x ∧ x.store.mapper.Owns p

/-- The host after `clear`, and a new one. -/
structure Paired (c n : VirtualHost) : Prop where
  left : Volatile c
  right : Volatile n
  memory : c.memory = n.memory
  dropped : c.db = {}
  tables : n.db = .tables

namespace Paired

theorem topology (hp : Paired c n) : c.topology = n.topology := by
  have he : c.exchanges = n.exchanges := congrArg Memory.exchanges hp.memory
  have hq : c.queues = n.queues := congrArg Memory.queues hp.memory
  have hb : c.bindings = n.bindings := congrArg Memory.bindings hp.memory
  simp only [VirtualHost.topology,he,hq,hb]

/-- An operation for which nothing has to be stored. -/
theorem step (hp : Paired c n) {op : HostOp} (hop : ∀ it, op ≠ .restart it)
    (hnew : ¬ n.topology.Stores op) :
    c.answer op = n.answer op ∧ ∃ c' n', c.step op = some c' ∧ n.step op = some n' ∧
      Paired c' n' := by
  obtain ⟨c',hc,hvc,hdc,hmc,hac⟩ := hp.left.step hop (by rwa [hp.topology])
  obtain ⟨n',hn,hvn,hdn,hmn,han⟩ := hp.right.step hop hnew
  refine ⟨by rw [hac,han,hp.memory],c',n',hc,hn,hvc,hvn,?_,hdc.trans hp.dropped,
    hdn.trans hp.tables⟩
  rw [hmc,hmn,hp.memory]

/-- One for which something has to be stored: the cleared host refuses it. -/
theorem answer_ne (hp : Paired c n) {op : HostOp} (hnew : n.topology.Stores op) :
    c.answer op ≠ n.answer op := by
  have hnew' := hnew
  rw [← hp.topology] at hnew'
  cases op with
  | declareExchange name type durable autoDelete args =>
    obtain ⟨rfl,hno⟩ := hnew
    have hn : n.exchanges.lookup name = none := by simpa [VirtualHost.topology] using hno
    have hc : c.exchanges.lookup name = none := by
      simpa [VirtualHost.topology] using hnew'.2
    simp [answer,VirtualHost.declareExchange,ExchangeManager.declareExchange,hn,hc,hp.dropped,
      hp.tables,Database.tables,ExchangeMapper.insert,Database.exec]
  | declareQueue qname durable exclusive autoDelete args =>
    obtain ⟨rfl,hno⟩ := hnew
    have hn : n.queues.lookup qname = none := by simpa [VirtualHost.topology] using hno
    have hc : c.queues.lookup qname = none := by
      simpa [VirtualHost.topology] using hnew'.2
    simp [answer,VirtualHost.declareQueue,QueueManager.declareQueue,hn,hc,hp.dropped,
      hp.tables,Database.tables,QueueMapper.insert,Database.exec]
  | _ => exact hnew.elim

theorem restart (hp : Paired c n) (it : Iteration) :
    ∃ c' n', c.step (.restart it) = some c' ∧ n.step (.restart it) = some n' ∧
      SameState c' n' := by
  have hbase : c.messages.basedir = n.messages.basedir := congrArg Memory.basedir hp.memory
  have hempty : ∀ {d : Disk}, d.Blank → ∀ p, (d.files p).getD [] = [] := by
    intro d hd p
    cases hf : d.files p with
    | none => rfl
    | some f => exact hd p f hf
  refine ⟨_,_,construct_bare (by rw [hp.dropped]) (by rw [hp.dropped]; rfl)
    (by rw [hp.dropped]; rfl) (by rw [hp.dropped]; rfl),
    construct_bare (by rw [hp.tables]; rfl) (by rw [hp.tables]; rfl) (by rw [hp.tables]; rfl)
      (by rw [hp.tables]; rfl),rfl,rfl,rfl,by rw [hbase],rfl,fun p => ?_⟩
  exact (hempty hp.left.disk p).trans (hempty hp.right.disk p).symm

end Paired

end VirtualHost

/-- No operation of the list has to store the first declaration of a name. -/
def Unstored (ops : List HostOp) : Prop :=
  ∀ pre op, pre ++ [op] <+: ops → ¬ (pre.foldl Topology.apply .empty).Stores op

namespace VirtualHost
variable {c n : VirtualHost} {basedir : String} {it : Iteration} {disk : Disk}

/-- As long as nothing has to be stored, the two hosts stay a pair, with the topology that was
declared. -/
theorem Paired.serve (hp : Paired c n) (start : construct basedir it disk {} = some n)
    (ops : List HostOp) (hops : ∀ op ∈ ops, ∀ it, op ≠ .restart it) (hno : Unstored ops) :
    ∃ as c' n', c.serve ops = some (as,c') ∧ n.serve ops = some (as,n') ∧ Paired c' n' ∧
      n'.topology = ops.foldl Topology.apply .empty := by
  induction ops using List.reverseRecOn with
  | nil => exact ⟨[],c,n,rfl,rfl,hp,(Kept.start start).1⟩
  | append_singleton ops op ih =>
    obtain ⟨as,c',n',hc,hn,hp',ht⟩ := ih (fun o ho => hops o (List.mem_append_left _ ho))
      fun pre o hpre => hno pre o (hpre.trans (List.prefix_append _ _))
    have hnew : ¬ n'.topology.Stores op := by
      rw [ht]
      exact hno ops op (List.prefix_refl _)
    obtain ⟨ha,c'',n'',hsc,hsn,hp''⟩ := hp'.step (hops op (by simp)) hnew
    have hserve : n.serve (ops ++ [op]) = some (as ++ [n'.answer op],n'') := by
      rw [serve_snoc hn,hsn]
      rfl
    refine ⟨_,c'',n'',?_,hserve,hp'',(Kept.run start (serve_run hserve)).1⟩
    rw [serve_snoc hc,hsc,ha]
    rfl

/-- Where the two hosts are alike all along, nothing had to be stored. -/
theorem Paired.unstored (hp : Paired c n) (start : construct basedir it disk {} = some n)
    {ops : List HostOp} (hops : ∀ op ∈ ops, ∀ it, op ≠ .restart it)
    (halike : ∀ pre, pre <+: ops → Alike c n pre) : Unstored ops := by
  induction ops using List.reverseRecOn with
  | nil => exact fun pre op hpre => by simp at hpre
  | append_singleton ops op ih =>
    have hops' : ∀ o ∈ ops, ∀ it, o ≠ .restart it :=
      fun o ho => hops o (List.mem_append_left _ ho)
    have hno := ih hops' fun pre hpre => halike pre (hpre.trans (List.prefix_append _ _))
    obtain ⟨as,c',n',hc,hn,hp',ht⟩ := hp.serve start ops hops' hno
    intro pre o hpre
    cases List.prefix_concat_iff.mp hpre with
    | inr hpre => exact hno pre o hpre
    | inl heq =>
      obtain ⟨rfl,hoo⟩ := List.append_inj' heq rfl
      cases hoo
      rw [← ht]
      intro hnew
      obtain ⟨bs,x,y,hx,hy,-⟩ := halike _ (List.prefix_refl _)
      rw [serve_snoc hc] at hx
      rw [serve_snoc hn] at hy
      obtain ⟨z,-,hz⟩ := Option.map_eq_some_iff.mp hx
      obtain ⟨w,-,hw⟩ := Option.map_eq_some_iff.mp hy
      have hsame := (Prod.mk.inj hz).1.trans (Prod.mk.inj hw).1.symm
      exact hp'.answer_ne hnew (List.singleton_inj.mp (List.append_cancel_left hsame))

/-- `clear` leaves a blank disk exactly if no bytes lie outside the files of the handles. -/
theorem clear_blank_iff (h : VirtualHost) (it : Iteration) (hp : h.disk.plan = ∅) :
    (h.messages.clear it h.disk).2.Blank ↔ Swept h := by
  obtain ⟨-,-,-,-,hfiles⟩ := MessageManager.clear_spec (m := h.messages) it hp
  constructor
  · intro hb p f hf hne
    by_contra hno
    refine hne (hb p f ((hfiles p f).mpr ⟨hf,fun q x hx hown => hno ⟨q,x,hx,hown⟩⟩))
  · intro hs p f hf
    obtain ⟨hold,hno⟩ := (hfiles p f).mp hf
    by_contra hne
    obtain ⟨q,x,hx,hown⟩ := hs p f hold hne
    exact hno q x hx hown

/-- A host after `clear`, where nothing is left on file, and a new host in the same directory. -/
theorem paired_clear {h : VirtualHost} (it : Iteration) (hdisk : h.disk.plan = ∅)
    (hs : Swept h) (hbase : h.messages.basedir = basedir) :
    Paired ⟨∅,∅,(h.messages.clear it h.disk).1,∅,(h.messages.clear it h.disk).2,{}⟩
      ⟨∅,∅,.new basedir,∅,blankDisk,.tables⟩ := by
  obtain ⟨-,hb,hfleeting,hledger,-⟩ := MessageManager.clear_spec (m := h.messages) it hdisk
  refine ⟨⟨?_,?_,?_,hfleeting,(clear_blank_iff h it hdisk).mpr hs,fun _ => rfl⟩,
    ⟨?_,?_,?_,?_,?_,fun _ => rfl⟩,?_,rfl,rfl⟩
  · exact fun n e he => by simp at he
  · exact fun n q hq => by simp at hq
  · exact fun n hn => by simp at hn
  · exact fun n e he => by simp at he
  · exact fun n q hq => by simp at hq
  · exact fun n hn => by simp at hn
  · exact fun q x hx => by simp [MessageManager.new] at hx
  · exact fun p f hf => by simp [blankDisk] at hf
  · have hblank : (MessageManager.new basedir).ledger = fun _ => .blank := by
      funext q
      simp [MessageManager.ledger,MessageManager.new]
    simp only [memory,hledger,hblank,hb,hbase]
    rfl

end VirtualHost

section Clear
variable {basedir : String} {it it' : Iteration} {disk : Disk} {db : Database}
  {h₀ h c n : VirtualHost} {past : List HostCall} {ops : List HostOp}

/-- After `clear` a host answers all later operations like a new host in an empty directory, and
is the same after a restart, at every moment of a sequence of operations, exactly if no bytes lay
outside the files of its message handles, and no operation has to store anything, which is the
first declaration of a durable exchange or queue. -/
theorem clear_resets_iff (start : VirtualHost.construct basedir it disk db = some h₀)
    (run : VirtualHost.callSystem.Run h₀ past h) (hdisk : h.disk.plan = ∅) (hdb : h.db.plan = [])
    (clear : h.clear it' = some c)
    (fresh : VirtualHost.construct basedir it blankDisk {} = some n)
    (hops : ∀ op ∈ ops, ∀ it, op ≠ .restart it) :
    (∀ pre, pre <+: ops → VirtualHost.Alike c n pre) ↔
      VirtualHost.Swept h ∧ Unstored ops := by
  have hbase := VirtualHost.run_basedir start run
  have hc := (VirtualHost.clear_eq hdb it').symm.trans clear
  have hn : VirtualHost.construct basedir it blankDisk {} =
      some ⟨∅,∅,.new basedir,∅,blankDisk,.tables⟩ :=
    VirtualHost.construct_bare rfl rfl rfl rfl
  cases hc
  cases hn.symm.trans fresh
  constructor
  · intro halike
    have hswept : VirtualHost.Swept h := by
      refine (VirtualHost.clear_blank_iff h it' hdisk).mp fun p f hf => ?_
      obtain ⟨as,c',n',hc',hn',hrestart⟩ := halike [] List.nil_prefix
      cases hc'
      cases hn'
      obtain ⟨c'',n'',hc'',hn'',hsame⟩ := hrestart it
      change VirtualHost.construct _ it (h.messages.clear it' h.disk).2 {} = some c'' at hc''
      change VirtualHost.construct _ it blankDisk .tables = some n'' at hn''
      rw [VirtualHost.construct_bare rfl rfl rfl rfl] at hc'' hn''
      cases hc''
      cases hn''
      have hfile := hsame.files p
      rwa [hf] at hfile
    exact ⟨hswept,(VirtualHost.paired_clear it' hdisk hswept hbase).unstored fresh hops halike⟩
  · intro hcond pre hpre
    obtain ⟨hswept,hno⟩ := hcond
    obtain ⟨as,c',n',hc',hn',hp,-⟩ := (VirtualHost.paired_clear it' hdisk hswept hbase).serve fresh
      pre (fun op hop => hops op (hpre.subset hop)) fun pre' op hp => hno pre' op (hp.trans hpre)
    exact ⟨as,c',n',hc',hn',fun it => hp.restart it⟩

end Clear

/-- A queue that is not durable gets a message, and gives it out. -/
def scratchOps : List HostOp :=
  [.declareQueue "scratch" false false false ∅,.basicPublish "scratch" none "note" "u1",
    .basicConsume "scratch"]

theorem clear_resets_iff_scratch : ∃ h₀ h c n,
    VirtualHost.construct "/data" .listed blankDisk {} = some h₀ ∧
    VirtualHost.callSystem.Run h₀ (shopOps.map .op) h ∧ h.clear .listed = some c ∧
    VirtualHost.construct "/data" .listed blankDisk {} = some n ∧
    ((∀ pre, pre <+: scratchOps → VirtualHost.Alike c n pre) ↔
      VirtualHost.Swept h ∧ Unstored scratchOps) := by
  have hall : ((VirtualHost.construct "/data" .listed blankDisk {}).bind fun b =>
      (shopOps.map HostCall.op).foldlM VirtualHost.call (id b)).any (fun h : VirtualHost =>
        decide (h.disk.plan = ∅ ∧ h.db.plan = [])) = true := by
    decide +kernel
  obtain ⟨h₀,h,start,run,hplans⟩ := Lts.Run.of_any hall
  obtain ⟨hdisk,hdb⟩ := of_decide_eq_true hplans
  refine ⟨h₀,h,_,h₀,start,run,VirtualHost.clear_eq hdb _,start,?_⟩
  refine clear_resets_iff start run hdisk hdb (VirtualHost.clear_eq hdb _) start fun op hop it => ?_
  simp only [scratchOps,List.mem_cons,List.not_mem_nil,or_false] at hop
  rintro rfl
  simp at hop

/-- A durable exchange is refused by a host that was cleared: its table is gone. -/
theorem cleared_host_refuses : ¬ ∀ (basedir : String) (it it' : Iteration)
    (h₀ h c n : VirtualHost) (past : List HostCall) (ops : List HostOp),
    VirtualHost.construct basedir it blankDisk {} = some h₀ →
    VirtualHost.callSystem.Run h₀ past h → h.clear it' = some c →
    VirtualHost.construct basedir it blankDisk {} = some n →
    (∀ op ∈ ops, ∀ it, op ≠ .restart it) → VirtualHost.Alike c n ops := by
  intro hall
  have start : VirtualHost.construct "/data" .listed blankDisk {} =
      some ⟨∅,∅,.new "/data",∅,blankDisk,.tables⟩ :=
    VirtualHost.construct_bare rfl rfl rfl rfl
  obtain ⟨as,c',n',hc,hn,-⟩ := hall "/data" .listed .listed _ _ _ _ []
    [.declareExchange "trade" .direct true false ∅] start (.nil _) (VirtualHost.clear_eq rfl _)
    start (by simp)
  have hrefused : as = [.done false] := (Prod.mk.inj (Option.some.inj hc)).1.symm
  have haccepted : as = [.done true] := (Prod.mk.inj (Option.some.inj hn)).1.symm
  cases hrefused.symm.trans haccepted

end MessageQueue

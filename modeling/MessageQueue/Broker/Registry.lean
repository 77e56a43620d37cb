import MessageQueue.Server.Broker

/-! The registries of a virtual host when every statement succeeds: in memory and in the database
a binding names a registered queue, and a registered queue has its message handle. -/
namespace MessageQueue
open Base

namespace BindingManager
variable {m : BindingManager} {b x : Binding} {e q : String}

theorem getBinding_add : BindingManager.getBinding (ExchangeQueueMap.add m b) e q = some x ↔
    m.getBinding e q = some x ∨
      e = b.nameExchange ∧ q = b.nameQueue ∧ m.getBinding e q = none ∧ x = b := by
  unfold getBinding ExchangeQueueMap.add
  by_cases he : e = b.nameExchange
  · subst he
    rw [AList.lookup_insert]
    cases hm : m.lookup b.nameExchange with
    | none =>
      simp [Table.lookup_emplace_eq_some]
    | some qs =>
      simp only [Option.getD_some,Option.bind_some,Table.lookup_emplace_eq_some,true_and]
      refine or_congr_right ⟨?_,?_⟩
      · rintro ⟨rfl,hn,rfl⟩; exact ⟨rfl,hn,rfl⟩
      · rintro ⟨rfl,hn,rfl⟩; exact ⟨rfl,hn,rfl⟩
  · simp [AList.lookup_insert_ne he,he]

/-- What the registry holds that was filled row by row. -/
theorem getBinding_foldl {ρ : Type*} (f : ρ → Binding) {rows : List ρ}
    (h : BindingManager.getBinding (rows.foldl (fun m r => ExchangeQueueMap.add m (f r)) m) e q =
      some x) :
    m.getBinding e q = some x ∨ ∃ r ∈ rows, (f r).nameExchange = e ∧ (f r).nameQueue = q := by
  induction rows generalizing m with
  | nil => exact .inl h
  | cons r rows ih =>
    rcases ih h with h | ⟨y,hy,hk⟩
    · rcases getBinding_add.mp h with h | ⟨rfl,rfl,-,-⟩
      · exact .inl h
      · exact .inr ⟨r,by simp,rfl,rfl⟩
    · exact .inr ⟨y,by simp [hy],hk⟩

theorem getBinding_foldl_isSome {ρ : Type*} (f : ρ → Binding) {rows : List ρ}
    (h : (m.getBinding e q).isSome ∨
      ∃ r ∈ rows, (f r).nameExchange = e ∧ (f r).nameQueue = q) :
    (BindingManager.getBinding (rows.foldl (fun m r => ExchangeQueueMap.add m (f r)) m)
      e q).isSome := by
  induction rows generalizing m with
  | nil => simpa using h
  | cons r rows ih =>
    refine ih ?_
    rcases h with h | ⟨y,hy,he,hq⟩
    · obtain ⟨w,hw⟩ := Option.isSome_iff_exists.mp h
      exact .inl (Option.isSome_iff_exists.mpr ⟨w,getBinding_add.mpr (.inl hw)⟩)
    · rcases List.mem_cons.mp hy with rfl | hy
      · refine .inl (Option.isSome_iff_exists.mpr ?_)
        cases hm : m.getBinding e q with
        | some w => exact ⟨w,getBinding_add.mpr (.inl hm)⟩
        | none => exact ⟨_,getBinding_add.mpr (.inr ⟨he.symm,hq.symm,hm,rfl⟩)⟩
      · exact .inr ⟨y,hy,he,hq⟩

/-- Erasing a queue leaves the other bindings alone. -/
theorem getBinding_eraseQueue {n : String} :
    BindingManager.getBinding (eraseQueue m n) e q =
      if q = n then none else m.getBinding e q := by
  have hl : (eraseQueue m n).lookup e = (m.lookup e).map fun qs => qs.erase n := by
    have hf : ∀ (ks : List String) (m' : ExchangeQueueMap),
        (ks.foldl (fun m' e => m'.insert e (((m.lookup e).getD ∅).erase n)) m').lookup e =
          if e ∈ ks then some (((m.lookup e).getD ∅).erase n) else m'.lookup e := by
      intro ks
      induction ks with
      | nil => simp
      | cons k ks ih =>
        intro m'
        rw [List.foldl_cons,ih]
        by_cases hk : e = k
        · subst hk; simp
        · simp [hk,AList.lookup_insert_ne hk]
    rw [eraseQueue,hf]
    cases hm : m.lookup e with
    | none =>
      have hk : e ∉ m.keys := fun hk => by
        have := Table.isSome_lookup.mpr hk
        simp [hm] at this
      simp [hk]
    | some qs =>
      have hk : e ∈ m.keys := Table.isSome_lookup.mp (by simp [hm])
      simp [hk]
  unfold getBinding
  rw [hl]
  cases m.lookup e with
  | none => simp
  | some qs =>
    by_cases hq : q = n
    · subst hq; simp
    · simp [hq,AList.lookup_erase_ne hq]

end BindingManager

/-- A name that is not in the table is inserted. -/
theorem QueueMapper.insert_done {db : Database} {queue : Queue} {rows : List QueueRow}
    (hp : db.plan = []) (hrows : db.queueTable = some rows) (hno : ∀ r ∈ rows, r.name ≠ queue.name) :
    QueueMapper.insert db queue = (true,{db with queueTable := some (rows ++ [queue.row])}) := by
  have hany : ¬ (rows.any fun r => decide (r.name = queue.name)) = true := by
    simpa [List.any_eq_true] using hno
  simp only [QueueMapper.insert]
  rw [Database.exec_done hp]
  simp only [hrows,if_neg hany]

/-- The database side: the rows of the queues are those of the durable queues in memory, and a
row of a binding names a bound pair whose queue has a row. -/
structure Recorded (queues : QueueManager) (bindings : BindingManager) (db : Database) :
    Prop where
  plan : db.plan = []
  queueRows : ∃ rows, db.queueTable = some rows ∧ (∀ r ∈ rows, r.durable = true) ∧
    ∀ name, (∃ r ∈ rows, r.name = name) ↔ ∃ q, queues.lookup name = some q ∧ q.durable = true
  bindingRows : ∃ rows, db.bindingTable = some rows ∧ ∀ r ∈ rows,
    (bindings.getBinding r.nameExchange r.nameQueue).isSome ∧
      ∃ q, queues.lookup r.nameQueue = some q ∧ q.durable = true

/-- The memory side: a binding names a registered queue, and that has a message handle. -/
structure Registered (h : VirtualHost) : Prop where
  recorded : Recorded h.queues h.bindings h.db
  bound : ∀ e q b, h.bindings.getBinding e q = some b → (h.queues.lookup q).isSome
  handled : ∀ q, (h.queues.lookup q).isSome → (h.messages.queueMsgs.lookup q).isSome

namespace Recorded
variable {queues : QueueManager} {bindings : BindingManager} {db db' : Database}

/-- The table of the exchanges is not looked at. -/
theorem congr (h : Recorded queues bindings db) (hp : db'.plan = db.plan)
    (hq : db'.queueTable = db.queueTable) (hb : db'.bindingTable = db.bindingTable) :
    Recorded queues bindings db' :=
  ⟨hp.trans h.plan,hq ▸ h.queueRows,hb ▸ h.bindingRows⟩

theorem exchangeInsert (h : Recorded queues bindings db) (exp : Exchange) :
    Recorded queues bindings (ExchangeMapper.insert db exp).2 := by
  simp only [ExchangeMapper.insert]
  rw [Database.exec_done h.plan]
  cases db.exchangeTable with
  | none => exact h
  | some rows =>
    simp only
    split_ifs
    · exact h
    · exact h.congr rfl rfl rfl

theorem exchangeRemove (h : Recorded queues bindings db) (name : String) :
    Recorded queues bindings (ExchangeMapper.remove db name).2 := by
  simp only [ExchangeMapper.remove]
  rw [Database.exec_done h.plan]
  cases db.exchangeTable with
  | none => exact h
  | some rows => exact h.congr rfl rfl rfl

theorem deleteExchange (h : Recorded queues bindings db) (m : ExchangeManager) (name : String) :
    Recorded queues bindings (m.deleteExchange db name).2 := by
  unfold ExchangeManager.deleteExchange
  cases m.lookup name with
  | none => exact h
  | some exp =>
    simp only
    split_ifs
    · exact h.exchangeRemove name
    · exact h

/-- A deletion of bindings that memory and database agree on. -/
theorem delete (h : Recorded queues bindings db) (named : BindingRow → Bool)
    {bindings' : BindingManager}
    (hb : ∀ r, named r = false → bindings'.getBinding r.nameExchange r.nameQueue =
      bindings.getBinding r.nameExchange r.nameQueue) :
    Recorded queues bindings' (BindingMapper.delete db named).2 := by
  obtain ⟨rows,hrows,hr⟩ := h.bindingRows
  simp only [BindingMapper.delete]
  rw [Database.exec_done h.plan,hrows]
  refine ⟨h.plan,h.queueRows,_,rfl,?_⟩
  intro r hmem
  obtain ⟨hmem,hn⟩ := List.mem_filter.mp hmem
  rw [hb r (by simpa using hn)]
  exact hr r hmem

theorem unbindByExchange (h : Recorded queues bindings db) (name : String) :
    Recorded queues (bindings.unbindByExchange db name).1
      (bindings.unbindByExchange db name).2 := by
  unfold BindingManager.unbindByExchange
  cases hl : bindings.lookup name with
  | none => exact h
  | some qs =>
    refine h.delete _ fun r hr => ?_
    unfold BindingManager.getBinding
    rw [AList.lookup_erase_ne (by simpa using hr)]

theorem unbind (h : Recorded queues bindings db) (e q : String) :
    Recorded queues (bindings.unbind db e q).1 (bindings.unbind db e q).2 := by
  unfold BindingManager.unbind
  cases hl : bindings.lookup e with
  | none => exact h
  | some qs =>
    simp only
    cases hq : qs.lookup q with
    | none => exact h
    | some b =>
      refine h.delete _ fun r hr => ?_
      unfold BindingManager.getBinding
      by_cases he : r.nameExchange = e
      · have hne : r.nameQueue ≠ q := by simpa [he] using hr
        rw [he,AList.lookup_insert,hl]
        simp [AList.lookup_erase_ne hne]
      · rw [AList.lookup_insert_ne he]

/-- The deletion of a queue's bindings, statement by statement. -/
theorem unbindByQueue (h : Recorded queues bindings db) (q : String) :
    Recorded queues (bindings.unbindByQueue db q).1 (bindings.unbindByQueue db q).2 ∧
      ∃ rows, (bindings.unbindByQueue db q).2.bindingTable = some rows ∧
        ∀ r ∈ rows, r.nameQueue ≠ q := by
  have hdel : ∀ {m : BindingManager} {db : Database}, Recorded queues m db →
      (∀ e n, n ≠ q →
        BindingManager.getBinding (BindingManager.eraseQueue bindings q) e n = m.getBinding e n) →
      Recorded queues (BindingManager.eraseQueue bindings q) (BindingMapper.removeByQueue db q).2 ∧
        ∃ rows, (BindingMapper.removeByQueue db q).2.bindingTable = some rows ∧
          ∀ r ∈ rows, r.nameQueue ≠ q := by
    intro m db h hm
    refine ⟨h.delete _ fun r hr => hm _ _ (by simpa using hr),?_⟩
    obtain ⟨rows,hrows,-⟩ := h.bindingRows
    simp only [BindingMapper.removeByQueue,BindingMapper.delete]
    rw [Database.exec_done h.plan,hrows]
    exact ⟨_,rfl,fun r hr => by simpa using (List.mem_filter.mp hr).2⟩
  unfold BindingManager.unbindByQueue
  cases hk : bindings.keys with
  | nil =>
    -- without an inner map there is no binding, and so no row
    have hnone : ∀ e n, bindings.getBinding e n = none := by
      intro e n
      have he : bindings.lookup e = none := by
        rw [← Option.not_isSome_iff_eq_none,Table.isSome_lookup,hk]
        exact List.not_mem_nil
      simp [BindingManager.getBinding,he]
    obtain ⟨rows,hrows,hr⟩ := h.bindingRows
    have hempty : rows = [] := List.eq_nil_iff_forall_not_mem.mpr fun r hm => by
      simpa [hnone] using (hr r hm).1
    refine ⟨⟨h.plan,h.queueRows,rows,hrows,?_⟩,rows,hrows,?_⟩ <;> simp [hempty]
  | cons k ks =>
    have hfirst := hdel h fun e n hn => by
      rw [BindingManager.getBinding_eraseQueue,if_neg hn]
    rw [List.foldl_cons]
    generalize (BindingMapper.removeByQueue db q).2 = db' at hfirst
    clear hk
    induction ks generalizing db' with
    | nil => exact hfirst
    | cons k ks ih => exact ih _ (hdel hfirst.1 fun _ _ _ => rfl)

/-- A durable binding is recorded for a durable queue. -/
theorem bind (h : Recorded queues bindings db) (e q key : String) (durable : Bool)
    (hd : durable = true → ∃ mqp, queues.lookup q = some mqp ∧ mqp.durable = true) :
    Recorded queues (bindings.bind db e q key durable).2.1
      (bindings.bind db e q key durable).2.2 := by
  unfold BindingManager.bind
  cases hb : bindings.getBinding e q with
  | some b => exact h
  | none =>
    simp only
    obtain ⟨rows,hrows,hr⟩ := h.bindingRows
    have hkeep : ∀ r : BindingRow, (bindings.getBinding r.nameExchange r.nameQueue).isSome →
        (BindingManager.getBinding (ExchangeQueueMap.add bindings ⟨e,q,key⟩) r.nameExchange
          r.nameQueue).isSome := by
      intro r hs
      obtain ⟨x,hx⟩ := Option.isSome_iff_exists.mp hs
      exact Option.isSome_iff_exists.mpr ⟨x,BindingManager.getBinding_add.mpr (.inl hx)⟩
    split_ifs with hdur
    · simp only [BindingMapper.insert]
      rw [Database.exec_done h.plan,hrows]
      refine ⟨h.plan,h.queueRows,_,rfl,?_⟩
      intro r hm
      rcases List.mem_append.mp hm with hm | hm
      · exact ⟨hkeep r (hr r hm).1,(hr r hm).2⟩
      · rw [List.mem_singleton.mp hm]
        exact ⟨Option.isSome_iff_exists.mpr
          ⟨_,BindingManager.getBinding_add.mpr (.inr ⟨rfl,rfl,hb,rfl⟩)⟩,hd hdur⟩
    · exact ⟨h.plan,h.queueRows,rows,hrows,fun r hm => ⟨hkeep r (hr r hm).1,(hr r hm).2⟩⟩

/-- A new queue is accepted, and recorded if it is durable. -/
theorem declareQueue (h : Recorded queues bindings db) (name : String)
    (durable exclusive autoDelete : Bool) (args : Args) :
    (queues.declareQueue db name durable exclusive autoDelete args).1 = true ∧
      Recorded (queues.declareQueue db name durable exclusive autoDelete args).2.1 bindings
        (queues.declareQueue db name durable exclusive autoDelete args).2.2 := by
  unfold QueueManager.declareQueue
  cases hl : queues.lookup name with
  | some q => exact ⟨rfl,h⟩
  | none =>
    simp only
    obtain ⟨rows,hrows,hdur,hname⟩ := h.queueRows
    obtain ⟨brows,hbrows,hbr⟩ := h.bindingRows
    have hno : ∀ r ∈ rows, r.name ≠ name := fun r hm e => by
      obtain ⟨q,hq,-⟩ := (hname name).mp ⟨r,hm,e⟩
      simp [hl] at hq
    have hbind : ∀ q : Queue, ∀ r ∈ brows,
        (bindings.getBinding r.nameExchange r.nameQueue).isSome ∧
          ∃ mqp, AList.lookup r.nameQueue (queues.insert name q) = some mqp ∧
            mqp.durable = true := by
      intro q r hm
      obtain ⟨hb,mqp,hq,hd⟩ := hbr r hm
      have hne : r.nameQueue ≠ name := fun e => by rw [← e,hq] at hl; cases hl
      exact ⟨hb,mqp,by rwa [AList.lookup_insert_ne hne],hd⟩
    split_ifs with hd
    · rw [QueueMapper.insert_done h.plan hrows hno]
      refine ⟨rfl,h.plan,⟨_,rfl,?_,?_⟩,brows,hbrows,hbind _⟩
      · intro r hm
        rcases List.mem_append.mp hm with hm | hm
        · exact hdur r hm
        · rw [List.mem_singleton.mp hm]; exact hd
      · intro n
        by_cases hn : n = name
        · subst hn
          rw [AList.lookup_insert]
          constructor
          · intro _
            exact ⟨_,rfl,hd⟩
          · intro _
            exact ⟨_,List.mem_append_right _ (List.mem_singleton_self _),rfl⟩
        · rw [AList.lookup_insert_ne hn,← hname n]
          constructor
          · rintro ⟨r,hm,rfl⟩
            rcases List.mem_append.mp hm with hm | hm
            · exact ⟨r,hm,rfl⟩
            · rw [List.mem_singleton.mp hm] at hn; exact absurd rfl hn
          · rintro ⟨r,hm,rfl⟩
            exact ⟨r,List.mem_append_left _ hm,rfl⟩
    · refine ⟨rfl,h.plan,⟨rows,hrows,hdur,?_⟩,brows,hbrows,hbind _⟩
      intro n
      by_cases hn : n = name
      · subst hn
        rw [AList.lookup_insert]
        constructor
        · rintro ⟨r,hm,e⟩
          exact absurd e (hno r hm)
        · rintro ⟨q,hq,hqd⟩
          cases hq
          exact absurd hqd hd
      · rw [AList.lookup_insert_ne hn]
        exact hname n

/-- A queue without bindings is forgotten on both sides. -/
theorem deleteQueue (h : Recorded queues bindings db) (name : String)
    (hb : ∃ rows, db.bindingTable = some rows ∧ ∀ r ∈ rows, r.nameQueue ≠ name) :
    Recorded (queues.deleteQueue db name).1 bindings (queues.deleteQueue db name).2 := by
  unfold QueueManager.deleteQueue
  cases hl : queues.lookup name with
  | none => exact h
  | some q =>
    obtain ⟨rows,hrows,hdur,hname⟩ := h.queueRows
    obtain ⟨brows,hbrows,hne⟩ := hb
    have hbind : ∃ rows, db.bindingTable = some rows ∧ ∀ r ∈ rows,
        (bindings.getBinding r.nameExchange r.nameQueue).isSome ∧
          ∃ mqp, AList.lookup r.nameQueue (queues.erase name) = some mqp ∧
            mqp.durable = true := by
      obtain ⟨brows',hbrows',hbr⟩ := h.bindingRows
      cases hbrows.symm.trans hbrows'
      refine ⟨brows,hbrows,fun r hm => ?_⟩
      rw [AList.lookup_erase_ne (hne r hm)]
      exact hbr r hm
    have hleft : ∀ n, n ≠ name → ((∃ r ∈ rows, r.name = n) ↔
        ∃ q, AList.lookup n (queues.erase name) = some q ∧ q.durable = true) := by
      intro n hn
      rw [AList.lookup_erase_ne hn]
      exact hname n
    simp only
    split_ifs with hd
    · simp only [QueueMapper.deleteQueue]
      rw [Database.exec_done h.plan,hrows]
      refine ⟨h.plan,⟨_,rfl,fun r hm => hdur r (List.mem_filter.mp hm).1,?_⟩,hbind⟩
      intro n
      by_cases hn : n = name
      · subst hn
        simp [List.mem_filter]
      · rw [← hleft n hn]
        constructor
        · rintro ⟨r,hm,rfl⟩
          exact ⟨r,(List.mem_filter.mp hm).1,rfl⟩
        · rintro ⟨r,hm,rfl⟩
          exact ⟨r,List.mem_filter.mpr ⟨hm,by simpa using hn⟩,rfl⟩
    · refine ⟨h.plan,⟨rows,hrows,hdur,?_⟩,hbind⟩
      intro n
      by_cases hn : n = name
      · subst hn
        rw [hname n,hl]
        simp [hd]
      · exact hleft n hn

end Recorded
end MessageQueue

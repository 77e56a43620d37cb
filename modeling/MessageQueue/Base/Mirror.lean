import MessageQueue.Base.Table
import Mathlib.Data.List.Nodup

/-! A registry in memory and the table that keeps its durable part: every entry that is to be kept
has a row and every row has its entry, and a registry that is filled from the table holds what was
kept. -/
namespace MessageQueue.Base

/-- The rows are those of the kept entries, one for each key; `rel` says what a row tells about
its entry. -/
structure Mirrors {κ ν ρ : Type*} (keep : κ → ν → Prop) (rel : ν → ρ → Prop) (key : ρ → κ)
    (look : κ → Option ν) (rows : List ρ) : Prop where
  nodup : (rows.map key).Nodup
  kept : ∀ k v, look k = some v → keep k v → ∃ r ∈ rows, key r = k ∧ rel v r
  backed : ∀ r ∈ rows, ∃ v, look (key r) = some v ∧ keep (key r) v ∧ rel v r

namespace Mirrors
variable {κ ν ρ : Type*} {keep keep' : κ → ν → Prop} {rel : ν → ρ → Prop} {key : ρ → κ}
  {look look' : κ → Option ν} {rows : List ρ} {k₀ : κ} {v₀ : ν} {r₀ : ρ}

theorem empty : Mirrors keep rel key (fun _ => none) [] where
  nodup := List.nodup_nil
  kept _ _ h := by cases h
  backed r hr := by cases hr

/-- Only the entries that are there are looked at. -/
theorem congr (h : Mirrors keep rel key look rows)
    (hk : ∀ k v, look k = some v → (keep' k v ↔ keep k v)) : Mirrors keep' rel key look rows where
  nodup := h.nodup
  kept k v hl hd := h.kept k v hl ((hk k v hl).mp hd)
  backed r hr := by
    obtain ⟨v,hl,hd,hv⟩ := h.backed r hr
    exact ⟨v,hl,(hk _ v hl).mpr hd,hv⟩

theorem key_ne (h : Mirrors keep rel key look rows) (hl : look k₀ = none) {r : ρ}
    (hr : r ∈ rows) : key r ≠ k₀ := by
  rintro rfl
  obtain ⟨v,hv,-⟩ := h.backed r hr
  rw [hl] at hv
  cases hv

section Insert
variable [DecidableEq κ] (h : Mirrors keep rel key look rows) (hnew : look k₀ = none)
  (hlook : ∀ k, look' k = if k = k₀ then some v₀ else look k)
include hnew hlook

lemma look_of_ne {k : κ} {v : ν} (hl : look k = some v) : look' k = some v := by
  have hne : k ≠ k₀ := fun he => by rw [he,hnew] at hl; cases hl
  rw [hlook,if_neg hne,hl]

include h

/-- A new entry that is kept has its row at the end. -/
theorem insert (hkey : key r₀ = k₀) (hk : keep k₀ v₀) (hrel : rel v₀ r₀) :
    Mirrors keep rel key look' (rows ++ [r₀]) where
  nodup := by
    rw [List.map_append,List.nodup_append]
    refine ⟨h.nodup,by simp,?_⟩
    intro a ha b hb
    obtain ⟨r,hr,rfl⟩ := List.mem_map.mp ha
    rw [List.map_singleton,List.mem_singleton] at hb
    rw [hb,hkey]
    exact h.key_ne hnew hr
  kept k v hl hd := by
    rw [hlook] at hl
    split_ifs at hl with he
    · cases hl
      exact ⟨r₀,by simp,hkey.trans he.symm,hrel⟩
    · obtain ⟨r,hr,hkr⟩ := h.kept k v hl hd
      exact ⟨r,List.mem_append_left _ hr,hkr⟩
  backed r hr := by
    rcases List.mem_append.mp hr with hr | hr
    · obtain ⟨v,hl,hd⟩ := h.backed r hr
      exact ⟨v,look_of_ne hnew hlook hl,hd⟩
    · rw [List.mem_singleton.mp hr,hkey]
      exact ⟨v₀,by rw [hlook,if_pos rfl],hk,hrel⟩

/-- A new entry that is not to be kept needs no row. -/
theorem insert_same (hk : ¬ keep k₀ v₀) : Mirrors keep rel key look' rows where
  nodup := h.nodup
  kept k v hl hd := by
    rw [hlook] at hl
    split_ifs at hl with he
    · cases hl
      exact absurd (he ▸ hd) hk
    · exact h.kept k v hl hd
  backed r hr := by
    obtain ⟨v,hl,hd⟩ := h.backed r hr
    exact ⟨v,look_of_ne hnew hlook hl,hd⟩

/-- A new entry whose row may not be stored has to be stored when it is to be kept. -/
theorem insert_if {stored : Bool} (hkey : key r₀ = k₀)
    (hrel : rel v₀ r₀) (hst : stored = true ↔ keep k₀ v₀) :
    Mirrors keep rel key look' (if stored then rows ++ [r₀] else rows) := by
  cases stored with
  | true => exact h.insert hnew hlook hkey (hst.mp rfl) hrel
  | false =>
    refine h.insert_same hnew hlook fun hk => ?_
    cases hst.mpr hk

end Insert

section Erase
variable {p : κ → Prop} [DecidablePred p] (h : Mirrors keep rel key look rows)
  (hlook : ∀ k, look' k = if p k then none else look k)
include h hlook

/-- The rows of the entries that go are deleted. -/
theorem erase : Mirrors keep rel key look' (rows.filter fun r => !decide (p (key r))) where
  nodup := h.nodup.sublist (List.Sublist.map _ List.filter_sublist)
  kept k v hl hd := by
    rw [hlook] at hl
    split_ifs at hl with hp
    obtain ⟨r,hr,rfl,hv⟩ := h.kept k v hl hd
    exact ⟨r,List.mem_filter.mpr ⟨hr,by simpa using hp⟩,rfl,hv⟩
  backed r hr := by
    obtain ⟨hr,hp⟩ := List.mem_filter.mp hr
    obtain ⟨v,hl,hd⟩ := h.backed r hr
    exact ⟨v,by rw [hlook,if_neg (by simpa using hp),hl],hd⟩

omit hlook in
/-- Where nothing that goes was to be kept there is no row to delete. -/
theorem filter_eq (hno : ∀ k v, p k → look k = some v → ¬ keep k v) :
    rows.filter (fun r => !decide (p (key r))) = rows := by
  refine List.filter_eq_self.mpr fun r hr => ?_
  obtain ⟨v,hl,hk,-⟩ := h.backed r hr
  simpa using fun hp : p (key r) => hno _ v hp hl hk

/-- A deletion that can fail has to succeed when something that goes was to be kept. -/
theorem erase_if {ok : Bool} (hok : ∀ k v, p k → look k = some v → keep k v → ok = true) :
    Mirrors keep rel key look'
      (if ok then rows.filter fun r => !decide (p (key r)) else rows) := by
  cases ok with
  | true => exact h.erase hlook
  | false =>
    have hall := h.erase hlook
    rw [h.filter_eq fun k v hp hl hk => by cases hok k v hp hl hk] at hall
    exact hall

end Erase

section Fill
variable {σ : Type*} (find : σ → κ → Option ν) (add : σ → ρ → σ) (val : ρ → ν)
  (law : ∀ m r k v, find (add m r) k = some v ↔
    find m k = some v ∨ k = key r ∧ find m k = none ∧ v = val r)
include law

/-- What a registry holds that was filled row by row, from rows with different keys. -/
theorem find_foldl {rows : List ρ} (hnd : (rows.map key).Nodup) {m : σ}
    (hnew : ∀ r ∈ rows, find m (key r) = none) (k : κ) (v : ν) :
    find (rows.foldl add m) k = some v ↔
      find m k = some v ∨ ∃ r ∈ rows, key r = k ∧ val r = v := by
  induction rows generalizing m with
  | nil => simp
  | cons r rows ih =>
    rw [List.map_cons,List.nodup_cons] at hnd
    have hrest : ∀ x ∈ rows, find (add m r) (key x) = none := by
      intro x hx
      have hne : key x ≠ key r := fun he => hnd.1 (he ▸ List.mem_map_of_mem hx)
      cases hl : find (add m r) (key x) with
      | none => rfl
      | some w =>
        rcases (law m r (key x) w).mp hl with hw | ⟨he,-⟩
        · rw [hnew x (List.mem_cons_of_mem _ hx)] at hw
          cases hw
        · exact absurd he hne
    rw [List.foldl_cons,ih hnd.2 hrest,law]
    constructor
    · rintro ((hl | ⟨rfl,-,rfl⟩) | ⟨x,hx,hk⟩)
      · exact .inl hl
      · exact .inr ⟨r,List.mem_cons_self,rfl,rfl⟩
      · exact .inr ⟨x,List.mem_cons_of_mem _ hx,hk⟩
    · rintro (hl | ⟨x,hx,rfl,rfl⟩)
      · exact .inl (.inl hl)
      · rcases List.mem_cons.mp hx with rfl | hx
        · exact .inl (.inr ⟨rfl,hnew x List.mem_cons_self,rfl⟩)
        · exact .inr ⟨x,hx,rfl,rfl⟩

/-- A registry that is filled from a table holds what the table told about the kept entries. -/
theorem find_fill (h : Mirrors keep rel key look rows) {m : σ} (hm : ∀ k, find m k = none)
    (k : κ) (w : ν) : find (rows.foldl add m) k = some w ↔
      ∃ v r, look k = some v ∧ keep k v ∧ rel v r ∧ key r = k ∧ r ∈ rows ∧ val r = w := by
  rw [find_foldl find add val law h.nodup fun r _ => hm (key r),hm]
  constructor
  · rintro (hl | ⟨r,hr,rfl,rfl⟩)
    · cases hl
    · obtain ⟨v,hl,hk,hv⟩ := h.backed r hr
      exact ⟨v,r,hl,hk,hv,rfl,hr,rfl⟩
  · rintro ⟨v,r,hl,hk,hv,rfl,hr,rfl⟩
    exact .inr ⟨r,hr,rfl,rfl⟩

/-- What can be seen of the filled registry is what was kept of the old one. -/
theorem map_fill {α : Type*} (view : ν → α) (kept : κ → α → Bool)
    (h : Mirrors keep rel key look rows) {m : σ} (hm : ∀ k, find m k = none)
    (hkept : ∀ k v, keep k v ↔ kept k (view v) = true)
    (hview : ∀ v r, rel v r → view (val r) = view v) (k : κ) :
    (find (rows.foldl add m) k).map view = ((look k).map view).filter (kept k) := by
  have hfill := h.find_fill find add val law hm k
  cases hl : look k with
  | none =>
    cases hf : find (rows.foldl add m) k with
    | none => rfl
    | some w =>
      obtain ⟨v,r,hv,-⟩ := (hfill w).mp hf
      cases hl.symm.trans hv
  | some v =>
    cases hk : kept k (view v) with
    | true =>
      have hkeep := (hkept k v).mpr hk
      obtain ⟨r,hr,hkey,hrel⟩ := h.kept k v hl hkeep
      rw [(hfill (val r)).mpr ⟨v,r,hl,hkeep,hrel,hkey,hr,rfl⟩]
      simp [Option.filter,hk,hview v r hrel]
    | false =>
      cases hf : find (rows.foldl add m) k with
      | none => simp [Option.filter,hk]
      | some w =>
        obtain ⟨v',r,hv,hkeep,-⟩ := (hfill w).mp hf
        cases hl.symm.trans hv
        rw [(hkept k v).mp hkeep] at hk
        cases hk

/-- The table mirrors the registry that is filled from it. -/
theorem fill (hnd : (rows.map key).Nodup) {m : σ} (hm : ∀ k, find m k = none)
    (hr : ∀ r ∈ rows, keep (key r) (val r) ∧ rel (val r) r) :
    Mirrors keep rel key (find (rows.foldl add m)) rows where
  nodup := hnd
  kept k w hl _ := by
    rcases (find_foldl find add val law hnd (fun r _ => hm (key r)) k w).mp hl with
      hl | ⟨r,hmem,rfl,rfl⟩
    · rw [hm] at hl
      cases hl
    · exact ⟨r,hmem,rfl,(hr r hmem).2⟩
  backed r hmem :=
    ⟨val r,(find_foldl find add val law hnd (fun r _ => hm (key r)) _ _).mpr
      (.inr ⟨r,hmem,rfl,rfl⟩),hr r hmem⟩

end Fill
end Mirrors

/-- The rows of the kept entries and the rows of the table are the same. -/
def SameEntries {κ ν ρ : Type*} (keep : κ → ν → Prop) (row : ν → ρ) (look : κ → Option ν)
    (rows : List ρ) : Prop :=
  ∀ r, r ∈ rows ↔ ∃ k v, look k = some v ∧ keep k v ∧ row v = r

namespace Mirrors
variable {κ ν ρ : Type*} {keep : κ → ν → Prop} {row : ν → ρ} {key : ρ → κ}
  {look look' : κ → Option ν} {rows : List ρ} {k₀ : κ} {v₀ : ν}
  (h : Mirrors keep (fun v r => row v = r) key look rows)
include h

theorem same : SameEntries keep row look rows := by
  intro r
  constructor
  · intro hr
    obtain ⟨v,hl,hk,hv⟩ := h.backed r hr
    exact ⟨_,v,hl,hk,hv⟩
  · rintro ⟨k,v,hl,hk,rfl⟩
    obtain ⟨r,hr,-,hv⟩ := h.kept k v hl hk
    rwa [hv]

theorem key_row {k : κ} {v : ν} (hl : look k = some v) (hk : keep k v) : key (row v) = k := by
  obtain ⟨r,-,hkey,rfl⟩ := h.kept k v hl hk
  exact hkey

/-- After a new entry the rows are the same exactly if it was stored or is not to be kept. -/
theorem insert_if_iff [DecidableEq κ] {stored : Bool} (hnew : look k₀ = none)
    (hlook : ∀ k, look' k = if k = k₀ then some v₀ else look k) (hkey : key (row v₀) = k₀)
    (hst : stored = true → keep k₀ v₀) :
    SameEntries keep row look' (if stored then rows ++ [row v₀] else rows) ↔
      (keep k₀ v₀ → stored = true) := by
  cases stored with
  | true => simpa using (h.insert hnew hlook hkey (hst rfl) rfl).same
  | false =>
    simp only [Bool.false_eq_true,↓reduceIte,imp_false]
    constructor
    · intro hs hk
      have hr : row v₀ ∈ rows := (hs _).mpr ⟨k₀,v₀,by rw [hlook,if_pos rfl],hk,rfl⟩
      exact h.key_ne hnew hr hkey
    · exact fun hk => (h.insert_same hnew hlook hk).same

/-- After a deletion the rows are the same exactly if it succeeded or nothing was to be kept. -/
theorem erase_if_iff {p : κ → Prop} [DecidablePred p] {ok : Bool}
    (hlook : ∀ k, look' k = if p k then none else look k) :
    SameEntries keep row look' (if ok then rows.filter fun r => !decide (p (key r)) else rows) ↔
      ∀ k v, p k → look k = some v → keep k v → ok = true := by
  refine ⟨fun hs k v hp hl hk => ?_,fun hok => (h.erase_if hlook hok).same⟩
  cases ok with
  | true => rfl
  | false =>
    obtain ⟨j,w,hw,hd,hrow⟩ := (hs (row v)).mp ((h.same _).mpr ⟨k,v,hl,hk,rfl⟩)
    rw [hlook] at hw
    split_ifs at hw with hj
    have hkey := h.key_row hw hd
    rw [hrow,h.key_row hl hk] at hkey
    exact absurd (hkey ▸ hp) hj

end Mirrors

/-! The two operations that the registries of durable objects share, over any store. -/
namespace Registry
variable {κ ν ρ δ : Type*} [DecidableEq κ] {keep : κ → ν → Prop} {rel : ν → ρ → Prop} {key : ρ → κ}
  {m : Table κ ν} {k : κ} {v : ν} {r : ρ} {rows : List ρ}

/-- An entry is registered unless the key is taken. One that is to be kept is stored first, and
is refused when it cannot be stored; `store` is what becomes of the attempt. -/
def declare (m : Table κ ν) (k : κ) (v : ν) (kept : Bool) (d : δ) (store : Bool × δ) :
    Bool × Table κ ν × δ :=
  match m.lookup k with
  | some _ => (true,m,d)
  | none =>
    if kept then
      match store with
      | (false,d) => (false,m,d)
      | (true,d) => (true,m.insert k v,d)
    else (true,m.insert k v,d)

/-- An entry that is kept is removed from the store, whatever becomes of that. -/
def delete (m : Table κ ν) (k : κ) (kept : ν → Bool) (d : δ) (remove : δ) : Table κ ν × δ :=
  match m.lookup k with
  | none => (m,d)
  | some v => (m.erase k,if kept v then remove else d)

theorem lookup_insert (k j : κ) : AList.lookup j (m.insert k v) =
    if j = k then some v else m.lookup j := by
  by_cases hj : j = k
  · subst hj; simp
  · rw [AList.lookup_insert_ne hj,if_neg hj]

theorem lookup_erase (k j : κ) : AList.lookup j (m.erase k) =
    if j = k then none else m.lookup j := by
  by_cases hj : j = k
  · subst hj; simp
  · rw [AList.lookup_erase_ne hj,if_neg hj]

section Mirrored
variable {t : δ → Option (List ρ)} {d : δ} (h : Mirrors keep rel key m.lookup rows)
  (ht : t d = some rows)
include h ht

/-- A declaration leaves the table a mirror, whether the entry could be stored or not. -/
theorem declare_mirrors {kept : Bool} {store : Bool × δ}
    (stored : store.1 = true → t store.2 = some (rows ++ [r]))
    (refused : store.1 = false → t store.2 = some rows) (hkey : key r = k)
    (hk : keep k v ↔ kept = true) (hrel : rel v r) :
    ∃ rows', t (declare m k v kept d store).2.2 = some rows' ∧
      Mirrors keep rel key (declare m k v kept d store).2.1.lookup rows' := by
  unfold declare
  cases hl : m.lookup k with
  | some w => exact ⟨rows,ht,h⟩
  | none =>
    have hlook := fun j => lookup_insert (m := m) (v := v) k j
    cases kept with
    | false => exact ⟨rows,ht,h.insert_same hl hlook (by simp [hk])⟩
    | true =>
      obtain ⟨ok,d'⟩ := store
      cases ok with
      | false => exact ⟨rows,refused rfl,h⟩
      | true => exact ⟨_,stored rfl,h.insert hl hlook hkey (hk.mpr rfl) hrel⟩

/-- A deletion leaves the rows that are not named, if it succeeds. -/
theorem delete_table {kept : ν → Bool} {ok : Bool} {d' : δ}
    (removed : t d' = some (if ok then rows.filter fun r => !decide (key r = k) else rows))
    (hk : ∀ v, keep k v ↔ kept v = true) : t (delete m k kept d d').2 =
      some (if ok then rows.filter fun r => !decide (key r = k) else rows) := by
  have hsame : (∀ v, m.lookup k = some v → kept v = false) →
      rows = if ok then rows.filter fun r => !decide (key r = k) else rows := by
    intro hno
    have hf := h.filter_eq (p := (· = k)) fun j v hj hl => by
      subst hj
      simp [hk,hno v hl]
    cases ok with
    | true => exact hf.symm
    | false => rfl
  unfold delete
  cases hl : m.lookup k with
  | none => exact ht.trans (congrArg some (hsame (by simp [hl])))
  | some v =>
    cases hv : kept v with
    | true => simpa [hv] using removed
    | false =>
      simp only [hv,Bool.false_eq_true,↓reduceIte]
      refine ht.trans (congrArg some (hsame fun w hw => ?_))
      rw [hl,Option.some.injEq] at hw
      rwa [← hw]

end Mirrored

/-- A declaration that is not refused adds the entry where there is none. -/
theorem lookup_declare {δ : Type*} {kept : Bool} {d : δ} {store : Bool × δ}
    (hs : store.1 = true) (j : κ) : (declare m k v kept d store).2.1.lookup j =
      if (m.lookup k).isSome then m.lookup j else if j = k then some v else m.lookup j := by
  unfold declare
  cases hl : m.lookup k with
  | some w => simp
  | none =>
    obtain ⟨ok,d'⟩ := store
    cases hs
    cases kept <;> simpa using lookup_insert k j

/-- An entry that is there stays, whether the declaration is refused or not. -/
theorem lookup_declare_of_some {δ : Type*} {kept : Bool} {d : δ} {store : Bool × δ} {j : κ} {w : ν}
    (hw : m.lookup j = some w) : (declare m k v kept d store).2.1.lookup j = some w := by
  unfold declare
  cases hl : m.lookup k with
  | some x => exact hw
  | none =>
    have hne : j ≠ k := fun he => by rw [he,hl] at hw; cases hw
    have hinsert : AList.lookup j (m.insert k v) = some w := (AList.lookup_insert_ne hne).trans hw
    obtain ⟨ok,d'⟩ := store
    cases kept with
    | false => exact hinsert
    | true =>
      cases ok with
      | false => exact hw
      | true => exact hinsert

theorem lookup_delete {δ : Type*} {kept : ν → Bool} {d d' : δ} (j : κ) :
    (delete m k kept d d').1.lookup j = if j = k then none else m.lookup j := by
  unfold delete
  cases hl : m.lookup k with
  | none =>
    by_cases hj : j = k
    · subst hj; simp [hl]
    · simp [hj]
  | some v => exact lookup_erase k j

/-- Nothing is stored for an entry that is there already, or that is not to be kept. -/
theorem declare_unstored {kept : Bool} (h : kept = true → (m.lookup k).isSome) (d : δ)
    (store : Bool × δ) :
    declare m k v kept d store = (true,if (m.lookup k).isSome then m else m.insert k v,d) := by
  unfold declare
  cases hl : m.lookup k with
  | some w => rfl
  | none =>
    have hk : kept = false := Bool.eq_false_iff.mpr fun hk => by simp [hl] at h; simp [h] at hk
    simp [hk]

/-- Nothing is removed for an entry that was not kept. -/
theorem delete_unstored {kept : ν → Bool} (h : ∀ w, m.lookup k = some w → kept w = false)
    (d d' e e' : δ) : delete m k kept d d' = ((delete m k kept e e').1,d) := by
  unfold delete
  cases hl : m.lookup k with
  | none => rfl
  | some w => simp [h w hl]

end Registry
end MessageQueue.Base

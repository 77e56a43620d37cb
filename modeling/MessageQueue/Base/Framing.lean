import Mathlib.Data.List.Basic
import Mathlib.Data.List.Infix

/-! Frames in a stream. A reader looks at what has arrived of a stream and finds a whole frame in
front of it, or that more has to arrive, or that the stream is broken; what arrives later does not
change what it has found. From this alone: however the stream is cut into pieces, the same frames
are taken out of it. -/
namespace MessageQueue.Base

/-- What is in front of a stream: a frame with the number of its symbols, the beginning of one, or
an error. -/
inductive Front (α ε : Type*)
  | item (a : α) (n : ℕ)
  | more
  | bad (e : ε)

/-- A reader finds a frame as soon as it is there, and nothing that comes after it matters. -/
structure Reader (β α ε : Type*) where
  front : List β → Front α ε
  item_length : ∀ {bs a n}, front bs = .item a n → 0 < n ∧ n ≤ bs.length
  item_append : ∀ {bs a n}, front bs = .item a n → ∀ cs, front (bs ++ cs) = .item a n
  bad_append : ∀ {bs e}, front bs = .bad e → ∀ cs, front (bs ++ cs) = .bad e

namespace Reader
variable {β α ε : Type*} (r : Reader β α ε)

/-- The frames in front of a stream, one after the other, and what is left behind them. -/
inductive Reads : List β → List α → List β → Prop
  | nil (bs : List β) : Reads bs [] bs
  | cons {bs : List β} {a : α} {n : ℕ} {as : List α} {rest : List β}
      (first : r.front bs = .item a n) (others : Reads (bs.drop n) as rest) :
      Reads bs (a::as) rest

/-- No whole frame is in front. -/
def Idle (bs : List β) : Prop := ∀ a n, r.front bs ≠ .item a n

/-- The loop: take frames as long as there are any. -/
def drainFrom : ℕ → List β → List α × List β
  | 0,bs => ([],bs)
  | fuel+1,bs =>
    match r.front bs with
    | .item a n =>
      let t := drainFrom fuel (bs.drop n)
      (a::t.1,t.2)
    | _ => ([],bs)

/-- A frame has a symbol at least. -/
def drain (bs : List β) : List α × List β := r.drainFrom bs.length bs

/-- The pieces of a stream arrive one after the other, and the loop runs after each. -/
def feed : List β → List (List β) → List α × List β
  | bs,[] => ([],bs)
  | bs,c::cs =>
    let t := r.drain (bs ++ c)
    let u := feed t.2 cs
    (t.1 ++ u.1,u.2)

variable {r} {bs cs rest rest' : List β} {as as' : List α} {a : α} {n : ℕ}

namespace Reads

theorem append (h : r.Reads bs as rest) (cs : List β) : r.Reads (bs ++ cs) as (rest ++ cs) := by
  induction h with
  | nil bs => exact nil (bs ++ cs)
  | @cons bs a n as rest first others ih =>
    refine cons (r.item_append first cs) ?_
    rwa [List.drop_append_of_le_length (r.item_length first).2]

theorem trans (h : r.Reads bs as rest) (k : r.Reads rest as' rest') :
    r.Reads bs (as ++ as') rest' := by
  induction h with
  | nil bs => exact k
  | cons first _ ih => exact cons first (ih k)

/-- Nothing is left to chance: where the reader ends idle, the frames are determined. -/
theorem unique (h : r.Reads bs as rest) (k : r.Reads bs as' rest') (hi : r.Idle rest)
    (hi' : r.Idle rest') : as = as' ∧ rest = rest' := by
  induction h generalizing as' with
  | nil bs =>
    cases k with
    | nil => exact ⟨rfl,rfl⟩
    | cons first _ => exact absurd first (hi _ _)
  | cons first others ih =>
    cases k with
    | nil => exact absurd first (hi' _ _)
    | cons first' others' =>
      have heq := first.symm.trans first'
      cases heq
      obtain ⟨rfl,rfl⟩ := ih others' hi
      exact ⟨rfl,rfl⟩

end Reads

theorem drainFrom_reads (fuel : ℕ) (bs : List β) :
    r.Reads bs (r.drainFrom fuel bs).1 (r.drainFrom fuel bs).2 := by
  induction fuel generalizing bs with
  | zero => exact .nil bs
  | succ fuel ih =>
    unfold drainFrom
    split
    · next a n h => exact .cons h (ih _)
    · exact .nil bs

theorem drainFrom_idle {fuel : ℕ} (h : bs.length ≤ fuel) : r.Idle (r.drainFrom fuel bs).2 := by
  induction fuel generalizing bs with
  | zero =>
    intro a n hitem
    have hl := r.item_length hitem
    simp only [drainFrom] at hl
    omega
  | succ fuel ih =>
    unfold drainFrom
    split
    · next a n hitem =>
      refine ih ?_
      have hl := r.item_length hitem
      rw [List.length_drop]
      omega
    · next h => exact fun a n => h a n

/-- The loop reads frames until none is in front. -/
theorem drain_spec (bs : List β) :
    r.Reads bs (r.drain bs).1 (r.drain bs).2 ∧ r.Idle (r.drain bs).2 :=
  ⟨drainFrom_reads _ bs,drainFrom_idle le_rfl⟩

theorem drain_eq (h : r.Reads bs as rest) (hi : r.Idle rest) : r.drain bs = (as,rest) := by
  obtain ⟨hr,hi'⟩ := drain_spec (r := r) bs
  obtain ⟨h1,h2⟩ := hr.unique h hi' hi
  exact Prod.ext h1 h2

/-- Whatever the loop has taken out, it takes out first when more has arrived. -/
theorem drain_append (h : r.Reads bs as rest) (cs : List β) :
    r.drain (bs ++ cs) = (as ++ (r.drain (rest ++ cs)).1,(r.drain (rest ++ cs)).2) := by
  obtain ⟨hr,hi⟩ := drain_spec (r := r) (rest ++ cs)
  exact drain_eq ((h.append cs).trans hr) hi

/-- The pieces do not matter. -/
theorem feed_eq_drain (h : r.Idle bs) (cs : List (List β)) :
    r.feed bs cs = r.drain (bs ++ cs.flatten) := by
  induction cs generalizing bs with
  | nil =>
    rw [List.flatten_nil,List.append_nil]
    exact (drain_eq (.nil bs) h).symm
  | cons c cs ih =>
    obtain ⟨hr,hi⟩ := drain_spec (r := r) (bs ++ c)
    rw [feed,ih hi,List.flatten_cons,← List.append_assoc,drain_append hr]

section Writer
variable {encode : α → List β} {ok : α → Prop}
  (law : ∀ a, ok a → ∀ cs, r.front (encode a ++ cs) = .item a (encode a).length)
include law

/-- What was written is read back, whatever comes behind it. -/
theorem reads_encode (h : ∀ a ∈ as, ok a) (cs : List β) :
    r.Reads (as.flatMap encode ++ cs) as cs := by
  induction as with
  | nil => exact .nil cs
  | cons a as ih =>
    rw [List.flatMap_cons,List.append_assoc]
    refine .cons (law a (h a (by simp)) _) ?_
    rw [List.drop_left]
    exact ih fun a ha => h a (by simp [ha])

theorem drain_encode (h : ∀ a ∈ as, ok a) (cs : List β) :
    r.drain (as.flatMap encode ++ cs) = (as ++ (r.drain cs).1,(r.drain cs).2) := by
  obtain ⟨hr,hi⟩ := drain_spec (r := r) cs
  exact drain_eq ((reads_encode law h cs).trans hr) hi

/-- A frame that has arrived in part is waited for. -/
theorem front_part (ha : ok a) (h : bs <+: encode a) (hne : bs ≠ encode a) :
    r.front bs = .more := by
  obtain ⟨cs,hcs⟩ := h
  have hall : r.front (bs ++ cs) = .item a (encode a).length := by
    rw [hcs,← List.append_nil (encode a)]
    simpa using law a ha []
  cases hf : r.front bs with
  | more => rfl
  | bad e =>
    rw [r.bad_append hf] at hall
    cases hall
  | item b n =>
    -- the whole frame would lie inside its own part
    rw [r.item_append hf] at hall
    cases hall
    have hl := (r.item_length hf).2
    rw [← hcs,List.length_append] at hl
    have hnil : cs = [] := List.length_eq_zero_iff.mp (by omega)
    exact absurd (by simpa [hnil] using hcs) hne

/-- Of a stream of frames that has arrived in part, the frames that are complete are taken out, and
the beginning of the next one is left. -/
theorem drain_part (h : ∀ a ∈ as, ok a) (hp : bs <+: as.flatMap encode) :
    ∃ done todo, as = done ++ todo ∧ r.drain bs = (done,bs.drop (done.flatMap encode).length) ∧
      bs = done.flatMap encode ++ bs.drop (done.flatMap encode).length ∧
      ∀ a ∈ todo.head?, bs.drop (done.flatMap encode).length <+: encode a ∧
        bs.drop (done.flatMap encode).length ≠ encode a := by
  induction as generalizing bs with
  | nil =>
    have hnil : bs = [] := by simpa using hp
    subst hnil
    refine ⟨[],[],rfl,?_,rfl,by simp⟩
    rfl
  | cons a as ih =>
    have ha := h a (by simp)
    rw [List.flatMap_cons] at hp
    by_cases hle : encode a <+: bs
    · obtain ⟨cs,rfl⟩ := hle
      have hcs : cs <+: as.flatMap encode := (List.prefix_append_right_inj _).mp hp
      obtain ⟨done,todo,hsplit,hdrain,hbs,hhead⟩ := ih (fun b hb => h b (by simp [hb])) hcs
      have hdrop : (encode a ++ cs).drop (((a::done).flatMap encode).length) =
          cs.drop (done.flatMap encode).length := by
        rw [List.flatMap_cons,List.length_append,← List.drop_drop,List.drop_left]
      refine ⟨a::done,todo,by rw [hsplit]; rfl,?_,?_,?_⟩
      · have hone : ∀ b ∈ [a], ok b := by simpa using ha
        have hread := drain_encode law hone cs
        simp only [List.flatMap_cons,List.flatMap_nil,List.append_nil] at hread
        rw [hread,hdrain,hdrop]
        rfl
      · rw [hdrop,List.flatMap_cons,List.append_assoc,← hbs]
      · rw [hdrop]
        exact hhead
    · have hpart : bs <+: encode a :=
        (List.prefix_or_prefix_of_prefix hp (List.prefix_append (encode a) _)).resolve_right hle
      have hne : bs ≠ encode a := fun heq => hle (heq ▸ List.prefix_refl bs)
      have hmore := front_part law ha hpart hne
      refine ⟨[],a::as,rfl,?_,rfl,?_⟩
      · refine drain_eq (.nil bs) fun b n hitem => ?_
        change r.front bs = .item b n at hitem
        rw [hmore] at hitem
        cases hitem
      · intro b hb
        obtain rfl : a = b := by simpa using hb
        exact ⟨hpart,hne⟩

end Writer
end Reader
end MessageQueue.Base

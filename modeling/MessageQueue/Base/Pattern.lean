import Mathlib.Data.List.Induction

/-! Patterns over sequences: a pattern is a list of letters, and each letter covers a run of
words. Tables that are filled from the front read a pattern from its end, so the rules for a
last letter are derived here. -/
namespace MessageQueue.Base

variable {α β : Type*}

/-- `covers b u`: the letter `b` stands for the words `u`. -/
inductive Pattern (covers : β → List α → Prop) : List β → List α → Prop
  | nil : Pattern covers [] []
  | cons {b u bs v} : covers b u → Pattern covers bs v → Pattern covers (b::bs) (u ++ v)

namespace Pattern
variable {covers : β → List α → Prop} {b : β} {bs cs : List β} {ws : List α} {w : α}

@[simp] theorem nil_iff : Pattern covers [] ws ↔ ws = [] := by
  constructor
  · intro h
    cases h with
    | nil => rfl
  · intro h
    subst h
    exact .nil

theorem cons_iff :
    Pattern covers (b::bs) ws ↔ ∃ u v, ws = u ++ v ∧ covers b u ∧ Pattern covers bs v := by
  constructor
  · intro h
    cases h with
    | cons hu hv => exact ⟨_,_,rfl,hu,hv⟩
  · intro ⟨u,v,e,hu,hv⟩
    subst e
    exact .cons hu hv

/-- A pattern in two parts is matched by a sequence in two parts. -/
theorem append_iff : Pattern covers (bs ++ cs) ws ↔
    ∃ u v, ws = u ++ v ∧ Pattern covers bs u ∧ Pattern covers cs v := by
  induction bs generalizing ws with
  | nil => simp
  | cons b bs ih =>
    constructor
    · intro h
      obtain ⟨u,v,e,hu,hv⟩ := cons_iff.mp h
      obtain ⟨v₁,v₂,e',h₁,h₂⟩ := ih.mp hv
      exact ⟨u ++ v₁,v₂,by rw [e,e',List.append_assoc],.cons hu h₁,h₂⟩
    · intro ⟨u,v,e,hu,hv⟩
      obtain ⟨u₁,u₂,e',h₁,h₂⟩ := cons_iff.mp hu
      rw [e,e',List.append_assoc]
      exact .cons h₁ (ih.mpr ⟨u₂,v,rfl,h₂,hv⟩)

theorem single_iff : Pattern covers [b] ws ↔ covers b ws := by
  rw [cons_iff]
  simp

theorem snoc_iff : Pattern covers (bs ++ [b]) ws ↔
    ∃ u v, ws = u ++ v ∧ Pattern covers bs u ∧ covers b v := by
  simp only [append_iff,single_iff]

/-- A letter that covers what some letters of a pattern cover may stand for them. -/
theorem replace {ms : List β} (h : ∀ u, Pattern covers ms u → covers b u)
    (hp : Pattern covers (bs ++ ms ++ cs) ws) : Pattern covers (bs ++ b::cs) ws := by
  obtain ⟨u,v,rfl,hu,hv⟩ := append_iff.mp hp
  obtain ⟨u,m,rfl,hu,hm⟩ := append_iff.mp hu
  rw [List.append_assoc]
  exact append_iff.mpr ⟨u,m ++ v,rfl,hu,.cons (h m hm) hv⟩

/-- A last letter that covers one word at a time takes the last word. -/
theorem snoc_one {p : α → Prop} (hb : ∀ u, covers b u ↔ ∃ a, u = [a] ∧ p a) :
    Pattern covers (bs ++ [b]) (ws ++ [w]) ↔ p w ∧ Pattern covers bs ws := by
  rw [snoc_iff]
  constructor
  · intro ⟨u,v,e,hu,hv⟩
    obtain ⟨a,rfl,ha⟩ := (hb v).mp hv
    obtain ⟨rfl,ea⟩ := List.append_inj' e rfl
    cases ea
    exact ⟨ha,hu⟩
  · intro ⟨hw,h⟩
    exact ⟨ws,[w],rfl,h,(hb _).mpr ⟨w,rfl,hw⟩⟩

theorem snoc_one_nil {p : α → Prop} (hb : ∀ u, covers b u ↔ ∃ a, u = [a] ∧ p a) :
    ¬Pattern covers (bs ++ [b]) [] := by
  intro h
  obtain ⟨u,v,e,-,hv⟩ := snoc_iff.mp h
  obtain ⟨a,rfl,-⟩ := (hb v).mp hv
  simp at e

/-- A last letter that covers everything matches no word, or gives up the last word. -/
theorem snoc_any (hb : ∀ u, covers b u) : Pattern covers (bs ++ [b]) (ws ++ [w]) ↔
    Pattern covers (bs ++ [b]) ws ∨ Pattern covers bs (ws ++ [w]) := by
  rw [snoc_iff]
  constructor
  · intro ⟨u,v,e,hu,hv⟩
    cases v using List.reverseRecOn with
    | nil =>
      right
      rw [e,List.append_nil]
      exact hu
    | append_singleton v a =>
      rw [← List.append_assoc] at e
      obtain ⟨rfl,-⟩ := List.append_inj' e rfl
      exact .inl (snoc_iff.mpr ⟨u,v,rfl,hu,hb v⟩)
  · intro h
    cases h with
    | inl h =>
      obtain ⟨u,v,rfl,hu,-⟩ := snoc_iff.mp h
      exact ⟨u,v ++ [w],List.append_assoc ..,hu,hb _⟩
    | inr h => exact ⟨ws ++ [w],[],(List.append_nil _).symm,h,hb []⟩

theorem snoc_any_nil (hb : ∀ u, covers b u) :
    Pattern covers (bs ++ [b]) [] ↔ Pattern covers bs [] := by
  rw [snoc_iff]
  constructor
  · intro ⟨u,v,e,hu,_⟩
    obtain ⟨rfl,rfl⟩ := List.append_eq_nil_iff.mp e.symm
    exact hu
  · intro h
    exact ⟨[],[],rfl,h,hb []⟩

/-- Whatever is matched without the last letter is matched with it. -/
theorem snoc_any_of (hb : ∀ u, covers b u) (h : Pattern covers bs ws) :
    Pattern covers (bs ++ [b]) ws :=
  snoc_iff.mpr ⟨ws,[],(List.append_nil _).symm,h,hb []⟩

end Pattern
end MessageQueue.Base

import Mathlib.Data.Int.CardIntervalMod

/-! A list that is read over and over, from any place on: how often each of its elements comes up
in a stretch. -/
namespace MessageQueue.Base

variable {α : Type*} {xs : List α} {x : α} {n s k j : ℕ}

/-- The next `k` elements from place `s` on, behind the last one comes the first again. -/
def turns (xs : List α) (s k : ℕ) : List (Option α) :=
  (List.range k).map fun i => xs[(s+i) % xs.length]?

theorem turns_succ : turns xs s (k+1) = xs[s % xs.length]? :: turns xs (s+1) k := by
  simp only [turns,List.range_succ_eq_map,List.map_cons,List.map_map,Nat.add_zero,
    Function.comp_def,Nat.succ_eq_add_one]
  congr 2
  funext i
  rw [Nat.add_comm i 1,← Nat.add_assoc]

theorem countP_range (p : ℕ → Prop) [DecidablePred p] (k : ℕ) :
    (List.range k).countP p = k.count p := by
  induction k with
  | zero => rfl
  | succ k ih =>
    rw [List.range_succ,List.countP_append,ih,Nat.count_succ]
    by_cases h : p k <;> simp [h]

/-- Among `k` numbers in a row those with one remainder are a share of `k`, rounded down or up. -/
theorem countP_mod (hn : 0 < n) (hj : j < n) (s k : ℕ) :
    (List.range k).countP (fun i => decide ((s+i) % n = j)) = k / n ∨
      (List.range k).countP (fun i => decide ((s+i) % n = j)) = (k+n-1) / n := by
  -- the number that is as far behind `s` as the remainder asks
  have hmod : ∀ i, (s+i) % n = j ↔ i ≡ j+(n-1)*s [MOD n] := by
    intro i
    have hs : s+(j+(n-1)*s) = j+n*s := by
      rw [Nat.sub_mul,Nat.one_mul]
      have := Nat.le_mul_of_pos_left s hn
      omega
    have hj' : s+(j+(n-1)*s) ≡ j [MOD n] := by
      rw [hs]
      exact Nat.add_mul_mod_self_left j n s
    constructor
    · intro h
      have hi : s+i ≡ j [MOD n] := h.trans (Nat.mod_eq_of_lt hj).symm
      exact Nat.ModEq.add_left_cancel' s (hi.trans hj'.symm)
    · intro h
      have hi : (s+i) % n = j % n := (h.add_left s).trans hj'
      exact hi.trans (Nat.mod_eq_of_lt hj)
  simp only [hmod]
  rw [countP_range (fun i => i ≡ j+(n-1)*s [MOD n]) k,Nat.count_modEq_card k hn]
  split_ifs with h
  · right
    have hk : k+n-1 = n*(k/n+1)+(k%n-1) := by
      rw [Nat.mul_add,Nat.mul_one]
      have := Nat.div_add_mod k n
      omega
    have hlt : k%n-1 < n := (Nat.sub_le _ _).trans_lt (Nat.mod_lt k hn)
    rw [hk,Nat.mul_add_div hn,Nat.div_eq_of_lt hlt]
  · exact .inl rfl

/-- In a stretch of turns every element comes up its share of times, rounded down or up. -/
theorem count_turns [DecidableEq α] (hnd : xs.Nodup) (hx : x ∈ xs) (s k : ℕ) :
    (turns xs s k).count (some x) = k / xs.length ∨
      (turns xs s k).count (some x) = (k+xs.length-1) / xs.length := by
  obtain ⟨j,hj,rfl⟩ := List.mem_iff_getElem.mp hx
  have hn : 0 < xs.length := (Nat.zero_le j).trans_lt hj
  have hcount : (turns xs s k).count (some xs[j]) =
      (List.range k).countP fun i => decide ((s+i) % xs.length = j) := by
    rw [turns,List.count,List.countP_map]
    refine List.countP_congr fun i _ => ?_
    have hi : (s+i) % xs.length < xs.length := Nat.mod_lt _ hn
    simp only [Function.comp_apply,List.getElem?_eq_getElem hi,beq_iff_eq,Option.some.injEq,
      decide_eq_true_eq]
    exact hnd.getElem_inj_iff
  rw [hcount]
  exact countP_mod hn hj s k

end MessageQueue.Base

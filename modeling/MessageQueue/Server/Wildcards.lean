import MessageQueue.Server.Topics

/-! Wildcards that take the place of words in a binding key. They reach every routing key that was
reached before, unless a word of the routing key is itself `#`. -/
namespace MessageQueue
open Base StrHelper

namespace RouteManager

/-- One run of words becomes a single `#`, or one word other than `#` becomes `*`. -/
inductive Generalizes : List String → List String → Prop
  | hash (u m v : List String) : Generalizes (u ++ m ++ v) (u ++ "#"::v)
  | star (u : List String) (w : String) (v : List String) :
    w ≠ "#" → Generalizes (u ++ [w] ++ v) (u ++ "*"::v)

/-- Among patterns this only adds to what is covered. -/
theorem Generalizes.pattern {bs bs' ws : List String} (h : Generalizes bs bs')
    (hp : Pattern Covers bs ws) : Pattern Covers bs' ws := by
  cases h with
  | hash u m v => exact hp.replace fun x _ => covers_hash x
  | star u w v hw =>
    refine hp.replace fun x hx => ?_
    obtain ⟨a,rfl,-⟩ := (covers_one hw x).mp (Pattern.single_iff.mp hx)
    exact (covers_one (by simp) _).mpr ⟨a,rfl,.inr rfl⟩

/-- The table read from its end: the last binding word against the last word. -/
def entry : List String → List String → Bool
  | [],[] => true
  | [],_::_ => false
  | b::bs,[] => decide (b = "#") && entry bs []
  | b::bs,w::ws =>
    if b = w ∨ b = "*" then entry bs ws
    else if b = "#" then entry bs ws || entry (b::bs) ws || entry bs (w::ws)
    else false
termination_by bs ws => bs.length+ws.length

theorem filled_entry (ws : List String) :
    Filled (fun bs us => entry bs.reverse us.reverse = true) ws where
  blank us := by
    cases us using List.reverseRecOn with
    | nil => simp [entry]
    | append_singleton us w => simp [entry]
  column bs b := by simp [entry,and_comm]
  cell bs b us w _ := by
    simp only [List.reverse_append,List.reverse_singleton,List.singleton_append]
    rw [entry]
    split_ifs
    · exact Iff.rfl
    · simp only [Bool.or_eq_true,or_assoc]
    · simp

theorem topicMatch_eq (bs ws : List String) : topicMatch bs ws = entry bs.reverse ws.reverse :=
  Bool.eq_iff_iff.mpr ((filled_entry ws).topicMatch_iff bs)

variable {bs us : List String}

/-- A binding word that equals the word, be it a `#`, and a `*` stand for that word only. -/
theorem topicMatch_snoc {b w : String} (h : b = w ∨ b = "*") :
    topicMatch (bs ++ [b]) (us ++ [w]) = topicMatch bs us := by
  simp only [topicMatch_eq,List.reverse_append,List.reverse_singleton,List.singleton_append]
  rw [entry,if_pos h]

theorem topicMatch_append (vs : List String) :
    topicMatch (bs ++ vs) (us ++ vs) = topicMatch bs us := by
  induction vs using List.reverseRecOn with
  | nil => simp only [List.append_nil]
  | append_singleton vs v ih =>
    rw [← List.append_assoc,← List.append_assoc,topicMatch_snoc (.inl rfl),ih]

theorem topicMatch_stars (k : ℕ) :
    topicMatch (List.replicate k "*") us = true ↔ us.length = k := by
  induction k generalizing us with
  | zero =>
    rw [List.replicate_zero,(filled_entry us).topicMatch_iff,(filled_entry us).blank]
    exact List.length_eq_zero_iff.symm
  | succ k ih =>
    rw [List.replicate_succ']
    cases us using List.reverseRecOn with
    | nil => simp [topicMatch_eq,entry]
    | append_singleton us w => rw [topicMatch_snoc (.inr rfl),ih]; simp

/-- The wildcards of a binding key only add to the routing keys that it is reached by, and the key
`#` is reached by all. -/
structure Generalising (routingKey : String) : Prop where
  wildcards : ∀ b b', Generalizes (words b) (words b') →
    route .topic routingKey b = some true → route .topic routingKey b' = some true
  hash : route .topic routingKey "#" = some true

/-- A `#` of the routing key is not covered by a `#` in the gap before the same word. -/
theorem hash_not_covered (u v : List String) :
    topicMatch (List.replicate (u.length+1) "*" ++ v) (u ++ "#"::v) = true ∧
      topicMatch (List.replicate (u.length+1) "*" ++ "#"::v) (u ++ "#"::v) = false := by
  have hcons : ∀ xs : List String, xs ++ "#"::v = xs ++ ["#"] ++ v := fun xs => by simp
  constructor
  · rw [hcons,topicMatch_append,topicMatch_stars,List.length_append,List.length_singleton]
  · rw [hcons,hcons u,topicMatch_append,topicMatch_snoc (.inl rfl),← Bool.not_eq_true,
      topicMatch_stars]
    omega

/-- Wildcards generalise for a routing key exactly if none of its words is `#`. -/
theorem wildcards_generalise_iff (routingKey : String) :
    Generalising routingKey ↔ "#" ∉ words routingKey := by
  constructor
  · intro h hmem
    obtain ⟨u,v,hsplit⟩ := List.append_of_mem hmem
    have hv : ∀ w ∈ v, IsPiece '.' w := fun w hw => by
      have hw' : w ∈ words routingKey := by rw [hsplit]; simp [hw]
      exact isPiece_of_mem hw'
    have hstars : ∀ w ∈ List.replicate (u.length+1) "*", IsPiece '.' w := fun w hw => by
      rw [List.eq_of_mem_replicate hw]
      exact ⟨by decide,by decide⟩
    have hash : IsPiece '.' "#" := ⟨by decide,by decide⟩
    obtain ⟨hold,hnew⟩ := hash_not_covered u v
    rw [← hsplit] at hold hnew
    have hb : words (joined '.' (List.replicate (u.length+1) "*" ++ v)) = _ :=
      pieces_joined (List.forall_mem_append.mpr ⟨hstars,hv⟩)
    have hb' : words (joined '.' (List.replicate (u.length+1) "*" ++ "#"::v)) = _ :=
      pieces_joined (List.forall_mem_append.mpr ⟨hstars,List.forall_mem_cons.mpr ⟨hash,hv⟩⟩)
    have hlaw := h.wildcards (joined '.' (List.replicate (u.length+1) "*" ++ v))
      (joined '.' (List.replicate (u.length+1) "*" ++ "#"::v))
    rw [hb,hb',route_topic,route_topic,hb,hb',hold,hnew] at hlaw
    have hgen := Generalizes.hash (List.replicate (u.length+1) "*") [] v
    rw [List.append_nil] at hgen
    exact absurd (hlaw hgen rfl) (by simp)
  · intro h
    have hws : ∀ w ∈ words routingKey, w ≠ "#" := fun w hw e => h (e ▸ hw)
    constructor
    · intro b b' hgen hb
      rw [route_topic,Option.some.injEq,topicMatch_iff hws] at hb ⊢
      exact hgen.pattern hb
    · have hone : words "#" = ["#"] := by decide
      rw [route_topic,Option.some.injEq,topicMatch_iff hws,hone,Pattern.single_iff]
      exact covers_hash _

/-- The routing key that is its own binding key is not reached by `#`. -/
theorem hash_key_left_out : ¬ ∀ routingKey, Generalising routingKey := by
  intro h
  have hall := (h "a.#").hash
  revert hall
  decide

end RouteManager
end MessageQueue

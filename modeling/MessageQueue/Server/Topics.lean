import MessageQueue.Base.Pattern
import MessageQueue.Common.Split
import MessageQueue.Server.Route

/-! Topic routing against its specification: a binding key is a pattern over the words of the
routing key, and the table `route` fills decides it. -/
namespace MessageQueue
open Base

/-- The words of a key: its pieces between dots, without the empty ones. -/
def words (key : String) : List String :=
  ((key.toList.splitOn '.').filter fun u => !u.isEmpty).map String.ofList

namespace RouteManager

theorem validLoop_mem {prev : Option Char} {cs : List Char} (h : validLoop prev cs = true)
    {c : Char} (hc : c ∈ cs) : c ≠ '*' ∧ c ≠ '#' := by
  induction cs generalizing prev with
  | nil => simp at hc
  | cons d cs ih =>
    simp only [validLoop,Bool.and_eq_true] at h
    rcases List.mem_cons.mp hc with rfl | hc
    · constructor <;> intro e <;> subst e <;> revert h <;> simp [legalAfter]
    · exact ih h.2 hc

/-- A legal routing key has no wildcard among its words. -/
theorem words_literal {key : String} (h : isValidRoutingKey key = true) {w : String}
    (hw : w ∈ words key) : w ≠ "*" ∧ w ≠ "#" := by
  obtain ⟨u,hu,rfl⟩ := List.mem_map.mp hw
  have hsub : ∀ c ∈ u, c ∈ key.toList := fun c hc =>
    mem_of_mem_splitOn (List.mem_filter.mp hu).1 hc
  have hu : ∀ c ∈ u, c ≠ '*' ∧ c ≠ '#' := fun c hc => validLoop_mem h (hsub c hc)
  constructor
  · intro e
    have e' : u = ['*'] := by simpa using congrArg String.toList e
    exact (hu '*' (by simp [e'])).1 rfl
  · intro e
    have e' : u = ['#'] := by simpa using congrArg String.toList e
    exact (hu '#' (by simp [e'])).2 rfl

/-- What a binding word stands for: `*` for one word, `#` for any number of words, every other
for itself. -/
def Covers (b : String) (u : List String) : Prop :=
  if b = "*" then u.length = 1 else if b = "#" then True else u = [b]

theorem covers_one {b : String} (hb : b ≠ "#") (u : List String) :
    Covers b u ↔ ∃ a, u = [a] ∧ (b = a ∨ b = "*") := by
  by_cases hs : b = "*"
  · simp [Covers,hs,List.length_eq_one_iff]
  · simp [Covers,hs,hb]

theorem covers_hash (u : List String) : Covers "#" u := by simp [Covers]

/-- `row` tells of `us` and of every way on through `ws` whether `P` holds. -/
inductive Row (P : List String → Prop) : List String → List String → List Bool → Prop
  | last {us x} : (x = true ↔ P us) → Row P us [] [x]
  | next {us w ws x row} : (x = true ↔ P us) → Row P (us ++ [w]) ws row → Row P us (w::ws) (x::row)

namespace Row
variable {P : List String → Prop} {us ws : List String} {row : List Bool}

theorem getLast (h : Row P us ws row) : row.getLast?.getD false = true ↔ P (us ++ ws) := by
  induction h with
  | last h => simpa using h
  | @next us w ws x row h hrow ih =>
    rw [List.append_cons,← ih]
    cases hrow <;> simp

theorem head (h : Row P us ws row) : ∃ x rest, row = x::rest ∧ (x = true ↔ P us) := by
  cases h with
  | last h => exact ⟨_,_,rfl,h⟩
  | next h _ => exact ⟨_,_,rfl,h⟩

end Row

/-- The rules that the table is filled by: what each of its entries tells of the words before it,
when the words are among `ws`. -/
structure Filled (M : List String → List String → Prop) (ws : List String) : Prop where
  blank : ∀ us, M [] us ↔ us = []
  column : ∀ bs b, M (bs ++ [b]) [] ↔ M bs [] ∧ b = "#"
  cell : ∀ bs b us, ∀ w ∈ ws, M (bs ++ [b]) (us ++ [w]) ↔
    if b = w ∨ b = "*" then M bs us
    else if b = "#" then M bs us ∨ M (bs ++ [b]) us ∨ M bs (us ++ [w])
    else False

namespace Filled
variable {M : List String → List String → Prop} {bs cs ws : List String} {b : String}

/-- The first row of the table: the empty pattern is matched by no word only. -/
theorem blankRow {vs us : List String} (hM : Filled M vs) (h : us ≠ []) :
    Row (M []) us ws (false :: ws.map fun _ => false) := by
  induction ws generalizing us with
  | nil => exact .last (by simpa [hM.blank] using h)
  | cons w ws ih => exact .next (by simpa [hM.blank] using h) (ih (by simp))

theorem rowLoop_row {vs us : List String} {row : List Bool} {left : Bool} (hM : Filled M vs)
    (hrow : Row (M bs) us ws row) (hws : ∀ w ∈ ws, w ∈ vs) (hleft : left = true ↔ M (bs ++ [b]) us) :
    Row (M (bs ++ [b])) us ws (left :: rowLoop b left row ws) := by
  induction hrow generalizing left with
  | last h => exact .last hleft
  | @next us w ws diag row hdiag hrow ih =>
    obtain ⟨up,rest,rfl,hup⟩ := hrow.head
    rw [rowLoop]
    refine .next hleft (ih (fun v hv => hws v (List.mem_cons_of_mem _ hv)) ?_)
    rw [hM.cell bs b us w (hws w List.mem_cons_self)]
    split_ifs
    · exact hdiag
    · simp only [Bool.or_eq_true,or_assoc,hdiag,hleft,hup]
    · simp

theorem rows_row {row : List Bool} {leading : Bool} (hM : Filled M ws)
    (hlead : leading = true ↔ M bs []) (hrow : Row (M bs) [] ws row) :
    Row (M (bs ++ cs)) [] ws (rows ws cs leading row) := by
  induction cs generalizing bs leading row with
  | nil => simpa [rows] using hrow
  | cons b cs ih =>
    have hcol : (leading && decide (b = "#")) = true ↔ M (bs ++ [b]) [] := by
      rw [hM.column,← hlead,Bool.and_eq_true,decide_eq_true_eq]
    rw [rows,List.append_cons]
    exact ih hcol (hM.rowLoop_row hrow (fun _ hw => hw) hcol)

/-- The last entry of the table tells of all words. -/
theorem topicMatch_iff (hM : Filled M ws) (cs : List String) :
    topicMatch cs ws = true ↔ M cs ws := by
  have h₀ : Row (M []) [] ws (true :: ws.map fun _ => false) := by
    cases ws with
    | nil => exact .last (by simp [hM.blank])
    | cons w ws => exact .next (by simp [hM.blank]) (hM.blankRow (by simp))
  exact (hM.rows_row (by simp [hM.blank]) h₀).getLast

end Filled

/-- Among words without wildcards the table is filled by the rules of patterns: a word that is
covered one at a time inherits from the upper left, `#` from all three neighbours. -/
theorem filled_pattern {ws : List String} (hws : ∀ w ∈ ws, w ≠ "#") :
    Filled (Pattern Covers) ws where
  blank us := Pattern.nil_iff
  column bs b := by
    by_cases hb : b = "#"
    · subst hb
      rw [Pattern.snoc_any_nil covers_hash]
      simp
    · simp [hb,Pattern.snoc_one_nil (covers_one hb)]
  cell bs b us w hw := by
    by_cases hb : b = "#"
    · subst hb
      have hne : ¬("#" = w ∨ "#" = "*") := by simp [(hws w hw).symm]
      rw [if_neg hne,if_pos rfl,Pattern.snoc_any covers_hash]
      have : Pattern Covers bs us → Pattern Covers (bs ++ ["#"]) us :=
        Pattern.snoc_any_of covers_hash
      tauto
    · rw [Pattern.snoc_one (covers_one hb)]
      by_cases he : b = w ∨ b = "*"
      · simp [he]
      · simp [he,hb]

/-- The table decides the pattern for every list of words without wildcards. -/
theorem topicMatch_iff {cs ws : List String} (hws : ∀ w ∈ ws, w ≠ "#") :
    topicMatch cs ws = true ↔ Pattern Covers cs ws := (filled_pattern hws).topicMatch_iff cs

/-- The code's loop over a key finds its words. -/
theorem split_dot (key : String) : StrHelper.split key "." = words key :=
  StrHelper.split_pieces (by decide) key

theorem route_topic {routingKey bindingKey : String} : route .topic routingKey bindingKey =
    some (topicMatch (words bindingKey) (words routingKey)) := by
  simp [route,split_dot,ExchangeType.topic,ExchangeType.direct,ExchangeType.fanout]

/-- Topic routing decides, for every legal routing key, whether its words are matched by the
words of the binding key. -/
theorem route_topic_iff (routingKey bindingKey : String)
    (h : isValidRoutingKey routingKey = true) :
    route .topic routingKey bindingKey = some true ↔
      Pattern Covers (words bindingKey) (words routingKey) := by
  have hws : ∀ w ∈ words routingKey, w ≠ "#" := fun w hw => (words_literal h hw).2
  rw [route_topic,Option.some.injEq]
  exact topicMatch_iff hws

theorem route_topic_music : isValidRoutingKey "news.music.pop" = true ∧
    (route .topic "news.music.pop" "news.#.pop" = some true ↔
      Pattern Covers (words "news.#.pop") (words "news.music.pop")) :=
  ⟨by decide,route_topic_iff _ _ (by decide)⟩

end RouteManager
end MessageQueue

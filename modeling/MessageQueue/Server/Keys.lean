import MessageQueue.Server.Topics

/-! The validators of keys against the grammar of keys: words with single dots between them. The
one for routing keys lets a last dot pass, the one for binding keys any dot. -/
namespace MessageQueue
open Base StrHelper

namespace RouteManager

def WordChar (c : Char) : Prop :=
  ('a' ≤ c ∧ c ≤ 'z') ∨ ('A' ≤ c ∧ c ≤ 'Z') ∨ ('0' ≤ c ∧ c ≤ '9') ∨ c = '_'

instance (c : Char) : Decidable (WordChar c) :=
  inferInstanceAs (Decidable (('a' ≤ c ∧ c ≤ 'z') ∨ ('A' ≤ c ∧ c ≤ 'Z') ∨ ('0' ≤ c ∧ c ≤ '9') ∨
    c = '_'))

/-- Nothing, or words without a leading, trailing or doubled dot. -/
def IsRoutingKey (key : String) : Prop :=
  key = "" ∨ ∃ ws, ws ≠ [] ∧ (∀ w ∈ ws, w ≠ "" ∧ ∀ c ∈ w.toList, WordChar c) ∧
    key = joined '.' ws

theorem not_wordChar_dot : ¬ WordChar '.' := by decide

/-- Words of word characters have no dot in them. -/
theorem isPiece_of_wordChar {w : String} (h : w ≠ "" ∧ ∀ c ∈ w.toList, WordChar c) :
    IsPiece '.' w := ⟨h.1,fun hmem => not_wordChar_dot (h.2 '.' hmem)⟩

/-- A key that is not empty is grammatical if its words are, and none between its dots is empty. -/
theorem isRoutingKey_iff {key : String} (hne : key ≠ "") : IsRoutingKey key ↔
    ∀ p ∈ key.toList.splitOn '.', p ≠ [] ∧ ∀ c ∈ p, WordChar c := by
  have hjoin := @joined_iff '.' key fun ws => ∀ w ∈ ws, ∀ c ∈ w.toList, WordChar c
  have hleft : IsRoutingKey key ↔ ∃ ws, ws ≠ [] ∧ (∀ w ∈ ws, IsPiece '.' w) ∧
      (∀ w ∈ ws, ∀ c ∈ w.toList, WordChar c) ∧ key = joined '.' ws := by
    unfold IsRoutingKey
    rw [or_iff_right hne]
    refine exists_congr fun ws => and_congr_right fun _ => ?_
    constructor
    · exact fun ⟨hws,hkey⟩ =>
        ⟨fun w hw => isPiece_of_wordChar (hws w hw),fun w hw => (hws w hw).2,hkey⟩
    · exact fun ⟨hp,hws,hkey⟩ => ⟨fun w hw => ⟨(hp w hw).1,hws w hw⟩,hkey⟩
  rw [hleft,hjoin]
  constructor
  · intro ⟨hdots,hws⟩ p hp
    have hp' : p ≠ [] := fun e => hdots (e ▸ hp)
    refine ⟨hp',fun c hc => ?_⟩
    have hmem : String.ofList p ∈ pieces '.' key :=
      List.mem_map.mpr ⟨p,List.mem_filter.mpr ⟨hp,by simpa using hp'⟩,rfl⟩
    exact hws _ hmem c (by rwa [String.toList_ofList])
  · intro h
    refine ⟨fun hmem => (h [] hmem).1 rfl,fun w hw c hc => ?_⟩
    obtain ⟨p,hp,rfl⟩ := List.mem_map.mp hw
    rw [String.toList_ofList] at hc
    exact (h p (List.mem_filter.mp hp).1).2 c hc

theorem legalAfter_iff {prev : Option Char} {c : Char} : legalAfter prev c = true ↔
    WordChar c ∨ c = '.' ∧ prev.isSome ∧ prev ≠ some '.' := by
  unfold legalAfter WordChar
  simp only [Bool.or_eq_true,Bool.and_eq_true,decide_eq_true_eq,beq_iff_eq,bne_iff_ne]
  by_cases hc : c = '.'
  · subst hc
    tauto
  · tauto

/-- The loop over a word, and what it stands behind then. -/
theorem validLoop_word {p cs : List Char} (hp : '.' ∉ p) (prev : Option Char) :
    validLoop prev (p ++ cs) = true ↔ (∀ c ∈ p, WordChar c) ∧
      validLoop (p.getLast?.or prev) cs = true := by
  induction p generalizing prev with
  | nil => simp
  | cons a p ih =>
    rw [List.mem_cons,not_or] at hp
    rw [List.cons_append,validLoop,Bool.and_eq_true,legalAfter_iff,ih hp.2]
    have hlast : p.getLast?.or (some a) = (a::p).getLast?.or prev := by
      rw [List.getLast?_cons]
      cases p.getLast? <;> rfl
    rw [hlast,List.forall_mem_cons]
    constructor
    · rintro ⟨ha | ⟨rfl,-⟩,hp',hcs⟩
      · exact ⟨⟨ha,hp'⟩,hcs⟩
      · exact absurd rfl hp.1
    · rintro ⟨⟨ha,hp'⟩,hcs⟩
      exact ⟨.inl ha,hp',hcs⟩

/-- At the start of a word the loop accepts words of which only the last may be empty. -/
theorem validLoop_pieces {ps : List (List Char)} (hps : ∀ p ∈ ps, '.' ∉ p) {prev : Option Char}
    (hprev : prev = none ∨ prev = some '.') : validLoop prev (['.'].intercalate ps) = true ↔
      (∀ p ∈ ps, ∀ c ∈ p, WordChar c) ∧ ∀ p ∈ ps.dropLast, p ≠ [] := by
  induction ps generalizing prev with
  | nil => simp [validLoop]
  | cons p ps ih =>
    have hp := hps p List.mem_cons_self
    cases ps with
    | nil =>
      have hword := @validLoop_word p [] hp prev
      rw [List.append_nil] at hword
      simp [hword,validLoop]
    | cons q ps =>
      have hrest := ih (fun r hr => hps r (List.mem_cons_of_mem _ hr)) (.inr rfl)
      rw [List.intercalate_cons_cons,List.append_assoc,List.singleton_append,validLoop_word hp,
        validLoop,Bool.and_eq_true,legalAfter_iff,hrest,List.dropLast_cons_cons,List.forall_mem_cons (a := p),
        List.forall_mem_cons (a := p)]
      -- a dot is legal behind a word only
      have hdot : (WordChar '.' ∨ '.' = '.' ∧ (p.getLast?.or prev).isSome ∧
          p.getLast?.or prev ≠ some '.') ↔ p ≠ [] := by
        cases p using List.reverseRecOn with
        | nil =>
          have hnot := not_wordChar_dot
          cases hprev with
          | inl h => simp [h,hnot]
          | inr h => simp [h,hnot]
        | append_singleton p a =>
          have ha : a ≠ '.' := fun e => hp (by simp [e])
          simp [ha]
      rw [hdot]
      tauto

theorem isValidRoutingKey_pieces {key : String} : isValidRoutingKey key = true ↔
    (∀ p ∈ key.toList.splitOn '.', ∀ c ∈ p, WordChar c) ∧
      ∀ p ∈ (key.toList.splitOn '.').dropLast, p ≠ [] := by
  have h := validLoop_pieces (fun p (hp : p ∈ key.toList.splitOn '.') => not_mem_of_mem_splitOn hp)
    (.inl rfl)
  rwa [List.intercalate_splitOn] at h

/-- A dot after a key. -/
def Dotted (key : String) : Prop := ∃ t, t ≠ "" ∧ IsRoutingKey t ∧ key = t ++ "."

theorem splitOn_dotted (t : String) :
    (t ++ ".").toList.splitOn '.' = t.toList.splitOn '.' ++ [[]] := by
  have hdot : ".".toList = ['.'] := by decide
  rw [String.toList_append,hdot,List.splitOn_append_cons_self,
    List.splitOn_eq_singleton List.not_mem_nil]

theorem eq_of_splitOn {s t : String} (h : s.toList.splitOn '.' = t.toList.splitOn '.') : s = t := by
  have hj := congrArg ['.'].intercalate h
  rwa [List.intercalate_splitOn,List.intercalate_splitOn,String.toList_inj] at hj

/-- A key of which only the last piece is empty ends in a dot. -/
theorem dotted_of_pieces {key : String} {qs : List (List Char)}
    (hsplit : key.toList.splitOn '.' = qs ++ [[]]) (hne : key ≠ "")
    (hqs : ∀ q ∈ qs, q ≠ [] ∧ ∀ c ∈ q, WordChar c) : Dotted key := by
  have hsep : ∀ q ∈ qs, '.' ∉ q := fun q hq hmem => not_wordChar_dot ((hqs q hq).2 '.' hmem)
  have hnil : qs ≠ [] := by
    rintro rfl
    refine hne (eq_of_splitOn ?_)
    rw [hsplit,String.toList_empty,List.splitOn_eq_singleton List.not_mem_nil]
    rfl
  have ht : (String.ofList (['.'].intercalate qs)).toList.splitOn '.' = qs := by
    rw [String.toList_ofList,List.splitOn_intercalate '.' hsep hnil]
  have hne' : String.ofList (['.'].intercalate qs) ≠ "" := by
    intro e
    rw [e,String.toList_empty,List.splitOn_eq_singleton List.not_mem_nil] at ht
    exact (hqs [] (ht ▸ List.mem_singleton_self _)).1 rfl
  refine ⟨_,hne',(isRoutingKey_iff hne').mpr (by rwa [ht]),eq_of_splitOn ?_⟩
  rw [splitOn_dotted,ht,hsplit]

/-- The validator accepts the keys, and the keys with a dot after them. -/
theorem isValidRoutingKey_iff {key : String} :
    isValidRoutingKey key = true ↔ IsRoutingKey key ∨ Dotted key := by
  by_cases hne : key = ""
  · subst hne
    exact iff_of_true (by decide) (.inl (.inl rfl))
  rw [isValidRoutingKey_pieces,isRoutingKey_iff hne]
  constructor
  · intro ⟨hchars,hdrop⟩
    have hps := List.splitOn_ne_nil '.' key.toList
    by_cases hlast : (key.toList.splitOn '.').getLast hps = []
    · right
      have hsplit := List.dropLast_append_getLast hps
      rw [hlast] at hsplit
      exact dotted_of_pieces hsplit.symm hne fun q hq =>
        ⟨hdrop q hq,hchars q (List.dropLast_subset _ hq)⟩
    · left
      intro p hp
      refine ⟨?_,hchars p hp⟩
      rw [← List.dropLast_append_getLast hps] at hp
      cases List.mem_append.mp hp with
      | inl h => exact hdrop p h
      | inr h => rw [List.mem_singleton.mp h]; exact hlast
  · intro h
    cases h with
    | inl h => exact ⟨fun p hp => (h p hp).2,fun p hp => (h p (List.dropLast_subset _ hp)).1⟩
    | inr h =>
      obtain ⟨t,ht,hkey,rfl⟩ := h
      rw [isRoutingKey_iff ht] at hkey
      rw [splitOn_dotted,List.dropLast_concat]
      refine ⟨fun p hp => ?_,fun p hp => (hkey p hp).1⟩
      cases List.mem_append.mp hp with
      | inl h => exact (hkey p h).2
      | inr h => simp [List.mem_singleton.mp h]

/-- A key with a dot after it is no key. -/
theorem not_isRoutingKey_dotted {key : String} (h : Dotted key) : ¬ IsRoutingKey key := by
  obtain ⟨t,ht,-,rfl⟩ := h
  have hne : t ++ "." ≠ "" := by
    intro e
    have hlen := congrArg (fun s : String => s.toList.length) e
    simp at hlen
  intro hkey
  rw [isRoutingKey_iff hne,splitOn_dotted] at hkey
  exact (hkey [] (by simp)).1 rfl

/-- The validator of routing keys answers as the grammar does, except for a key with one dot more
at its end. -/
theorem routing_key_exact_iff (key : String) :
    (isValidRoutingKey key = true ↔ IsRoutingKey key) ↔ ¬ Dotted key := by
  rw [isValidRoutingKey_iff]
  constructor
  · exact fun h hd => not_isRoutingKey_dotted hd (h.mp (.inr hd))
  · exact fun hd => or_iff_left hd

theorem last_dot_valid : ¬ ∀ key, isValidRoutingKey key = true ↔ IsRoutingKey key := by
  intro h
  have hkey : Dotted "news." := by
    refine ⟨"news",by decide,.inr ⟨["news"],by simp,?_,by decide⟩,by decide⟩
    intro w hw
    rw [List.mem_singleton.mp hw]
    exact ⟨by decide,by simp [WordChar]⟩
  exact not_isRoutingKey_dotted hkey ((h _).mp (by decide))

/-- A word of a binding key. -/
def BindingWord (w : String) : Prop := w = "*" ∨ w = "#" ∨ ∀ c ∈ w.toList, WordChar c

/-- No `#` is next to a `*` or to another `#`. -/
def Apart : List String → Prop := List.IsChain fun u w =>
  ¬ (u = "#" ∧ (w = "*" ∨ w = "#")) ∧ ¬ (w = "#" ∧ (u = "*" ∨ u = "#"))

/-- Nothing, or binding words without a leading, trailing or doubled dot. -/
def IsBindingKey (key : String) : Prop :=
  key = "" ∨ ∃ ws, ws ≠ [] ∧ (∀ w ∈ ws, w ≠ "" ∧ BindingWord w) ∧ Apart ws ∧ key = joined '.' ws

/-- Nothing stands before the first dot, between two dots or after the last dot. -/
def MisplacedDot (key : String) : Prop := key ≠ "" ∧ [] ∈ key.toList.splitOn '.'

theorem isPiece_of_bindingWord {w : String} (h : w ≠ "" ∧ BindingWord w) : IsPiece '.' w := by
  refine ⟨h.1,?_⟩
  rcases h.2 with rfl | rfl | hw
  · decide
  · decide
  · exact fun hmem => not_wordChar_dot (hw '.' hmem)

theorem isBindingKey_iff {key : String} : IsBindingKey key ↔
    ¬ MisplacedDot key ∧ (∀ w ∈ words key, BindingWord w) ∧ Apart (words key) := by
  by_cases hne : key = ""
  · subst hne
    have hnone : words "" = [] := by decide
    refine iff_of_true (.inl rfl) ⟨fun h => h.1 rfl,?_,?_⟩
    · rw [hnone]
      simp
    · rw [hnone]
      exact .nil
  have hjoin := @joined_iff '.' key fun ws => (∀ w ∈ ws, BindingWord w) ∧ Apart ws
  have hleft : IsBindingKey key ↔ ∃ ws, ws ≠ [] ∧ (∀ w ∈ ws, IsPiece '.' w) ∧
      ((∀ w ∈ ws, BindingWord w) ∧ Apart ws) ∧ key = joined '.' ws := by
    unfold IsBindingKey
    rw [or_iff_right hne]
    refine exists_congr fun ws => and_congr_right fun _ => ?_
    constructor
    · exact fun ⟨hws,hap,hkey⟩ => ⟨fun w hw => isPiece_of_bindingWord (hws w hw),
        ⟨fun w hw => (hws w hw).2,hap⟩,hkey⟩
    · exact fun ⟨hp,⟨hws,hap⟩,hkey⟩ => ⟨fun w hw => ⟨(hp w hw).1,hws w hw⟩,hap,hkey⟩
  rw [hleft,hjoin]
  refine and_congr_left fun _ => ?_
  simp [MisplacedDot,hne]

theorem legalNeighbours_iff (ws : List String) : legalNeighbours ws = true ↔ Apart ws := by
  unfold Apart
  induction ws with
  | nil => simp [legalNeighbours]
  | cons u ws ih =>
    cases ws with
    | nil => simp [legalNeighbours]
    | cons w ws =>
      rw [legalNeighbours,Bool.and_eq_true,ih,List.isChain_cons_cons]
      refine and_congr_left fun _ => ?_
      simp only [Bool.and_eq_true,Bool.not_eq_true',Bool.and_eq_false_iff,decide_eq_false_iff_not]
      tauto

theorem legalInBinding_iff {c : Char} :
    legalInBinding c = true ↔ WordChar c ∨ c = '.' ∨ c = '*' ∨ c = '#' := by
  unfold legalInBinding WordChar
  simp only [Bool.or_eq_true,decide_eq_true_eq,beq_iff_eq]
  tauto

theorem wildcardAlone_iff {w : String} :
    wildcardAlone w = true ↔ w.length ≤ 1 ∨ '*' ∉ w.toList ∧ '#' ∉ w.toList := by
  rw [wildcardAlone,Bool.not_eq_true',← Bool.not_eq_true,Bool.and_eq_true,Bool.or_eq_true,
    decide_eq_true_eq,find_isSome,find_isSome,List.drop_zero,not_and_or,not_lt,not_or]

/-- Of a word of legal characters the second check leaves the binding words. -/
theorem bindingWord_iff {w : String} (hw : IsPiece '.' w) : BindingWord w ↔
    (∀ c ∈ w.toList, legalInBinding c = true) ∧ wildcardAlone w = true := by
  have star : ¬ WordChar '*' := by decide
  have hash : ¬ WordChar '#' := by decide
  rw [wildcardAlone_iff]
  constructor
  · rintro (rfl | rfl | h)
    · exact ⟨by simp [legalInBinding],.inl (by decide)⟩
    · exact ⟨by simp [legalInBinding],.inl (by decide)⟩
    · exact ⟨fun c hc => legalInBinding_iff.mpr (.inl (h c hc)),
        .inr ⟨fun hm => star (h _ hm),fun hm => hash (h _ hm)⟩⟩
  · rintro ⟨hlegal,hshort | ⟨hstar,hhash⟩⟩
    · -- a single character
      have hlen : w.toList.length = 1 := by
        have hpos := List.length_pos_of_ne_nil fun e => hw.1 (String.toList_eq_nil_iff.mp e)
        have hsame : w.toList.length = w.length := String.length_toList
        omega
      obtain ⟨c,hc⟩ := List.length_eq_one_iff.mp hlen
      have hsingle : ∀ u : String, u.toList = [c] → w = u := fun u hu =>
        String.toList_inj.mp (hc.trans hu.symm)
      rcases legalInBinding_iff.mp (hlegal c (by simp [hc])) with h | rfl | rfl | rfl
      · exact .inr (.inr (by simpa [hc] using h))
      · exact absurd (by simp [hc]) hw.2
      · exact .inl (hsingle "*" (by decide))
      · exact .inr (.inl (hsingle "#" (by decide)))
    · right; right
      intro c hc
      rcases legalInBinding_iff.mp (hlegal c hc) with h | rfl | rfl | rfl
      · exact h
      · exact absurd hc hw.2
      · exact absurd hc hstar
      · exact absurd hc hhash

/-- The validator looks at the words of a key, wherever its dots stand. -/
theorem isValidBindingKey_iff {key : String} : isValidBindingKey key = true ↔
    (∀ w ∈ words key, BindingWord w) ∧ Apart (words key) := by
  have hall : (∀ c ∈ key.toList, legalInBinding c = true) ↔
      ∀ w ∈ words key, ∀ c ∈ w.toList, legalInBinding c = true := by
    constructor
    · intro h w hw c hc
      obtain ⟨p,hp,rfl⟩ := List.mem_map.mp hw
      rw [String.toList_ofList] at hc
      exact h c (mem_of_mem_splitOn (List.mem_filter.mp hp).1 hc)
    · intro h c hc
      cases mem_splitOn_or (a := '.') hc with
      | inl he => rw [he]; decide
      | inr hu =>
        obtain ⟨u,hu,hcu⟩ := hu
        have hne : u ≠ [] := List.ne_nil_of_mem hcu
        refine h (.ofList u) (List.mem_map.mpr ⟨u,List.mem_filter.mpr ⟨hu,?_⟩,rfl⟩) c ?_
        · simpa using hne
        · rwa [String.toList_ofList]
  unfold isValidBindingKey
  simp only [split_dot,Bool.and_eq_true,List.all_eq_true,hall,legalNeighbours_iff,← and_assoc]
  refine and_congr_left fun _ => ?_
  rw [← forall₂_and]
  exact forall₂_congr fun w hw => (bindingWord_iff (isPiece_of_mem hw)).symm

/-- The validator of binding keys answers as the grammar does exactly if no dot is misplaced, or
if the words of the key are rejected by themselves. -/
theorem binding_key_exact_iff (key : String) :
    (isValidBindingKey key = true ↔ IsBindingKey key) ↔
      ¬ MisplacedDot key ∨ ¬ ((∀ w ∈ words key, BindingWord w) ∧ Apart (words key)) := by
  rw [isValidBindingKey_iff,isBindingKey_iff]
  tauto

theorem doubled_dot_valid : ¬ ∀ key, isValidBindingKey key = true ↔ IsBindingKey key := by
  intro h
  have hkey : MisplacedDot "news..music" := ⟨by decide,by decide⟩
  exact (isBindingKey_iff.mp ((h _).mp (by decide))).1 hkey

end RouteManager
end MessageQueue

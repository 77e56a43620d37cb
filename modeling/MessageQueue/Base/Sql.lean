import Mathlib.Data.List.Basic
import Mathlib.Data.List.Count
import Mathlib.Tactic.Ring

/-! How a database reads the text of a statement, and what a deletion with a condition removes.
A literal ends at a single quote that is not doubled. Comments and quoted identifiers are not
read; a text without them is read as it is. -/
namespace MessageQueue.Base.Sql

inductive Token
  | word (s : List Char)
  | literal (s : List Char)
  | symbol (c : Char)
  deriving DecidableEq

/-- Where the reader stands. After a quote inside a literal it is open whether that was its end or
the first half of a doubled one. -/
inductive Mode
  | between
  | word (s : List Char)
  | literal (s : List Char)
  | closing (s : List Char)

def wordChar (c : Char) : Bool := c.isAlphanum || c = '_'

/-- A character outside a literal that does not belong to a word before it. -/
def outside (c : Char) : Mode × List Token :=
  if c = '\'' then (.literal [],[])
  else if wordChar c then (.word [c],[])
  else if c.isWhitespace then (.between,[])
  else (.between,[.symbol c])

def step : Mode → Char → Mode × List Token
  | .between,c => outside c
  | .word s,c => if wordChar c then (.word (s ++ [c]),[]) else ((outside c).1,.word s::(outside c).2)
  | .literal s,c => if c = '\'' then (.closing s,[]) else (.literal (s ++ [c]),[])
  | .closing s,c =>
    if c = '\'' then (.literal (s ++ ['\'']),[]) else ((outside c).1,.literal s::(outside c).2)

/-- What is still to come at the end of the text; a literal that is open is an error. -/
def finish : Mode → Option (List Token)
  | .between => some []
  | .word s => some [.word s]
  | .literal _ => none
  | .closing s => some [.literal s]

/-- The tokens of a text that is read from a place on. -/
def lexFrom : Mode → List Char → Option (List Token)
  | m,[] => finish m
  | m,c::cs => (lexFrom (step m c).1 cs).map ((step m c).2 ++ ·)

/-- Where the reader stands after a text, and the tokens up to there. -/
def run : Mode → List Char → Mode × List Token
  | m,[] => (m,[])
  | m,c::cs => ((run (step m c).1 cs).1,(step m c).2 ++ (run (step m c).1 cs).2)

theorem lexFrom_append (m : Mode) (a b : List Char) :
    lexFrom m (a ++ b) = (lexFrom (run m a).1 b).map ((run m a).2 ++ ·) := by
  induction a generalizing m with
  | nil => simp [run]
  | cons c a ih =>
    rw [List.cons_append,lexFrom,ih,Option.map_map]
    simp [run,Function.comp_def]

/-- A text is handed over as a C string, so it ends at the first NUL. -/
def read (text : List Char) : Option (List Token) :=
  lexFrom .between (text.takeWhile (· ≠ '\x00'))

def literals (toks : List Token) : List (List Char) :=
  toks.filterMap fun t => match t with
    | .literal s => some s
    | _ => none

/-- The tokens make one statement with these literals. -/
def OneStatement (toks : Option (List Token)) (given : List (List Char)) : Prop :=
  ∃ body, toks = some (body ++ [.symbol ';']) ∧ .symbol ';' ∉ body ∧ literals body = given

/-- Write down a string as the inside of a literal. -/
def double (s : List Char) : List Char :=
  s.flatMap fun c => if c = '\'' then ['\'','\''] else [c]

@[simp] theorem literals_append (a b : List Token) :
    literals (a ++ b) = literals a ++ literals b := by
  simp [literals]

@[simp] theorem literals_word (s : List Char) (toks : List Token) :
    literals (.word s::toks) = literals toks := rfl

@[simp] theorem literals_symbol (c : Char) (toks : List Token) :
    literals (.symbol c::toks) = literals toks := rfl

@[simp] theorem literals_literal (s : List Char) (toks : List Token) :
    literals (.literal s::toks) = s::literals toks := rfl

@[simp] theorem literals_nil : literals [] = [] := rfl

/-! A literal that is spliced into a text. -/

section Literal
variable {s e cs rest : List Char} {toks : List Token}

/-- Without a quote a string is read as it is. -/
theorem lexFrom_literal (he : '\'' ∉ e) :
    lexFrom (.literal s) (e ++ rest) = lexFrom (.literal (s ++ e)) rest := by
  induction e generalizing s with
  | nil => simp
  | cons c e ih =>
    obtain ⟨hc,he⟩ := List.ne_and_not_mem_of_not_mem_cons he
    rw [List.cons_append,lexFrom,step,if_neg hc.symm]
    simp [ih he]

/-- A literal has ended when no quote follows. -/
theorem lexFrom_closing (h : rest.head? ≠ some '\'') :
    lexFrom (.closing s) rest = (lexFrom .between rest).map (.literal s::·) := by
  cases rest with
  | nil => rfl
  | cons c rest =>
    have hc : c ≠ '\'' := by simpa using h
    rw [lexFrom,lexFrom,step,step,if_neg hc,Option.map_map]
    rfl

/-- What is read from inside a literal begins with it, and the text with its inside. -/
theorem lexFrom_first : (lexFrom (.literal s) cs = some toks → ∃ body rest toks',
      cs = double body ++ '\''::rest ∧ toks = .literal (s ++ body)::toks') ∧
    (lexFrom (.closing s) cs = some toks → ∃ body rest toks',
      '\''::cs = double body ++ '\''::rest ∧ toks = .literal (s ++ body)::toks') := by
  induction cs generalizing s toks with
  | nil =>
    refine ⟨fun h => by simp [lexFrom,finish] at h,fun h => ⟨[],[],[],rfl,?_⟩⟩
    simpa [lexFrom,finish] using h.symm
  | cons c cs ih =>
    constructor
    · intro h
      obtain ⟨t,ht,rfl⟩ := Option.map_eq_some_iff.mp h
      by_cases hc : c = '\''
      · subst hc
        simpa [step] using ih.2 (by simpa [step] using ht)
      · obtain ⟨body,rest,toks',rfl,rfl⟩ := ih.1 (by simpa [step,hc] using ht)
        exact ⟨c::body,rest,toks',by simp [double,hc],by simp [step,hc]⟩
    · intro h
      obtain ⟨t,ht,rfl⟩ := Option.map_eq_some_iff.mp h
      by_cases hc : c = '\''
      · subst hc
        obtain ⟨body,rest,toks',rfl,rfl⟩ := ih.1 (by simpa [step] using ht)
        exact ⟨'\''::body,rest,toks',by simp [double],by simp [step]⟩
      · exact ⟨[],c::cs,(outside c).2 ++ t,rfl,by simp [step,hc]⟩

theorem double_cons (c : Char) (e : List Char) :
    double (c::e) = (if c = '\'' then ['\'','\''] else [c]) ++ double e := rfl

theorem length_double (e : List Char) : (double e).length = e.length + e.count '\'' := by
  induction e with
  | nil => rfl
  | cons c e ih =>
    rw [double_cons,List.length_append,ih,List.length_cons]
    by_cases hc : c = '\''
    · subst hc
      rw [if_pos rfl,List.count_cons_self,List.length_cons,List.length_singleton]
      omega
    · rw [if_neg hc,List.count_cons_of_ne hc,List.length_singleton]
      omega

theorem count_double (e : List Char) : (double e).count '\'' = 2 * e.count '\'' := by
  induction e with
  | nil => rfl
  | cons c e ih =>
    rw [double_cons,List.count_append,ih]
    by_cases hc : c = '\''
    · subst hc
      rw [if_pos rfl,List.count_cons_self,List.count_cons_self,List.count_nil,
        List.count_cons_self]
      omega
    · rw [if_neg hc,List.count_cons_of_ne hc,List.count_cons_of_ne hc,List.count_nil]
      omega

/-- A string that stands in a text as the inside of its own literal has no quote: what doubling
adds would be quotes after its end. -/
theorem not_mem_of_double {rest' : List Char} (h : rest.head? ≠ some '\'')
    (heq : e ++ '\''::rest = double e ++ '\''::rest') : '\'' ∉ e := by
  have hlen := length_double e
  -- the doubled string is longer by as many characters as it has more quotes
  obtain ⟨t,ht,hrest⟩ : ∃ t, double e = e ++ t ∧ '\''::rest = t ++ '\''::rest' := by
    rcases List.append_eq_append_iff.mp heq with ⟨t,ht,hrest⟩ | ⟨t,ht,hrest⟩
    · exact ⟨t,ht,hrest⟩
    · have htl := congrArg List.length ht
      rw [List.length_append] at htl
      have hnil : t = [] := List.length_eq_zero_iff.mp (by omega)
      subst hnil
      exact ⟨[],by simpa using ht.symm,by simpa using hrest.symm⟩
  have hcount := count_double e
  rw [ht,List.length_append] at hlen
  rw [ht,List.count_append] at hcount
  have hall : ∀ c ∈ t, '\'' = c := List.count_eq_length.mp (by omega)
  intro hmem
  have hpos := List.count_pos_iff.mpr hmem
  cases t with
  | nil => simp at hcount; omega
  | cons c t =>
    obtain ⟨-,hrest⟩ := List.cons.inj hrest
    refine h ?_
    rw [hrest]
    cases t with
    | nil => rfl
    | cons d t => simp [← hall d (by simp)]

end Literal

/-! A text between the literals. -/

section Between
variable {c e rest : List Char} {toks : List Token}

/-- Outside the literals. -/
def Mode.Plain : Mode → Prop
  | .between => True
  | .word _ => True
  | _ => False

/-- The tokens end no statement and hold no literal. -/
def Calm (toks : List Token) : Prop := .symbol ';' ∉ toks ∧ literals toks = []

theorem Calm.append {a b : List Token} (ha : Calm a) (hb : Calm b) : Calm (a ++ b) :=
  ⟨by simp [ha.1,hb.1],by simp [ha.2,hb.2]⟩

theorem outside_calm {x : Char} (hq : x ≠ '\'') (hs : x ≠ ';') :
    (outside x).1.Plain ∧ Calm (outside x).2 := by
  unfold outside
  rw [if_neg hq]
  split_ifs
  · exact ⟨trivial,by simp [Calm]⟩
  · exact ⟨trivial,by simp [Calm]⟩
  · exact ⟨trivial,by simp [Calm,hs.symm]⟩

theorem step_calm {m : Mode} {x : Char} (hm : m.Plain) (hq : x ≠ '\'') (hs : x ≠ ';') :
    (step m x).1.Plain ∧ Calm (step m x).2 := by
  obtain ⟨hp,hc⟩ := outside_calm hq hs
  cases m with
  | between => exact ⟨hp,hc⟩
  | word s =>
    rw [step]
    split_ifs
    · exact ⟨trivial,by simp [Calm]⟩
    · exact ⟨hp,by simpa [Calm] using hc⟩
  | literal s => cases hm
  | closing s => cases hm

/-- A text between literals leads to a place outside, and adds no literal. -/
theorem lexFrom_plain {m : Mode} (hm : m.Plain) (hq : '\'' ∉ c) (hs : ';' ∉ c) :
    ∃ m' t, m'.Plain ∧ Calm t ∧
      ∀ rest, lexFrom m (c ++ rest) = (lexFrom m' rest).map (t ++ ·) := by
  induction c generalizing m with
  | nil => exact ⟨m,[],hm,by simp [Calm],by simp⟩
  | cons x c ih =>
    obtain ⟨hxq,hq⟩ := List.ne_and_not_mem_of_not_mem_cons hq
    obtain ⟨hxs,hs⟩ := List.ne_and_not_mem_of_not_mem_cons hs
    obtain ⟨hp,hc⟩ := step_calm hm hxq.symm hxs.symm
    obtain ⟨m',t,hm',ht,hrest⟩ := ih hp hq hs
    refine ⟨m',(step m x).2 ++ t,hm',hc.append ht,fun rest => ?_⟩
    rw [List.cons_append,lexFrom,hrest,Option.map_map]
    simp [Function.comp_def]

/-- An opening quote ends a word. -/
theorem lexFrom_open {m : Mode} (hm : m.Plain) :
    ∃ t, Calm t ∧ ∀ rest, lexFrom m ('\''::rest) = (lexFrom (.literal []) rest).map (t ++ ·) := by
  cases m with
  | between => exact ⟨[],by simp [Calm],fun rest => by simp [lexFrom,step,outside]⟩
  | word s =>
    exact ⟨[.word s],by simp [Calm],fun rest => by simp [lexFrom,step,outside,wordChar]⟩
  | literal s => cases hm
  | closing s => cases hm

/-- The text up to the opening quote of a literal. -/
theorem lexFrom_upto (hq : '\'' ∉ c) (hs : ';' ∉ c) :
    ∃ t, Calm t ∧ ∀ rest, lexFrom .between (c ++ '\''::rest) =
      (lexFrom (.literal []) rest).map (t ++ ·) := by
  obtain ⟨m,t,hm,ht,hrest⟩ := lexFrom_plain (m := .between) trivial hq hs
  obtain ⟨t',ht',hopen⟩ := lexFrom_open hm
  refine ⟨t ++ t',ht.append ht',fun rest => ?_⟩
  rw [hrest,hopen,Option.map_map]
  simp [Function.comp_def]

/-- A literal without a quote. -/
theorem lexFrom_whole (he : '\'' ∉ e) (h : rest.head? ≠ some '\'') :
    lexFrom (.literal []) (e ++ '\''::rest) = (lexFrom .between rest).map (.literal e::·) := by
  rw [lexFrom_literal he,List.nil_append,lexFrom,step,if_pos rfl]
  simp [lexFrom_closing h,Function.comp_def]

/-- A literal in the middle of a text. -/
theorem lexFrom_spliced (c rest : List Char) (hc : (run .between (c ++ ['\''])).1 = .literal [])
    (he : '\'' ∉ e) (h : rest.head? ≠ some '\'') : lexFrom .between (c ++ '\''::(e ++ '\''::rest)) =
      (lexFrom .between rest).map fun toks =>
        (run .between (c ++ ['\''])).2 ++ .literal e::toks := by
  have hsplit : c ++ '\''::(e ++ '\''::rest) = (c ++ ['\'']) ++ (e ++ '\''::rest) := by simp
  rw [hsplit,lexFrom_append,hc,lexFrom_whole he h,Option.map_map]
  rfl

end Between

/-! A text with several strings spliced into it. -/

section Splice

/-- Each string stands in quotes after the text before it, and `tail` comes after the last. -/
def splice : List (List Char × List Char) → List Char → List Char
  | [],tail => tail
  | (c,e)::parts,tail => c ++ '\''::(e ++ '\''::splice parts tail)

/-- The texts between the strings have no quote and end no statement, and after a string there is
something. -/
structure Frame (parts : List (List Char × List Char)) (t : List Char) : Prop where
  plain : ∀ p ∈ parts, '\'' ∉ p.1 ∧ ';' ∉ p.1 ∧ '\x00' ∉ p.1
  apart : ∀ p ∈ parts.tail, p.1 ≠ []
  rest : '\'' ∉ t ∧ ';' ∉ t ∧ '\x00' ∉ t

variable {parts : List (List Char × List Char)} {t : List Char}

/-- Tokens in front that end no statement. -/
theorem oneStatement_append {a : List Token} (ha : .symbol ';' ∉ a) {o : Option (List Token)}
    {given : List (List Char)} : OneStatement (o.map (a ++ ·)) given ↔
      ∃ rest, given = literals a ++ rest ∧ OneStatement o rest := by
  constructor
  · rintro ⟨body,hb,hno,rfl⟩
    obtain ⟨toks,rfl,htoks⟩ := Option.map_eq_some_iff.mp hb
    rcases List.append_eq_append_iff.mp htoks with ⟨b,rfl,rfl⟩ | ⟨b,rfl,hsemi⟩
    · refine ⟨literals b,by simp,b,rfl,fun hb => hno (List.mem_append_right _ hb),rfl⟩
    · -- the last token is not among those in front
      cases b with
      | nil => exact ⟨[],by simp,[],by simpa using hsemi.symm,by simp,rfl⟩
      | cons x b =>
        rw [List.cons_append] at hsemi
        obtain ⟨rfl,-⟩ := List.cons.inj hsemi
        exact absurd (by simp) ha
  · rintro ⟨rest,rfl,body,rfl,hno,rfl⟩
    exact ⟨a ++ body,by simp,by simp [ha,hno],by simp⟩

theorem oneStatement_calm {a : List Token} (ha : Calm a) {o : Option (List Token)}
    {given : List (List Char)} : OneStatement (o.map (a ++ ·)) given ↔ OneStatement o given := by
  rw [oneStatement_append ha.1,ha.2]
  simp

/-- After a string no quote follows. -/
theorem Frame.head_ne {p : List Char × List Char} (h : Frame (p::parts) t) :
    (splice parts (t ++ [';'])).head? ≠ some '\'' := by
  cases parts with
  | nil =>
    cases t with
    | nil => simp [splice]
    | cons x t =>
      have hx := (List.ne_and_not_mem_of_not_mem_cons h.rest.1).1
      simpa [splice] using hx.symm
  | cons q parts =>
    obtain ⟨c,e⟩ := q
    cases c with
    | nil => exact absurd rfl (h.apart ([],e) (by simp))
    | cons x c =>
      have hx := (List.ne_and_not_mem_of_not_mem_cons (h.plain (x::c,e) (by simp)).1).1
      simpa [splice] using hx.symm

theorem Frame.tail {p : List Char × List Char} (h : Frame (p::parts) t) : Frame parts t where
  plain q hq := h.plain q (List.mem_cons_of_mem _ hq)
  apart q hq := h.apart q (List.mem_of_mem_tail hq)
  rest := h.rest

/-- One statement with exactly the strings as its literals is what is read exactly if none of them
has a quote. -/
theorem splice_iff (h : Frame parts t) :
    OneStatement (lexFrom .between (splice parts (t ++ [';']))) (parts.map Prod.snd) ↔
      ∀ p ∈ parts, '\'' ∉ p.2 := by
  induction parts with
  | nil =>
    obtain ⟨m,a,hm,ha,hrest⟩ := lexFrom_plain (m := .between) trivial h.rest.1 h.rest.2.1
    rw [splice,hrest,oneStatement_calm ha]
    refine ⟨fun _ p hp => absurd hp List.not_mem_nil,fun _ => ?_⟩
    cases m with
    | between => exact ⟨[],rfl,by simp,rfl⟩
    | word s => exact ⟨[.word s],rfl,by simp,rfl⟩
    | literal s => cases hm
    | closing s => cases hm
  | cons p parts ih =>
    obtain ⟨c,e⟩ := p
    obtain ⟨hcq,hcs,-⟩ := h.plain (c,e) List.mem_cons_self
    obtain ⟨a,ha,hrest⟩ := lexFrom_upto hcq hcs
    rw [splice,hrest,oneStatement_calm ha,List.map_cons]
    by_cases he : '\'' ∈ e
    · refine ⟨?_,fun hall => absurd he (hall (c,e) List.mem_cons_self)⟩
      rintro ⟨body,hb,-,hlit⟩
      -- the first literal that is read is the string only if the string has no quote
      obtain ⟨first,rest,toks,htext,htoks⟩ := lexFrom_first.1 hb
      have hfirst : first = e := by
        cases body with
        | nil => cases hlit
        | cons x body =>
          obtain ⟨rfl,-⟩ := List.cons.inj htoks
          simpa using (List.cons.inj hlit).1
      subst hfirst
      exact absurd he (not_mem_of_double h.head_ne htext)
    · have hwhole := lexFrom_whole he h.head_ne
      have hone : OneStatement (lexFrom (.literal []) (e ++ '\''::splice parts (t ++ [';'])))
          (e::parts.map Prod.snd) ↔
          OneStatement (lexFrom .between (splice parts (t ++ [';']))) (parts.map Prod.snd) := by
        rw [hwhole]
        refine (oneStatement_append (a := [.literal e]) (by simp)).trans ?_
        simp
      rw [hone,ih h.tail]
      simp [he]

/-- The part of a literal that is read already. -/
def Mode.held : Mode → List Char
  | .literal s => s
  | .closing s => s
  | _ => []

theorem step_held {m : Mode} {c x : Char} {l : List Char} (hx : x ∈ l)
    (h : l ∈ literals (step m c).2 ∨ x ∈ (step m c).1.held) : x ∈ m.held ∨ x = c := by
  have hout : literals (outside c).2 = [] ∧ (outside c).1.held = [] := by
    unfold outside
    split_ifs <;> exact ⟨rfl,rfl⟩
  cases m with
  | between => simp [step,hout] at h
  | word s =>
    rw [step] at h
    split_ifs at h
    · simp [Mode.held] at h
    · simp [hout] at h
  | literal s =>
    rw [step] at h
    split_ifs at h
    · exact .inl (by simpa [Mode.held] using h)
    · simpa [Mode.held] using h
  | closing s =>
    rw [step] at h
    split_ifs at h with hc
    · simpa [Mode.held,hc] using h
    · have hl : l = s := by simpa [hout] using h
      exact .inl (hl ▸ hx)

/-- A literal has no characters but those of the text. -/
theorem mem_text {m : Mode} {cs : List Char} {toks : List Token} (h : lexFrom m cs = some toks)
    {l : List Char} (hl : l ∈ literals toks) {x : Char} (hx : x ∈ l) : x ∈ m.held ∨ x ∈ cs := by
  induction cs generalizing m toks with
  | nil =>
    cases m with
    | between => cases h; cases hl
    | word s => cases h; cases hl
    | literal s => cases h
    | closing s =>
      cases h
      rw [literals_literal,literals_nil,List.mem_singleton] at hl
      exact .inl (hl ▸ hx)
  | cons c cs ih =>
    obtain ⟨toks,ht,rfl⟩ := Option.map_eq_some_iff.mp h
    rw [literals_append,List.mem_append] at hl
    rcases hl with hl | hl
    · exact (step_held hx (.inl hl)).imp_right fun he => List.mem_cons.mpr (.inl he)
    · rcases ih ht hl with hh | hm
      · exact (step_held hx (.inr hh)).imp_right fun he => List.mem_cons.mpr (.inl he)
      · exact .inr (List.mem_cons_of_mem _ hm)

theorem Frame.nul_not_mem (h : Frame parts t) (hn : ∀ p ∈ parts, '\x00' ∉ p.2) :
    '\x00' ∉ splice parts (t ++ [';']) := by
  induction parts with
  | nil => simp [splice,h.rest.2.2]
  | cons p parts ih =>
    obtain ⟨c,e⟩ := p
    obtain ⟨-,-,hc⟩ := h.plain (c,e) List.mem_cons_self
    have he := hn (c,e) List.mem_cons_self
    have hrest := ih h.tail fun q hq => hn q (List.mem_cons_of_mem _ hq)
    simp [splice,hc,he,hrest]

/-- What is handed over of a text without a NUL is the text. -/
theorem read_eq {cs : List Char} (h : '\x00' ∉ cs) : read cs = lexFrom .between cs := by
  have hall : ∀ c ∈ cs, (decide (c ≠ '\x00')) = true := by
    intro c hc
    simpa using fun hcn : c = '\x00' => h (hcn ▸ hc)
  have htake : (cs ++ []).takeWhile (fun c => decide (c ≠ '\x00')) = cs ++ [] :=
    List.takeWhile_append_of_pos hall
  rw [List.append_nil] at htake
  rw [read,htake]

/-- The same of the text as it is handed over, for strings without a NUL. -/
theorem read_splice_iff (h : Frame parts t) :
    OneStatement (read (splice parts (t ++ [';']))) (parts.map Prod.snd) ↔
      ∀ p ∈ parts, '\'' ∉ p.2 ∧ '\x00' ∉ p.2 := by
  by_cases hnul : ∀ p ∈ parts, '\x00' ∉ p.2
  · rw [read_eq (h.nul_not_mem hnul),splice_iff h]
    exact ⟨fun hq p hp => ⟨hq p hp,hnul p hp⟩,fun hq p hp => (hq p hp).1⟩
  · refine ⟨?_,fun hall => absurd (fun p hp => (hall p hp).2) hnul⟩
    rintro ⟨body,hb,-,hlit⟩
    push Not at hnul
    obtain ⟨p,hp,hpn⟩ := hnul
    -- what is handed over has no NUL, so no literal has one
    have hmem : p.2 ∈ literals (body ++ [.symbol ';']) := by
      simp [hlit,List.mem_map_of_mem hp]
    rcases mem_text hb hmem hpn with hh | hc
    · cases hh
    · have hall := List.all_takeWhile (p := fun c : Char => decide (c ≠ '\x00'))
        (l := splice parts (t ++ [';']))
      simpa using List.all_eq_true.mp hall _ hc

end Splice

/-! Deletions: comparisons of columns and literals, `and` before `or`. -/

inductive Operand
  | column (s : List Char)
  | text (s : List Char)
  deriving DecidableEq

structure Delete where
  table : List Char
  condition : List (List (Operand × Operand))
  deriving DecidableEq

def operand : Token → Option Operand
  | .word s => some (.column s)
  | .literal s => some (.text s)
  | .symbol _ => none

def comparison (a b : Token) : Option (Operand × Operand) :=
  match operand a,operand b with
  | some a,some b => some (a,b)
  | _,_ => none

/-- A disjunction of conjunctions. -/
def condition : List Token → Option (List (List (Operand × Operand)))
  | [a,.symbol '=',b] => (comparison a b).map fun c => [[c]]
  | a::.symbol '='::b::.word w::rest =>
    match comparison a b,condition rest with
    | some c,some (cs::ds) =>
      if w = "and".toList then some ((c::cs)::ds)
      else if w = "or".toList then some ([c]::cs::ds)
      else none
    | _,_ => none
  | _ => none

/-- A text that is one deletion. -/
def delete (toks : List Token) : Option Delete :=
  match toks.dropLast,toks.getLast? with
  | .word d::.word f::table::.word w::rest,some (.symbol ';') =>
    if d = "delete".toList ∧ f = "from".toList ∧ w = "where".toList then
      match table,condition rest with
      | .word table,some c => some ⟨table,c⟩
      | _,_ => none
    else none
  | _,_ => none

def Operand.value (row : List Char → Option (List Char)) : Operand → Option (List Char)
  | .column s => row s
  | .text s => some s

/-- Whether a row, given by its columns, is among those that are deleted. -/
def Delete.names (d : Delete) (row : List Char → Option (List Char)) : Bool :=
  d.condition.any fun cs => cs.all fun c =>
    match c.1.value row,c.2.value row with
    | some x,some y => x = y
    | _,_ => false

/-- A column is compared with a literal. -/
theorem names_conjunction (table : List Char) (cs : List (List Char × List Char))
    (row : List Char → Option (List Char)) :
    (⟨table,[cs.map fun c => (.column c.1,.text c.2)]⟩ : Delete).names row =
      cs.all fun c => decide (row c.1 = some c.2) := by
  simp only [Delete.names,List.any_cons,List.any_nil,Bool.or_false,List.all_map]
  congr 1
  funext c
  simp only [Function.comp_apply,Operand.value]
  cases row c.1 with
  | none => simp
  | some x => simp

def Delete.columns (d : Delete) : List (List Char) :=
  d.condition.flatten.flatMap fun c => [c.1,c.2].filterMap fun
    | .column s => some s
    | .text _ => none

end MessageQueue.Base.Sql

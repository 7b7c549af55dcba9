import Deadwood.Proofs.Loading
import Deadwood.Proofs.Storing

/-!
# Decorated documents

A compiler configuration is a JSON document that people decorate: with blanks and comments between
the tokens, and with a comma after the last item or member of a list or table (`Decorates`).
`readTable_decorated` says that the decoration is without effect: the file is read as the table that
the bare document stands for. Both steps that remove a decoration leave a bare document alone.

A document is seen as its tokens, each written by a `Lexeme`, with something between them
(`Spread`). Each step of the reader is followed on this form: line ends are unified, comments are
dropped, commas are dropped, and what is left has the tokens of the bare document.
-/

set_option autoImplicit false

namespace Deadwood.Json

open Text List

variable {c : Char} {chars cs rest text : List Char} {token : Token} {found more : List Token}
  {v : Value}

/-! ## Words -/

/-- The characters of numbers and known words. -/
def isWordLetter (c : Char) : Bool := c.isAlphanum || c == '-' || c == '+' || c == '.'

theorem isWordLetter_of_isDigit (h : c.isDigit) : isWordLetter c := by
  simp [isWordLetter, Char.isAlphanum, h]

theorem isWordLetter_spec (h : isWordLetter c) : isBlank c = false ∧ isWordPart c ∧ c ≠ '/' := by
  have hall : ∀ n < 0x80, isWordLetter (Char.ofNat n) → isBlank (Char.ofNat n) = false ∧
      isWordPart (Char.ofNat n) ∧ Char.ofNat n ≠ '/' := by decide +kernel
  have hlt : c.toNat < 0x80 := by
    simp only [isWordLetter, Bool.or_eq_true, beq_iff_eq] at h
    rcases h with ((h | rfl) | rfl) | rfl
    · exact Reference.toNat_lt_of_isAsciiWord (by simp [isAsciiWord, h])
    all_goals decide
  rw [← Char.ofNat_toNat c] at h ⊢
  exact hall c.toNat hlt h

theorem all_digits (h : Number.isDigits cs) : cs.all isWordLetter := by
  rw [Number.isDigits, Bool.and_eq_true, all_eq_true] at h
  exact all_eq_true.2 fun c hc => isWordLetter_of_isDigit (h.2 c hc)

theorem all_of_exponent? {e : Int} (h : exponent? cs = some e) : cs.all isWordLetter := by
  unfold exponent? at h
  split at h
  all_goals
    split at h
    · rename_i hdigits
      simpa [isWordLetter] using all_digits hdigits
    · cases h

theorem all_of_dropWhile (h : (cs.dropWhile Char.isDigit).all isWordLetter) :
    cs.all isWordLetter := by
  rw [← takeWhile_append_dropWhile (p := Char.isDigit) (l := cs), all_append, h,
    Bool.and_true, all_eq_true]
  intro c hc
  exact isWordLetter_of_isDigit (mem_takeWhile_imp hc)

theorem all_of_marked {mark : Char} {f : Int → Value}
    (h : (if mark = 'e' ∨ mark = 'E' then (exponent? cs).map f else none) = some v) :
    (mark :: cs).all isWordLetter := by
  split at h
  · rename_i hmark
    obtain ⟨e, hexponent, -⟩ := Option.map_eq_some_iff.1 h
    rw [all_cons, all_of_exponent? hexponent, Bool.and_true]
    rcases hmark with rfl | rfl <;> rfl
  · cases h

variable {negative : Bool} {units : List Nat}

theorem all_of_numberTail? {whole : List Char} (h : numberTail? negative whole cs = some v) :
    cs.all isWordLetter := by
  unfold numberTail? at h
  split at h
  · rfl
  · rw [all_cons, Bool.and_eq_true]
    refine ⟨rfl, all_of_dropWhile ?_⟩
    dsimp only at h
    split at h
    · cases h
    · split at h
      · rename_i hnil
        rw [hnil]
        rfl
      · rename_i hmark
        rw [hmark]
        exact all_of_marked h
  · exact all_of_marked h

theorem all_of_unsigned? (h : unsigned? negative cs = some v) : cs ≠ [] ∧ cs.all isWordLetter := by
  unfold unsigned? at h
  split at h
  · cases h
  · cases h
  · rename_i hne _
    refine ⟨?_, all_of_dropWhile (all_of_numberTail? h)⟩
    rintro rfl
    exact hne rfl

/-- Numbers and known words have the characters of words. -/
theorem all_of_atom? (h : atom? cs = some v) : cs ≠ [] ∧ cs.all isWordLetter := by
  unfold atom? at h
  split at h
  · rename_i hknown
    have hmem : String.ofList cs ∈ knownWords.map Prod.fst := by
      obtain ⟨front, back, heq, -⟩ := lookup_eq_some_iff.1 hknown
      rw [heq]
      simp
    have hall : ∀ word ∈ knownWords.map Prod.fst,
        word.toList ≠ [] ∧ word.toList.all isWordLetter := by decide
    have := hall _ hmem
    rwa [String.toList_ofList] at this
  · unfold number? at h
    split at h
    · simpa [isWordLetter] using (all_of_unsigned? h).2
    · exact all_of_unsigned? h

/-! ## Texts in quotes -/

theorem quotedLength?_cons (hquote : c ≠ '"') (hslash : c ≠ '\\') (cs : List Char) :
    quotedLength? (c :: cs) = (quotedLength? cs).map (· + 1) := by
  rw [quotedLength?]
  · exact if_neg hslash
  · exact hquote
  · exact fun _ _ hc _ => hslash hc

theorem ne_of_hexValue? {n : Nat} (h : hexValue? c = some n) : c ≠ '"' ∧ c ≠ '\\' ∧ c ≠ '\r' := by
  refine ⟨?_, ?_, ?_⟩
  all_goals
    rintro rfl
    cases h

/-- A text that can be read ends at its closing quote, whatever follows, and has no line end. -/
theorem exists_text {taken : Nat} (h : readUnits cs = some (units, taken)) :
    ∃ body rest, cs = body ++ rest ∧ body.length = taken ∧ '\r' ∉ body ∧
      ∀ tail, readUnits (body ++ tail) = some (units, taken) ∧
        quotedLength? (body ++ tail) = some taken := by
  fun_induction readUnits cs generalizing units taken with
  | case1 => cases h
  | case2 cs =>
    cases h
    exact ⟨['"'], cs, rfl, rfl, by decide, fun tail => ⟨rfl, rfl⟩⟩
  | case3 a b c d cs ih =>
    simp only [Option.bind_eq_bind, Option.bind_eq_some_iff, Prod.exists, Option.pure_def,
      Option.some.injEq, Prod.mk.injEq] at h
    obtain ⟨unit, hunit, units', taken', hread, rfl, rfl⟩ := h
    obtain ⟨body, rest, rfl, rfl, hreturn, hbody⟩ := ih hread
    have hhex : ∀ x ∈ [a, b, c, d], x ≠ '"' ∧ x ≠ '\\' ∧ x ≠ '\r' := by
      simp only [hexNumber?, foldlM_cons, Option.bind_eq_bind, Option.bind_eq_some_iff,
        Option.map_eq_some_iff] at hunit
      obtain ⟨_, ⟨_, ha, -⟩, _, ⟨_, hb, -⟩, _, ⟨_, hc, -⟩, _, ⟨_, hd, -⟩, -⟩ := hunit
      simp [ne_of_hexValue? ha, ne_of_hexValue? hb, ne_of_hexValue? hc, ne_of_hexValue? hd]
    refine ⟨'\\' :: 'u' :: a :: b :: c :: d :: body, rest, rfl, rfl, ?_, fun tail => ⟨?_, ?_⟩⟩
    · simp only [forall_mem_cons] at hhex
      simp [hreturn, hhex.1.2.2.symm, hhex.2.1.2.2.symm, hhex.2.2.1.2.2.symm, hhex.2.2.2.1.2.2.symm]
    · simp [readUnits, hunit, (hbody tail).1]
    · simp only [forall_mem_cons] at hhex
      simp [quotedLength?, quotedLength?_cons, hhex, (hbody tail).2]
  | case4 c cs _ ih =>
    simp only [Option.bind_eq_bind, Option.bind_eq_some_iff, Prod.exists, Option.pure_def,
      Option.some.injEq, Prod.mk.injEq] at h
    obtain ⟨meant, hmeant, units', taken', hread, rfl, rfl⟩ := h
    obtain ⟨body, rest, rfl, rfl, hreturn, hbody⟩ := ih hread
    have hletter : c ≠ 'u' ∧ c ≠ '\n' ∧ c ≠ '\r' := by
      refine ⟨?_, ?_, ?_⟩
      all_goals
        rintro rfl
        cases hmeant
    refine ⟨'\\' :: c :: body, rest, rfl, rfl, ?_, fun tail => ⟨?_, ?_⟩⟩
    · simp [hreturn, hletter.2.2.symm]
    · simp [readUnits_escape hmeant hletter.1, (hbody tail).1]
    · simp [quotedLength?, hletter.2.1, (hbody tail).2]
  | case5 c cs h1 h2 h3 h4 => cases h
  | case6 c cs hquote _ _ hplain ih =>
    obtain ⟨⟨units', taken'⟩, hread, heq⟩ := Option.map_eq_some_iff.1 h
    cases heq
    obtain ⟨body, rest, rfl, rfl, hreturn, hbody⟩ := ih hread
    rw [not_or, Nat.not_lt] at hplain
    have hc : '\r' ≠ c := by
      rintro rfl
      exact absurd hplain.1 (by decide)
    refine ⟨c :: body, rest, rfl, rfl, by simp [hreturn, hc], fun tail => ⟨?_, ?_⟩⟩
    · simp [readUnits_cons hquote hplain.2 hplain.1, (hbody tail).1]
    · simp [quotedLength?_cons hquote hplain.2, (hbody tail).2]

theorem text_closed (h : readUnits cs = some (units, cs.length)) :
    '\r' ∉ cs ∧ ∀ tail, readUnits (cs ++ tail) = some (units, cs.length) ∧
      quotedLength? (cs ++ tail) = some cs.length := by
  obtain ⟨body, rest, heq, hlength, hbody⟩ := exists_text h
  obtain rfl : rest = [] := by simpa [heq] using hlength
  rw [append_nil] at heq
  exact heq ▸ hbody

/-! ## Tokens with something between them -/

/-- The characters write the token. -/
inductive Lexeme : List Char → Token → Prop where
  | mark {c : Char} {token : Token} : mark? c = some token → Lexeme [c] token
  | text {chars : List Char} {units : List Nat} : readUnits chars = some (units, chars.length) →
      Lexeme ('"' :: chars) (.text (String.ofList (joinUnits units)))
  | word {chars : List Char} {v : Value} : wordToken chars = .atom v → Lexeme chars (.atom v)

/-- The text writes the tokens, with something before, between and after them. -/
inductive Spread (between : List Char → Prop) : List Token → List Char → Prop where
  | nil {gap : List Char} : between gap → Spread between [] gap
  | cons {gap chars rest : List Char} {token : Token} {tokens : List Token} : between gap →
      Lexeme chars token → Spread between tokens rest →
      Spread between (token :: tokens) (gap ++ (chars ++ rest))

/-- Blanks of a bare document. -/
def IsBare (gap : List Char) : Prop := ∀ c ∈ gap, isGap c = true

/-- Blanks and comments. A comment in stars ends at the first end mark, and one after two slashes
before the line end that must follow it. -/
inductive IsFiller : List Char → Prop where
  | nil : IsFiller []
  | gap {c : Char} {rest : List Char} : isGap c = true → IsFiller rest → IsFiller (c :: rest)
  | block {body rest : List Char} : body.IsChain (fun a b => ¬ (a = '*' ∧ b = '/')) →
      IsFiller rest → IsFiller ('/' :: '*' :: (body ++ '*' :: '/' :: rest))
  | line {c : Char} {body rest : List Char} : (∀ d ∈ body, d ≠ '\n' ∧ d ≠ '\r') →
      c = '\n' ∨ c = '\r' → IsFiller (c :: rest) → IsFiller ('/' :: '/' :: (body ++ c :: rest))

/-- The token ends a list or a table. -/
def Token.isCloser : Token → Bool
  | .closeTable => true
  | .closeList => true
  | _ => false

/-- The second tokens are the first ones with further commas before ends of lists and tables. -/
inductive Trails : List Token → List Token → Prop where
  | nil : Trails [] []
  | cons {found more : List Token} (token : Token) : Trails found more →
      Trails (token :: found) (token :: more)
  | comma {found more : List Token} {token : Token} : token.isCloser = true → Trails found more →
      Trails (token :: found) (.comma :: token :: more)

/-- The second text decorates the first one. -/
def Decorates (plain decorated : List Char) : Prop :=
  ∃ more, Trails (tokens plain) more ∧ Spread IsFiller more decorated

theorem atom?_of_wordToken (h : wordToken chars = .atom v) : atom? chars = some v := by
  unfold wordToken at h
  split at h
  · cases h
  · rename_i hatom
    cases h
    exact hatom
  · cases h

theorem isBlank_of_isGap (h : isGap c) : isBlank c := by
  simp only [isGap, Bool.or_eq_true, beq_iff_eq] at h
  rcases h with ((rfl | rfl) | rfl) | rfl <;> rfl

/-- What the first character of a lexeme tells. -/
theorem Lexeme.exists_cons (h : Lexeme chars token) : ∃ c cs, chars = c :: cs ∧ '\r' ∉ chars ∧
    isBlank c = false ∧ (c == '\x7d' || c == ']') = token.isCloser ∧
    (isWordPart c → ∃ v, token = .atom v) := by
  cases h with
  | @mark c _ hmark =>
    refine ⟨c, [], rfl, ?_⟩
    unfold mark? at hmark
    split at hmark
    all_goals cases hmark
    all_goals exact ⟨by decide, rfl, rfl, nofun⟩
  | text hunits =>
    refine ⟨_, _, rfl, ?_, rfl, rfl, nofun⟩
    simpa using (text_closed hunits).1
  | @word _ v hword =>
    obtain ⟨hne, hall⟩ := all_of_atom? (atom?_of_wordToken hword)
    rw [all_eq_true] at hall
    obtain ⟨c, cs, rfl⟩ := exists_cons_of_ne_nil hne
    have hc := isWordLetter_spec (hall c mem_cons_self)
    refine ⟨c, cs, rfl, ?_, hc.1, ?_, fun _ => ⟨v, rfl⟩⟩
    · intro hmem
      exact absurd (hall _ hmem) (by decide)
    · have hne : c ≠ '\x7d' ∧ c ≠ ']' := by
        refine ⟨?_, ?_⟩
        all_goals
          rintro rfl
          exact absurd hc.2.1 (by decide)
      simp [hne, Token.isCloser]

theorem Lexeme.ne_slash (h : Lexeme chars token) : chars ≠ ['/'] := by
  rintro rfl
  cases h with
  | mark h => cases h
  | word h => exact absurd (all_of_atom? (atom?_of_wordToken h)).2 (by decide)

/-- A step that passes over texts in quotes and changes the text only at a mark. -/
structure Skips (step : List Char → List Char) (mark : Char) : Prop where
  nil : step [] = []
  text {cs : List Char} {n : Nat} : quotedLength? cs = some n →
    step ('"' :: cs) = '"' :: cs.take n ++ step (cs.drop n)
  char {c : Char} (cs : List Char) : c ≠ '"' → c ≠ mark → step (c :: cs) = c :: step cs

namespace Skips

variable {step : List Char → List Char} {mark : Char}

theorem run (h : Skips step mark) (hrun : ∀ c ∈ cs, c ≠ '"' ∧ c ≠ mark) (rest : List Char) :
    step (cs ++ rest) = cs ++ step rest := by
  induction cs with
  | nil => rfl
  | cons c cs ih =>
    rw [forall_mem_cons] at hrun
    rw [cons_append, h.char _ hrun.1.1 hrun.1.2, ih hrun.2, cons_append]

theorem gap (h : Skips step mark) (hmark : isGap mark = false) (hgap : IsBare cs)
    (rest : List Char) : step (cs ++ rest) = cs ++ step rest := by
  refine h.run (fun c hc => ⟨?_, ?_⟩) rest
  all_goals
    rintro rfl
    have := hgap _ hc
  · cases this
  · rw [hmark] at this
    cases this

theorem bare (h : Skips step mark) (hmark : isGap mark = false) (hgap : IsBare cs) :
    step cs = cs := by
  have := h.gap hmark hgap []
  rwa [append_nil, h.nil, append_nil] at this

theorem lexeme (h : Skips step mark) (hmark : isWordLetter mark = false)
    (hlexeme : Lexeme chars token) (hne : chars ≠ [mark]) (rest : List Char) :
    step (chars ++ rest) = chars ++ step rest := by
  cases hlexeme with
  | @mark c _ hc =>
    refine h.run (fun d hd => ?_) rest
    obtain rfl := mem_singleton.1 hd
    refine ⟨?_, fun heq => hne (heq ▸ rfl)⟩
    rintro rfl
    cases hc
  | @text chars _ hunits =>
    rw [cons_append, h.text ((text_closed hunits).2 rest).2, take_left, drop_left]
  | word hword =>
    have hall := all_eq_true.1 (all_of_atom? (atom?_of_wordToken hword)).2
    refine h.run (fun c hc => ⟨?_, ?_⟩) rest
    all_goals
      rintro rfl
      have := hall _ hc
    · exact absurd this (by decide)
    · rw [hmark] at this
      cases this

end Skips

/-! ## Line ends -/

theorem unifyLineEnds_append (hrest : rest.head? ≠ some '\n') (cs : List Char) :
    unifyLineEnds (cs ++ rest) = unifyLineEnds cs ++ unifyLineEnds rest := by
  fun_induction unifyLineEnds cs with
  | case1 => rfl
  | case2 cs ih => rw [cons_append, cons_append, unifyLineEnds, ih, cons_append]
  | case3 c cs hpair ih =>
    rw [cons_append, unifyLineEnds, ih, cons_append]
    rintro tail rfl htail
    cases cs with
    | nil => exact hrest (by rw [← nil_append rest, htail]; rfl)
    | cons d cs =>
      cases htail
      exact hpair _ rfl rfl

theorem unifyLineEnds_cons (hc : c ≠ '\r') (cs : List Char) :
    unifyLineEnds (c :: cs) = c :: unifyLineEnds cs := by
  rw [unifyLineEnds, if_neg hc]
  exact fun _ h => absurd h hc

theorem unifyLineEnds_run (h : '\r' ∉ cs) (rest : List Char) :
    unifyLineEnds (cs ++ rest) = cs ++ unifyLineEnds rest := by
  induction cs with
  | nil => rfl
  | cons c cs ih =>
    rw [mem_cons, not_or] at h
    rw [cons_append, unifyLineEnds_cons (Ne.symm h.1), ih h.2, cons_append]

theorem head?_unifyLineEnds (cs : List Char) :
    (unifyLineEnds cs).head? = cs.head?.map fun c => if c = '\r' then '\n' else c := by
  fun_cases unifyLineEnds cs <;> rfl

theorem isChain_unifyLineEnds (h : cs.IsChain fun a b => ¬ (a = '*' ∧ b = '/')) :
    (unifyLineEnds cs).IsChain fun a b => ¬ (a = '*' ∧ b = '/') := by
  fun_induction unifyLineEnds cs with
  | case1 => exact .nil
  | case2 cs ih =>
    simp only [isChain_cons] at h
    exact isChain_cons.2 ⟨fun b _ => by simp, ih h.2.2⟩
  | case3 c cs _ ih =>
    rw [isChain_cons] at h
    refine isChain_cons.2 ⟨fun b hb => ?_, ih h.2⟩
    rw [head?_unifyLineEnds] at hb
    obtain ⟨d, hd, rfl⟩ := Option.map_eq_some_iff.1 hb
    -- A line feed is neither of the two characters.
    split <;> split <;> simp_all

theorem IsFiller.unifyLineEnds (h : IsFiller cs) : IsFiller (unifyLineEnds cs) := by
  induction h with
  | nil => exact .nil
  | @gap c rest hc _ ih =>
    by_cases hreturn : c = '\r'
    · subst hreturn
      by_cases hfeed : ∃ tail, rest = '\n' :: tail
      -- The pair becomes one line feed, which the rest alone gives as well.
      · obtain ⟨tail, rfl⟩ := hfeed
        exact ih
      · rw [Text.unifyLineEnds]
        · exact .gap rfl ih
        · exact fun tail _ htail => hfeed ⟨tail, htail⟩
    · rw [unifyLineEnds_cons hreturn]
      exact .gap hc ih
  | block hbody _ ih =>
    rw [unifyLineEnds_cons (by decide), unifyLineEnds_cons (by decide),
      unifyLineEnds_append (by simp), unifyLineEnds_cons (by decide),
      unifyLineEnds_cons (by decide)]
    exact .block (isChain_unifyLineEnds hbody) ih
  | @line c body rest hbody hc _ ih =>
    rw [unifyLineEnds_cons (by decide), unifyLineEnds_cons (by decide),
      unifyLineEnds_run fun hmem => (hbody _ hmem).2 rfl]
    obtain ⟨tail, htail⟩ : ∃ tail, Text.unifyLineEnds (c :: rest) = '\n' :: tail := by
      rw [← head?_eq_some_iff, head?_unifyLineEnds]
      rcases hc with rfl | rfl <;> rfl
    rw [htail] at ih ⊢
    exact .line hbody (.inl rfl) ih

theorem Spread.unifyLineEnds (h : Spread IsFiller found text) :
    Spread IsFiller found (unifyLineEnds text) := by
  induction h with
  | nil hgap => exact .nil hgap.unifyLineEnds
  | cons hgap hlexeme _ ih =>
    obtain ⟨c, cs, hcons, hreturn, hblank, -⟩ := hlexeme.exists_cons
    rw [unifyLineEnds_append, unifyLineEnds_run hreturn]
    · exact .cons hgap.unifyLineEnds hlexeme ih
    · rw [hcons, cons_append, head?_cons]
      rintro ⟨⟩
      cases hblank

/-! ## Comments -/

theorem skips_dropComments : Skips dropComments '/' where
  nil := by rw [dropComments]
  text h := by
    rw [dropComments]
    simp only [h]
  char cs hquote hslash := by
    rw [dropComments]
    · exact hquote
    · exact fun _ h _ => hslash h
    · exact fun _ h _ => hslash h

theorem cutAt_block {body : List Char} (h : body.IsChain fun a b => ¬ (a = '*' ∧ b = '/'))
    (rest : List Char) : cutAt ['*', '/'] (body ++ '*' :: '/' :: rest) = some (body, rest) := by
  induction body with
  | nil => simp [cutAt]
  | cons c body ih =>
    rw [isChain_cons] at h
    rw [cons_append, cutAt, ih h.2, if_neg, Option.map_some]
    rw [List.isPrefixOf_iff_prefix]
    cases body with
    | nil => simp
    | cons d body =>
      have := h.1 d rfl
      simp only [cons_append, cons_prefix_cons, nil_prefix, and_true]
      exact fun heq => this ⟨heq.1.symm, heq.2.symm⟩

theorem IsFiller.dropComments (h : IsFiller cs) (hreturn : '\r' ∉ cs) :
    ∃ gap, IsBare gap ∧ ∀ rest, dropComments (cs ++ rest) = gap ++ dropComments rest := by
  induction h with
  | nil => exact ⟨[], forall_mem_nil _, fun _ => rfl⟩
  | @gap c _ hc _ ih =>
    rw [mem_cons, not_or] at hreturn
    obtain ⟨gap, hgap, heq⟩ := ih hreturn.2
    refine ⟨c :: gap, forall_mem_cons.2 ⟨hc, hgap⟩, fun rest => ?_⟩
    have hskip := skips_dropComments.gap rfl (forall_mem_singleton.2 hc)
    rw [cons_append, ← singleton_append, hskip, heq, singleton_append,
      cons_append]
  | @block body tail hbody _ ih =>
    obtain ⟨gap, hgap, heq⟩ := ih (by simp_all)
    refine ⟨gap, hgap, fun rest => ?_⟩
    rw [cons_append, cons_append, append_assoc, Json.dropComments]
    simp only [cons_append, cutAt_block hbody]
    rw [← heq, ← drop_drop, drop_left]
    rfl
  | @line c body tail hbody hc _ ih =>
    obtain ⟨gap, hgap, heq⟩ := ih (by simp_all)
    refine ⟨gap, hgap, fun rest => ?_⟩
    obtain rfl : c = '\n' := by
      rcases hc with rfl | rfl
      · rfl
      · simp at hreturn
    rw [← heq, cons_append, cons_append, append_assoc, Json.dropComments]
    rw [dropWhile_append_of_pos fun d hd => by simpa using (hbody d hd).1]
    rfl

theorem Spread.dropComments (h : Spread IsFiller found text) (hreturn : '\r' ∉ text) :
    Spread IsBare found (dropComments text) := by
  induction h with
  | nil hgap =>
    obtain ⟨gap, hbare, heq⟩ := hgap.dropComments hreturn
    have := heq []
    rw [append_nil, skips_dropComments.nil, append_nil] at this
    rw [this]
    exact .nil hbare
  | cons hgap hlexeme _ ih =>
    simp only [mem_append, not_or] at hreturn
    obtain ⟨gap, hbare, heq⟩ := hgap.dropComments hreturn.1
    rw [heq, skips_dropComments.lexeme rfl hlexeme hlexeme.ne_slash]
    exact .cons hbare hlexeme (ih hreturn.2.2)

theorem Spread.dropComments_eq_self (h : Spread IsBare found text) :
    Json.dropComments text = text := by
  induction h with
  | nil hgap => exact skips_dropComments.bare rfl hgap
  | cons hgap hlexeme _ ih =>
    rw [skips_dropComments.gap rfl hgap, skips_dropComments.lexeme rfl hlexeme hlexeme.ne_slash, ih]

/-! ## Commas -/

/-- No document has the two tokens next to each other: a comma before an end, or two words. -/
def Token.clashes : Token → Token → Bool
  | .comma, next => next.isCloser
  | .atom _, .atom _ => true
  | _, _ => false

/-- Tokens as they follow each other in a document. -/
def Regular (found : List Token) : Prop :=
  found.IsChain fun token next => token.clashes next = false

theorem skips_dropCommas : Skips dropCommas ',' where
  nil := by rw [dropCommas]
  text h := by
    rw [dropCommas, if_pos rfl]
    simp only [h]
  char cs hquote hcomma := by rw [dropCommas, if_neg hquote, if_neg fun h => hcomma h.1]

theorem Lexeme.comma_iff (h : Lexeme chars token) : chars = [','] ↔ token = .comma := by
  cases h with
  | @mark c _ h =>
    unfold mark? at h
    split at h
    all_goals cases h
    all_goals simp
  | text h => simp
  | word h =>
    refine ⟨?_, nofun⟩
    rintro rfl
    exact absurd (all_of_atom? (atom?_of_wordToken h)).2 (by decide)

/-- What stands after the blanks tells whether an end comes next. -/
theorem Spread.closes (h : Spread IsBare found text) :
    (trimStart text).head?.any (fun c => c == '\x7d' || c == ']') =
      found.head?.any Token.isCloser := by
  cases h with
  | nil hgap =>
    rw [trimStart, dropWhile_eq_nil_iff.2 fun c hc => isBlank_of_isGap (hgap c hc)]
    rfl
  | cons hgap hlexeme _ =>
    obtain ⟨c, cs, rfl, -, hblank, hcloser, -⟩ := hlexeme.exists_cons
    rw [trimStart, dropWhile_append_of_pos fun c hc => isBlank_of_isGap (hgap c hc),
      cons_append, dropWhile_cons, hblank]
    exact hcloser

theorem dropCommas_comma (h : Spread IsBare found rest) :
    dropCommas (',' :: rest) =
      if found.head?.any Token.isCloser then dropCommas rest else ',' :: dropCommas rest := by
  rw [dropCommas, if_neg (by decide)]
  simp only [true_and, h.closes]

/-- A lexeme before which no end stands after a comma is kept. -/
theorem Spread.dropCommas_lexeme (h : Spread IsBare found rest) (hlexeme : Lexeme chars token)
    (hkept : token = .comma → found.head?.any Token.isCloser = false) :
    dropCommas (chars ++ rest) = chars ++ dropCommas rest := by
  by_cases htoken : token = .comma
  · rw [hlexeme.comma_iff.2 htoken, singleton_append, dropCommas_comma h, hkept htoken]
    rfl
  · exact skips_dropCommas.lexeme rfl hlexeme (htoken ∘ hlexeme.comma_iff.1) rest

theorem Regular.head (h : Regular (.comma :: found)) : found.head?.any Token.isCloser = false := by
  cases found with
  | nil => rfl
  | cons token found => exact (isChain_cons_cons.1 h).1

theorem Regular.tail (h : Regular (token :: found)) : Regular found := List.IsChain.tail h

theorem Spread.dropCommas_eq_self (h : Spread IsBare found text) (hregular : Regular found) :
    Json.dropCommas text = text := by
  induction h with
  | nil hgap => exact skips_dropCommas.bare rfl hgap
  | cons hgap hlexeme hrest ih =>
    rw [skips_dropCommas.gap rfl hgap, hrest.dropCommas_lexeme hlexeme, ih hregular.tail]
    rintro rfl
    exact hregular.head

/-- Without its commas before ends the text writes the bare tokens. -/
theorem Spread.dropCommas (htrails : Trails found more) (h : Spread IsBare more text)
    (hregular : Regular found) : Spread IsBare found (dropCommas text) := by
  induction htrails generalizing text with
  | nil =>
    cases h with
    | nil hgap =>
      rw [skips_dropCommas.bare rfl hgap]
      exact .nil hgap
  | cons token htrails ih =>
    cases h with
    | cons hgap hlexeme hrest =>
      rw [skips_dropCommas.gap rfl hgap, hrest.dropCommas_lexeme hlexeme]
      · exact .cons hgap hlexeme (ih hrest hregular.tail)
      · rintro rfl
        cases htrails with
        | nil => rfl
        | cons next _ => exact hregular.head
        | comma _ _ => rfl
  | comma hcloser htrails ih =>
    cases h with
    | cons hgap hcomma hrest =>
      obtain rfl := hcomma.comma_iff.2 rfl
      rw [skips_dropCommas.gap rfl hgap, singleton_append, dropCommas_comma hrest, head?_cons,
        Option.any_some, hcloser, if_pos rfl]
      cases hrest with
      | cons hgap' hlexeme hrest =>
        rw [skips_dropCommas.gap rfl hgap', hrest.dropCommas_lexeme hlexeme, ← append_assoc]
        · refine .cons ?_ hlexeme (ih hrest hregular.tail)
          exact forall_mem_append.2 ⟨hgap, hgap'⟩
        · rintro rfl
          cases hcloser

/-! ## Tokens of a bare document -/

theorem tokens_bare (h : IsBare cs) (rest : List Char) : tokens (cs ++ rest) = tokens rest := by
  induction cs with
  | nil => rfl
  | cons c cs ih =>
    rw [IsBare, forall_mem_cons] at h
    rw [cons_append, tokens_gap h.1, ih h.2]

theorem Spread.endsWord (h : Spread IsBare found text) (hword : ∀ v, found.head? ≠ some (.atom v)) :
    EndsWord text := by
  have hblank : ∀ c, isGap c → isWordPart c = false := by
    intro c hc
    simp [isWordPart, hc]
  cases h with
  | nil hgap => exact fun c hc => hblank c (hgap c (mem_of_mem_head? hc))
  | @cons gap _ _ _ _ hgap hlexeme _ =>
    cases gap with
    | cons c gap => exact endsWord_cons (hblank c (hgap c mem_cons_self)) _
    | nil =>
      obtain ⟨c, cs, rfl, -, -, -, hpart⟩ := hlexeme.exists_cons
      refine endsWord_cons (Bool.eq_false_iff.2 fun hc => ?_) _
      obtain ⟨v, rfl⟩ := hpart hc
      exact hword v rfl

theorem Spread.tokens_eq (h : Spread IsBare found text) (hregular : Regular found) :
    tokens text = found := by
  induction h with
  | nil hgap =>
    have := tokens_bare hgap []
    rwa [append_nil, tokens] at this
  | @cons _ chars rest token _ hgap hlexeme hrest ih =>
    obtain ⟨c, cs, heq, -, hblank, -⟩ := hlexeme.exists_cons
    rw [tokens_bare hgap]
    rw [← ih hregular.tail]
    cases hlexeme with
    | mark hmark =>
      refine tokens_mark (Bool.eq_false_iff.2 fun hgap => ?_) hmark rest
      cases heq
      exact absurd (isBlank_of_isGap hgap) (Bool.eq_false_iff.1 hblank)
    | text hunits =>
      have hmark : mark? '"' = none := rfl
      rw [cons_append, tokens, if_neg (by decide)]
      simp only [hmark, if_true, ((text_closed hunits).2 rest).1, drop_left]
    | @word _ v hword =>
      obtain ⟨hne, hall⟩ := all_of_atom? (atom?_of_wordToken hword)
      rw [tokens_word hne ?_ (hrest.endsWord ?_), hword]
      · exact all_eq_true.2 fun c hc => (isWordLetter_spec (all_eq_true.1 hall c hc)).2.1
      · intro w hw
        obtain ⟨tail, rfl⟩ := head?_eq_some_iff.1 hw
        cases (isChain_cons_cons.1 hregular).1

/-! ## Documents that can be read -/

/-- The token is one that a document may have. -/
def Token.isSound : Token → Bool
  | .excess _ => false
  | .broken _ => false
  | _ => true

variable {stack later latest : List Frame} {mode next last : Mode}

theorem isSound_of_step (h : step stack mode token = .ok (later, next)) : token.isSound := by
  cases token with
  | excess e => cases mode <;> simp [step, beginValue, afterValue] at h
  | broken e => cases mode <;> simp [step, beginValue, afterValue] at h
  | _ => rfl

/-- After a comma the machine waits for a value or a key, and after a word for none. -/
theorem not_clashes_of_step {following : Token} (h : step stack mode token = .ok (later, next))
    (hnext : step later next following = .ok (latest, last)) : token.clashes following = false := by
  unfold Token.clashes
  split
  · have hmode : next = .value ∨ ∃ members, next = .nextKey members := by
      cases mode with
      | done v =>
        rcases stack with _ | ⟨_ | _, stack⟩
        all_goals cases h
        · exact .inl rfl
        · exact .inr ⟨_, rfl⟩
      | _ => simp [step, beginValue] at h
    rcases hmode with rfl | ⟨members, rfl⟩
    all_goals cases following <;> simp_all [step, beginValue, Token.isCloser]
  · have hmode : ∃ v, next = .done v := by
      cases mode with
      | value | firstItem =>
        cases h
        exact ⟨_, rfl⟩
      | _ => simp [step, afterValue] at h
    obtain ⟨v, rfl⟩ := hmode
    simp [step, afterValue] at hnext
  · rfl

/-- What holds of two steps holds along a run. -/
theorem regular_of_run (h : run stack mode found = .ok v) :
    Regular found ∧ ∀ token ∈ found, token.isSound := by
  induction found generalizing stack mode with
  | nil => exact ⟨.nil, forall_mem_nil _⟩
  | cons token found ih =>
    obtain ⟨⟨later, next⟩, hstep, hrun⟩ := bind_eq_ok_iff.1 h
    have hrest := ih hrun
    refine ⟨?_, forall_mem_cons.2 ⟨isSound_of_step hstep, hrest.2⟩⟩
    cases found with
    | nil => exact .singleton _
    | cons following found =>
      obtain ⟨⟨latest, last⟩, hnext, -⟩ := bind_eq_ok_iff.1 hrun
      exact isChain_cons_cons.2 ⟨not_clashes_of_step hstep hnext, hrest.1⟩

theorem Spread.start {between : List Char → Prop} (hnil : between []) (hlexeme : Lexeme chars token)
    (h : Spread between found rest) : Spread between (token :: found) (chars ++ rest) := by
  exact .cons hnil hlexeme h

theorem Spread.blank (hc : isGap c) (h : Spread IsBare found text) :
    Spread IsBare found (c :: text) := by
  cases h with
  | nil hgap => exact .nil (forall_mem_cons.2 ⟨hc, hgap⟩)
  | cons hgap hlexeme hrest =>
    rw [← cons_append]
    exact .cons (forall_mem_cons.2 ⟨hc, hgap⟩) hlexeme hrest

/-- A text with sound tokens is its tokens with blanks between them. -/
theorem spread_tokens (h : ∀ token ∈ tokens text, token.isSound) :
    Spread IsBare (tokens text) text := by
  fun_induction tokens text with
  | case1 => exact .nil (forall_mem_nil _)
  | case2 c cs hgap ih => exact (ih h).blank hgap
  | case3 c cs _ token hmark ih =>
    exact .start (forall_mem_nil _) (.mark hmark) (ih (forall_mem_cons.1 h).2)
  | case4 => cases h _ mem_cons_self
  | case5 cs units taken hunits _ _ ih =>
    obtain ⟨body, rest, rfl, rfl, -, hbody⟩ := exists_text hunits
    have hlexeme : readUnits body = some (units, body.length) := by
      have := (hbody []).1
      rwa [append_nil] at this
    rw [drop_left] at ih h ⊢
    exact .start (forall_mem_nil _) (.text hlexeme) (ih (forall_mem_cons.1 h).2)
  | case6 c cs _ _ _ ih =>
    rw [forall_mem_cons] at h
    obtain ⟨v, hword⟩ : ∃ v, wordToken (c :: cs.takeWhile isWordPart) = .atom v := by
      have hsound := h.1
      unfold wordToken at hsound ⊢
      split at hsound
      · cases hsound
      · exact ⟨_, rfl⟩
      · cases hsound
    have := Spread.start (forall_mem_nil _) (.word hword) (ih h.2)
    rw [cons_append, takeWhile_append_dropWhile] at this
    rwa [hword]

theorem Trails.refl (found : List Token) : Trails found found := by
  induction found with
  | nil => exact .nil
  | cons token found ih => exact .cons token ih

theorem IsBare.isFiller (h : IsBare cs) : IsFiller cs := by
  induction cs with
  | nil => exact .nil
  | cons c cs ih =>
    rw [IsBare, forall_mem_cons] at h
    exact .gap h.1 (ih h.2)

theorem Spread.isFiller (h : Spread IsBare found text) : Spread IsFiller found text := by
  induction h with
  | nil hgap => exact .nil hgap.isFiller
  | cons hgap hlexeme _ ih => exact .cons hgap.isFiller hlexeme ih

/-- A decorated document stands for the same value as the bare one. -/
theorem readRelaxed_of_decorates {plain decorated : List Char} (hread : read plain = .ok v)
    (h : Decorates plain decorated) : readRelaxed (unifyLineEnds decorated) = .ok v := by
  obtain ⟨more, htrails, hspread⟩ := h
  obtain ⟨hregular, -⟩ := regular_of_run hread
  have hbare := hspread.unifyLineEnds.dropComments (Disk.return_notMem_unifyLineEnds _)
  rw [readRelaxed, read, (hbare.dropCommas htrails hregular).tokens_eq hregular]
  exact hread

/-- The removal of comments and commas leaves every document as it is, and a document decorates
itself. The file of a decorated table is read as the table. -/
theorem readTable_decorated {plain : List Char} (hread : read plain = .ok v) :
    (dropComments plain = plain ∧ dropCommas plain = plain ∧ Decorates plain plain) ∧
    ∀ decorated members, Decorates plain decorated → v = .table members →
      ∀ (disk : Disk) path, disk.read path = .ok (Utf8.encode decorated) →
        Alias.readTable disk path = .ok v := by
  obtain ⟨hregular, hsound⟩ := regular_of_run hread
  have hspread := spread_tokens hsound
  refine ⟨⟨hspread.dropComments_eq_self, hspread.dropCommas_eq_self hregular, _,
    .refl _, hspread.isFiller⟩, ?_⟩
  rintro decorated members hdecorates rfl disk path hfile
  have htext : disk.readText path = .ok (unifyLineEnds decorated) := by
    rw [Disk.readText, hfile]
    simp only [Utf8.decode_eq_ok_iff.2 rfl]
  rw [Alias.readTable, htext]
  simp only [readRelaxed_of_decorates hread hdecorates]

/-- A comment to the end of the line, one in stars that holds a comma and an end, and two commas
before ends. -/
theorem readTable_decorated_twice :
    let plain := "\x7b\"a\":[1]\x7d".toList
    let decorated := "\x7b\"a\"://b\r\n[1,/*,]*/],\x7d".toList
    let disk : Disk := { nodes := [(["t.json"], .file (Utf8.encode decorated))] }
    read plain = .ok (.table [("a", .list [.int 1])]) ∧ Decorates plain decorated ∧
      dropCommas plain = plain ∧
      Alias.readTable disk (.ofString "t.json") = .ok (.table [("a", .list [.int 1])]) := by
  intro plain decorated disk
  let found : List Token :=
    [.openTable, .text "a", .colon, .openList, .atom (.int 1), .closeList, .closeTable]
  have hkey : readUnits ['a', '"'] = some ([97], 2) := rfl
  have hword : wordToken ['1'] = .atom (.int 1) := rfl
  have hnil : IsBare [] := forall_mem_nil _
  have hbare : Spread IsBare found plain :=
    .start hnil (.mark rfl) <| .start hnil (.text hkey) <| .start hnil (.mark rfl) <|
      .start hnil (.mark rfl) <| .start hnil (.word hword) <| .start hnil (.mark rfl) <|
      .start hnil (.mark rfl) <| .nil hnil
  have htokens : tokens plain = found := by
    apply hbare.tokens_eq
    simp [Regular, found, Token.clashes, Token.isCloser]
  have hread : read plain = .ok (.table [("a", .list [.int 1])]) := by
    rw [read, htokens]
    rfl
  have hline : IsFiller ('/' :: '/' :: (['b'] ++ '\r' :: ['\n'])) :=
    .line (by simp) (.inr rfl) (.gap rfl (.gap rfl .nil))
  have hblock : IsFiller ('/' :: '*' :: ([',', ']'] ++ '*' :: '/' :: [])) :=
    .block (by simp) .nil
  have hdecorates : Decorates plain decorated := by
    rw [Decorates, htokens]
    refine ⟨_, .cons _ <| .cons _ <| .cons _ <| .cons _ <| .cons _ <| .comma rfl <|
      .comma rfl .nil, ?_⟩
    exact .start .nil (.mark rfl) <| .start .nil (.text hkey) <| .start .nil (.mark rfl) <|
      .cons hline (.mark rfl) <| .start .nil (.word hword) <| .start .nil (.mark rfl) <|
      .cons hblock (.mark rfl) <| .start .nil (.mark rfl) <| .start .nil (.mark rfl) <| .nil .nil
  obtain ⟨⟨-, hcommas, -⟩, htable⟩ := readTable_decorated hread
  exact ⟨hread, hdecorates, hcommas, htable decorated _ hdecorates rfl disk _ (by decide +kernel)⟩

end Deadwood.Json

import Deadwood.Module.Lexeme
import Mathlib.Data.List.Chain
import Mathlib.Data.List.TakeWhile

/-!
# How a text is cut into lexemes

`Reads` says once what the lexer can read: one case for every kind of lexeme, with what may follow
it. `Lexes` is the relation between a text and its lexemes that comes of reading one after the
other, and `Passes` says how far the lexer gets in a text that it need not come to the end of. They
agree with the functions that lex (`readLexeme_iff`, `lexFrom_iff`, `lexFrom_eq_error_iff`), so
later arguments about the lexer are inductions over `Lexes` or `Passes` with one case for each kind
of lexeme.

Comments and closed literals are read up to their own end, whatever follows. Three kinds of lexemes
look further: a line comment and a quoted literal without a closing quote end at a line break, and a
slash divides because no pattern literal begins there.
-/

set_option autoImplicit false

namespace Deadwood.Module

open Text List

/-! ## Bodies of literals

One step of each of the three readers, and what a body looks like when it is closed: it is a prefix
of what was read, and it is found again whatever follows the closing mark. -/

theorem quotedBody_quote (quote : Char) (cs : List Char) :
    quotedBody quote (quote :: cs) = ([], true) := by
  rw [quotedBody.eq_def]
  simp

variable {quote c : Char} {cs body rest source : List Char} {offset : Nat} {lexeme : Lexeme}
  {lexemes : List Lexeme} {e : ParseError}

theorem quotedBody_escape (hquote : '\\' ≠ quote) (d : Char) (cs : List Char) :
    quotedBody quote ('\\' :: d :: cs) =
      ('\\' :: d :: (quotedBody quote cs).1, (quotedBody quote cs).2) := by
  rw [quotedBody.eq_def]
  simp [hquote]

theorem quotedBody_plain (hquote : c ≠ quote) (hline : c ≠ '\n') (hescape : c ≠ '\\')
    (cs : List Char) :
    quotedBody quote (c :: cs) = (c :: (quotedBody quote cs).1, (quotedBody quote cs).2) := by
  rw [quotedBody.eq_def]
  simp [hquote, hline, hescape]

theorem quotedBody_closed (h : quotedBody quote cs = (body, true)) :
    (∃ rest, cs = body ++ quote :: rest) ∧
      ∀ rest, quotedBody quote (body ++ quote :: rest) = (body, true) := by
  induction cs using quotedBody.induct quote generalizing body with
  | case1 => simp [quotedBody] at h
  | case2 cs =>
    simp only [quotedBody_quote, Prod.mk.injEq, and_true] at h
    subst h
    exact ⟨⟨cs, rfl⟩, fun rest => quotedBody_quote quote rest⟩
  | case3 cs hquote => simp [quotedBody.eq_def quote ('\n' :: cs), hquote] at h
  | case4 hquote _ => simp [quotedBody, hquote] at h
  | case5 d cs inner closed hinner hquote _ ih =>
    simp only [quotedBody_escape hquote, hinner, Prod.mk.injEq] at h
    obtain ⟨rfl, rfl⟩ := h
    obtain ⟨⟨rest, hrest⟩, hall⟩ := ih hinner
    refine ⟨⟨rest, by simp [hrest]⟩, fun rest => ?_⟩
    simp [quotedBody_escape hquote, hall rest]
  | case6 c cs hquote hline hescape inner closed hinner ih =>
    simp only [quotedBody_plain hquote hline hescape, hinner, Prod.mk.injEq] at h
    obtain ⟨rfl, rfl⟩ := h
    obtain ⟨⟨rest, hrest⟩, hall⟩ := ih hinner
    refine ⟨⟨rest, by simp [hrest]⟩, fun rest => ?_⟩
    simp [quotedBody_plain hquote hline hescape, hall rest]

/-- A quoted literal without a closing quote runs up to a line break or to the end of the text. At a
line break it ends whatever follows the line. -/
theorem quotedBody_unclosed (h : quotedBody quote cs = (body, false)) :
    ∃ rest, cs = body ++ rest ∧ (∀ c ∈ rest.head?, c = '\n') ∧
      (rest ≠ [] → ∀ more, quotedBody quote (body ++ '\n' :: more) = (body, false)) := by
  induction cs using quotedBody.induct quote generalizing body with
  | case1 =>
    simp only [quotedBody, Prod.mk.injEq, and_true] at h
    exact ⟨[], by simp [← h]⟩
  | case2 cs => simp [quotedBody_quote] at h
  | case3 cs hquote =>
    simp only [quotedBody.eq_def quote ('\n' :: cs), hquote, if_true, if_false, Prod.mk.injEq,
      and_true] at h
    refine ⟨'\n' :: cs, by simp [← h], by simp, fun _ more => ?_⟩
    simp [← h, quotedBody.eq_def quote ('\n' :: more), hquote]
  | case4 hquote _ =>
    simp only [quotedBody, hquote, if_false, Char.reduceEq, if_true, Prod.mk.injEq, and_true] at h
    exact ⟨[], by simp [← h]⟩
  | case5 d cs inner closed hinner hquote _ ih =>
    simp only [quotedBody_escape hquote, hinner, Prod.mk.injEq] at h
    obtain ⟨rfl, rfl⟩ := h
    obtain ⟨rest, hrest, hnext, hbreak⟩ := ih hinner
    refine ⟨rest, by simp [hrest], hnext, fun hne more => ?_⟩
    simp [quotedBody_escape hquote, hbreak hne more]
  | case6 c cs hquote hline hescape inner closed hinner ih =>
    simp only [quotedBody_plain hquote hline hescape, hinner, Prod.mk.injEq] at h
    obtain ⟨rfl, rfl⟩ := h
    obtain ⟨rest, hrest, hnext, hbreak⟩ := ih hinner
    refine ⟨rest, by simp [hrest], hnext, fun hne more => ?_⟩
    simp [quotedBody_plain hquote hline hescape, hbreak hne more]

/-- A body that goes on after `piece` is closed as the rest of it is. -/
theorem closed_append {f g : List Char → Option (List Char)} {mark : Char} (piece : List Char)
    (hstep : ∀ rest, f (piece ++ rest) = (g rest).map (piece ++ ·))
    (hrest : ∀ {inner}, g cs = some inner →
      (∃ rest, cs = inner ++ mark :: rest) ∧ ∀ rest, g (inner ++ mark :: rest) = some inner)
    (h : f (piece ++ cs) = some body) : (∃ rest, piece ++ cs = body ++ mark :: rest) ∧
      ∀ rest, f (body ++ mark :: rest) = some body := by
  rw [hstep, Option.map_eq_some_iff] at h
  obtain ⟨inner, hinner, rfl⟩ := h
  obtain ⟨⟨rest, hcs⟩, hall⟩ := hrest hinner
  refine ⟨⟨rest, by simp [hcs]⟩, fun rest => ?_⟩
  rw [append_assoc, hstep, hall]
  rfl

theorem templateBody_escape (depth : Nat) (d : Char) (cs : List Char) :
    templateBody depth (['\\', d] ++ cs) = (templateBody depth cs).map (['\\', d] ++ ·) := by
  rw [cons_append, templateBody.eq_def]
  rfl

theorem templateBody_closed {depth : Nat} (h : templateBody depth cs = some body) :
    (∃ rest, cs = body ++ '`' :: rest) ∧
      ∀ rest, templateBody depth (body ++ '`' :: rest) = some body := by
  induction depth, cs using templateBody.induct generalizing body with
  | case1 depth => simp [templateBody] at h
  | case2 depth => simp [templateBody] at h
  | case3 depth d cs ih => exact closed_append ['\\', d] (templateBody_escape depth d) ih h
  | case4 cs _ =>
    rw [templateBody.eq_def] at h
    simp only [Char.reduceEq, if_true, if_false, Option.some.injEq] at h
    subst h
    refine ⟨⟨cs, rfl⟩, fun rest => ?_⟩
    rw [templateBody.eq_def]
    simp
  | case5 _ _ => simp [templateBody] at h
  | case6 cs _ _ ih =>
    refine closed_append (f := templateBody 0) ['$', '{'] (fun rest => ?_) ih h
    rw [cons_append, templateBody.eq_def]
    rfl
  | case7 d cs hd _ _ ih =>
    rw [templateBody.eq_def] at h
    simp only [Char.reduceEq, hd, if_true, if_false, Option.map_eq_some_iff] at h
    obtain ⟨inner, hinner, rfl⟩ := h
    obtain ⟨⟨rest, hrest⟩, hall⟩ := ih hinner
    refine ⟨⟨rest, by simp [hrest]⟩, fun rest => ?_⟩
    -- what follows the dollar sign is still no brace: the next character, or the backquote
    obtain ⟨e, tail, he, htail⟩ : ∃ e tail, e ≠ '{' ∧ inner ++ '`' :: rest = e :: tail := by
      cases inner with
      | nil => exact ⟨'`', rest, by decide, rfl⟩
      | cons e inner =>
        simp only [cons_append, cons.injEq] at hrest
        exact ⟨e, inner ++ '`' :: rest, hrest.1 ▸ hd, rfl⟩
    rw [templateBody.eq_def]
    simp only [cons_append, htail, Char.reduceEq, he, if_true, if_false]
    rw [← htail, hall rest]
    rfl
  | case8 c cs h1 h2 h3 ih =>
    refine closed_append (f := templateBody 0) [c] (fun rest => ?_) ih h
    rw [singleton_append, templateBody.eq_def]
    simp [h1, h2, h3]
  | case9 depth cs h0 _ ih =>
    refine closed_append (f := templateBody depth) ['{'] (fun rest => ?_) ih h
    rw [singleton_append, templateBody.eq_def]
    simp [h0]
  | case10 depth cs h0 _ _ ih =>
    refine closed_append (f := templateBody depth) ['}'] (fun rest => ?_) ih h
    rw [singleton_append, templateBody.eq_def]
    simp [h0]
  | case11 depth c cs h1 h0 h2 h3 ih =>
    refine closed_append (f := templateBody depth) [c] (fun rest => ?_) ih h
    rw [singleton_append, templateBody.eq_def]
    simp [h0, h1, h2, h3]

theorem patternBody_closed {inClass : Bool} (h : patternBody inClass cs = some body) :
    (∃ rest, cs = body ++ '/' :: rest) ∧
      ∀ rest, patternBody inClass (body ++ '/' :: rest) = some body := by
  induction inClass, cs using patternBody.induct generalizing body with
  | case1 inClass => simp [patternBody] at h
  | case2 inClass cs => simp [patternBody.eq_def inClass ('\n' :: cs)] at h
  | case3 inClass _ => simp [patternBody] at h
  | case4 inClass d cs _ ih =>
    refine closed_append (f := patternBody inClass) ['\\', d] (fun rest => ?_) ih h
    rw [cons_append, patternBody.eq_def]
    rfl
  | case5 inClass c cs hline hescape hslash =>
    rw [patternBody.eq_def] at h
    simp only [hline, hescape, hslash, if_true, if_false, Option.some.injEq] at h
    subst h
    simp only [Bool.and_eq_true, decide_eq_true_eq] at hslash
    obtain ⟨rfl, hclass⟩ := hslash
    refine ⟨⟨cs, rfl⟩, fun rest => ?_⟩
    rw [patternBody.eq_def]
    simp [hclass]
  | case6 inClass c cs hline hescape hslash inside =>
    rename_i ih
    refine closed_append (f := patternBody inClass) [c] (fun rest => ?_) ih h
    rw [singleton_append, patternBody.eq_def]
    simp only [hline, hescape, hslash, Bool.false_eq_true, if_false]
    rfl

/-- A text is cut at the same place whatever follows the mark. -/
theorem cutAt_closed {mark : List Char} (hmark : mark ≠ []) (h : cutAt mark cs = some (body, rest))
    (tail : List Char) : cutAt mark (body ++ mark ++ tail) = some (body, tail) := by
  induction cs generalizing body with
  | nil =>
    rw [cutAt] at h
    simp [hmark] at h
  | cons c cs ih =>
    rw [cutAt] at h
    split at h
    · cases h
      obtain ⟨d, mark, rfl⟩ := exists_cons_of_ne_nil hmark
      rw [nil_append, cons_append, cutAt]
      simp
    · rename_i hno
      obtain ⟨⟨inner, after⟩, hcut, heq⟩ := Option.map_eq_some_iff.1 h
      simp only [Prod.mk.injEq] at heq
      obtain ⟨rfl, rfl⟩ := heq
      have hno' : ¬ mark.isPrefixOf (c :: (inner ++ mark ++ tail)) := by
        intro hpre
        refine hno (List.isPrefixOf_iff_prefix.2 ?_)
        -- the mark would fit before the tail, where the two texts are the same
        have hfit : mark <+: c :: (inner ++ mark) := by
          refine prefix_of_prefix_length_le (List.isPrefixOf_iff_prefix.1 hpre)
            ⟨tail, by simp⟩ (by simp only [length_cons, length_append]; omega)
        rw [eq_of_cutAt hcut]
        exact hfit.trans ⟨after, by simp⟩
      rw [cons_append, cons_append, cutAt, if_neg hno', ih hcut]
      rfl

/-! ## One lexeme -/

/-- The lexer reads a lexeme, before the text `rest` and after a text with the reversed shape
`before`. -/
inductive Reads (before : List Char) : Lexeme → List Char → Prop
  | lineComment {body rest : List Char} (hbody : '\n' ∉ body) (hrest : ∀ c ∈ rest.head?, c = '\n') :
      Reads before (.comment ('/' :: '/' :: body)) rest
  | blockComment {body rest : List Char}
      (hbody : ∀ tail, cutAt ['*', '/'] (body ++ ['*', '/'] ++ tail) = some (body, tail)) :
      Reads before (.comment ('/' :: '*' :: (body ++ ['*', '/']))) rest
  /-- A pattern literal is not empty, and its body does not begin like a comment. -/
  | pattern {c : Char} {body rest : List Char} (hslash : c ≠ '/') (hstar : c ≠ '*')
      (hadmits : admitsPattern before = true)
      (hbody : ∀ tail, patternBody false (c :: body ++ '/' :: tail) = some (c :: body)) :
      Reads before (.literal '/' (c :: body) (some '/')) rest
  | slash {rest : List Char} (hrest : ∀ c ∈ rest.head?, c ≠ '/' ∧ c ≠ '*')
      (hnone : admitsPattern before = true → patternBody false rest = none) :
      Reads before (.code '/') rest
  | quoted {quote : Char} {body rest : List Char} (hquote : quote = '\'' ∨ quote = '"')
      (hbody : ∀ tail, quotedBody quote (body ++ quote :: tail) = (body, true)) :
      Reads before (.literal quote body (some quote)) rest
  | unclosed {quote : Char} {body rest : List Char} (hquote : quote = '\'' ∨ quote = '"')
      (hbody : quotedBody quote (body ++ rest) = (body, false))
      (hrest : ∀ c ∈ rest.head?, c = '\n') :
      Reads before (.literal quote body none) rest
  | template {body rest : List Char}
      (hbody : ∀ tail, templateBody 0 (body ++ '`' :: tail) = some body) :
      Reads before (.literal '`' body (some '`')) rest
  | plain {c : Char} {rest : List Char} (hslash : c ≠ '/') (hsingle : c ≠ '\'')
      (hdouble : c ≠ '"') (hback : c ≠ '`') : Reads before (.code c) rest

variable {before : List Char}

/-- The part of a text up to its first line break, and what follows. -/
theorem takeWhile_line (cs : List Char) :
    '\n' ∉ cs.takeWhile (· != '\n') ∧ ∀ c ∈ (cs.dropWhile (· != '\n')).head?, c = '\n' := by
  constructor
  · intro hmem
    simpa using mem_takeWhile_imp hmem
  · intro c hc
    cases hdrop : cs.dropWhile (· != '\n') with
    | nil => simp [hdrop] at hc
    | cons d rest =>
      have hd := head?_dropWhile_not (· != '\n') cs
      simp only [hdrop, head?_cons, Option.mem_some_iff] at hc hd
      subst hc
      simpa using hd

/-! What the lexer finds at the beginning of a text, for each kind of lexeme. -/

/-- The text begins with the lexeme, and the lexer reads it there. -/
def Heads (before text : List Char) (lexeme : Lexeme) : Prop :=
  ∃ rest, text = lexeme.text ++ rest ∧ Reads before lexeme rest

theorem heads_lineComment (tail : List Char) : Heads before ('/' :: '/' :: tail)
    (.comment ('/' :: '/' :: tail.takeWhile (· != '\n'))) :=
  ⟨tail.dropWhile (· != '\n'), by simp [Lexeme.text],
    .lineComment (takeWhile_line tail).1 (takeWhile_line tail).2⟩

theorem heads_blockComment (h : cutAt ['*', '/'] cs = some (body, rest)) :
    Heads before ('/' :: '*' :: cs) (.comment ('/' :: '*' :: (body ++ ['*', '/']))) :=
  ⟨rest, by simp [Lexeme.text, eq_of_cutAt h],
    .blockComment fun tail => cutAt_closed (by simp) h tail⟩

section Slash

variable (hline : ∀ tail, cs ≠ '/' :: tail) (hblock : ∀ tail, cs ≠ '*' :: tail)
include hline hblock

theorem heads_pattern (hadmits : admitsPattern before = true)
    (h : patternBody false cs = some body) :
    Heads before ('/' :: cs) (.literal '/' body (some '/')) := by
  obtain ⟨⟨rest, hrest⟩, hall⟩ := patternBody_closed h
  cases body with
  | nil => exact absurd hrest (hline rest)
  | cons d body =>
    refine ⟨rest, by simp [Lexeme.text, hrest], .pattern ?_ ?_ hadmits hall⟩
    · rintro rfl
      exact hline _ hrest
    · rintro rfl
      exact hblock _ hrest

theorem heads_slash (hnone : admitsPattern before = true → patternBody false cs = none) :
    Heads before ('/' :: cs) (.code '/') := by
  refine ⟨cs, rfl, .slash (fun d hd => ?_) hnone⟩
  obtain ⟨tail, rfl⟩ := head?_eq_some_iff.1 hd
  exact ⟨fun heq => hline tail (heq ▸ rfl), fun heq => hblock tail (heq ▸ rfl)⟩

end Slash

theorem heads_quoted (hquote : quote = '\'' ∨ quote = '"') (cs : List Char) :
    Heads before (quote :: cs) (.literal quote (quotedBody quote cs).1
      (if (quotedBody quote cs).2 then some quote else none)) := by
  rcases hread : quotedBody quote cs with ⟨body, _ | _⟩
  · obtain ⟨rest, hrest, hnext, -⟩ := quotedBody_unclosed hread
    exact ⟨rest, by simp [Lexeme.text, hrest], .unclosed hquote (hrest ▸ hread) hnext⟩
  · obtain ⟨⟨rest, hrest⟩, hall⟩ := quotedBody_closed hread
    exact ⟨rest, by simp [Lexeme.text, hrest], .quoted hquote hall⟩

theorem heads_template (h : templateBody 0 cs = some body) :
    Heads before ('`' :: cs) (.literal '`' body (some '`')) := by
  obtain ⟨⟨rest, hrest⟩, hall⟩ := templateBody_closed h
  exact ⟨rest, by simp [Lexeme.text, hrest], .template hall⟩

theorem reads_of_readLexeme (h : readLexeme before offset c cs = .ok lexeme) :
    ∃ rest, c :: cs = lexeme.text ++ rest ∧ Reads before lexeme rest := by
  change Heads before (c :: cs) lexeme
  unfold readLexeme at h
  split at h
  · rename_i hslash
    subst hslash
    split at h
    · cases h
      exact heads_lineComment _
    · split at h
      · rename_i hcut
        cases h
        exact heads_blockComment hcut
      · cases h
    · rename_i hline hblock
      split at h <;> rename_i hpattern <;> cases h
      · obtain ⟨hadmits, hbody⟩ := Option.ite_none_right_eq_some.1 hpattern
        exact heads_pattern hline hblock hadmits hbody
      · exact heads_slash hline hblock fun hadmits => by simpa [hadmits] using hpattern
  · rename_i hslash
    split at h
    · rename_i hquote
      cases h
      exact heads_quoted hquote cs
    · rename_i hquote
      split at h
      · rename_i hback
        subst hback
        split at h
        · rename_i htemplate
          cases h
          exact heads_template htemplate
        · cases h
      · rename_i hback
        cases h
        simp only [not_or] at hquote
        exact ⟨cs, rfl, .plain hslash hquote.1 hquote.2 hback⟩

theorem readLexeme_of_reads (h : Reads before lexeme rest) (offset : Nat)
    (htext : c :: cs = lexeme.text ++ rest) : readLexeme before offset c cs = .ok lexeme := by
  cases h with
  | @lineComment body rest hbody hrest =>
    obtain ⟨rfl, rfl⟩ : c = '/' ∧ cs = '/' :: (body ++ rest) := by simpa [Lexeme.text] using htext
    have htake : (body ++ rest).takeWhile (· != '\n') = body := by
      rw [takeWhile_append_of_pos fun d hd => by
        simpa using fun h : d = '\n' => hbody (h ▸ hd)]
      cases rest with
      | nil => simp
      | cons d rest => simp [hrest d (by simp)]
    simp [readLexeme, htake]
  | @blockComment body rest hbody =>
    obtain ⟨rfl, rfl⟩ : c = '/' ∧ cs = '*' :: (body ++ ['*', '/'] ++ rest) := by
      simpa [Lexeme.text] using htext
    simp only [readLexeme, if_true, hbody rest]
  | @pattern d body rest hslash hstar hadmits hbody =>
    obtain ⟨rfl, rfl⟩ : c = '/' ∧ cs = d :: body ++ '/' :: rest := by
      simpa [Lexeme.text] using htext
    have hpattern := hbody rest
    rw [cons_append] at hpattern ⊢
    unfold readLexeme
    simp only [if_true, hadmits]
    split
    · rename_i heq
      exact absurd (cons.inj heq).1 hslash
    · rename_i heq
      exact absurd (cons.inj heq).1 hstar
    · simp only [hpattern]
  | @slash rest hrest hnone =>
    obtain ⟨rfl, rfl⟩ : c = '/' ∧ cs = rest := by simpa [Lexeme.text] using htext
    unfold readLexeme
    simp only [if_true]
    split
    · exact absurd rfl (hrest '/' (by simp)).1
    · exact absurd rfl (hrest '*' (by simp)).2
    · cases hadmits : admitsPattern before with
      | false => simp
      | true => simp [hnone hadmits]
  | @quoted quote body rest hquote hbody =>
    obtain ⟨rfl, rfl⟩ : c = quote ∧ cs = body ++ quote :: rest := by simpa [Lexeme.text] using htext
    have hslash : c ≠ '/' := by rcases hquote with rfl | rfl <;> decide
    simp [readLexeme, hslash, hquote, hbody rest]
  | @unclosed quote body rest hquote hbody hrest =>
    obtain ⟨rfl, rfl⟩ : c = quote ∧ cs = body ++ rest := by simpa [Lexeme.text] using htext
    have hslash : c ≠ '/' := by rcases hquote with rfl | rfl <;> decide
    simp [readLexeme, hslash, hquote, hbody]
  | @template body rest hbody =>
    obtain ⟨rfl, rfl⟩ : c = '`' ∧ cs = body ++ '`' :: rest := by simpa [Lexeme.text] using htext
    simp [readLexeme, hbody rest]
  | @plain d rest hslash hsingle hdouble hback =>
    obtain ⟨rfl, rfl⟩ : c = d ∧ cs = rest := by simpa [Lexeme.text] using htext
    simp [readLexeme, hslash, hsingle, hdouble, hback]

/-- The lexer reads a lexeme exactly if the text begins with it and it is one that can be read
there. -/
theorem readLexeme_iff : readLexeme before offset c cs = .ok lexeme ↔
      ∃ rest, c :: cs = lexeme.text ++ rest ∧ Reads before lexeme rest :=
  ⟨reads_of_readLexeme, fun ⟨_, htext, h⟩ => readLexeme_of_reads h offset htext⟩

/-! ## All lexemes of a text -/

/-- The lexemes of a text after a beginning with the reversed shape `before`. -/
inductive Lexes : (before text : List Char) → List Lexeme → Prop
  | nil {before : List Char} : Lexes before [] []
  | cons {before rest : List Char} {lexeme : Lexeme} {lexemes : List Lexeme}
      (first : Reads before lexeme rest)
      (others : Lexes (lexeme.shape.reverse ++ before) rest lexemes) :
      Lexes before (lexeme.text ++ rest) (lexeme :: lexemes)

theorem Lexeme.text_ne_nil_of_reads (h : Reads before lexeme rest) : lexeme.text ≠ [] := by
  cases h <;> simp [Lexeme.text]

@[simp] theorem Lexeme.length_shape (lexeme : Lexeme) :
    lexeme.shape.length = lexeme.text.length := by
  cases lexeme <;> simp [Lexeme.shape, Lexeme.text]

/-- After the first lexeme the lexer goes on with what follows it. -/
theorem drop_of_cons_eq (hne : lexeme.text ≠ []) (h : c :: cs = lexeme.text ++ rest) :
    cs.drop (lexeme.text.length - 1) = rest := by
  obtain ⟨d, tail, htail⟩ := exists_cons_of_ne_nil hne
  rw [htail, cons_append, cons.injEq] at h
  simp [htail, h.2]

/-- One step of the lexer: a lexeme, and then the lexemes of what follows it. -/
theorem Reads.lexFrom_eq (h : Reads before lexeme rest) (offset : Nat) :
    lexFrom before offset (lexeme.text ++ rest) =
      (lexFrom (lexeme.shape.reverse ++ before) (offset + lexeme.text.length) rest).map
        (lexeme :: ·) := by
  have hne := Lexeme.text_ne_nil_of_reads h
  obtain ⟨c, tail, htail⟩ := exists_cons_of_ne_nil hne
  have htext : c :: (tail ++ rest) = lexeme.text ++ rest := by simp [htail]
  rw [← htext, lexFrom, readLexeme_of_reads h offset htext]
  simp only [bind, Except.bind, drop_of_cons_eq hne htext]
  cases lexFrom (lexeme.shape.reverse ++ before) (offset + lexeme.text.length) rest <;> rfl

/-- The text of the lexemes of a text is the text. -/
theorem Lexes.text_eq {text : List Char} (h : Lexes before text lexemes) :
    lexemes.flatMap Lexeme.text = text := by
  induction h with
  | nil => rfl
  | cons first others ih => simp [ih]

/-! ## The lexer under way -/

/-- The lexer reads `lexemes` and then stands before the text `rest`. -/
inductive Passes : (before : List Char) → List Lexeme → (rest : List Char) → Prop
  | nil {before rest : List Char} : Passes before [] rest
  | cons {before rest : List Char} {lexeme : Lexeme} {lexemes : List Lexeme}
      (first : Reads before lexeme (lexemes.flatMap Lexeme.text ++ rest))
      (others : Passes (lexeme.shape.reverse ++ before) lexemes rest) :
      Passes before (lexeme :: lexemes) rest

theorem passes_cons_iff : Passes before (lexeme :: lexemes) rest ↔
      Reads before lexeme (lexemes.flatMap Lexeme.text ++ rest) ∧
        Passes (lexeme.shape.reverse ++ before) lexemes rest := by
  constructor
  · rintro (_ | ⟨first, others⟩)
    exact ⟨first, others⟩
  · rintro ⟨first, others⟩
    exact .cons first others

theorem passes_append_iff {first : List Lexeme} : Passes before (first ++ lexemes) rest ↔
      Passes before first (lexemes.flatMap Lexeme.text ++ rest) ∧
        Passes ((first.flatMap Lexeme.shape).reverse ++ before) lexemes rest := by
  induction first generalizing before with
  | nil => simp [Passes.nil]
  | cons lexeme first ih =>
    simp [passes_cons_iff, ih, and_assoc]

/-- The lexemes of a whole text are those after which nothing is left. -/
theorem lexes_iff_passes {text : List Char} : Lexes before text lexemes ↔
      lexemes.flatMap Lexeme.text = text ∧ Passes before lexemes [] := by
  constructor
  · intro h
    refine ⟨h.text_eq, ?_⟩
    induction h with
    | nil => exact .nil
    | cons first others ih => exact .cons (by simpa [others.text_eq] using first) ih
  · rintro ⟨rfl, h⟩
    generalize hrest : ([] : List Char) = rest at h
    induction h with
    | nil => exact .nil
    | cons first others ih =>
      subst hrest
      rw [append_nil] at first
      exact .cons first (ih rfl)

/-- Lexing a text goes on where the lexer stands. -/
theorem Passes.lexFrom_eq (h : Passes before lexemes rest) (offset : Nat) :
    lexFrom before offset (lexemes.flatMap Lexeme.text ++ rest) =
      (lexFrom ((lexemes.flatMap Lexeme.shape).reverse ++ before)
        (offset + (lexemes.flatMap Lexeme.text).length) rest).map (lexemes ++ ·) := by
  induction h generalizing offset with
  | @nil before rest =>
    cases hlex : lexFrom before offset rest <;> simp [hlex, Except.map]
  | @cons before rest lexeme lexemes first others ih =>
    rw [flatMap_cons, append_assoc, first.lexFrom_eq, ih]
    simp only [flatMap_cons, reverse_append, append_assoc, length_append,
      Nat.add_assoc]
    cases lexFrom ((lexemes.flatMap Lexeme.shape).reverse ++ (lexeme.shape.reverse ++ before))
      (offset + (lexeme.text.length + (lexemes.flatMap Lexeme.text).length)) rest <;> rfl

/-- Nothing can be read at the beginning of a text that stands after `offset` characters: a comment
or a template literal begins there and is never closed. -/
inductive Stuck (offset : Nat) : (text : List Char) → ParseError → Prop
  | comment {tail : List Char} (hopen : cutAt ['*', '/'] tail = none) :
      Stuck offset ('/' :: '*' :: tail) (.openComment offset)
  | template {tail : List Char} (hopen : templateBody 0 tail = none) :
      Stuck offset ('`' :: tail) (.openTemplate offset)

theorem readLexeme_eq_error_iff :
    readLexeme before offset c cs = .error e ↔ Stuck offset (c :: cs) e := by
  constructor
  · intro h
    unfold readLexeme at h
    split at h
    · rename_i hslash
      subst hslash
      split at h
      · cases h
      · split at h
        · cases h
        · rename_i hcut
          obtain rfl := Except.error.inj h
          exact .comment hcut
      · split at h <;> cases h
    · split at h
      · cases h
      · split at h
        · rename_i hback
          subst hback
          split at h
          · cases h
          · rename_i hnone
            obtain rfl := Except.error.inj h
            exact .template hnone
        · cases h
  · intro h
    cases h with
    | comment hopen => simp [readLexeme, hopen]
    | template hopen => simp [readLexeme, hopen]

theorem Stuck.lexFrom_eq {text : List Char} (h : Stuck offset text e) :
    lexFrom before offset text = .error e := by
  obtain ⟨c, cs, rfl⟩ : ∃ c cs, text = c :: cs := by
    cases h with
    | comment => exact ⟨_, _, rfl⟩
    | template => exact ⟨_, _, rfl⟩
  rw [lexFrom, readLexeme_eq_error_iff.2 h]
  rfl

/-- The lexer comes to the end of a text or to a place at which nothing can be read. -/
theorem exists_passes (before : List Char) (offset : Nat) (text : List Char) : ∃ lexemes rest,
    text = lexemes.flatMap Lexeme.text ++ rest ∧ Passes before lexemes rest ∧
      (rest = [] ∨ ∃ e, Stuck (offset + (lexemes.flatMap Lexeme.text).length) rest e) := by
  induction hlength : text.length using Nat.strong_induction_on
    generalizing before offset text with
  | _ n ih =>
    cases text with
    | nil => exact ⟨[], [], rfl, .nil, .inl rfl⟩
    | cons c cs =>
      cases hread : readLexeme before offset c cs with
      | error e => exact ⟨[], c :: cs, rfl, .nil, .inr ⟨e, readLexeme_eq_error_iff.1 hread⟩⟩
      | ok lexeme =>
        obtain ⟨rest, htext, hreads⟩ := readLexeme_iff.1 hread
        have hpos := length_pos_iff.2 (Lexeme.text_ne_nil_of_reads hreads)
        rw [htext, length_append] at hlength
        obtain ⟨lexemes, last, rfl, hpasses, hend⟩ :=
          ih rest.length (by omega) _ (offset + lexeme.text.length) rest rfl
        refine ⟨lexeme :: lexemes, last, by simp [htext], .cons hreads hpasses, ?_⟩
        simpa [Nat.add_assoc] using hend

/-- Lexing succeeds exactly if the lexer comes to the end of the text. -/
theorem lexFrom_iff {text : List Char} :
    lexFrom before offset text = .ok lexemes ↔ Lexes before text lexemes := by
  rw [lexes_iff_passes]
  constructor
  · intro h
    obtain ⟨first, rest, rfl, hpasses, hend⟩ := exists_passes before offset text
    rw [hpasses.lexFrom_eq] at h
    rcases hend with rfl | ⟨e, hstuck⟩
    · obtain rfl : first = lexemes := by simpa [lexFrom, Except.map] using h
      exact ⟨by simp, hpasses⟩
    · rw [hstuck.lexFrom_eq] at h
      cases h
  · rintro ⟨rfl, hpasses⟩
    simpa [lexFrom, Except.map] using hpasses.lexFrom_eq offset

/-- Lexing fails where the lexer comes to a place at which nothing can be read. -/
theorem lexFrom_eq_error_iff {text : List Char} :
    lexFrom before offset text = .error e ↔ ∃ lexemes rest,
      text = lexemes.flatMap Lexeme.text ++ rest ∧ Passes before lexemes rest ∧
        Stuck (offset + (lexemes.flatMap Lexeme.text).length) rest e := by
  constructor
  · intro h
    obtain ⟨lexemes, rest, rfl, hpasses, hend⟩ := exists_passes before offset text
    rw [hpasses.lexFrom_eq] at h
    rcases hend with rfl | ⟨e', hstuck⟩
    · simp [lexFrom, Except.map] at h
    · rw [hstuck.lexFrom_eq] at h
      obtain rfl := Except.error.inj h
      exact ⟨lexemes, rest, rfl, hpasses, hstuck⟩
  · rintro ⟨lexemes, rest, rfl, hpasses, hstuck⟩
    rw [hpasses.lexFrom_eq, hstuck.lexFrom_eq]
    rfl

theorem shape_eq_lexFrom (hzero : '\x00' ∉ source) :
    shape source = (lexFrom [] 0 source).map fun lexemes => lexemes.flatMap Lexeme.shape := by
  simp [shape, lex, hzero]

/-- The texts that have a shape, and their shapes. -/
theorem shape_eq_ok_iff {masked : List Char} : shape source = .ok masked ↔ '\x00' ∉ source ∧
      ∃ lexemes, Lexes [] source lexemes ∧ lexemes.flatMap Lexeme.shape = masked := by
  by_cases hzero : '\x00' ∈ source
  · simp [shape, lex, hzero, Except.map]
  · simp only [shape_eq_lexFrom hzero, ← @lexFrom_iff 0 _ [], hzero, not_false_iff, true_and]
    cases lexFrom [] 0 source <;> simp [Except.map]

end Deadwood.Module

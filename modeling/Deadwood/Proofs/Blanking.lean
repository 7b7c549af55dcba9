import Deadwood.Proofs.Listing

/-!
# Comments do not look like code

Blanking out a comment leaves the shape of a text as it is (`Lexes.blank`), so every statement is
found at the same place. What the statements take from the source itself are specifiers, whose
literals are lexemes of their own and so never hold a comment (`Quoted.exists_literal`), and the
insides of destructuring patterns, which may hold one.

A slash before the comment is the one lexeme that looks past it: it divides because no pattern
literal begins there, and that search reads the comment character by character. The search fails
without the comment as it does with it, unless a backslash before a block comment hides its first
slash and the comment opens a class (`EscapesClass`).
-/

set_option autoImplicit false

namespace Deadwood.Module

open Text Reference
open List hiding Cursor

/-! ## The search for a pattern literal across a comment -/

theorem patternBody_line (inClass : Bool) (cs : List Char) :
    patternBody inClass ('\n' :: cs) = none := by
  rw [patternBody.eq_def]
  simp

theorem patternBody_escape (inClass : Bool) (d : Char) (cs : List Char) :
    patternBody inClass ('\\' :: d :: cs) =
      (patternBody inClass cs).map fun body => '\\' :: d :: body := by
  rfl

theorem patternBody_slash (cs : List Char) : patternBody false ('/' :: cs) = some [] := by
  rw [patternBody.eq_def]
  simp

variable {inClass : Bool} {comment back inside front text rest blanks body source : List Char}
  {lexeme : Lexeme} {first others lexemes : List Lexeme} {quote : Char} {literal : Literal}

/-- A character that neither closes the literal nor escapes the next one. -/
theorem patternBody_plain {c : Char} (hline : c ≠ '\n') (hescape : c ≠ '\\')
    (hslash : ¬ (c = '/' ∧ inClass = false)) (cs : List Char) :
    patternBody inClass (c :: cs) =
      (patternBody (if c = '[' then true else if c = ']' then false else inClass) cs).map
        (c :: ·) := by
  rw [patternBody.eq_def]
  simp [hline, hescape, hslash]

/-- Nothing is found behind blanks if one of them is a line break, or if nothing is found from the
end of them. -/
theorem patternBody_blanked (h : '\n' ∈ comment ∨ patternBody inClass back = none) :
    patternBody inClass (comment.map blanked ++ back) = none := by
  induction comment with
  | nil => simpa using h
  | cons c comment ih =>
    by_cases hc : c = '\n'
    · subst hc
      exact patternBody_line inClass _
    · have hspace : blanked c = ' ' := if_neg hc
      have hrest : patternBody inClass (comment.map blanked ++ back) = none := by
        apply ih
        simpa [Ne.symm hc] using h
      rw [map_cons, cons_append, hspace,
        patternBody_plain (by decide) (by decide) (by simp)]
      simpa using hrest

/-- If no slash closes a literal that goes on over the end of a block comment, the comment's last
slash stands inside a class: one that was open, or one that opens in the comment. -/
theorem patternBody_over (hline : '\n' ∉ inside)
    (h : patternBody inClass (inside ++ '*' :: '/' :: back) = none) :
    patternBody true back = none ∧ (inClass ∨ '[' ∈ inside) := by
  have hlast : ∀ inClass, patternBody inClass ('/' :: back) = none →
      patternBody true back = none ∧ inClass := by
    intro inClass h
    cases inClass with
    | false => simp [patternBody_slash] at h
    | true =>
      rw [patternBody_plain (by decide) (by decide) (by simp)] at h
      exact ⟨by simpa using h, rfl⟩
  induction inClass, inside using patternBody.induct with
  | case1 inClass =>
    rw [nil_append, patternBody_plain (by decide) (by decide) (by simp)] at h
    obtain ⟨hback, hclass⟩ := hlast inClass (by simpa using h)
    exact ⟨hback, .inl hclass⟩
  | case2 inClass inside => simp at hline
  | case3 inClass =>
    -- the escape takes the star of the end of the comment, not its slash
    rw [singleton_append, patternBody_escape, Option.map_eq_none_iff] at h
    obtain ⟨hback, hclass⟩ := hlast inClass h
    exact ⟨hback, .inl hclass⟩
  | case4 inClass d inside _ ih =>
    rw [cons_append, cons_append, patternBody_escape, Option.map_eq_none_iff] at h
    obtain ⟨hback, hclass⟩ := ih (fun hmem => hline (by simp [hmem])) h
    exact ⟨hback, hclass.imp id fun hmem => by simp [hmem]⟩
  | case5 inClass c inside _ _ hslash =>
    obtain ⟨rfl, rfl⟩ : c = '/' ∧ inClass = false := by simpa using hslash
    rw [cons_append, patternBody_slash] at h
    cases h
  | case6 inClass c inside hc hescape hslash within ih =>
    rw [cons_append, patternBody_plain hc hescape (by simpa using hslash),
      Option.map_eq_none_iff] at h
    obtain ⟨hback, hclass⟩ := ih (fun hmem => hline (by simp [hmem])) h
    refine ⟨hback, ?_⟩
    rcases hclass with hclass | hmem
    · by_cases hopen : c = '['
      · exact .inr (by simp [hopen])
      · left
        by_cases hclose : c = ']'
        · simp [within, hclose] at hclass
        · simpa [within, hopen, hclose] using hclass
    · exact .inr (by simp [hmem])

/-- A block comment that opens a class, right behind a backslash. -/
def EscapesClass (front comment : List Char) : Prop :=
  front.getLast? = some '\\' ∧ ['/', '*'] <+: comment ∧ '[' ∈ comment

instance (front comment : List Char) : Decidable (EscapesClass front comment) :=
  inferInstanceAs (Decidable (_ ∧ _ ∧ _))

/-- What a comment is: a line comment before a line break or the end of the text, or a block
comment. -/
inductive IsComment : (comment back : List Char) → Prop
  | line {body back : List Char} (hback : ∀ c ∈ back.head?, c = '\n') :
      IsComment ('/' :: '/' :: body) back
  | block {body back : List Char} : IsComment ('/' :: '*' :: (body ++ ['*', '/'])) back

theorem Reads.isComment {before : List Char} (h : Reads before (.comment comment) back) :
    IsComment comment back := by
  cases h with
  | lineComment hbody hrest => exact .line hrest
  | blockComment hbody => exact .block

theorem IsComment.exists_cons (h : IsComment comment back) : ∃ tail, comment = '/' :: tail := by
  cases h with
  | line hback => exact ⟨_, rfl⟩
  | block => exact ⟨_, rfl⟩

/-- Blanks before a line break or the end of the text hold no end of a pattern literal. -/
theorem patternBody_blanked_line (hback : ∀ c ∈ back.head?, c = '\n') :
    patternBody inClass (comment.map blanked ++ back) = none := by
  apply patternBody_blanked
  right
  cases back with
  | nil => rfl
  | cons c back =>
    obtain rfl := hback c rfl
    exact patternBody_line inClass back

/-- The search from the first character of a comment, which is a slash. -/
theorem IsComment.patternBody_blank (hcomment : IsComment comment back)
    (h : patternBody inClass (comment ++ back) = none) :
    patternBody inClass (comment.map blanked ++ back) = none := by
  cases hcomment with
  | line hback => exact patternBody_blanked_line hback
  | @block body =>
    by_cases hline : '\n' ∈ '/' :: '*' :: (body ++ ['*', '/'])
    · exact patternBody_blanked (.inl hline)
    · cases inClass with
      | false =>
        cases h
      | true =>
        have hinside : '\n' ∉ '/' :: '*' :: body := by
          intro hmem
          exact hline (by simpa using hmem)
        have hover : patternBody true ('/' :: '*' :: body ++ '*' :: '/' :: back) = none := by
          simpa using h
        exact patternBody_blanked (.inr (patternBody_over hinside hover).1)

/-- The search from the second character of a comment, after a backslash has taken the first. -/
theorem IsComment.patternBody_escaped {inClass : Bool} {c : Char} {tail back : List Char}
    (hcomment : IsComment (c :: tail) back) (hclass : ['/', '*'] <+: c :: tail → '[' ∉ c :: tail)
    (h : patternBody inClass (tail ++ back) = none) :
    patternBody inClass (tail.map blanked ++ back) = none := by
  cases hcomment with
  | line hback => exact patternBody_blanked_line hback
  | @block body =>
    have hnone : '[' ∉ '/' :: '*' :: (body ++ ['*', '/']) := hclass ⟨body ++ ['*', '/'], rfl⟩
    by_cases hline : '\n' ∈ '*' :: (body ++ ['*', '/'])
    · exact patternBody_blanked (.inl hline)
    · obtain ⟨hback, hopen⟩ : patternBody true back = none ∧
          (inClass ∨ '[' ∈ '*' :: body) := by
        apply patternBody_over
        · intro hmem
          exact hline (by simpa using hmem)
        · simpa using h
      rcases hopen with rfl | hmem
      · exact patternBody_blanked (.inr hback)
      · refine absurd ?_ hnone
        simp only [mem_cons, mem_append] at hmem ⊢
        tauto

/-- A search that finds no pattern literal finds none either when a comment on its way is blanked
out. The induction follows the search over what stands before the comment. -/
theorem patternBody_blank (hcomment : IsComment comment back)
    (hescape : ¬ EscapesClass front comment)
    (h : patternBody inClass (front ++ (comment ++ back)) = none) :
    patternBody inClass (front ++ (comment.map blanked ++ back)) = none := by
  induction inClass, front using patternBody.induct with
  | case1 inClass => exact hcomment.patternBody_blank h
  | case2 inClass front => exact patternBody_line inClass _
  | case3 inClass =>
    obtain ⟨tail, rfl⟩ := hcomment.exists_cons
    rw [singleton_append, cons_append, patternBody_escape, Option.map_eq_none_iff] at h
    rw [singleton_append, map_cons, cons_append, patternBody_escape,
      Option.map_eq_none_iff]
    exact hcomment.patternBody_escaped (fun hblock hmem => hescape ⟨rfl, hblock, hmem⟩) h
  | case4 inClass d front _ ih =>
    rw [cons_append, cons_append, patternBody_escape, Option.map_eq_none_iff] at h ⊢
    refine ih (fun hesc => hescape ⟨?_, hesc.2⟩) h
    rw [getLast?_cons, getLast?_cons, hesc.1]
    rfl
  | case5 inClass c front _ _ hslash =>
    obtain ⟨rfl, rfl⟩ : c = '/' ∧ inClass = false := by simpa using hslash
    rw [cons_append, patternBody_slash] at h
    cases h
  | case6 inClass c front hc hesc hslash within ih =>
    rw [cons_append, patternBody_plain hc hesc (by simpa using hslash),
      Option.map_eq_none_iff] at h ⊢
    refine ih (fun hesc => hescape ⟨?_, hesc.2⟩) h
    rw [getLast?_cons, hesc.1]
    rfl

-- behind a backslash the comment keeps the pattern literal open, and the blanks do not
example : EscapesClass " \\".toList "/* [ */".toList ∧
    patternBody false " \\/* [ */ y / 2".toList = none ∧
    patternBody false " \\        y / 2".toList = some " \\        y ".toList := by
  decide +kernel

/-! ## Lexing with a comment blanked out -/

/-- What is read before a comment is read before the blanks in its place. -/
theorem Reads.blank {before : List Char} (h : Reads before lexeme (front ++ (comment ++ back)))
    (hcomment : IsComment comment back) (hescape : ¬ EscapesClass front comment) :
    Reads before lexeme (front ++ (comment.map blanked ++ back)) := by
  obtain ⟨tail, rfl⟩ := hcomment.exists_cons
  refine h.retail (fun hhead => ?_) fun _ hrest hnone => .slash ?_ fun hadmits =>
    patternBody_blank hcomment hescape (hnone hadmits)
  · -- a lexeme that ends at a line break is not followed by the comment at once
    cases front with
    | nil => exact absurd (hhead '/' rfl) (by decide)
    | cons c more => rfl
  · cases front with
    | nil => simp [blanked]
    | cons c front => simpa using hrest

theorem not_isMark_blanked (c : Char) : isMark (blanked c) = false := by
  unfold blanked
  split <;> decide

section

variable {before : List Char} (h : Lexes before text (first ++ .comment comment :: others))
include h

theorem Lexes.isComment : IsComment comment (others.flatMap Lexeme.text) := by
  induction first generalizing before text with
  | nil =>
    cases h with
    | cons hread hothers =>
      rw [hothers.text_eq]
      exact hread.isComment
  | cons lexeme first ih =>
    cases h with
    | cons hread hothers => exact ih hothers

/-- The lexemes of a text with a comment blanked out: the blanks are code. -/
theorem Lexes.blank (hescape : ¬ EscapesClass (first.flatMap Lexeme.text) comment) : Lexes before
      (first.flatMap Lexeme.text ++ (comment.map blanked ++ others.flatMap Lexeme.text))
      (first ++ ((comment.map blanked).map .code ++ others)) := by
  induction first generalizing before text with
  | nil =>
    rw [flatMap_nil, nil_append, nil_append]
    cases h with
    | @cons _ rest _ _ hread hothers =>
      refine Lexes.append_plain ?_ ?_
      · intro c hc
        obtain ⟨d, -, rfl⟩ := mem_map.1 hc
        exact not_isMark_blanked d
      · rw [hothers.text_eq]
        exact hothers
  | cons lexeme first ih =>
    rw [cons_append] at h
    cases h with
    | @cons _ rest _ _ hread hothers =>
      have hrest : rest = first.flatMap Lexeme.text ++ (comment ++ others.flatMap Lexeme.text) := by
        rw [← hothers.text_eq, flatMap_append, flatMap_cons]
        rfl
      -- the comment is read after the lexemes of `first`
      have hcomment : IsComment comment (others.flatMap Lexeme.text) := hothers.isComment
      have hescape' : ¬ EscapesClass (first.flatMap Lexeme.text) comment := by
        rintro ⟨hlast, hblock, hopen⟩
        refine hescape ⟨?_, hblock, hopen⟩
        rw [flatMap_cons, getLast?_append, hlast]
        rfl
      rw [flatMap_cons, append_assoc]
      refine Lexes.cons ?_ (ih hothers hescape')
      rw [hrest] at hread
      exact hread.blank hcomment hescape'

end

/-! ## Literals that statements name -/

/-- The literal is one that a statement reads behind the cursor: on one line, after a name and
blanks. -/
def NamesLiteral (here : Cursor) (literal : Literal) : Prop :=
  ∃ front c blanks body rest,
    here.rest = front ++ c :: (blanks ++ literal.quote :: (body ++ literal.quote :: rest)) ∧
    isIdent c = true ∧ (∀ d ∈ blanks, isBlank d = true) ∧
    (literal.quote = '\'' ∨ literal.quote = '"') ∧
    (∀ d ∈ body, d ≠ '\'' ∧ d ≠ '"' ∧ d ≠ '\n') ∧
    literal.start = here.offset + (front ++ c :: blanks).length + 1 ∧
    literal.stop = literal.start + body.length

section Naming

open List hiding Cursor

variable {here mid next : Cursor} {literal : Literal}

theorem NamesLiteral.of_reaches (hreach : here.Reaches mid) (h : NamesLiteral mid literal) :
    NamesLiteral here literal := by
  obtain ⟨piece, hspans⟩ := hreach
  obtain ⟨front, c, blanks, body, rest, hrest, hc, hblanks, hquote, hbody, hstart, hstop⟩ := h
  refine ⟨piece ++ front, c, blanks, body, rest, ?_, hc, hblanks, hquote, hbody, ?_, hstop⟩
  · rw [hspans.rest_eq, hrest, append_assoc]
  · rw [hstart, hspans.offset_eq, append_assoc piece]
    simp only [length_append]
    omega

/-- A literal that is read after words and blanks. -/
theorem DrawsFrom.namesLiteral (h : DrawsFrom literal here next) : NamesLiteral here literal := by
  obtain ⟨words, mid, hwords, -, ⟨c, hlast, hc⟩, hliteral⟩ := h
  obtain ⟨front, rfl⟩ := getLast?_eq_some_iff.1 hlast
  have hruns := Cursor.skip_runs isBlank mid
  obtain ⟨body, hspans, hquote, hstart, hstop, hbody⟩ := literalOf?_spec hliteral
  refine ⟨front, c, mid.run isBlank, body, next.rest, ?_, hc, hruns.all, by simpa using hquote, ?_,
    ?_, by omega⟩
  · simp only [hwords.rest_eq, hruns.rest_eq, hspans.rest_eq, append_assoc, cons_append,
      nil_append]
  · intro d hd
    simpa [not_or, and_assoc] using hbody d hd
  · rw [hstart, hruns.offset_eq, hwords.offset_eq]
    simp only [length_append, length_cons, length_nil]
    omega

theorem namesLiteral_of_importForm? {form : ImportForm}
    (h : importForm? here = some (form, next)) : NamesLiteral here form.literal := by
  obtain ⟨-, -, mid, hreach, hfrom⟩ := exists_from_of_importForm? h
  exact .of_reaches hreach (drawsFrom_of_fromLiteral? hfrom).namesLiteral

theorem namesLiteral_of_effectImport? {found : Nat × Literal}
    (h : effectImport? here = some (found, next)) : NamesLiteral here found.2 := by
  simp only [effectImport?, bind, Option.bind_eq_some_iff, Prod.exists, pure, Option.some.injEq,
    Prod.mk.injEq] at h
  obtain ⟨mid, hword, literal, last, hliteral, rfl, rfl⟩ := h
  have hdraws : DrawsFrom literal here last := ⟨_, mid, Cursor.expect?_iff.1 hword,
    all_eq_true.1 rfl, ⟨'t', rfl, by decide⟩, hliteral⟩
  exact hdraws.namesLiteral

theorem namesLiteral_of_reexportForm? {form : ReexportForm}
    (h : reexportForm? here = some (form, next)) : NamesLiteral here form.literal := by
  obtain ⟨qualifier, last, hword, hpassage, -⟩ := reexportForm?_cases h
  apply NamesLiteral.of_reaches ((reaches_of_spacedWord? hword).trans reaches_typeWord)
  rcases passage?_cases hpassage with ⟨star, hstar, -, hdraws⟩ | ⟨inside, mid, -, hlist, hfrom⟩
  · exact .of_reaches (Cursor.reaches_of_expect? hstar) hdraws.namesLiteral
  · exact .of_reaches ⟨_, (braceList?_iff.1 hlist).1⟩ (drawsFrom_of_fromLiteral? hfrom).namesLiteral

/-- A literal that a statement of a text names is named from the beginning of the text. -/
theorem namesLiteral_of_mem_scan {α : Type} {recognise : Cursor → Option (α × Cursor)}
    {masked : List Char} {a : α} {literal : α → Literal}
    (hnames : ∀ {here a next}, recognise here = some (a, next) → NamesLiteral here (literal a))
    (h : a ∈ scan standsFree recognise masked) : NamesLiteral ⟨0, masked⟩ (literal a) := by
  obtain ⟨front, rest, next, rfl, -, hread⟩ := mem_scan h
  exact NamesLiteral.of_reaches ⟨front, rfl, (Nat.zero_add _).symm⟩ (hnames hread)

end Naming

/-! ## The lexeme of a literal -/

theorem length_flatMap_shape (lexemes : List Lexeme) :
    (lexemes.flatMap Lexeme.shape).length = (lexemes.flatMap Lexeme.text).length := by
  induction lexemes with
  | nil => rfl
  | cons lexeme lexemes ih => simp [ih]

/-- A lexeme that shows a quote after blanks is a quoted literal, and the quote opens it. -/
theorem Reads.eq_literal {before tail : List Char} (h : Reads before lexeme rest)
    (hblanks : ∀ c ∈ blanks, isBlank c) (hquote : quote = '\'' ∨ quote = '"')
    (hshape : lexeme.shape = blanks ++ quote :: tail) :
    blanks = [] ∧ ∃ body close, lexeme = .literal quote body close := by
  have hdark : isBlank quote = false := by rcases hquote with rfl | rfl <;> decide
  have hcomment : ∀ text : List Char, text.map blanked ≠ blanks ++ quote :: tail := by
    intro text heq
    obtain ⟨d, -, hd⟩ := mem_map.1 (heq ▸ mem_append_right blanks mem_cons_self)
    rw [← hd, isBlank_blanked] at hdark
    cases hdark
  -- a first character that is no blank is the quote
  have hfirst : ∀ {c : Char} {cs : List Char}, isBlank c = false →
      c :: cs = blanks ++ quote :: tail → blanks = [] ∧ c = quote := by
    intro c cs hc heq
    cases blanks with
    | nil => exact ⟨rfl, (cons.inj heq).1⟩
    | cons d blanks =>
      obtain rfl := (cons.inj heq).1
      rw [hblanks c mem_cons_self] at hc
      cases hc
  cases h with
  | lineComment | blockComment => exact absurd hshape (hcomment _)
  | pattern | slash | template =>
    obtain ⟨-, heq⟩ := hfirst (by decide) hshape
    rcases hquote with rfl | rfl <;> cases heq
  | quoted hother | unclosed hother =>
    obtain ⟨hnil, rfl⟩ := hfirst (by rcases hother with rfl | rfl <;> decide) hshape
    exact ⟨hnil, _, _, rfl⟩
  | @plain c _ hslash hsingle hdouble hback =>
    have hmem : quote ∈ [c] := by
      rw [show [c] = blanks ++ quote :: tail from hshape]
      simp
    obtain rfl := mem_singleton.1 hmem
    rcases hquote with rfl | rfl
    · exact absurd rfl hsingle
    · exact absurd rfl hdouble

/-- A quoted literal is read where the lexemes show a quote after blanks, and then `right`. -/
def OpensLiteral (lexemes : List Lexeme) (blanks : List Char) (quote : Char) (right : List Char) :
    Prop :=
  ∃ first body close others ahead, lexemes = first ++ .literal quote body close :: others ∧
    first.flatMap Lexeme.shape = blanks ∧
    Reads ahead (.literal quote body close) (others.flatMap Lexeme.text) ∧
    (∃ behind, Lexes behind (others.flatMap Lexeme.text) others) ∧
    right = body.map blanked ++ (close.toList ++ others.flatMap Lexeme.shape)

theorem Lexes.opensLiteral {before right : List Char} (h : Lexes before text lexemes)
    (hblanks : ∀ c ∈ blanks, isBlank c) (hquote : quote = '\'' ∨ quote = '"')
    (hshape : lexemes.flatMap Lexeme.shape = blanks ++ quote :: right) :
    OpensLiteral lexemes blanks quote right := by
  induction h generalizing blanks with
  | nil => simp at hshape
  | @cons before rest lexeme lexemes hread hothers ih =>
    -- the blanks are those of the first lexeme and some of what follows it
    have hlater : ∀ tail, blanks = lexeme.shape ++ tail →
        lexemes.flatMap Lexeme.shape = tail ++ quote :: right →
        OpensLiteral (lexeme :: lexemes) blanks quote right := by
      rintro tail rfl hrest
      obtain ⟨first, body, close, others, ahead, rfl, rfl, hopens⟩ :=
        ih (fun c hc => hblanks c (mem_append_right _ hc)) hrest
      exact ⟨lexeme :: first, body, close, others, ahead, rfl, rfl, hopens⟩
    rw [flatMap_cons, append_eq_append_iff] at hshape
    rcases hshape with ⟨tail, htail, hrest⟩ | ⟨tail, hlexeme, hrest⟩
    · exact hlater tail htail hrest
    · cases tail with
      | nil => exact hlater [] (by simpa using hlexeme.symm) (by simpa using hrest.symm)
      | cons d tail =>
        obtain ⟨rfl, hright⟩ := cons.inj hrest
        obtain ⟨rfl, body, close, rfl⟩ := hread.eq_literal hblanks hquote hlexeme
        obtain rfl : body.map blanked ++ close.toList = tail := (cons.inj hlexeme).2
        rw [← hothers.text_eq] at hread hothers
        refine ⟨[], body, close, lexemes, before, rfl, rfl, hread, ⟨_, hothers⟩, ?_⟩
        rw [hright, ← append_assoc]
        rfl

theorem quote_not_mem_blanked (hquote : quote = '\'' ∨ quote = '"') (body : List Char) :
    quote ∉ body.map blanked := by
  intro hmem
  obtain ⟨d, -, hd⟩ := mem_map.1 hmem
  have hblank := isBlank_blanked d
  rw [hd] at hblank
  rcases hquote with rfl | rfl <;> exact absurd hblank (by decide)

/-- The shape of a text that begins with a line break begins with one. -/
theorem Lexes.head?_shape {before : List Char} (h : Lexes before text lexemes)
    (hline : ∀ c ∈ text.head?, c = '\n') :
    ∀ c ∈ (lexemes.flatMap Lexeme.shape).head?, c = '\n' := by
  cases h with
  | nil => simp
  | @cons _ rest lexeme lexemes hread hothers =>
    obtain ⟨c, d, more, shown, htext, hshape, hkept⟩ := hread.exists_first
    obtain rfl := hline c (by simp [htext])
    obtain rfl := hkept.resolve_right (by decide)
    simp [hshape]

/-- Two ways to cut a text are the same if each cuts at the first quote or line break. -/
theorem eq_of_append_quote {more : List Char} (hbody : quote ∉ body)
    (hinside : ∀ c ∈ inside, c ≠ quote ∧ c ≠ '\n') (hmore : ∀ c ∈ more.head?, c = quote ∨ c = '\n')
    (h : inside ++ quote :: rest = body ++ more) : inside = body ∧ more = quote :: rest := by
  rcases append_eq_append_iff.1 h with ⟨tail, rfl, htail⟩ | ⟨tail, rfl, htail⟩
  · cases tail with
    | nil => exact ⟨by simp, by simpa using htail.symm⟩
    | cons d tail =>
      obtain rfl := (cons.inj htail).1
      exact absurd (by simp) hbody
  · cases tail with
    | nil => exact ⟨by simp, by simpa using htail⟩
    | cons d tail =>
      obtain ⟨hquote, hline⟩ := hinside d (by simp)
      rcases hmore d (by simp [htail]) with rfl | rfl
      · exact absurd rfl hquote
      · exact absurd rfl hline

/-- A quoted literal that the shape closes before the end of the line is closed there. -/
theorem Reads.closes_literal {before after masked : List Char} {close : Option Char}
    (h : Reads before (.literal quote body close) after) (hquote : quote = '\'' ∨ quote = '"')
    (hinside : ∀ c ∈ inside, c ≠ quote ∧ c ≠ '\n')
    (hmasked : (∀ c ∈ after.head?, c = '\n') → ∀ c ∈ masked.head?, c = '\n')
    (hshape : inside ++ quote :: rest = body.map blanked ++ (close.toList ++ masked)) :
    close = some quote ∧ inside.length = body.length := by
  have hbody := quote_not_mem_blanked hquote body
  cases h with
  | pattern | template => rcases hquote with heq | heq <;> cases heq
  | quoted =>
    obtain ⟨rfl, -⟩ := eq_of_append_quote hbody hinside (by simp) hshape
    exact ⟨rfl, length_map _⟩
  | unclosed _ _ hline =>
    -- the line would end where the quote stands
    have hnext := hmasked hline
    obtain ⟨-, hmore⟩ := eq_of_append_quote hbody hinside (fun c hc => .inr (hnext c hc)) hshape
    have heq : quote = '\n' := hnext quote (by simpa using congrArg List.head? hmore)
    rcases hquote with rfl | rfl <;> cases heq

/-- A literal that a statement names is a lexeme of the text. -/
theorem NamesLiteral.exists_lexeme (h : NamesLiteral ⟨0, lexemes.flatMap Lexeme.shape⟩ literal)
    (hlexes : Lexes [] text lexemes) : ∃ first body others,
      lexemes = first ++ .literal literal.quote body (some literal.quote) :: others ∧
      literal.start = (first.flatMap Lexeme.text).length + 1 ∧
      literal.stop = literal.start + body.length := by
  obtain ⟨front, c, blanks, inside, rest, hshape, hc, hblanks, hquote, hinside, hstart, hstop⟩ := h
  have hblank : isBlank c = false := by
    cases hcase : isBlank c with
    | false => rfl
    | true => exact absurd hc (by rw [isIdent_of_isBlank hcase]; decide)
  have hmark : isMark c = false := by
    cases hcase : isMark c with
    | false => rfl
    | true => exact absurd hc (by rw [not_isIdent_of_isMark hcase]; decide)
  obtain ⟨named, later, rfl, rfl, hlater, hafter⟩ := hlexes.split hblank hmark hshape
  obtain ⟨first, body, close, others, ahead, rfl, rfl, hread, ⟨behind, hothers⟩, hright⟩ :=
    hafter.opensLiteral hblanks hquote hlater
  obtain ⟨rfl, hlength⟩ : close = some literal.quote ∧ inside.length = body.length := by
    refine hread.closes_literal hquote (fun d hd => ⟨?_, (hinside d hd).2.2⟩) hothers.head?_shape
      hright
    rcases hquote with heq | heq
    · exact heq ▸ (hinside d hd).1
    · exact heq ▸ (hinside d hd).2.1
  refine ⟨named ++ .code c :: first, body, others, by simp, ?_, by rw [hstop, hlength]⟩
  rw [hstart, ← length_flatMap_shape, flatMap_append, flatMap_cons]
  simp [Lexeme.shape]

/-! ## What is read off the source -/

/-- The span lies before or behind the comment that follows `front`. -/
def Apart (front comment : List Char) (span : Nat × Nat) : Prop :=
  span.2 ≤ front.length ∨ front.length + comment.length ≤ span.1

instance (front comment : List Char) (span : Nat × Nat) : Decidable (Apart front comment span) :=
  inferInstanceAs (Decidable (_ ∨ _))

/-- A literal that a statement names lies apart from every comment. -/
theorem NamesLiteral.apart
    (h : NamesLiteral ⟨0, (first ++ .comment comment :: others).flatMap Lexeme.shape⟩ literal)
    (hlexes : Lexes [] text (first ++ .comment comment :: others)) :
    Apart (first.flatMap Lexeme.text) comment (literal.start, literal.stop) := by
  obtain ⟨first', body, others', hsplit, hstart, hstop⟩ := h.exists_lexeme hlexes
  rcases append_eq_append_iff.1 hsplit with ⟨tail, rfl, htail⟩ | ⟨tail, rfl, htail⟩
  · cases tail with
    | nil => cases htail
    | cons lexeme tail =>
      obtain rfl := (cons.inj htail).1
      right
      rw [hstart, flatMap_append, flatMap_cons]
      simp only [length_append, Lexeme.text]
      omega
  · cases tail with
    | nil => cases htail
    | cons lexeme tail =>
      obtain rfl := (cons.inj htail).1
      left
      rw [hstop, hstart, flatMap_append, flatMap_cons]
      simp only [length_append, Lexeme.text, length_cons]
      omega

/-- Two texts that differ in a comment only agree apart from it. -/
theorem Apart.slice_eq {comment' : List Char} {span : Nat × Nat} (h : Apart front comment span)
    (hlength : comment'.length = comment.length) :
    ((front ++ (comment' ++ back)).take span.2).drop span.1 =
      ((front ++ (comment ++ back)).take span.2).drop span.1 := by
  rcases h with hstop | hstart
  · rw [take_append_of_le_length hstop, take_append_of_le_length hstop]
  · obtain ⟨k, hk⟩ := Nat.exists_eq_add_of_le hstart
    have hcut : ∀ middle : List Char, middle.length = comment.length →
        ((front ++ (middle ++ back)).drop span.1) = back.drop k := by
      intro middle hmiddle
      rw [hk, ← hmiddle, ← append_assoc, ← length_append, drop_length_add_append]
    rw [drop_take, drop_take, hcut _ hlength, hcut _ rfl]

/-- Where the inside of a pattern ends that is opened at `start`. -/
def patternStop (masked : List Char) (opener close : Char) (start : Nat) : Nat :=
  match matching? opener close 0 (masked.drop start) with
  | some inside => start + inside
  | none => masked.length - 1

/-- The span of the inside of the pattern that a declarator begins with. -/
def patternSpan? (masked : List Char) (offset : Nat) (part : List Char) : Option (Nat × Nat) :=
  let start := offset + part.length - (trimStart part).length
  match trimStart part with
  | '{' :: _ => some (start + 1, patternStop masked '{' '}' start)
  | '[' :: _ => some (start + 1, patternStop masked '[' ']' start)
  | _ => none

/-- The spans of the insides of the patterns in the variable statement that a head introduces. -/
def Head.patternSpans (masked : List Char) (head : Head) : List (Nat × Nat) :=
  match head.kind with
  | none => []
  | some (kind, kindStop) =>
    if head.isDefault || !kind.isVariable then []
    else
      let statement := (masked.take (declarationEnd masked kindStop kind)).drop kindStop
      (declarators 0 kindStop statement).filterMap fun (offset, part) =>
        patternSpan? masked offset part

/-- The spans of the insides of all patterns that exported variable statements bind. -/
def patternSpans (masked : List Char) : List (Nat × Nat) :=
  (scan standsFree head? masked).flatMap (Head.patternSpans masked)

section Agreement

open List hiding Cursor

variable {source source' masked : List Char}

/-- The names of a declarator depend on the source only inside its pattern. -/
theorem declaratorNames_congr {offset : Nat} {part : List Char}
    (h : ∀ span ∈ patternSpan? masked offset part,
      (source'.take span.2).drop span.1 = (source.take span.2).drop span.1) :
    declaratorNames source' masked offset part = declaratorNames source masked offset part := by
  simp only [declaratorNames_eq]
  unfold patternSpan? at h
  split
  · rename_i tail htail
    simp only [htail] at h ⊢
    exact congrArg patternNames (h _ rfl)
  · rename_i tail htail
    simp only [htail] at h ⊢
    exact congrArg patternNames (h _ rfl)
  · rfl

theorem Head.declarations_congr {head : Head} (h : ∀ span ∈ head.patternSpans masked,
      (source'.take span.2).drop span.1 = (source.take span.2).drop span.1) :
    head.declarations source' masked = head.declarations source masked := by
  unfold Head.declarations
  unfold Head.patternSpans at h
  by_cases hdefault : head.isDefault
  · simp [hdefault]
  · cases hkind : head.kind with
    | none => rfl
    | some found =>
      obtain ⟨kind, kindStop⟩ := found
      by_cases hvariable : kind.isVariable
      · simp only [hdefault, hkind, hvariable, Bool.not_true, Bool.or_false, Bool.false_eq_true,
          if_false, if_true, mem_filterMap] at h ⊢
        refine congrArg (map _) (flatMap_congr fun declarator hmem => ?_)
        exact declaratorNames_congr fun span hspan => h span ⟨declarator, hmem, hspan⟩
      · simp [hdefault, hvariable]

/-- The declarations depend on the source only inside patterns. -/
theorem declarationsOf_congr (h : ∀ span ∈ patternSpans masked,
      (source'.take span.2).drop span.1 = (source.take span.2).drop span.1) :
    declarationsOf source' masked = declarationsOf source masked := by
  refine flatMap_congr fun head hmem => Head.declarations_congr fun span hspan => ?_
  exact h span (mem_flatMap.2 ⟨head, hmem, hspan⟩)

section

variable
  (h : ∀ literal, NamesLiteral ⟨0, masked⟩ literal →
    literal.specifier source' = literal.specifier source)
include h

/-- The imports depend on the source only inside the literals that they name. -/
theorem importsOf_congr_source : importsOf source' masked = importsOf source masked := by
  have hbound : boundImports source' masked = boundImports source masked := by
    refine map_congr_left fun form hform => ?_
    rw [h _ (namesLiteral_of_mem_scan namesLiteral_of_importForm? hform)]
  have heffect : effectImports source' masked = effectImports source masked := by
    refine map_congr_left fun (start, literal) hfound => ?_
    have hspecifier := h _ (namesLiteral_of_mem_scan namesLiteral_of_effectImport? hfound)
    simp only [hspecifier]
  rw [importsOf_eq, importsOf_eq, hbound, heffect]

theorem reexportsOf_congr_source : reexportsOf source' masked = reexportsOf source masked := by
  refine map_congr_left fun form hform => ?_
  rw [h _ (namesLiteral_of_mem_scan namesLiteral_of_reexportForm? hform)]

end

end Agreement

/-! ## Reading with a comment blanked out -/

/-- The text of some lexemes with the comment among them blanked out. -/
def blankedText (first : List Lexeme) (comment : List Char) (others : List Lexeme) : List Char :=
  first.flatMap Lexeme.text ++ (comment.map blanked ++ others.flatMap Lexeme.text)

theorem lex_eq_ok_iff : lex source = .ok lexemes ↔ '\x00' ∉ source ∧ Lexes [] source lexemes := by
  unfold lex
  by_cases hzero : '\x00' ∈ source
  · simp [hzero]
  · simp [hzero, lexFrom_iff]

/-- A text has the same shape with a comment blanked out. -/
theorem shape_blankedText (hlex : lex source = .ok (first ++ .comment comment :: others))
    (hescape : ¬ EscapesClass (first.flatMap Lexeme.text) comment) :
    shape (blankedText first comment others) =
      .ok ((first ++ .comment comment :: others).flatMap Lexeme.shape) := by
  obtain ⟨hzero, hlexes⟩ := lex_eq_ok_iff.1 hlex
  rw [← hlexes.text_eq, flatMap_append, flatMap_cons] at hzero
  simp only [mem_append, not_or] at hzero
  refine shape_eq_ok_iff.2 ⟨?_, _, hlexes.blank hescape, ?_⟩
  · simp only [blankedText, mem_append, not_or]
    refine ⟨hzero.1, fun hmem => ?_, hzero.2.2⟩
    obtain ⟨c, -, hc⟩ := mem_map.1 hmem
    exact absurd (isBlank_blanked c) (by rw [hc]; decide)
  · simp [flatMap_map, Lexeme.shape, ← map_eq_flatMap]

/-- Comments do not look like code: with a comment blanked out, the imports, the re-exports and the
lists of local exports of a module are the same, offsets included, and so are its declarations if
the comment lies in no destructuring pattern. -/
theorem parse_blankedText {source comment : List Char} {first others : List Lexeme}
    (hlex : lex source = .ok (first ++ .comment comment :: others))
    (hescape : ¬ EscapesClass (first.flatMap Lexeme.text) comment) :
    ∃ masked m m', shape source = .ok masked ∧
      shape (blankedText first comment others) = .ok masked ∧
      parse source = .ok m ∧ parse (blankedText first comment others) = .ok m' ∧
      m'.imports = m.imports ∧ m'.reexports = m.reexports ∧ m'.localExports = m.localExports ∧
      ((∀ span ∈ patternSpans masked, Apart (first.flatMap Lexeme.text) comment span) →
        m'.declarations = m.declarations) := by
  obtain ⟨hzero, hlexes⟩ := lex_eq_ok_iff.1 hlex
  have hshape := shape_eq_ok_iff.2 ⟨hzero, _, hlexes, rfl⟩
  have hblanked := shape_blankedText hlex hescape
  have hsource : source = first.flatMap Lexeme.text ++ (comment ++ others.flatMap Lexeme.text) := by
    rw [← hlexes.text_eq, flatMap_append, flatMap_cons]
    rfl
  have hslice : ∀ span, Apart (first.flatMap Lexeme.text) comment span →
      ((blankedText first comment others).take span.2).drop span.1 =
        (source.take span.2).drop span.1 := by
    intro span hspan
    rw [hsource]
    exact hspan.slice_eq (length_map _)
  have hspecifier : ∀ literal,
      NamesLiteral ⟨0, (first ++ .comment comment :: others).flatMap Lexeme.shape⟩ literal →
      literal.specifier (blankedText first comment others) = literal.specifier source := by
    intro literal hnames
    unfold Literal.specifier
    rw [hslice _ (hnames.apart hlexes)]
  refine ⟨_, _, _, hshape, hblanked, parse_eq_ok_iff.2 ⟨_, hshape, rfl⟩,
    parse_eq_ok_iff.2 ⟨_, hblanked, rfl⟩, importsOf_congr_source hspecifier,
    reexportsOf_congr_source hspecifier, rfl, ?_⟩
  intro hpatterns
  exact declarationsOf_congr fun span hspan => hslice span (hpatterns span hspan)

section Clause

open List hiding Cursor

/-! An import with a comment in its clause, which holds the end of another import, before a
statement that binds a pattern. -/

def clauseFirst : List Lexeme := "import \x7b a ".toList.map .code

def clauseComment : List Char := "/* \x7d from './b' */".toList

def clauseOthers : List Lexeme :=
  " \x7d from ".toList.map .code ++ .literal '\'' "./a".toList (some '\'') ::
    ";\nexport const \x7b x \x7d = a;\n".toList.map .code

theorem parse_blankedText_clause : ∃ m m',
      parse ("import \x7b a /* \x7d from './b' */ \x7d from './a';\n".toList ++
        "export const \x7b x \x7d = a;\n".toList) = .ok m ∧
      parse ("import \x7b a                    \x7d from './a';\n".toList ++
        "export const \x7b x \x7d = a;\n".toList) = .ok m' ∧
      m'.imports = m.imports ∧ m'.reexports = m.reexports ∧ m'.localExports = m.localExports ∧
      m'.declarations = m.declarations := by
  have hlex : lex ("import \x7b a /* \x7d from './b' */ \x7d from './a';\n".toList ++
      "export const \x7b x \x7d = a;\n".toList) =
        .ok (clauseFirst ++ .comment clauseComment :: clauseOthers) := by decide +kernel
  have hblanked : blankedText clauseFirst clauseComment clauseOthers =
      "import \x7b a                    \x7d from './a';\n".toList ++
        "export const \x7b x \x7d = a;\n".toList := by decide +kernel
  obtain ⟨masked, m, m', hshape, -, hparse, hparse', himports, hreexports, hlocal, hdeclarations⟩ :=
    parse_blankedText hlex (by decide +kernel)
  refine ⟨m, m', hparse, hblanked ▸ hparse', himports, hreexports, hlocal, hdeclarations ?_⟩
  have hmasked : (shape ("import \x7b a /* \x7d from './b' */ \x7d from './a';\n".toList ++
      "export const \x7b x \x7d = a;\n".toList)).map patternSpans = .ok [(58, 61)] := by
    decide +kernel
  rw [hshape] at hmasked
  rw [Except.ok.inj hmasked]
  decide +kernel

end Clause

/-- A comment in a destructuring pattern is read as part of it: the name that it holds is taken for
one that the statement binds. -/
theorem pattern_shows_comment :
    let first : List Lexeme := "export const \x7b a, ".toList.map .code
    let others : List Lexeme := " c \x7d = obj;\n".toList.map .code
    lex "export const \x7b a, /* b, */ c \x7d = obj;\n".toList =
        .ok (first ++ .comment "/* b, */".toList :: others) ∧
      (parse "export const \x7b a, /* b, */ c \x7d = obj;\n".toList).map
        (fun m => m.declarations.map Declaration.name) = .ok ["a", "b", "c"] ∧
      (parse (blankedText first "/* b, */".toList others)).map
        (fun m => m.declarations.map Declaration.name) = .ok ["a", "c"] := by
  decide +kernel

end Deadwood.Module

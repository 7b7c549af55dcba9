import Deadwood.Proofs.Seams

/-!
# Where lexing fails, and where it starts again

A text has no shape if it holds a NUL character or if the lexer comes to a comment or a template
literal that is never closed. In all other cases the shape lies over the text: it has the same
length, each place holds the character of the text or a space, and line breaks stay where they are
(`shape_lies_over`).

Behind a line break that no backslash takes with it, the lexer reads as if the text began there,
unless what follows begins with a slash, which could be a division or the beginning of a pattern. So
a text is lexed part by part, and an unclosed comment or template literal is reported at its place
in the whole text (`shape_resumes`).
-/

set_option autoImplicit false

namespace Deadwood.Module

open Text List

/-! ## Failures -/

theorem not_infix_of_cutAt {mark cs : List Char} (h : cutAt mark cs = none) : ¬ mark <:+: cs := by
  induction cs with
  | nil =>
    rw [cutAt] at h
    rw [infix_nil]
    rintro rfl
    simp at h
  | cons c cs ih =>
    rw [cutAt] at h
    split at h
    · cases h
    · rename_i hno
      rw [infix_cons_iff, not_or]
      exact ⟨fun hpre => hno (List.isPrefixOf_iff_prefix.2 hpre), ih (by simpa using h)⟩

variable {offset : Nat} {text : List Char} {e : ParseError}

theorem Stuck.offset?_eq (h : Stuck offset text e) : e.offset? = some offset := by
  cases h <;> rfl

/-- What is never closed is never closed anywhere else, and is reported in the same words. -/
theorem Stuck.move (h : Stuck offset text e) (offset' : Nat) :
    ∃ e', Stuck offset' text e' ∧ e'.message = e.message := by
  cases h with
  | comment hopen => exact ⟨_, .comment hopen, rfl⟩
  | template hopen => exact ⟨_, .template hopen, rfl⟩

/-- A text without a shape holds a NUL character, or the lexer gets stuck in it. -/
theorem shape_eq_error_iff {source : List Char} : shape source = .error e ↔
    ('\x00' ∈ source ∧ e = .binary) ∨ '\x00' ∉ source ∧ lexFrom [] 0 source = .error e := by
  by_cases hzero : '\x00' ∈ source
  · simp [shape, lex, hzero, Except.map, eq_comm]
  · rw [shape_eq_lexFrom hzero]
    cases lexFrom [] 0 source <;> simp [Except.map, hzero]

/-! ## The shape over its source -/

theorem blanked_eq_line (c : Char) : (blanked c == '\n') = (c == '\n') := by
  by_cases h : c = '\n' <;> simp [blanked, h]

/-- Line breaks stay where they are. -/
theorem map_flatMap_shape (lexemes : List Lexeme) : (lexemes.flatMap Lexeme.shape).map (· == '\n') =
      (lexemes.flatMap Lexeme.text).map (· == '\n') := by
  have hblank : ∀ body : List Char,
      (body.map blanked).map (· == '\n') = body.map (· == '\n') := by
    intro body
    simp only [map_map]
    exact map_congr_left fun c _ => blanked_eq_line c
  induction lexemes with
  | nil => rfl
  | cons lexeme lexemes ih =>
    rw [flatMap_cons, flatMap_cons, map_append, map_append, ih]
    cases lexeme with
    | code c => rfl
    | comment text => rw [Lexeme.shape, Lexeme.text, hblank]
    | literal mark body close =>
      simp only [Lexeme.shape, Lexeme.text, map_cons, map_append, hblank]

/-- Every text has a shape that lies over it, or it holds a NUL character, or a comment or a
template literal begins at the place that the error names and is not closed. -/
theorem shape_lies_over (source : List Char) :
    (∃ masked, shape source = .ok masked ∧ '\x00' ∉ source ∧ masked.length = source.length ∧
        (∀ i : Nat, masked[i]? = source[i]? ∨ masked[i]? = some ' ') ∧
        ∀ i : Nat, masked[i]? = some '\n' ↔ source[i]? = some '\n') ∨
      ∃ e, shape source = .error e ∧ (e.offset? = none ↔ '\x00' ∈ source) ∧ ∀ offset ∈ e.offset?,
          (∃ tail, source.drop offset = '/' :: '*' :: tail ∧ ¬ ['*', '/'] <:+: tail) ∨
            source[offset]? = some '`' := by
  cases hshape : shape source with
  | ok masked =>
    have hmasks := masks_of_shape hshape
    have hlength := hmasks.length_eq
    obtain ⟨hzero, lexemes, hlexes, rfl⟩ := shape_eq_ok_iff.1 hshape
    refine .inl ⟨_, rfl, hzero, hlength.symm, ?_, ?_⟩
    · intro i
      by_cases hi : i < source.length
      · have hi' : i < (lexemes.flatMap Lexeme.shape).length := hlength ▸ hi
        have hmem := getElem_mem (l := source.zip (lexemes.flatMap Lexeme.shape)) (n := i)
          (by rw [length_zip]; omega)
        rw [getElem?_eq_getElem hi, getElem?_eq_getElem hi']
        simpa using hmasks.same_or_space _ hmem
      · left
        rw [getElem?_eq_none (by omega), getElem?_eq_none (by omega)]
    · intro i
      have hlines := congrArg (·[i]?) (map_flatMap_shape lexemes)
      simp only [getElem?_map, hlexes.text_eq] at hlines
      cases hm : (lexemes.flatMap Lexeme.shape)[i]? <;> cases hs : source[i]? <;>
        simp_all
  | error e =>
    refine .inr ⟨e, rfl, ?_⟩
    rcases shape_eq_error_iff.1 hshape with ⟨hzero, rfl⟩ | ⟨hzero, hlex⟩
    · exact ⟨by simp [ParseError.offset?, hzero], by simp [ParseError.offset?]⟩
    · obtain ⟨lexemes, rest, rfl, -, hstuck⟩ := lexFrom_eq_error_iff.1 hlex
      -- the error names the place behind all that was read
      rw [Nat.zero_add] at hstuck
      refine ⟨by simp [hstuck.offset?_eq, hzero], ?_⟩
      intro offset hoffset
      obtain rfl : (lexemes.flatMap Lexeme.text).length = offset := by
        simpa [hstuck.offset?_eq] using hoffset
      cases hstuck with
      | comment hopen => exact .inl ⟨_, drop_left, not_infix_of_cutAt hopen⟩
      | template hopen => exact .inr (by simp)

/-! ## Behind a line -/

/-- If what the lexer passes over shows a slash before anything else, the text begins with a
slash. -/
theorem Passes.head?_text {before rest : List Char} {lexemes : List Lexeme}
    (h : Passes before lexemes rest)
    (hslash : ((lexemes.flatMap Lexeme.shape).dropWhile isGap).head? = some '/') :
    ((lexemes.flatMap Lexeme.text ++ rest).dropWhile isGap).head? = some '/' := by
  induction h with
  | nil => cases hslash
  | cons first others ih =>
    -- a gap is a character of code, so only that case goes on to what follows
    cases first with
    | lineComment | blockComment | pattern | slash => simp [Lexeme.text, isGap]
    | quoted hquote | unclosed hquote =>
      rcases hquote with rfl | rfl <;> simp [Lexeme.shape, isGap] at hslash
    | template => simp [Lexeme.shape, isGap] at hslash
    | @plain c =>
      cases hgap : isGap c with
      | true =>
        simp only [flatMap_cons, Lexeme.shape, Lexeme.text, cons_append, nil_append,
          dropWhile_cons_of_pos hgap] at hslash ⊢
        exact ih hslash
      | false => simpa [Lexeme.shape, Lexeme.text, hgap] using hslash

/-- Lexing starts again behind a line: the shape of the whole is that of its two parts, and what is
never closed in the second part is never closed in the whole. -/
theorem shape_resumes {front masked : List Char} (hfront : shape front = .ok masked)
    (hline : EndsLine front) (back : List Char) :
    (∀ masked', shape back = .ok masked' → (masked'.dropWhile isGap).head? ≠ some '/' →
        shape (front ++ back) = .ok (masked ++ masked')) ∧
      ∀ e k, shape back = .error e → e.offset? = some k → (back.dropWhile isGap).head? ≠ some '/' →
        ∃ e', shape (front ++ back) = .error e' ∧ e'.offset? = some (front.length + k) ∧
          e'.message = e.message := by
  constructor
  · intro masked' hback hslash
    exact shape_append_of_slash hfront hline hback hslash
  intro e k hback hk hslash
  have hname := hline.head?_reverse hfront
  obtain ⟨hzero, first, hfirst, rfl⟩ := shape_eq_ok_iff.1 hfront
  rcases shape_eq_error_iff.1 hback with ⟨-, rfl⟩ | ⟨hzero', hlex⟩
  · cases hk
  obtain ⟨lexemes, rest, rfl, hpasses, hstuck⟩ := lexFrom_eq_error_iff.1 hlex
  obtain rfl : 0 + (lexemes.flatMap Lexeme.text).length = k :=
    Option.some.inj (hstuck.offset?_eq.symm.trans hk)
  obtain ⟨e', hstuck', hmessage⟩ :=
    hstuck.move (0 + front.length + (lexemes.flatMap Lexeme.text).length)
  -- what stands before the second part does not matter to what is read in it
  have hafter : Passes ((first.flatMap Lexeme.shape).reverse ++ []) lexemes rest := by
    rw [append_nil, ← nil_append (first.flatMap Lexeme.shape).reverse]
    exact Passes.of_fresh [] hpasses rfl hname (.inr fun h => hslash (hpasses.head?_text h))
  have hwhole := (hfirst.passes hline (lexemes.flatMap Lexeme.text ++ rest)).lexFrom_eq 0
  rw [hfirst.text_eq, lexFrom_eq_error_iff.2 ⟨lexemes, rest, rfl, hafter, hstuck'⟩] at hwhole
  refine ⟨e', shape_eq_error_iff.2 (.inr ⟨?_, hwhole⟩), ?_, hmessage⟩
  · rw [mem_append, not_or]
    exact ⟨hzero, hzero'⟩
  · rw [hstuck'.offset?_eq, Nat.zero_add, Nat.zero_add]

/-- An apostrophe opens a literal that ends with its line, and the second line is lexed as it is
without the first. If the template literal there is not closed, it is found at its place. -/
theorem shape_resumes_apostrophe : shape "<p>Don't</p>\n".toList = .ok "<p>Don'     \n".toList ∧
      EndsLine "<p>Don't</p>\n".toList ∧
      shape ("<p>Don't</p>\n".toList ++ " `a`;".toList) = .ok "<p>Don'     \n ` `;".toList ∧
      ∃ e, shape ("<p>Don't</p>\n".toList ++ " `a".toList) = .error e ∧ e.offset? = some 14 := by
  have hfront : shape "<p>Don't</p>\n".toList = .ok "<p>Don'     \n".toList := by decide +kernel
  have hline : EndsLine "<p>Don't</p>\n".toList := by decide
  obtain ⟨e, herror, hoffset, -⟩ := (shape_resumes hfront hline " `a".toList).2 (.openTemplate 1) 1
    (by decide +kernel) rfl (by decide)
  exact ⟨hfront, hline,
    (shape_resumes hfront hline " `a`;".toList).1 " ` `;".toList (by decide +kernel) (by decide),
    e, herror, hoffset⟩

end Deadwood.Module

import Deadwood.Proofs.Rendering

/-!
# Statements that are read as they were written

Each recogniser is run on the line of each statement, with any text after it: it reads what the
statement was written from, or nothing if the statement is of another form. A specifier is found at
its place in the source (`Origin.specifier_literal`), and the shortest clause before `from` and a
literal is the whole clause (`shortestClause?_shown`), whatever names stand in it.
-/

set_option autoImplicit false

namespace Deadwood.Module

open Text Reference
open List hiding Cursor Cursor.mk

/-! ## Literals -/

theorem expect?_append (word : String) (n : Nat) (rest : List Char) :
    Cursor.expect? word ⟨n, word.toList ++ rest⟩ = some ⟨n + word.toList.length, rest⟩ :=
  Cursor.expect?_iff.2 ⟨rfl, rfl⟩

variable {p : Char → Bool} {rest cs : List Char} {here : Cursor} {c : Char}

theorem skip_append {piece : List Char} (h : ∀ c ∈ piece, p c)
    (hrest : rest.head?.any p = false) (n : Nat) : Cursor.run p ⟨n, piece ++ rest⟩ = piece ∧
      Cursor.skip p ⟨n, piece ++ rest⟩ = ⟨n + piece.length, rest⟩ :=
  have hruns : Cursor.Runs p ⟨n, piece ++ rest⟩ piece ⟨n + piece.length, rest⟩ :=
    ⟨⟨rfl, rfl⟩, h, hrest⟩
  hruns.eq

theorem skip_eq_self (hrest : rest.head?.any p = false) (n : Nat) :
    Cursor.skip p ⟨n, rest⟩ = ⟨n, rest⟩ :=
  have hruns : Cursor.Runs p ⟨n, rest⟩ [] ⟨n, rest⟩ := ⟨.refl _, by simp, hrest⟩
  hruns.eq.2

/-- A single space is a run of blanks. -/
theorem runs_space (h : rest.head?.any isBlank = false) (n : Nat) :
    Cursor.Runs isBlank ⟨n, ' ' :: rest⟩ [' '] ⟨n + 1, rest⟩ :=
  ⟨⟨rfl, rfl⟩, by simp; decide, h⟩

/-- The literal of a statement that begins after `n` characters. -/
def Origin.literal (origin : Origin) (n : Nat) : Literal :=
  ⟨origin.quote, n + 1, n + 1 + origin.specifier.toList.length⟩

namespace Origin

variable (origin : Origin)

@[simp] theorem quote_literal (n : Nat) : (origin.literal n).quote = origin.quote := rfl

theorem isClauseChar_quote : isClauseChar origin.quote = false := by
  rcases origin.isQuote with h | h <;> rw [h] <;> decide

theorem isBlank_quote : isBlank origin.quote = false := by
  rcases origin.isQuote with h | h <;> rw [h] <;> decide

theorem head_shown (rest : List Char) : (origin.shown ++ rest).head?.any isBlank = false :=
  origin.isBlank_quote

theorem length_shown : origin.shown.length = origin.specifier.toList.length + 2 := by
  simp [shown]

/-- The specifier is found at its place in the source. -/
theorem specifier_literal (front back : List Char) :
    (origin.literal front.length).specifier (front ++ (origin.chars ++ back)) =
      origin.specifier := by
  have hplace : origin.literal front.length = (origin.literal 0).shift front.length := by
    simp only [literal, Literal.shift, Literal.mk.injEq, true_and]
    omega
  have hbody : ((origin.chars ++ back).take (0 + 1 + origin.specifier.toList.length)).drop (0 + 1) =
      origin.specifier.toList := by
    rw [chars, cons_append, Nat.zero_add, Nat.add_comm 1, take_succ_cons,
      drop_succ_cons, drop_zero, append_assoc, take_left]
  rw [hplace, specifier_shift, Literal.specifier, literal, hbody, origin.trimmed,
    String.ofList_toList]

theorem literal?_shown (n : Nat) (rest : List Char) : literal? ⟨n, origin.shown ++ rest⟩ =
      some (origin.literal n, ⟨n + origin.shown.length, rest⟩) := by
  have hquote : ['\'', '"'].contains origin.quote := by
    rcases origin.isQuote with h | h <;> rw [h] <;> decide
  have hbody : ∀ c ∈ origin.specifier.toList.map blanked,
      (!(['\'', '"'].contains c) && !(['\n'].contains c)) = true := by
    intro c hc
    obtain ⟨d, hd, rfl⟩ := mem_map.1 hc
    rw [blanked, if_neg (origin.ne_of_mem hd).2.2.2.1]
    decide
  have hclose : Cursor.skip (fun c => !(['\'', '"'].contains c) && !(['\n'].contains c))
      ⟨n + 1, origin.specifier.toList.map blanked ++ origin.quote :: rest⟩ =
        ⟨n + 1 + (origin.specifier.toList.map blanked).length, origin.quote :: rest⟩ :=
    (skip_append hbody (by rw [head?_cons, Option.any_some, hquote]; rfl) (n + 1)).2
  have hbegin : (Cursor.mk n (origin.shown ++ rest)).advance 1 =
      ⟨n + 1, origin.specifier.toList.map blanked ++ origin.quote :: rest⟩ := by
    simp [Cursor.advance, shown]
  have hhead : (origin.shown ++ rest).head? = some origin.quote := rfl
  simp only [literal?, literalOf?, bind, hhead, Option.bind_some, hquote, hbegin, hclose]
  simp [Cursor.nextIs, guard, literal, length_shown, Cursor.advance]
  omega

/-- The word `from`, after any blanks, and the literal are read. -/
theorem fromLiteral?_shown {blanks : List Char} (hblanks : ∀ c ∈ blanks, isBlank c) (n : Nat)
    (rest : List Char) : fromLiteral? ⟨n, blanks ++ ("from ".toList ++ (origin.shown ++ rest))⟩ =
      some (origin.literal (n + blanks.length + 5),
        ⟨n + blanks.length + 5 + origin.shown.length, rest⟩) := by
  have hword : Cursor.expect? "from" ⟨n + blanks.length, "from ".toList ++ (origin.shown ++ rest)⟩ =
      some ⟨n + blanks.length + 4, ' ' :: (origin.shown ++ rest)⟩ :=
    expect?_append "from" (n + blanks.length) (' ' :: (origin.shown ++ rest))
  have hskip := (runs_space (origin.head_shown rest) (n + blanks.length + 4)).eq.2
  have hblank : Cursor.skip isBlank ⟨n, blanks ++ ("from ".toList ++ (origin.shown ++ rest))⟩ =
      ⟨n + blanks.length, "from ".toList ++ (origin.shown ++ rest)⟩ :=
    (skip_append hblanks rfl n).2
  simp only [fromLiteral?, bind, hblank, hword, Option.bind_some, hskip, literal?_shown]

end Origin

/-- What is read as the word `from` and a literal: they stand after blanks and with blanks between
them. -/
theorem exists_of_fromLiteral? {next : Cursor} {literal : Literal}
    (h : fromLiteral? here = some (literal, next)) : ∃ blanks blanks' tail, here.rest =
        (blanks ++ ("from".toList ++ blanks')) ++ literal.quote :: tail ∧
      (∀ c ∈ blanks, isBlank c) ∧ (∀ c ∈ blanks', isBlank c) ∧
      isClauseChar literal.quote = false := by
  simp only [fromLiteral?, bind, Option.bind_eq_some_iff, Cursor.expect?_iff] at h
  obtain ⟨mid, hword, hliteral⟩ := h
  obtain ⟨body, hspans, hquote, -⟩ := literalOf?_spec hliteral
  have hruns := Cursor.skip_runs isBlank here
  have hruns' := Cursor.skip_runs isBlank mid
  refine ⟨here.run isBlank, mid.run isBlank, body ++ literal.quote :: next.rest, ?_, hruns.all,
    hruns'.all, ?_⟩
  · rw [hruns.rest_eq, hword.rest_eq, hruns'.rest_eq, hspans.rest_eq]
    simp
  · simp only [mem_cons, not_mem_nil, or_false] at hquote
    rcases hquote with h | h <;> rw [h] <;> decide

/-- No literal begins with another character than a quote. -/
theorem literal?_eq_none (hc : c ≠ '\'' ∧ c ≠ '"') (n : Nat) (tail : List Char) :
    literal? ⟨n, c :: tail⟩ = none := by
  rw [Option.eq_none_iff_forall_ne_some]
  rintro ⟨literal, next⟩ hread
  obtain ⟨body, hspans, hquote, -⟩ := literalOf?_spec hread
  obtain ⟨rfl, -⟩ := cons.inj hspans.rest_eq
  simp only [mem_cons, not_mem_nil, or_false] at hquote
  exact hquote.elim hc.1 hc.2

/-- A text is cut in one way at the first character that no clause holds. -/
theorem IsClause.eq_of_append_cons {cs' tail tail' : List Char} {c' : Char} (h : IsClause cs)
    (h' : IsClause cs') (hc : isClauseChar c = false) (hc' : isClauseChar c' = false)
    (heq : cs ++ c :: tail = cs' ++ c' :: tail') : cs = cs' := by
  have hcut := congrArg (takeWhile isClauseChar) heq
  simpa [takeWhile_append_of_pos h, takeWhile_append_of_pos h', hc, hc'] using hcut

/-- Inside a clause, the word `from` is not followed by the literal. -/
theorem fromLiteral?_eq_none (hcs : IsClause cs) (h : ∃ c ∈ cs, isBlank c = false) (origin : Origin)
    (n : Nat) (rest : List Char) :
    fromLiteral? ⟨n, cs ++ (" from ".toList ++ (origin.shown ++ rest))⟩ = none := by
  rw [Option.eq_none_iff_forall_ne_some]
  rintro ⟨literal, next⟩ hread
  obtain ⟨blanks, blanks', tail, hrest, hblanks, hblanks', hquote⟩ := exists_of_fromLiteral? hread
  have hfrom : IsClause (blanks ++ ("from".toList ++ blanks')) :=
    isClause_append (fun c hc => isClauseChar_of_isBlank (hblanks c hc))
      (isClause_append (all_eq_true.1 (by decide))
        fun c hc => isClauseChar_of_isBlank (hblanks' c hc))
  have heq : cs ++ " from ".toList = blanks ++ ("from".toList ++ blanks') := by
    have hsplit : (cs ++ " from ".toList) ++ origin.quote ::
        (origin.specifier.toList.map blanked ++ [origin.quote] ++ rest) =
        (blanks ++ ("from".toList ++ blanks')) ++ literal.quote :: tail := by
      rw [← hrest, append_assoc]
      rfl
    exact IsClause.eq_of_append_cons (isClause_append hcs isClause_from) hfrom
      origin.isClauseChar_quote hquote hsplit
  -- the word takes up all that is not blank, so nothing of the clause is left
  have hnil : ∀ {cs : List Char}, (∀ c ∈ cs, isBlank c) → cs.filter (!isBlank ·) = [] :=
    fun hcs => filter_eq_nil_iff.2 fun c hc => by simp [hcs c hc]
  have hfilter := congrArg (filter (!isBlank ·)) heq
  rw [filter_append, filter_append, filter_append, hnil hblanks, hnil hblanks',
    nil_append, append_nil] at hfilter
  have hword : " from ".toList.filter (!isBlank ·) = "from".toList.filter (!isBlank ·) := by decide
  rw [hword, append_left_eq_self] at hfilter
  obtain ⟨c, hmem, hc⟩ := h
  exact absurd (filter_eq_nil_iff.1 hfilter c hmem) (by simp [hc])

/-! ## Imports -/

namespace Name

variable (name : Name)

theorem exists_last : ∃ front c, name.chars = front ++ [c] ∧ isBlank c = false := by
  rcases eq_nil_or_concat name.chars with h | ⟨front, c, h⟩
  · exact absurd h name.ne_nil
  · rw [concat_eq_append] at h
    exact ⟨front, c, h, (word_of_isName name.isName_chars).2 c (by simp [h])⟩

theorem exists_cons : ∃ c tail, name.chars = c :: tail ∧ isIdent c := by
  obtain ⟨c, tail, h⟩ := exists_cons_of_ne_nil name.ne_nil
  exact ⟨c, tail, h, (isName_iff.1 name.isName_chars).2 c (by rw [chars, h]; simp)⟩

end Name

theorem Selection.exists_last : ∀ selection : Selection,
    ∃ front c, selection.chars = front ++ [c] ∧ isBlank c = false
  | .whole name => by
    obtain ⟨front, c, h, hc⟩ := name.exists_last
    exact ⟨"* as ".toList ++ front, c, by rw [chars_whole, h, append_assoc], hc⟩
  | .listed first others => ⟨'{' :: Module.listed (first :: others), '}', rfl, by decide⟩

/-- What is selected begins with a star or a brace. -/
theorem Selection.exists_cons : ∀ selection : Selection,
    ∃ c tail, selection.chars = c :: tail ∧ (c = '*' ∨ c = '{')
  | .whole name => ⟨'*', " as ".toList ++ name.chars, rfl, .inl rfl⟩
  | .listed first others => ⟨'{', Module.listed (first :: others) ++ ['}'], rfl, .inr rfl⟩

namespace Binding

variable (binding : Binding)

/-- A clause does not end in a blank. -/
theorem exists_last : ∃ front c, binding.chars = front ++ [c] ∧ isBlank c = false := by
  cases binding with
  | default name => exact name.exists_last
  | selected selection => exact selection.exists_last
  | both name selection =>
    obtain ⟨front, c, h, hc⟩ := selection.exists_last
    exact ⟨name.chars ++ (", ".toList ++ front), c, by simp [chars_both, h], hc⟩

/-- A clause begins with a name, a star or a brace. -/
theorem exists_cons : ∃ c tail, binding.chars = c :: tail ∧ (isIdent c ∨ c = '*' ∨ c = '{') := by
  cases binding with
  | default name =>
    obtain ⟨c, tail, h, hc⟩ := name.exists_cons
    exact ⟨c, tail, h, .inl hc⟩
  | selected selection =>
    obtain ⟨c, tail, h, hc⟩ := selection.exists_cons
    exact ⟨c, tail, h, .inr hc⟩
  | both name selection =>
    obtain ⟨c, tail, h, hc⟩ := name.exists_cons
    exact ⟨c, tail ++ (", ".toList ++ selection.chars), by simp [chars_both, h], .inl hc⟩

variable {tail : List Char}

theorem head_spec {c : Char} (h : binding.chars = c :: tail) :
    isBlank c = false ∧ c ≠ '\'' ∧ c ≠ '"' := by
  obtain ⟨d, tail', h', hd⟩ := binding.exists_cons
  obtain ⟨rfl, -⟩ := cons.inj (h.symm.trans h')
  rcases hd with hd | rfl | rfl
  · refine ⟨isBlank_of_isIdent hd, ?_, ?_⟩ <;> rintro rfl <;> exact absurd hd (by decide)
  · decide
  · decide

/-- The word `type` is not read off the beginning of a clause. -/
theorem goes_on {rest : List Char} (h : binding.chars ++ ' ' :: tail = "type".toList ++ rest) :
    rest.head?.any isIdent := by
  have hselection : ∀ {selection : Selection} {more : List Char},
      selection.chars ++ more ≠ "type".toList ++ rest := by
    intro selection more heq
    obtain ⟨c, tail', h', hc⟩ := selection.exists_cons
    rw [h'] at heq
    have hhead := congrArg List.head? heq
    obtain rfl : c = 't' := by simpa using hhead
    exact absurd hc (by decide)
  cases binding with
  | default name => exact name.goes_on rfl h
  | selected selection => exact absurd h hselection
  | both name selection =>
    rw [chars_both, append_assoc] at h
    exact name.goes_on rfl h

end Binding

/-- The shortest clause before the word `from` and a literal is all that stands before them. -/
theorem shortestClause?_shown {clause : List Char} (hclause : IsClause clause)
    (hlast : ∃ front c, clause = front ++ [c] ∧ isBlank c = false) (origin : Origin) (n : Nat)
    (rest : List Char) : shortestClause? n (clause ++ (" from ".toList ++ (origin.shown ++ rest))) =
      some (clause, origin.literal (n + clause.length + 6),
        ⟨n + clause.length + 6 + origin.shown.length, rest⟩) := by
  obtain ⟨front, c, rfl, hc⟩ := hlast
  induction front generalizing n with
  | nil =>
    have hblank : ∀ c ∈ [' '], isBlank c := by simp; decide
    have hfrom : fromLiteral? ⟨n + 1, " from ".toList ++ (origin.shown ++ rest)⟩ = _ :=
      origin.fromLiteral?_shown hblank (n + 1) rest
    rw [nil_append, singleton_append, shortestClause?,
      if_pos (hclause c (by simp)), hfrom]
    rfl
  | cons d front ih =>
    have hfront : IsClause (front ++ [c]) := fun e he => hclause e (mem_cons_of_mem d he)
    have hfrom : fromLiteral? ⟨n + 1, front ++ [c] ++ (" from ".toList ++ (origin.shown ++ rest))⟩ =
        none := fromLiteral?_eq_none hfront ⟨c, by simp, hc⟩ origin (n + 1) rest
    rw [cons_append, cons_append, shortestClause?, if_pos (hclause d (by simp)), hfrom,
      ih (n + 1) hfront]
    simp only [Option.map_some, length_cons, Nat.add_assoc, Nat.add_comm 1]

/-- After a single space, a clause begins at once. -/
theorem clauseAfterBlanks?_space (h : rest.head?.any isBlank = false) (n : Nat) :
    clauseAfterBlanks? ⟨n, ' ' :: rest⟩ = shortestClause? (n + 1) rest := by
  rw [clauseAfterBlanks?, (runs_space h n).eq.1]
  simp [Cursor.advance]

theorem Binding.head_chars (binding : Binding) (rest : List Char) :
    (binding.chars ++ rest).head?.any isBlank = false := by
  obtain ⟨c, tail, h, -⟩ := binding.exists_cons
  rw [h, cons_append, head?_cons, Option.any_some, (binding.head_spec h).1]

/-- No clause follows where no blank does. -/
theorem clauseAfterBlanks?_eq_none (h : here.rest.head?.any isBlank = false) :
    clauseAfterBlanks? here = none := by
  have hruns : here.Runs isBlank [] here := ⟨.refl here, by simp, h⟩
  rw [clauseAfterBlanks?, hruns.eq.1]
  rfl

section Import

variable (typeOnly : Bool) (binding : Binding) (origin : Origin) (n : Nat) (rest : List Char)

theorem shown_bind : (Statement.bind typeOnly binding origin).shown ++ rest =
    "import".toList ++ ' ' :: (typeMark typeOnly ++
      (binding.chars ++ (" from ".toList ++ (origin.shown ++ ';' :: '\n' :: rest)))) := by
  simp [Statement.shown, Statement.words, Statement.keyword, Statement.origin?]

theorem shown_effect : (Statement.effect origin).shown ++ rest =
    "import".toList ++ ' ' :: (origin.shown ++ ';' :: '\n' :: rest) := by
  simp [Statement.shown, Statement.words, Statement.keyword, Statement.origin?]

theorem length_words_bind : (Statement.bind typeOnly binding origin).words.length =
    7 + (typeMark typeOnly).length + binding.chars.length + 6 := by
  simp [Statement.words, Statement.keyword]
  omega

theorem importForm?_bind : importForm? ⟨n, (Statement.bind typeOnly binding origin).shown ++ rest⟩ =
      some (⟨n, typeOnly, binding.chars,
          origin.literal (n + (Statement.bind typeOnly binding origin).words.length)⟩,
        ⟨n + (Statement.bind typeOnly binding origin).words.length + origin.shown.length,
          ';' :: '\n' :: rest⟩) := by
  rw [shown_bind, length_words_bind]
  generalize hafter : " from ".toList ++ (origin.shown ++ ';' :: '\n' :: rest) = after
  have hclause : ∀ k, clauseAfterBlanks? ⟨k, ' ' :: (binding.chars ++ after)⟩ =
      some (binding.chars, origin.literal (k + 1 + binding.chars.length + 6),
        ⟨k + 1 + binding.chars.length + 6 + origin.shown.length, ';' :: '\n' :: rest⟩) := by
    intro k
    rw [clauseAfterBlanks?_space (binding.head_chars after), ← hafter]
    exact shortestClause?_shown binding.isClause binding.exists_last origin (k + 1) _
  simp only [importForm?, bind, expect?_append, Option.bind_some,
    show "import".toList.length = 6 from rfl]
  cases typeOnly with
  | true =>
    have hskip :
        Cursor.skipSome? isBlank ⟨n + 6, ' ' :: (typeMark true ++ (binding.chars ++ after))⟩ =
        some ⟨n + 7, "type".toList ++ ' ' :: (binding.chars ++ after)⟩ :=
      Cursor.skipSome?_iff.2 ⟨[' '], by simp, runs_space rfl (n + 6)⟩
    have hplace : n + 7 + 4 + 1 + binding.chars.length + 6 =
        n + (7 + (typeMark true).length + binding.chars.length + 6) := by
      simp only [typeMark, if_true, String.length_toList, show "type ".length = 5 from rfl]
      omega
    simp only [hskip, Option.bind_some, expect?_append, hclause,
      show "type".toList.length = 4 from rfl, hplace]
    rfl
  | false =>
    have hskip : Cursor.skipSome? isBlank ⟨n + 6, ' ' :: (binding.chars ++ after)⟩ =
        some ⟨n + 7, binding.chars ++ after⟩ :=
      Cursor.skipSome?_iff.2 ⟨[' '], by simp, runs_space (binding.head_chars after) (n + 6)⟩
    have htyped : (Cursor.expect? "type" ⟨n + 7, binding.chars ++ after⟩).bind clauseAfterBlanks? =
        none := by
      rw [Option.bind_eq_none_iff]
      intro next hnext
      refine clauseAfterBlanks?_eq_none ?_
      have hgoes := binding.goes_on (hafter ▸ (Cursor.expect?_iff.1 hnext).rest_eq)
      cases hcs : next.rest with
      | nil => rfl
      | cons c cs => simpa using isBlank_of_isIdent (by simpa [hcs] using hgoes)
    have hplace : n + 6 + 1 + binding.chars.length + 6 =
        n + (7 + binding.chars.length + 6) := by omega
    simp only [typeMark, Bool.false_eq_true, if_false, nil_append, hskip, Option.bind_some,
      htyped, hclause, hplace]
    rfl

/-- An import for its effects has no clause. -/
theorem importForm?_effect : importForm? ⟨n, (Statement.effect origin).shown ++ rest⟩ = none := by
  have hskip : Cursor.skipSome? isBlank ⟨n + 6, ' ' :: (origin.shown ++ ';' :: '\n' :: rest)⟩ =
      some ⟨n + 7, origin.shown ++ ';' :: '\n' :: rest⟩ :=
    Cursor.skipSome?_iff.2 ⟨[' '], by simp, runs_space (origin.head_shown _) (n + 6)⟩
  have htype : Cursor.expect? "type" ⟨n + 7, origin.shown ++ ';' :: '\n' :: rest⟩ = none := by
    rw [Cursor.expect?_eq_none_iff]
    rintro ⟨tail, htail⟩
    have hquote : 't' = origin.quote := (cons.inj htail).1
    exact absurd (hquote ▸ origin.isQuote) (by decide)
  have hclause : shortestClause? (n + 6 + 1) (origin.shown ++ ';' :: '\n' :: rest) = none := by
    rw [Origin.shown, cons_append, shortestClause?, origin.isClauseChar_quote,
      if_neg Bool.false_ne_true]
  rw [shown_effect]
  simp only [importForm?, bind, expect?_append, Option.bind_some,
    show "import".toList.length = 6 from rfl, hskip, htype, Option.bind_none,
    clauseAfterBlanks?_space (origin.head_shown _), hclause]

theorem effectImport?_effect : effectImport? ⟨n, (Statement.effect origin).shown ++ rest⟩ =
      some ((n, origin.literal (n + (Statement.effect origin).words.length)),
        ⟨n + (Statement.effect origin).words.length + origin.shown.length,
          ';' :: '\n' :: rest⟩) := by
  have hskip := (runs_space (origin.head_shown (';' :: '\n' :: rest)) (n + 6)).eq.2
  have hlength : (Statement.effect origin).words.length = 7 := by
    simp [Statement.words, Statement.keyword]
  rw [shown_effect, hlength]
  simp only [effectImport?, bind, expect?_append, Option.bind_some,
    show "import".toList.length = 6 from rfl, hskip, Origin.literal?_shown]
  rfl

/-- What stands after the first space of an import with a clause is no literal. -/
theorem effectImport?_bind :
    effectImport? ⟨n, (Statement.bind typeOnly binding origin).shown ++ rest⟩ = none := by
  rw [shown_bind]
  generalize " from ".toList ++ (origin.shown ++ ';' :: '\n' :: rest) = after
  obtain ⟨c, tail, hcons, hc, hquote⟩ : ∃ c tail, typeMark typeOnly ++ (binding.chars ++ after) =
      c :: tail ∧ isBlank c = false ∧ c ≠ '\'' ∧ c ≠ '"' := by
    cases typeOnly with
    | true => exact ⟨'t', "ype ".toList ++ (binding.chars ++ after), rfl, by decide⟩
    | false =>
      obtain ⟨c, tail, h, -⟩ := binding.exists_cons
      exact ⟨c, tail ++ after, by rw [h]; rfl, binding.head_spec h⟩
  have hhead : (c :: tail).head?.any isBlank = false := hc
  have hskip := (runs_space hhead (n + 6)).eq.2
  simp only [effectImport?, bind, expect?_append, Option.bind_some, hcons,
    show "import".toList.length = 6 from rfl, hskip, literal?_eq_none hquote, Option.bind_none]

end Import

/-! ## Exports -/

theorem spacedWord?_space (word : String) (h : rest.head?.any isBlank = false) (n : Nat) :
    spacedWord? word ⟨n, word.toList ++ ' ' :: rest⟩ = some ⟨n + word.toList.length + 1, rest⟩ :=
  spacedWord?_iff.2 ⟨_, [' '], ⟨rfl, rfl⟩, by simp, runs_space h _⟩

theorem afterLiteral_semicolon (n : Nat) (rest : List Char) :
    afterLiteral ⟨n, ';' :: rest⟩ = ⟨n + 1, rest⟩ := by
  rw [afterLiteral, skip_eq_self (by rfl)]
  rfl

theorem afterSemicolon_semicolon (n : Nat) (rest : List Char) :
    afterSemicolon ⟨n, ';' :: rest⟩ = n + 1 := by
  rw [afterSemicolon, skip_eq_self (by rfl)]
  rfl

section Star

variable (name : Name) (origin : Origin) (n : Nat) (rest : List Char)

/-- A re-export of everything or of a whole module is read off what stands after the star. -/
theorem reexportForm?_star {passage : PassageForm} {literal : Literal} {next : Cursor}
    {tail : List Char} (hpassage : passage? ⟨n + 7, '*' :: tail⟩ = some (passage, literal, next)) :
    reexportForm? ⟨n, "export".toList ++ ' ' :: '*' :: tail⟩ =
      some (⟨n, (afterLiteral next).offset, false, passage, literal⟩, afterLiteral next) := by
  have hword : spacedWord? "export" ⟨n, "export".toList ++ ' ' :: '*' :: tail⟩ =
      some ⟨n + 7, '*' :: tail⟩ := spacedWord?_space "export" (by rfl) n
  have htype : typeWord ⟨n + 7, '*' :: tail⟩ = (false, ⟨n + 7, '*' :: tail⟩) := rfl
  simp only [reexportForm?, bind, hword, Option.bind_some, htype, hpassage]
  rfl

theorem passage?_everything : passage? ⟨n, '*' :: (" from ".toList ++ (origin.shown ++ rest))⟩ =
      some (.everything, origin.literal (n + 7), ⟨n + 7 + origin.shown.length, rest⟩) := by
  have hstar : Cursor.expect? "*" ⟨n, '*' :: (" from ".toList ++ (origin.shown ++ rest))⟩ =
      some ⟨n + 1, ' ' :: ("from ".toList ++ (origin.shown ++ rest))⟩ := expect?_append "*" n _
  have hskip : Cursor.skip isBlank ⟨n + 1, ' ' :: ("from ".toList ++ (origin.shown ++ rest))⟩ =
      ⟨n + 2, "from ".toList ++ (origin.shown ++ rest)⟩ := (runs_space rfl (n + 1)).eq.2
  have hnamed : namedStar? ⟨n + 2, "from ".toList ++ (origin.shown ++ rest)⟩ = none := rfl
  have hfrom : fromLiteral? ⟨n + 2, "from ".toList ++ (origin.shown ++ rest)⟩ = _ :=
    origin.fromLiteral?_shown (forall_mem_nil _) (n + 2) rest
  simp only [passage?, hstar, hskip, hnamed, hfrom]
  rfl

theorem passage?_whole :
    passage?
      ⟨n, '*' :: (" as ".toList ++ (name.chars ++ (" from ".toList ++ (origin.shown ++ rest))))⟩ =
      some (.whole name.chars, origin.literal (n + 5 + name.chars.length + 6),
        ⟨n + 5 + name.chars.length + 6 + origin.shown.length, rest⟩) := by
  generalize hafter : " from ".toList ++ (origin.shown ++ rest) = after
  have hstar : Cursor.expect? "*" ⟨n, '*' :: (" as ".toList ++ (name.chars ++ after))⟩ =
      some ⟨n + 1, ' ' :: ("as".toList ++ ' ' :: (name.chars ++ after))⟩ := expect?_append "*" n _
  have hskip : Cursor.skip isBlank ⟨n + 1, ' ' :: ("as".toList ++ ' ' :: (name.chars ++ after))⟩ =
      ⟨n + 2, "as".toList ++ ' ' :: (name.chars ++ after)⟩ := (runs_space rfl (n + 1)).eq.2
  have hhead : (name.chars ++ after).head?.any isBlank = false := by
    obtain ⟨c, tail, h, hc⟩ := name.exists_cons
    rw [h, cons_append, head?_cons, Option.any_some, isBlank_of_isIdent hc]
  have hword : spacedWord? "as" ⟨n + 2, "as".toList ++ ' ' :: (name.chars ++ after)⟩ =
      some ⟨n + 5, name.chars ++ after⟩ := spacedWord?_space "as" hhead (n + 2)
  obtain ⟨hrun, hname⟩ := skip_append (isName_iff.1 name.isName_chars).2
    (show after.head?.any isIdent = false by rw [← hafter]; rfl) (n + 5)
  have hblank : ∀ c ∈ [' '], isBlank c := by simp; decide
  have hfrom : fromLiteral? ⟨n + 5 + name.chars.length, after⟩ =
      some (origin.literal (n + 5 + name.chars.length + 6),
        ⟨n + 5 + name.chars.length + 6 + origin.shown.length, rest⟩) := by
    rw [← hafter]
    exact origin.fromLiteral?_shown hblank (n + 5 + name.chars.length) rest
  simp only [passage?, hstar, hskip, namedStar?, bind, hword, Option.bind_some, hrun, hname,
    name.isEmpty_chars, hfrom]
  rfl

end Star

section List

variable (typeOnly : Bool) (items : List Item) (n : Nat) (after : List Char)

/-- The words in front of a list. -/
def listWords (typeOnly : Bool) : List Char := "export".toList ++ ' ' :: typeMark typeOnly

theorem listWords_eq : listWords typeOnly = "export".toList ++ ' ' :: typeMark typeOnly := rfl

theorem spacedWord?_listWords : spacedWord? "export" ⟨n, listWords typeOnly ++ '{' :: after⟩ =
      some ⟨n + 7, typeMark typeOnly ++ '{' :: after⟩ := by
  have hhead : (typeMark typeOnly ++ '{' :: after).head?.any isBlank = false := by
    cases typeOnly <;> rfl
  have hsplit : listWords typeOnly ++ '{' :: after =
      "export".toList ++ ' ' :: (typeMark typeOnly ++ '{' :: after) := append_assoc _ _ _
  rw [hsplit]
  exact spacedWord?_space "export" hhead n

theorem typeWord_typeMark : typeWord ⟨n + 7, typeMark typeOnly ++ '{' :: after⟩ =
      (typeOnly, ⟨n + (listWords typeOnly).length, '{' :: after⟩) := by
  cases typeOnly with
  | true =>
    have htype : spacedWord? "type" ⟨n + 7, typeMark true ++ '{' :: after⟩ =
        some ⟨n + 7 + "type".toList.length + 1, '{' :: after⟩ :=
      spacedWord?_space "type" (by rfl) (n + 7)
    have hlength : (listWords true).length = 12 := rfl
    rw [typeWord, htype, hlength, show "type".toList.length = 4 from rfl]
  | false => rfl

variable {last : Nat}

/-- How a list that names another module is read. -/
theorem read_passList (origin : Origin)
    (hlast : last = n + (listWords typeOnly).length + ((listed items).length + 2)) :
    localList? ⟨n, listWords typeOnly ++ '{' :: (listed items ++ '}' ::
        (" from ".toList ++ (origin.shown ++ ';' :: after)))⟩ =
      some (none, ⟨last, " from ".toList ++ (origin.shown ++ ';' :: after)⟩) ∧
    reexportForm? ⟨n, listWords typeOnly ++ '{' :: (listed items ++ '}' ::
        (" from ".toList ++ (origin.shown ++ ';' :: after)))⟩ =
      some (⟨n, last + 6 + origin.shown.length + 1, typeOnly, .listed (listed items),
        origin.literal (last + 6)⟩, ⟨last + 6 + origin.shown.length + 1, after⟩) := by
  subst hlast
  obtain ⟨_, rfl, hlocal, hreexport⟩ := read_list (spacedWord?_listWords typeOnly n _)
    (typeWord_typeMark typeOnly n _) (not_mem_listed (by decide)) (not_mem_listed (by decide))
  have hblank : ∀ c ∈ [' '], isBlank c := by simp; decide
  have hfrom : ∀ k, fromLiteral? ⟨k, " from ".toList ++ (origin.shown ++ ';' :: after)⟩ = _ :=
    fun k => origin.fromLiteral?_shown hblank k (';' :: after)
  have hfollows : ∀ k, fromFollows ⟨k, " from ".toList ++ (origin.shown ++ ';' :: after)⟩ := by
    intro k
    have hskip : Cursor.skip isBlank ⟨k, " from ".toList ++ (origin.shown ++ ';' :: after)⟩ =
        ⟨k + 1, "from".toList ++ ' ' :: (origin.shown ++ ';' :: after)⟩ := (runs_space rfl k).eq.2
    simp only [fromFollows, hskip, expect?_append]
    rfl
  constructor
  · rw [hlocal, hfollows]
    rfl
  · rw [hreexport, hfrom]
    simp only [Option.map_some, afterLiteral_semicolon]
    rfl

/-- How a list of local exports is read. -/
theorem read_localList
    (hlast : last = n + (listWords typeOnly).length + ((listed items).length + 2)) :
    localList? ⟨n, listWords typeOnly ++ '{' :: (listed items ++ '}' :: ';' :: after)⟩ =
      some (some ⟨n, last + 1, typeOnly, listed items⟩, ⟨last, ';' :: after⟩) ∧
    reexportForm? ⟨n, listWords typeOnly ++ '{' :: (listed items ++ '}' :: ';' :: after)⟩ =
      none := by
  subst hlast
  obtain ⟨_, rfl, hlocal, hreexport⟩ := read_list (spacedWord?_listWords typeOnly n _)
    (typeWord_typeMark typeOnly n _) (not_mem_listed (by decide)) (not_mem_listed (by decide))
  have hskip : ∀ k, Cursor.skip isBlank ⟨k, ';' :: after⟩ = ⟨k, ';' :: after⟩ :=
    fun k => skip_eq_self (by rfl) k
  have hfollows : ∀ k, fromFollows ⟨k, ';' :: after⟩ = false := by
    intro k
    rw [fromFollows, hskip]
    rfl
  have hfrom : ∀ k, fromLiteral? ⟨k, ';' :: after⟩ = none := by
    intro k
    rw [fromLiteral?, hskip]
    rfl
  rw [hlocal, hreexport, hfrom, hfollows, afterSemicolon_semicolon]
  exact ⟨rfl, rfl⟩

end List

end Deadwood.Module

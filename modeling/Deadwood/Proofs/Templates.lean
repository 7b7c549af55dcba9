import Deadwood.Module.Parse
import Deadwood.Proofs.Lexing

/-!
# Template literals

The text of a template literal is made of plain characters, escapes and interpolations, whose
expressions may hold strings, blocks and further template literals (`Template`, `Expression`). The
lexer does not read these expressions: it counts braces up to a backquote at which none is open, and
counts those in strings and in the texts of inner literals too.

`braceCount` is this count. A literal is read up to the backquote that closes it exactly if the
count is zero there and at no backquote before it. This holds if the braces of each interpolation
are balanced, all of them counted (`template_closes_iff`), and a brace in a string can break it
(`brace_in_string_opens_template`).
-/

set_option autoImplicit false

namespace Deadwood.Module

open Text List

/-! ## The texts of literals -/

/-- The text between the backquotes of a template literal whose interpolations hold texts with
`hole`. -/
inductive Template (hole : List Char → Prop) : List Char → Prop
  | nil : Template hole []
  | plain {c : Char} {cs : List Char} (hback : c ≠ '`') (hescape : c ≠ '\\')
      (hdollar : c = '$' → cs.head? ≠ some '{') (rest : Template hole cs) : Template hole (c :: cs)
  | escape {d : Char} {cs : List Char} (rest : Template hole cs) : Template hole ('\\' :: d :: cs)
  | interpolation {inside cs : List Char} (hinside : hole inside) (rest : Template hole cs) :
      Template hole ('$' :: '{' :: (inside ++ '}' :: cs))

/-- An expression: its braces are balanced outside of its strings and template literals. -/
inductive Expression : List Char → Prop
  | nil : Expression []
  | plain {c : Char} {cs : List Char} (hc : c ∉ ['\'', '"', '`', '{', '}'])
      (rest : Expression cs) : Expression (c :: cs)
  | block {inside cs : List Char} (hinside : Expression inside) (rest : Expression cs) :
      Expression ('{' :: (inside ++ '}' :: cs))
  | quoted {quote : Char} {body cs : List Char} (hquote : quote = '\'' ∨ quote = '"')
      (hbody : quotedBody quote (body ++ [quote]) = (body, true)) (rest : Expression cs) :
      Expression (quote :: (body ++ quote :: cs))
  | template {body cs : List Char} (hbody : Template Expression body) (rest : Expression cs) :
      Expression ('`' :: (body ++ '`' :: cs))

/-- The braces that are open after a text, wherever in it they stand, where `depth` are open before
it. A backslash takes the next character with it, and no brace is closed that is not open. -/
def openBraces (depth : Nat) : List Char → Option Nat
  | [] => some depth
  | c :: cs =>
    if c = '\\' then
      match cs with
      | [] => none
      | _ :: cs => openBraces depth cs
    else if c = '{' then openBraces (depth + 1) cs
    else if c = '}' then if depth = 0 then none else openBraces (depth - 1) cs
    else openBraces depth cs

/-- The braces of a text are balanced, those in its strings and template literals included. -/
def Balanced (cs : List Char) : Prop := openBraces 0 cs = some 0

instance (cs : List Char) : Decidable (Balanced cs) := inferInstanceAs (Decidable (_ = _))

/-! ## Counting braces -/

/-- The braces that the lexer counts as open after a text in a template literal, where `depth` are
open before it: outside of interpolations, only a dollar sign makes a brace count. A backquote that
closes the literal ends the count. -/
def braceCount (depth : Nat) : List Char → Option Nat
  | [] => some depth
  | c :: cs =>
    if c = '\\' then
      match cs with
      | [] => none
      | _ :: cs => braceCount depth cs
    else if depth = 0 then
      if c = '`' then none
      else if c = '$' then
        match cs with
        | [] => some 0
        | d :: ds => if d = '{' then braceCount 1 ds else braceCount 0 (d :: ds)
      else braceCount 0 cs
    else braceCount (if c = '{' then depth + 1 else if c = '}' then depth - 1 else depth) cs

variable {depth : Nat} {body : List Char}

/-- A literal is read up to a backquote exactly if no brace counts as open there. -/
theorem templateBody_append_iff (rest : List Char) :
    templateBody depth (body ++ '`' :: rest) = some body ↔ braceCount depth body = some 0 := by
  fun_induction braceCount depth body with
  | case1 depth =>
    -- the backquote closes the literal if no brace counts as open, and belongs to it otherwise
    rw [nil_append, templateBody.eq_def]
    by_cases h : depth = 0 <;> simp [h]
  | case2 depth =>
    -- the backslash takes the backquote with it
    rw [templateBody.eq_def]
    simp
  | case3 depth d cs ih =>
    rw [cons_append, cons_append, templateBody.eq_def]
    simpa using ih
  | case4 cs => simp [templateBody.eq_def 0 ('`' :: (cs ++ '`' :: rest))]
  | case5 =>
    -- the dollar sign stands before the backquote, not before a brace
    rw [templateBody.eq_def]
    simp [templateBody.eq_def 0 ('`' :: rest)]
  | case6 cs _ _ ih =>
    rw [cons_append, cons_append, templateBody.eq_def]
    simpa using ih
  | case7 d cs hd _ _ ih =>
    rw [cons_append, cons_append, templateBody.eq_def]
    simpa [hd] using ih
  | case8 c cs hescape hback hdollar ih =>
    rw [cons_append, templateBody.eq_def]
    simpa [hescape, hback, hdollar] using ih
  | case9 depth c cs hescape hdepth ih =>
    rw [cons_append, templateBody.eq_def]
    simp only [hescape, hdepth, if_false]
    split_ifs at ih ⊢ <;> simpa using ih

/-- Inside of an interpolation, the braces that are open in a text are those that count. -/
theorem braceCount_append {depth' : Nat} {cs : List Char} (h : openBraces depth cs = some depth')
    (more : List Char) : braceCount (depth + 1) (cs ++ more) = braceCount (depth' + 1) more := by
  fun_induction openBraces depth cs with
  | case1 depth =>
    cases h
    rfl
  | case2 => cases h
  | case3 depth d cs ih =>
    rw [cons_append, cons_append, braceCount.eq_def]
    simpa using ih h
  | case4 depth cs _ ih =>
    rw [cons_append, braceCount.eq_def]
    simpa using ih h
  | case5 => cases h
  | case6 depth cs hdepth _ _ ih =>
    rw [cons_append, braceCount.eq_def]
    simpa [Nat.sub_add_cancel (Nat.pos_of_ne_zero hdepth)] using ih h
  | case7 depth c cs hescape hopen hclose ih =>
    rw [cons_append, braceCount.eq_def]
    simpa [hescape, hopen, hclose] using ih h

/-- No brace counts as open after a literal all of whose interpolations are balanced. -/
theorem Template.braceCount_eq {hole : List Char → Prop} (h : Template hole body)
    (hhole : ∀ inside, hole inside → Balanced inside) : braceCount 0 body = some 0 := by
  induction h with
  | nil => rfl
  | @plain c cs hback hescape hdollar rest ih =>
    rw [braceCount.eq_def]
    by_cases hc : c = '$'
    · subst hc
      cases cs with
      | nil => rfl
      | cons d cs =>
        have hd : d ≠ '{' := by simpa using hdollar rfl
        simpa [hd] using ih
    · simpa [hback, hescape, hc] using ih
  | escape rest ih =>
    rw [braceCount.eq_def]
    simpa using ih
  | @interpolation inside cs hinside rest ih =>
    -- one brace is open behind the dollar sign, and still one where the interpolation is closed
    rw [braceCount.eq_def]
    simp only [Char.reduceEq, if_true, if_false]
    rw [braceCount_append (hhole inside hinside), braceCount.eq_def]
    simpa using ih

/-! ## Reading a literal -/

theorem reads_template_iff {before rest : List Char} :
    Reads before (.literal '`' body (some '`')) rest ↔ braceCount 0 body = some 0 := by
  constructor
  · intro h
    cases h with
    | quoted hquote => simp at hquote
    | template hbody => exact (templateBody_append_iff rest).1 (hbody rest)
  · intro h
    exact .template fun tail => (templateBody_append_iff tail).2 h

/-- A template literal where the lexer stands is one lexeme exactly if no brace counts as open at
its end. If its interpolations are balanced, it is blanked out up to the backquote that closes it
and what follows is read as code. -/
theorem template_closes_iff {first : List Lexeme} {body rest : List Char}
    (hplace : Passes [] first ('`' :: (body ++ '`' :: rest)))
    (hzero : '\x00' ∉ first.flatMap Lexeme.text ++ '`' :: (body ++ '`' :: rest)) :
    (Passes [] (first ++ [.literal '`' body (some '`')]) rest ↔ braceCount 0 body = some 0) ∧
      (Template (fun inside => Expression inside ∧ Balanced inside) body →
        shape (first.flatMap Lexeme.text ++ '`' :: (body ++ '`' :: rest)) =
          (lexFrom ('`' :: ((body.map blanked).reverse ++
              '`' :: (first.flatMap Lexeme.shape).reverse))
            ((first.flatMap Lexeme.text).length + (body.length + 2)) rest).map fun others =>
              first.flatMap Lexeme.shape ++
                '`' :: (body.map blanked ++ '`' :: others.flatMap Lexeme.shape)) := by
  have hread : Passes [] (first ++ [.literal '`' body (some '`')]) rest ↔
      braceCount 0 body = some 0 := by
    rw [passes_append_iff]
    simp [passes_cons_iff, Passes.nil, Lexeme.text, hplace, reads_template_iff]
  refine ⟨hread, ?_⟩
  intro hbody
  have hpasses := hread.2 (hbody.braceCount_eq fun _ hinside => hinside.2)
  have hlex := hpasses.lexFrom_eq 0
  simp only [flatMap_append, flatMap_singleton, Lexeme.text, Lexeme.shape,
    Option.toList_some, append_assoc, cons_append, nil_append, reverse_append,
    reverse_cons, reverse_nil, append_nil, length_append, length_cons,
    length_nil, Nat.zero_add] at hlex
  rw [shape_eq_lexFrom hzero, hlex]
  cases lexFrom ('`' :: ((body.map blanked).reverse ++ '`' :: (first.flatMap Lexeme.shape).reverse))
    ((first.flatMap Lexeme.text).length + (body.length + 2)) rest <;>
      simp [Except.map, Lexeme.shape]

/-- An interpolation that holds a literal with an interpolation of its own. -/
theorem template_closes_iff_inner : ∃ body, body = "$\x7b`a$\x7bx\x7d`\x7d".toList ∧
    Passes [] [.code '='] ('`' :: (body ++ "`;y".toList)) ∧
    Template (fun inside => Expression inside ∧ Balanced inside) body ∧
    shape ('=' :: '`' :: (body ++ "`;y".toList)) = .ok "=`          `;y".toList := by
  have hhole : Expression "x".toList := .plain (by decide) .nil
  have hinner : Template Expression "a$\x7bx\x7d".toList :=
    .plain (by decide) (by decide) (by decide) (.interpolation hhole .nil)
  have htext : "$\x7b`a$\x7bx\x7d`\x7d".toList =
      '$' :: '{' :: ('`' :: ("a$\x7bx\x7d".toList ++ ['`']) ++ ['}']) := by
    decide +kernel
  have hbody : Template (fun inside => Expression inside ∧ Balanced inside)
      "$\x7b`a$\x7bx\x7d`\x7d".toList := by
    rw [htext]
    exact .interpolation ⟨.template hinner .nil, by decide +kernel⟩ .nil
  have hplace : Passes [] [.code '='] ('`' :: ("$\x7b`a$\x7bx\x7d`\x7d".toList ++ "`;y".toList)) :=
    .cons (.plain (by decide) (by decide) (by decide) (by decide)) .nil
  refine ⟨_, rfl, hplace, hbody, ?_⟩
  exact ((template_closes_iff hplace (by decide +kernel)).2 hbody).trans (by decide +kernel)

/-- A brace in a string of an interpolation counts as open up to the end of the text, so that a
literal that is closed is taken for one that is not. -/
theorem brace_in_string_opens_template : ∃ body, body = "$\x7b'\x7b'\x7d".toList ∧
    Template Expression body ∧
    parse ("const s = `".toList ++ (body ++ "`;\nexport const a = 1;\n".toList)) =
      .error (.openTemplate 10) := by
  have hhole : Expression "'\x7b'".toList :=
    @Expression.quoted '\'' ['{'] [] (.inl rfl) (by decide) .nil
  exact ⟨_, rfl, .interpolation hhole .nil, by decide +kernel⟩

end Deadwood.Module

import Deadwood.Module.Declaration
import Deadwood.Proofs.Masking

/-!
# Seams between statements

A text that is put together of two parts is read part by part if the parts meet at a seam: the first
part ends its line, and the second does not begin with a slash that could open a pattern. Lexing
needs no more (`shape_append`). `openAfter` follows the brackets that a text leaves open.
-/

set_option autoImplicit false

namespace Deadwood.Module

open Text List

/-! ## Ends of lines -/

/-- The text is empty, or it ends with a line break that no backslash takes with it. -/
def EndsLine (text : List Char) : Prop :=
  text = [] ∨ text.getLast? = some '\n' ∧ text.dropLast.getLast? ≠ some '\\'

instance (text : List Char) : Decidable (EndsLine text) := by unfold EndsLine; infer_instance

variable {rest cs body stack : List Char} {quote c o : Char} {lexeme : Lexeme}
  {first lexemes : List Lexeme} {depth : Nat}

/-- The end of a text that ends its line does so too. -/
theorem EndsLine.of_append (front : List Char) (h : EndsLine (front ++ rest)) : EndsLine rest := by
  cases rest using reverseRecOn with
  | nil => exact .inl rfl
  | append_singleton rest c =>
    rcases h with h | ⟨hlast, hescape⟩
    · simp at h
    · refine .inr ⟨by simpa using hlast, ?_⟩
      rw [← append_assoc, dropLast_concat] at hescape
      rw [dropLast_concat]
      intro hrest
      rw [getLast?_append, hrest] at hescape
      exact hescape rfl

theorem EndsLine.exists_concat {text : List Char} (h : EndsLine text) (hne : text ≠ []) :
    ∃ front, text = front ++ ['\n'] ∧ front.getLast? ≠ some '\\' := by
  obtain ⟨hlast, hescape⟩ := h.resolve_left hne
  cases text using reverseRecOn with
  | nil => exact absurd rfl hne
  | append_singleton front c =>
    obtain rfl : c = '\n' := by simpa using hlast
    exact ⟨front, rfl, by simpa using hescape⟩

/-- A slash that opens no pattern before the end of its line opens none, whatever follows the
line. -/
theorem patternBody_append_of_none {inClass : Bool} (h : patternBody inClass cs = none)
    (hne : cs ≠ []) (hline : EndsLine cs) (more : List Char) :
    patternBody inClass (cs ++ more) = none := by
  induction inClass, cs using patternBody.induct with
  | case1 inClass => exact absurd rfl hne
  | case2 inClass cs => simp [patternBody.eq_def inClass ('\n' :: (cs ++ more))]
  | case3 inClass _ =>
    obtain ⟨hlast, -⟩ := hline.resolve_left hne
    simp at hlast
  | case4 inClass d cs _ ih =>
    rw [patternBody.eq_def] at h
    simp only [Char.reduceEq, if_true, if_false, Option.map_eq_none_iff] at h
    have hmore : cs ≠ [] := by
      -- otherwise the backslash takes the line break with it
      rintro rfl
      obtain ⟨-, hescape⟩ := hline.resolve_left hne
      simp at hescape
    have hrest : EndsLine cs := EndsLine.of_append ['\\', d] hline
    rw [cons_append, cons_append, patternBody.eq_def]
    simp [ih h hmore hrest]
  | case5 inClass c cs hline' hescape hslash =>
    rw [patternBody.eq_def] at h
    simp [hline', hescape, hslash] at h
  | case6 inClass c cs hbreak hescape hslash inside =>
    rename_i ih
    rw [patternBody.eq_def] at h
    simp only [hbreak, hescape, hslash, Bool.false_eq_true, if_false, Option.map_eq_none_iff] at h
    have hmore : cs ≠ [] := by
      rintro rfl
      obtain ⟨hlast, -⟩ := hline.resolve_left hne
      exact hbreak (by simpa using hlast)
    have hrest : EndsLine cs := EndsLine.of_append [c] hline
    rw [cons_append, patternBody.eq_def]
    simp only [hbreak, hescape, hslash, Bool.false_eq_true, if_false, Option.map_eq_none_iff]
    exact ih h hmore hrest

/-- A quoted literal takes a line break with it only after a backslash. -/
theorem quotedBody_line {front : List Char} {closed : Bool}
    (h : quotedBody quote cs = (body, closed)) (hbody : body = front ++ ['\n']) :
    front.getLast? = some '\\' := by
  induction cs using quotedBody.induct quote generalizing body front closed with
  | case1 => simp [quotedBody, hbody] at h
  | case2 cs => simp [quotedBody_quote, hbody] at h
  | case3 cs hquote => simp [quotedBody.eq_def quote ('\n' :: cs), hquote, hbody] at h
  | case4 hquote _ =>
    simp only [quotedBody, hquote, if_false, Char.reduceEq, if_true, Prod.mk.injEq] at h
    rw [hbody] at h
    cases front <;> simp at h
  | case5 d cs inner closed' hinner hquote _ ih =>
    simp only [quotedBody_escape hquote, hinner, Prod.mk.injEq] at h
    obtain ⟨h, -⟩ := h
    rw [hbody] at h
    rcases front with _ | ⟨e, _ | ⟨e', front⟩⟩
    · simp at h
    · simp only [cons_append, nil_append, cons.injEq] at h
      rw [← h.1]
      rfl
    · simp only [cons_append, cons.injEq] at h
      have hlast := ih hinner h.2.2
      rw [getLast?_cons, getLast?_cons, hlast]
      rfl
  | case6 c cs hquote hline hescape inner closed' hinner ih =>
    simp only [quotedBody_plain hquote hline hescape, hinner, Prod.mk.injEq] at h
    obtain ⟨h, -⟩ := h
    rw [hbody] at h
    cases front with
    | nil =>
      simp only [nil_append, cons.injEq] at h
      exact absurd h.1 hline
    | cons e front =>
      simp only [cons_append, cons.injEq] at h
      have hlast := ih hinner h.2
      rw [getLast?_cons, hlast]
      rfl

/-- A quoted literal that ends at a line break ends there whatever follows the line. -/
theorem quotedBody_break (h : quotedBody quote (body ++ '\n' :: rest) = (body, false))
    (more : List Char) : quotedBody quote (body ++ '\n' :: more) = (body, false) := by
  obtain ⟨tail, htail, -, hbreak⟩ := quotedBody_unclosed h
  obtain rfl := append_cancel_left htail
  exact hbreak (cons_ne_nil _ _) more

/-! ## Lexemes at the end of a line -/

variable {before before' : List Char}

/-- What is read in a text that ends its line is read there, whatever follows the text. -/
theorem Reads.append (h : Reads before lexeme rest) (hline : EndsLine (lexeme.text ++ rest))
    (more : List Char) : Reads before lexeme (rest ++ more) := by
  have hhead : rest ≠ [] → (rest ++ more).head? = rest.head? := by
    intro hne
    obtain ⟨c, cs, rfl⟩ := exists_cons_of_ne_nil hne
    rfl
  have hend : lexeme.text ≠ [] → rest = [] → lexeme.text.getLast? = some '\n' := by
    rintro htext rfl
    rw [append_nil] at hline
    exact (hline.resolve_left htext).1
  cases h with
  | lineComment hbody hrest =>
    refine .lineComment hbody ?_
    rwa [hhead]
    intro hnil
    have hlast := hend (by simp [Lexeme.text]) hnil
    have hmem := mem_of_getLast? hlast
    simp [Lexeme.text, hbody] at hmem
  | blockComment hbody => exact .blockComment hbody
  | pattern hslash hstar hadmits hbody => exact .pattern hslash hstar hadmits hbody
  | slash hrest hnone =>
    have hne : rest ≠ [] := by
      intro hnil
      simpa [Lexeme.text] using hend (by simp [Lexeme.text]) hnil
    refine .slash (by rwa [hhead hne]) fun hadmits => ?_
    exact patternBody_append_of_none (hnone hadmits) hne (hline.of_append _) more
  | quoted hquote hbody => exact .quoted hquote hbody
  | @unclosed quote body _ hquote hbody hrest =>
    have hne : rest ≠ [] := by
      rintro rfl
      -- the literal would end with the line break, which only a backslash can put into it
      obtain ⟨front, hfront, hescape⟩ := hline.exists_concat (by simp [Lexeme.text])
      simp only [Lexeme.text, Option.toList_none, append_nil] at hfront
      cases front with
      | nil =>
        obtain ⟨rfl, -⟩ := cons.inj hfront
        rcases hquote with h | h <;> exact absurd h (by decide)
      | cons c front =>
        obtain ⟨rfl, hbreak⟩ := cons.inj hfront
        rw [append_nil] at hbody
        have hlast := quotedBody_line hbody hbreak
        rw [getLast?_cons, hlast] at hescape
        exact hescape rfl
    obtain ⟨c, rest, rfl⟩ := exists_cons_of_ne_nil hne
    obtain rfl := hrest c rfl
    exact .unclosed hquote (quotedBody_break hbody (rest ++ more)) hrest
  | template hbody => exact .template hbody
  | plain hslash hsingle hdouble hback => exact .plain hslash hsingle hdouble hback

/-- The lexer passes over a text that ends its line, whatever follows the text. -/
theorem Lexes.passes {front : List Char} (h : Lexes before front first) (hline : EndsLine front)
    (back : List Char) : Passes before first back := by
  induction h with
  | nil => exact .nil
  | cons hread hrest ih =>
    refine .cons ?_ (ih (hline.of_append _))
    rw [hrest.text_eq]
    exact hread.append hline back

/-- Lexing goes on after a text that ends its line as if nothing but the shape of that text were
known. -/
theorem lexes_append_iff {front back : List Char} (hfront : Lexes before front first)
    (hline : EndsLine front) :
    Lexes before (front ++ back) lexemes ↔ ∃ others, lexemes = first ++ others ∧
      Lexes ((first.flatMap Lexeme.shape).reverse ++ before) back others := by
  have hlex := (hfront.passes hline back).lexFrom_eq 0
  rw [hfront.text_eq] at hlex
  rw [← @lexFrom_iff 0 _ before, hlex]
  simp only [← @lexFrom_iff (0 + front.length)]
  cases lexFrom ((first.flatMap Lexeme.shape).reverse ++ before) (0 + front.length) back <;>
    simp [Except.map, eq_comm]

/-! ## Slashes after a seam -/

/-- Only through what it admits does the text before a lexeme matter. -/
theorem Reads.congr (h : Reads before lexeme rest)
    (hadmits : lexeme.shape.head? = some '/' → admitsPattern before = admitsPattern before') :
    Reads before' lexeme rest := by
  cases h with
  | lineComment hbody hrest => exact .lineComment hbody hrest
  | blockComment hbody => exact .blockComment hbody
  | pattern hslash hstar hpattern hbody =>
    exact .pattern hslash hstar (hadmits rfl ▸ hpattern) hbody
  | slash hrest hnone => exact .slash hrest fun hpattern => hnone (hadmits rfl ▸ hpattern)
  | quoted hquote hbody => exact .quoted hquote hbody
  | unclosed hquote hbody hrest => exact .unclosed hquote hbody hrest
  | template hbody => exact .template hbody
  | plain hslash hsingle hdouble hback => exact .plain hslash hsingle hdouble hback

/-- What is read does not depend on more than the next character, and on that only at a line break,
slashes apart. -/
theorem Reads.retail {rest' : List Char} (h : Reads before lexeme rest)
    (hbreak : (∀ c ∈ rest.head?, c = '\n') → rest'.head? = rest.head?)
    (hslash : lexeme = .code '/' → (∀ c ∈ rest.head?, c ≠ '/' ∧ c ≠ '*') →
      (admitsPattern before → patternBody false rest = none) → Reads before (.code '/') rest') :
    Reads before lexeme rest' := by
  cases h with
  | lineComment hbody hrest => exact .lineComment hbody (hbreak hrest ▸ hrest)
  | blockComment hbody => exact .blockComment hbody
  | pattern hfirst hstar hadmits hbody => exact .pattern hfirst hstar hadmits hbody
  | slash hrest hnone => exact hslash rfl hrest hnone
  | quoted hquote hbody => exact .quoted hquote hbody
  | unclosed hquote hbody hrest =>
    have hhead := hbreak hrest
    cases rest with
    | nil =>
      obtain rfl : rest' = [] := head?_eq_none_iff.1 hhead
      exact .unclosed hquote hbody hrest
    | cons c rest =>
      obtain rfl := hrest c rfl
      obtain ⟨tail, rfl⟩ := head?_eq_some_iff.1 hhead
      exact .unclosed hquote (quotedBody_break hbody tail) hrest
  | template hbody => exact .template hbody
  | plain hfirst hsingle hdouble hback => exact .plain hfirst hsingle hdouble hback

/-- Texts after which the same slashes open patterns are followed by the same lexemes. -/
theorem Lexes.congr {text : List Char} (h : Lexes before text lexemes)
    (hadmits : ∀ read, admitsPattern (read ++ before) = admitsPattern (read ++ before')) :
    Lexes before' text lexemes := by
  induction h generalizing before' with
  | nil => exact .nil
  | cons first others ih =>
    refine .cons (first.congr fun _ => hadmits []) (ih fun read => ?_)
    simpa only [append_assoc] using hadmits (read ++ _)

theorem isBlank_of_isGap (h : isGap c) : isBlank c := by
  simp only [isGap, Bool.or_eq_true, decide_eq_true_eq] at h
  rcases h with ((rfl | rfl) | rfl) | rfl <;> decide

/-- The name at the end of what has been read goes on no further if no name ends before it. -/
theorem takeWhile_isIdent_append (read : List Char) (hbefore : before.head?.any isIdent = false) :
    (read ++ before).takeWhile isIdent = read.takeWhile isIdent := by
  rw [takeWhile_append]
  split
  · rename_i hall
    have hstop : before.takeWhile isIdent = [] := by
      cases before with
      | nil => rfl
      | cons c before =>
        have hc : isIdent c = false := by simpa using hbefore
        simp [hc]
    rw [hstop, append_nil]
    exact ((List.takeWhile_prefix isIdent).eq_of_length hall).symm
  · rfl

theorem forall_of_not_exists {p : Char → Bool} {cs : List Char} (h : ¬ ∃ c ∈ cs, p c = false) :
    ∀ c ∈ cs, p c := by
  intro c hmem
  cases hc : p c with
  | true => rfl
  | false => exact absurd ⟨c, hmem, hc⟩ h

/-- A slash looks back no further than what has been read, if that is not all gaps and no name ends
before it. -/
theorem admitsPattern_append {read : List Char} (hread : ∃ c ∈ read, isGap c = false)
    (hbefore : before.head?.any isIdent = false) :
    admitsPattern (read ++ before) = admitsPattern read := by
  obtain ⟨c, cs, hcs⟩ : ∃ c cs, read.dropWhile isGap = c :: cs := by
    refine exists_cons_of_ne_nil fun hnil => ?_
    obtain ⟨c, hmem, hc⟩ := hread
    have hgap := dropWhile_eq_nil_iff.1 hnil c hmem
    simp [hc] at hgap
  have hdrop : (read ++ before).dropWhile isGap = c :: cs ++ before := by
    rw [dropWhile_append, hcs]
    rfl
  unfold admitsPattern
  rw [hdrop, hcs]
  simp only [cons_append]
  rw [← cons_append, takeWhile_isIdent_append _ hbefore]

/-- What a slash may open depends on what stood before only through its last character. -/
theorem admitsPattern_congr (read : List Char) (hbefore : before.head?.any isIdent = false)
    (hbefore' : before'.head?.any isIdent = false)
    (h : admitsPattern before = admitsPattern before') :
    admitsPattern (read ++ before) = admitsPattern (read ++ before') := by
  by_cases hread : ∃ c ∈ read, isGap c = false
  · rw [admitsPattern_append hread hbefore, admitsPattern_append hread hbefore']
  · have hgap : ∀ rest, admitsPattern (read ++ rest) = admitsPattern rest := fun rest => by
      unfold admitsPattern
      rw [dropWhile_append_of_pos (forall_of_not_exists hread)]
    rw [hgap, hgap, h]

/-- What the lexer passes over does not depend on what stands before it, if no name ends there and
the text does not begin with a slash, comments and gaps apart. -/
theorem Passes.of_fresh (read : List Char) (h : Passes (read ++ before) lexemes rest)
    (hbefore : before.head?.any isIdent = false) (hbefore' : before'.head?.any isIdent = false)
    (hslash : (∃ c ∈ read, isGap c = false) ∨
      ((lexemes.flatMap Lexeme.shape).dropWhile isGap).head? ≠ some '/') :
    Passes (read ++ before') lexemes rest := by
  generalize hstart : read ++ before = start at h
  induction h generalizing read with
  | nil => exact .nil
  | @cons start rest lexeme lexemes first others ih =>
    subst hstart
    refine .cons (first.congr fun hhead => ?_) ?_
    · rcases hslash with hread | hslash
      · rw [admitsPattern_append hread hbefore, admitsPattern_append hread hbefore']
      · -- the text would begin with the slash
        obtain ⟨tail, htail⟩ := head?_eq_some_iff.1 hhead
        refine absurd ?_ hslash
        simp only [flatMap_cons, htail, cons_append]
        rw [dropWhile_cons_of_neg (by decide)]
        rfl
    · rw [← append_assoc]
      refine ih _ ?_ (append_assoc _ _ _)
      rcases hslash with ⟨c, hmem, hc⟩ | hslash
      · exact .inl ⟨c, mem_append_right _ hmem, hc⟩
      · by_cases hgap : ∀ c ∈ lexeme.shape, isGap c
        · right
          rwa [flatMap_cons, dropWhile_append_of_pos hgap] at hslash
        · left
          simp only [not_forall, Bool.not_eq_true] at hgap
          obtain ⟨c, hmem, hc⟩ := hgap
          exact ⟨c, mem_append_left _ (mem_reverse.2 hmem), hc⟩

theorem Lexes.of_fresh {text : List Char} (read : List Char)
    (h : Lexes (read ++ before) text lexemes) (hbefore : before.head?.any isIdent = false)
    (hbefore' : before'.head?.any isIdent = false) (hslash : (∃ c ∈ read, isGap c = false) ∨
      ((lexemes.flatMap Lexeme.shape).dropWhile isGap).head? ≠ some '/') :
    Lexes (read ++ before') text lexemes := by
  rw [lexes_iff_passes] at h ⊢
  exact ⟨h.1, h.2.of_fresh read hbefore hbefore' hslash⟩

/-! ## Seams -/

/-- The shape of a lexeme keeps its line breaks. -/
theorem Lexeme.getLast?_shape (h : lexeme.text.getLast? = some '\n') :
    lexeme.shape.getLast? = some '\n' := by
  cases lexeme with
  | code c => exact h
  | comment text =>
    simp only [Lexeme.text] at h
    simp [Lexeme.shape, getLast?_map, h, blanked]
  | literal mark body close =>
    cases close with
    | some c =>
      simp only [Lexeme.text, Option.toList_some, ← cons_append, getLast?_concat] at h
      simpa only [Lexeme.shape, Option.toList_some, ← cons_append, getLast?_concat] using h
    | none =>
      simp only [Lexeme.text, Option.toList_none, append_nil, getLast?_cons] at h
      simp only [Lexeme.shape, Option.toList_none, append_nil, getLast?_cons,
        getLast?_map]
      cases hlast : body.getLast? with
      | none => simpa [hlast] using h
      | some c =>
        obtain rfl : c = '\n' := by simpa [hlast] using h
        rfl

theorem getLast?_flatMap_shape (h : (lexemes.flatMap Lexeme.text).getLast? = some '\n') :
    (lexemes.flatMap Lexeme.shape).getLast? = some '\n' := by
  induction lexemes with
  | nil => cases h
  | cons lexeme lexemes ih =>
    simp only [flatMap_cons, getLast?_append] at h ⊢
    cases hlast : (lexemes.flatMap Lexeme.text).getLast? with
    | some c =>
      obtain rfl : c = '\n' := by simpa [hlast] using h
      rw [ih hlast]
      rfl
    | none =>
      have hnil : lexemes.flatMap Lexeme.shape = [] := by
        have htext := getLast?_eq_none_iff.1 hlast
        simp only [flatMap_eq_nil_iff] at htext ⊢
        intro lexeme hmem
        rw [← length_eq_zero_iff, Lexeme.length_shape, htext lexeme hmem]
        rfl
      rw [hnil]
      simpa [hlast] using Lexeme.getLast?_shape (by simpa [hlast] using h)

/-- The shape of a text that ends its line ends with the line break. -/
theorem EndsLine.shape {front masked : List Char} (hline : EndsLine front)
    (h : Module.shape front = .ok masked) : masked = [] ∨ masked.getLast? = some '\n' := by
  rcases hline with rfl | ⟨hlast, -⟩
  · left
    exact length_eq_zero_iff.1 (masks_of_shape h).length_eq.symm
  · right
    obtain ⟨-, lexemes, hlexes, rfl⟩ := shape_eq_ok_iff.1 h
    rw [← hlexes.text_eq] at hlast
    exact getLast?_flatMap_shape hlast

/-- The shape of a text that can follow a complete one: nothing at its beginning carries a statement
on. -/
structure Fresh (masked : List Char) : Prop where
  head : ∀ c ∈ (trimStart masked).head?, c ∉ carriesOn
  word : ¬ "from".toList <+: trimStart masked

instance (masked : List Char) : Decidable (Fresh masked) :=
  decidable_of_iff ((trimStart masked).head?.all (!carriesOn.contains ·) = true ∧
      ¬ "from".toList <+: trimStart masked)
    ⟨fun ⟨hhead, hword⟩ => ⟨by simpa [Option.all_eq_true] using hhead, hword⟩,
      fun ⟨hhead, hword⟩ => ⟨by simpa [Option.all_eq_true] using hhead, hword⟩⟩

theorem fresh_nil : Fresh [] := ⟨by simp [trimStart], by simp [trimStart]⟩

variable {front back masked masked' : List Char}

theorem Fresh.slash (h : Fresh masked) : (masked.dropWhile isGap).head? ≠ some '/' := by
  intro hhead
  obtain ⟨tail, htail⟩ := head?_eq_some_iff.1 hhead
  have htrim : trimStart masked = '/' :: tail := by
    rw [trimStart, ← takeWhile_append_dropWhile (p := isGap) (l := masked), htail,
      dropWhile_append_of_pos fun c hc => isBlank_of_isGap (mem_takeWhile_imp hc),
      dropWhile_cons_of_neg (by decide)]
  exact h.head '/' (by simp [htrim]) (by decide)

/-- No name ends where a seam is. -/
theorem EndsLine.head?_reverse (hline : EndsLine front) (h : Module.shape front = .ok masked) :
    masked.reverse.head?.any isIdent = false := by
  rw [List.head?_reverse]
  rcases hline.shape h with rfl | hlast
  · rfl
  · rw [hlast]
    decide

section

variable (hfront : shape front = .ok masked) (hline : EndsLine front)
  (hback : shape back = .ok masked')
include hfront hline hback

/-- The shape of two texts that meet at a seam is that of the first and that of the second, if the
second does not begin with a slash. -/
theorem shape_append_of_slash (hslash : (masked'.dropWhile isGap).head? ≠ some '/') :
    shape (front ++ back) = .ok (masked ++ masked') := by
  have hname := hline.head?_reverse hfront
  obtain ⟨hzero, first, hfirst, rfl⟩ := shape_eq_ok_iff.1 hfront
  obtain ⟨hzero', others, hothers, rfl⟩ := shape_eq_ok_iff.1 hback
  have hafter : Lexes ([] ++ (first.flatMap Lexeme.shape).reverse) back others :=
    Lexes.of_fresh [] (by simpa using hothers) rfl hname (.inr hslash)
  refine shape_eq_ok_iff.2 ⟨?_, first ++ others, ?_, by simp⟩
  · simpa using ⟨hzero, hzero'⟩
  · exact (lexes_append_iff hfirst hline).2 ⟨others, rfl, by simpa using hafter⟩

theorem shape_append (hfresh : Fresh masked') : shape (front ++ back) = .ok (masked ++ masked') :=
  shape_append_of_slash hfront hline hback hfresh.slash

end

/-! ## Brackets -/

/-- The bracket `c` closes the bracket `o`. -/
def closes (o c : Char) : Bool :=
  (o = '(' && c = ')') || (o = '[' && c = ']') || (o = '{' && c = '}')

/-- The brackets that are open after a text, the innermost first, where `stack` are open before it.
There are none if a bracket closes nothing or one of another kind. -/
def openAfter (stack : List Char) : List Char → Option (List Char)
  | [] => some stack
  | c :: cs =>
    if isOpening c then openAfter (c :: stack) cs
    else if isClosing c then
      match stack with
      | [] => none
      | o :: stack => if closes o c then openAfter stack cs else none
    else openAfter stack cs

theorem isClosing_of_isOpening (h : isOpening c) : isClosing c = false := by
  simp only [isOpening, Bool.or_eq_true, decide_eq_true_eq] at h
  rcases h with (rfl | rfl) | rfl <;> decide

theorem openAfter_opening (h : isOpening c) (stack cs : List Char) :
    openAfter stack (c :: cs) = openAfter (c :: stack) cs := by
  rw [openAfter.eq_def]
  simp [h]

theorem openAfter_plain (hopen : isOpening c = false) (hclose : isClosing c = false)
    (stack cs : List Char) : openAfter stack (c :: cs) = openAfter stack cs := by
  rw [openAfter.eq_def]
  simp [hopen, hclose]

/-- A closing bracket closes the innermost bracket that is open. -/
theorem openAfter_closing (h : isClosing c) : openAfter stack (c :: cs) = some rest ↔
      ∃ o outer, stack = o :: outer ∧ closes o c ∧ openAfter outer cs = some rest := by
  have hopen : isOpening c = false := by
    cases hopen : isOpening c with
    | false => rfl
    | true => simp [isClosing_of_isOpening hopen] at h
  rw [openAfter.eq_def]
  cases stack with
  | nil => simp [hopen, h]
  | cons o outer => cases hpair : closes o c <;> simp [hopen, h, hpair]

theorem openAfter_append (stack front back : List Char) :
    openAfter stack (front ++ back) = (openAfter stack front).bind (openAfter · back) := by
  fun_induction openAfter stack front with
  | case1 stack => rfl
  | case2 stack c cs hopen ih => simp [openAfter, hopen, ih]
  | case3 c cs hopen hclose => simp [openAfter, hopen, hclose]
  | case4 c cs hopen hclose o stack hcloses ih => simp [openAfter, hopen, hclose, hcloses, ih]
  | case5 c cs hopen hclose o stack hcloses => simp [openAfter, hopen, hclose, hcloses]
  | case6 stack c cs hopen hclose ih => simp [openAfter, hopen, hclose, ih]

/-- Characters that are no brackets open and close nothing. -/
theorem openAfter_of_plain (h : ∀ c ∈ cs, isOpening c = false ∧ isClosing c = false) :
    openAfter stack cs = some stack := by
  induction cs with
  | nil => rfl
  | cons c cs ih =>
    obtain ⟨hopen, hclose⟩ := h c mem_cons_self
    rw [openAfter_plain hopen hclose]
    exact ih fun d hd => h d (mem_cons_of_mem c hd)

theorem closes_iff : closes o c ↔
    (o = '(' ∧ c = ')') ∨ (o = '[' ∧ c = ']') ∨ (o = '{' ∧ c = '}') := by
  simp [closes, or_assoc]

theorem isOpening_of_closes (h : closes o c) : isOpening o := by
  rcases closes_iff.1 h with ⟨rfl, -⟩ | ⟨rfl, -⟩ | ⟨rfl, -⟩ <;> rfl

theorem isClosing_of_closes (h : closes o c) : isClosing c := by
  rcases closes_iff.1 h with ⟨-, rfl⟩ | ⟨-, rfl⟩ | ⟨-, rfl⟩ <;> rfl

/-- Each kind of bracket is closed by its own. -/
theorem eq_iff_of_closes {o' c' : Char} (h : closes o c) (h' : closes o' c') : o' = o ↔ c' = c := by
  rcases closes_iff.1 h with ⟨rfl, rfl⟩ | ⟨rfl, rfl⟩ | ⟨rfl, rfl⟩ <;>
    rcases closes_iff.1 h' with ⟨rfl, rfl⟩ | ⟨rfl, rfl⟩ | ⟨rfl, rfl⟩ <;> decide

/-- The end of a text that ends with a line break does so too. -/
theorem getLast?_of_suffix (hline : masked = [] ∨ masked.getLast? = some '\n')
    (hrest : rest <:+ masked) (hne : rest ≠ []) : rest.getLast? = some '\n' := by
  obtain ⟨front, rfl⟩ := hrest
  rcases hline with hnil | hlast
  · exact absurd (append_eq_nil_iff.1 hnil).2 hne
  · rw [getLast?_append] at hlast
    cases hrest : rest.getLast? with
    | none => exact absurd (getLast?_eq_none_iff.1 hrest) hne
    | some c => simpa [hrest] using hlast

/-- The bracket that is found closes. -/
theorem exists_drop_of_matching? {n : Nat} (h : matching? o c depth cs = some n) :
    ∃ rest, cs.drop n = c :: rest := by
  fun_induction matching? o c depth cs generalizing n with
  | case1 => cases h
  | case2 depth cs ih =>
    obtain ⟨n, hn, rfl⟩ := Option.map_eq_some_iff.1 h
    exact ih hn
  | case3 depth cs hdepth hne =>
    cases h
    exact ⟨cs, rfl⟩
  | case4 depth cs hdepth hne ih =>
    obtain ⟨n, hn, rfl⟩ := Option.map_eq_some_iff.1 h
    exact ih hn
  | case5 depth d cs hne hne' ih =>
    obtain ⟨n, hn, rfl⟩ := Option.map_eq_some_iff.1 h
    exact ih hn

end Deadwood.Module

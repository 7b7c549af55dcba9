import Deadwood.Proofs.Statements

/-!
# Statements are read where they stand

A recogniser looks no further than the statement that it reads. So it finds the same in every text
into which the cursor can be carried with what stands there (`Carrier`): what it finds moves with
the cursor. It finds the same after any number of characters (`Carrier.shift`), and it never turns
back (`Reaches`). So a scan of a text finds the same wherever the text stands (`scanFrom_shift`).
-/

set_option autoImplicit false

namespace Deadwood.Text.Cursor

/-- The cursor after `n` more characters. -/
def shift (n : Nat) (here : Cursor) : Cursor := ⟨here.offset + n, here.rest⟩

variable {here next : Cursor} {n : Nat} {p : Char → Bool}

@[simp] theorem offset_shift : (here.shift n).offset = here.offset + n := rfl

@[simp] theorem rest_shift : (here.shift n).rest = here.rest := rfl

@[simp] theorem advance_shift (k : Nat) : (here.shift n).advance k = (here.advance k).shift n := by
  simp [advance, shift, Nat.add_right_comm]

@[simp] theorem skip_shift : (here.shift n).skip p = (here.skip p).shift n := by simp [skip, run]

@[simp] theorem expect?_shift (word : String) :
    (here.shift n).expect? word = (here.expect? word).map (shift n) := by
  simp only [expect?, rest_shift, advance_shift]
  split <;> rfl

/-! ## Reaching -/

/-- The second cursor stands in the same text, not before the first. -/
def Reaches (here next : Cursor) : Prop := ∃ piece, here.Spans piece next

variable {mid : Cursor} {word : String}

theorem Reaches.trans (h : here.Reaches mid) (h' : mid.Reaches next) : here.Reaches next := by
  obtain ⟨piece, h⟩ := h
  obtain ⟨piece', h'⟩ := h'
  exact ⟨_, h.trans h'⟩

theorem reaches_skip : here.Reaches (here.skip p) := ⟨_, (skip_runs p here).toSpans⟩

theorem reaches_of_expect? (h : here.expect? word = some next) :
    here.Reaches next := ⟨_, expect?_iff.1 h⟩

theorem ne_nil_of_expect? (h : here.expect? word = some next) (hne : word.toList ≠ []) :
    here.rest ≠ [] := by
  intro hnil
  have hrest := (expect?_iff.1 h).rest_eq
  rw [hnil] at hrest
  exact hne (List.append_eq_nil_iff.1 hrest.symm).1

theorem Reaches.le (h : here.Reaches next) :
    here.offset ≤ next.offset ∧ next.offset ≤ here.offset + here.rest.length := by
  obtain ⟨piece, h⟩ := h
  rw [h.offset_eq, h.rest_eq, List.length_append]
  omega

theorem Reaches.drop_eq (h : here.Reaches next) {text front : List Char}
    (htext : text = front ++ here.rest) (hoffset : here.offset = front.length) :
    text.drop next.offset = next.rest := by
  obtain ⟨piece, h⟩ := h
  rw [htext, h.offset_eq, hoffset, h.rest_eq, List.drop_append, List.drop_eq_nil_of_le (by omega)]
  simp

theorem Reaches.suffix (h : here.Reaches next) : next.rest <:+ here.rest := by
  obtain ⟨piece, h⟩ := h
  exact ⟨piece, h.rest_eq.symm⟩

theorem OverWords.reaches (h : here.OverWords next) : here.Reaches next := by
  obtain ⟨piece, hspans, -⟩ := h
  exact ⟨piece, hspans⟩

end Deadwood.Text.Cursor

namespace Deadwood.Module

open Text Reference

variable {here : Cursor} {n : Nat}

/-- The literal after `n` more characters. -/
def Literal.shift (n : Nat) (literal : Literal) : Literal :=
  { literal with start := literal.start + n, stop := literal.stop + n }

/-- The re-export after `n` more characters. -/
def ReexportForm.shift (n : Nat) (form : ReexportForm) : ReexportForm :=
  { form with
    start := form.start + n, stop := form.stop + n, literal := form.literal.shift n }

/-- The list after `n` more characters. -/
def ListForm.shift (n : Nat) (form : ListForm) : ListForm :=
  { form with start := form.start + n, stop := form.stop + n }

/-- The head after `n` more characters. -/
def Head.shift (n : Nat) (head : Head) : Head :=
  { head with
    start := head.start + n, qualifierStop := head.qualifierStop + n, stop := head.stop + n
    kind := head.kind.map fun (kind, stop) => (kind, stop + n) }

/-- The kind and the name of a declaration whose words begin at the cursor, with the cursor after
them. -/
def kindAndName (here : Cursor) : Option (DeclarationKind × Nat) × List Char × Cursor :=
  match kind? here with
  | none => (none, [], here)
  | some (kind, next) =>
    (some (kind, next.offset), (next.skip isBlank).run isIdent, (next.skip isBlank).skip isIdent)

/-- The place after the words of an exported declaration that precede its kind. -/
def afterModifiers (qualifier : Cursor) : Cursor :=
  afterModifier "async" (afterModifier "abstract" (afterModifier "declare"
    (afterModifier "default" qualifier)))

/-- A head, part by part: the word `export`, the modifiers, the kind and the name. -/
theorem head?_eq (start : Cursor) :
    head? start = (spacedWord? "export" start).map fun qualifier =>
      let found := kindAndName (afterModifiers qualifier)
      (⟨start.offset, qualifier.offset, (spacedWord? "default" qualifier).isSome, found.1,
        found.2.1, found.2.2.offset⟩, found.2.2) := by
  simp only [head?, bind]
  cases spacedWord? "export" start with
  | none => rfl
  | some qualifier =>
    simp only [Option.bind_some, Option.map_some, afterModifiers, kindAndName]
    cases hdefault : spacedWord? "default" qualifier with
    | none =>
      have hstay : afterModifier "default" qualifier = qualifier := by
        simp [afterModifier, hdefault]
      rw [hstay]
      rfl
    | some next =>
      have hgo : afterModifier "default" qualifier = next := by simp [afterModifier, hdefault]
      rw [hgo]
      rfl

/-! ## Carriers -/

/-- Words after which a statement goes on, and the star. -/
def openers : List String :=
  ["export", "default", "declare", "abstract", "async", "function", "as", "from", "*"] ++
    kindWords.map Prod.fst

theorem ne_line_of_mem_openers : ∀ word ∈ openers, '\n' ∉ word.toList := by decide

theorem mem_openers_of_mem_kindWords : ∀ pair ∈ kindWords, pair.1 ∈ openers := by decide

/-- A way to carry cursors into another text, `far` characters further on. Words that stand at a
cursor inside of the text stand there as well, and a run of characters that stops in the text is the
same run there. Every statement that is begun goes on in the text. -/
structure Carrier where
  move : Cursor → Cursor
  far : Nat
  Inside : Cursor → Prop
  Stops : (Char → Bool) → Cursor → Prop
  offset_move (here : Cursor) : (move here).offset = here.offset + far
  head_move {here : Cursor} (h : Inside here) : (move here).rest.head? = here.rest.head?
  nil_move {p : Char → Bool} {here : Cursor} (h : Stops p here) (hnil : here.rest = []) :
    (move here).rest = []
  advance_move {here : Cursor} {k : Nat} (hk : k ≤ here.rest.length) :
    (move here).advance k = move (here.advance k)
  run_move {p : Char → Bool} {here : Cursor} (h : Stops p here) : (move here).run p = here.run p
  expect?_move {here : Cursor} {word : String} (h : Inside here) (hword : '\n' ∉ word.toList) :
    (move here).expect? word = (here.expect? word).map move
  from_move {here : Cursor} (h : Inside here) : ((move here).skip isBlank).expect? "from" =
    ((here.skip isBlank).expect? "from").map move
  inside_of_stops {p : Char → Bool} {here : Cursor} (h : Stops p here) : Inside here
  inside_of_reaches {here next : Cursor} (h : Inside here) (hreach : here.Reaches next)
    (hne : next.rest ≠ []) : Inside next
  inside_of_spans {here next : Cursor} {piece : List Char} (h : Inside here)
    (hspans : here.Spans piece next) (hpiece : piece.getLast? ≠ some '\n') : Inside next
  stops_of_inside {p : Char → Bool} {here : Cursor} (h : Inside here) (hp : p '\n' = false) :
    Stops p here
  stops_mono {p q : Char → Bool} {here : Cursor} (h : Stops p here)
    (hq : ∀ c, q c = true → p c = true) : Stops q here
  stops_of_spans {p : Char → Bool} {here next : Cursor} {piece : List Char} (h : Stops p here)
    (hspans : here.Spans piece next) (hpiece : ∀ c ∈ piece, p c = true) : Stops p next
  stops_of_expect? {here next : Cursor} {word : String} (h : Inside here) (hword : word ∈ openers)
    (hexpect : here.expect? word = some next) : Stops isBlank next
  stops_of_from {here : Cursor} {shortened : List Char} (h : Inside here)
    (hname : here.run isIdent = shortened ++ "from".toList) : Stops isBlank (here.skip isIdent)
  stops_of_brace {here qualifier inside : Cursor} (h : Inside here)
    (hword : spacedWord? "export" here = some qualifier)
    (hopen : (typeWord qualifier).2.expect? "\x7b" = some inside) :
    Stops (fun c => c != '{' && c != '}') inside

namespace Carrier

variable (carrier : Carrier) {next : Cursor} {p : Char → Bool} {word : String}

theorem skip_move (h : carrier.Stops p here) :
    (carrier.move here).skip p = carrier.move (here.skip p) := by
  rw [Cursor.skip, carrier.run_move h]
  exact carrier.advance_move (List.takeWhile_prefix p).length_le

theorem skipSome?_move (h : carrier.Stops p here) :
    (carrier.move here).skipSome? p = (here.skipSome? p).map carrier.move := by
  rw [Cursor.skipSome?, Cursor.skipSome?, carrier.run_move h, carrier.skip_move h]
  split <;> rfl

/-- What stops a run still follows it. -/
theorem stops_skip (h : carrier.Stops p here) : carrier.Stops p (here.skip p) :=
  carrier.stops_of_spans h (Cursor.skip_runs p here).toSpans (Cursor.skip_runs p here).all

theorem inside_skip (h : carrier.Inside here) (hp : p '\n' = false) :
    carrier.Inside (here.skip p) :=
  carrier.inside_of_stops (carrier.stops_skip (carrier.stops_of_inside h hp))

theorem nextIs_move (h : carrier.Inside here) : (carrier.move here).nextIs p = here.nextIs p := by
  rw [Cursor.nextIs, carrier.head_move h]
  rfl

theorem wordEnds_move (h : carrier.Inside here) : wordEnds (carrier.move here) = wordEnds here := by
  rw [wordEnds, carrier.nextIs_move h]
  rfl

theorem getD_map_move (found : Option Cursor) (otherwise : Cursor) :
    (found.map carrier.move).getD (carrier.move otherwise) =
      carrier.move (found.getD otherwise) := by
  cases found <;> rfl

theorem expect?_move_word (h : carrier.Inside here) (hword : word ∈ openers) :
    (carrier.move here).expect? word = (here.expect? word).map carrier.move :=
  carrier.expect?_move h (ne_line_of_mem_openers word hword)

theorem inside_of_expect? (h : carrier.Inside here) (hword : word ∈ openers)
    (hexpect : here.expect? word = some next) : carrier.Inside next :=
  carrier.inside_of_stops (carrier.stops_of_expect? h hword hexpect)

theorem stops_of_fromWord (h : carrier.Inside here)
    (hword : (here.skip isBlank).expect? "from" = some next) : carrier.Stops isBlank next := by
  have hne := Cursor.ne_nil_of_expect? hword (by decide)
  exact carrier.stops_of_expect? (carrier.inside_of_reaches h Cursor.reaches_skip hne) (by decide)
    hword

/-! ### Words -/

theorem spacedWord?_move (h : carrier.Inside here) (hword : word ∈ openers) :
    spacedWord? word (carrier.move here) = (spacedWord? word here).map carrier.move := by
  simp only [spacedWord?, bind, carrier.expect?_move_word h hword]
  cases hexpect : here.expect? word with
  | none => rfl
  | some mid => exact carrier.skipSome?_move (carrier.stops_of_expect? h hword hexpect)

theorem stops_of_spacedWord? (h : carrier.Inside here) (hword : word ∈ openers)
    (hspaced : spacedWord? word here = some next) : carrier.Stops isBlank next := by
  obtain ⟨mid, blanks, hspans, -, hruns⟩ := spacedWord?_iff.1 hspaced
  rw [← hruns.eq.2]
  exact carrier.stops_skip (carrier.stops_of_expect? h hword (Cursor.expect?_iff.2 hspans))

theorem typeWord_move (h : carrier.Inside here) :
    typeWord (carrier.move here) = ((typeWord here).1, carrier.move (typeWord here).2) := by
  simp only [typeWord, carrier.spacedWord?_move h (show "type" ∈ openers by decide)]
  cases spacedWord? "type" here <;> rfl

theorem stops_typeWord (h : carrier.Stops isBlank here) :
    carrier.Stops isBlank (typeWord here).2 := by
  unfold typeWord
  split
  · rename_i next hnext
    exact carrier.stops_of_spacedWord? (carrier.inside_of_stops h) (by decide) hnext
  · exact h

theorem wholeWord?_move (h : carrier.Inside here) (hword : word ∈ openers) :
    wholeWord? word (carrier.move here) = (wholeWord? word here).map carrier.move := by
  simp only [wholeWord?, carrier.expect?_move_word h hword]
  cases hexpect : here.expect? word with
  | none => rfl
  | some next =>
    have hends := carrier.wordEnds_move (carrier.inside_of_expect? h hword hexpect)
    cases hends' : wordEnds next <;> simp [Option.filter, hends, hends']

theorem stops_of_wholeWord? (h : carrier.Inside here) (hword : word ∈ openers)
    (hwhole : wholeWord? word here = some next) : carrier.Stops isBlank next :=
  carrier.stops_of_expect? h hword (Option.filter_eq_some_iff.1 hwhole).1

/-! ### Literals and lists -/

section

variable (h : carrier.Inside here)
include h

/-- A literal ends on its line. -/
theorem literal?_move : literal? (carrier.move here) = (literal? here).map fun (literal, next) =>
      (literal.shift carrier.far, carrier.move next) := by
  simp only [literal?, literalOf?, bind, carrier.head_move h]
  cases hhead : here.rest.head? with
  | none => rfl
  | some c =>
    obtain ⟨rest, hrest⟩ := List.head?_eq_some_iff.1 hhead
    rw [Option.bind_some, Option.bind_some, Option.map_bind]
    cases hquote : ['\'', '"'].contains c with
    | false => rfl
    | true =>
      -- the body stops at the line break at the latest
      have hopen : here.Spans [c] (here.advance 1) := ⟨by simp [Cursor.advance, hrest], rfl⟩
      have hbody : carrier.Inside (here.advance 1) := by
        refine carrier.inside_of_spans h hopen ?_
        rintro hlast
        obtain rfl : c = '\n' := by simpa using hlast
        exact absurd hquote (by decide)
      have hstop : carrier.Stops (fun d => !(['\'', '"'].contains d) && !(['\n'].contains d))
          (here.advance 1) := carrier.stops_of_inside hbody (by decide)
      rw [carrier.advance_move (by simp [hrest]), carrier.skip_move hstop,
        carrier.nextIs_move (carrier.inside_of_stops (carrier.stops_skip hstop)),
        carrier.offset_move, carrier.offset_move]
      generalize (here.advance 1).skip _ = close
      cases hclose : close.nextIs (· == c) with
      | false => rfl
      | true =>
        have hlength : 1 ≤ close.rest.length := by
          cases hnil : close.rest with
          | nil => simp [Cursor.nextIs, hnil] at hclose
          | cons d rest => simp
        rw [carrier.advance_move hlength]
        rfl

theorem fromLiteral?_move :
    fromLiteral? (carrier.move here) = (fromLiteral? here).map fun (literal, next) =>
      (literal.shift carrier.far, carrier.move next) := by
  simp only [fromLiteral?, bind, carrier.from_move h]
  cases hword : (here.skip isBlank).expect? "from" with
  | none => rfl
  | some mid =>
    have hmid := carrier.stops_of_fromWord h hword
    simp only [Option.map_some, Option.bind_some, carrier.skip_move hmid]
    exact carrier.literal?_move (carrier.inside_of_stops (carrier.stops_skip hmid))

theorem fromFollows_move : fromFollows (carrier.move here) = fromFollows here := by
  simp only [fromFollows, carrier.from_move h]
  cases hword : (here.skip isBlank).expect? "from" with
  | none => rfl
  | some mid =>
    have hmid := carrier.inside_of_stops (carrier.stops_of_fromWord h hword)
    simp only [Option.map_some, carrier.nextIs_move hmid]

/-- A semicolon is looked for on the same line only. -/
theorem semicolon_move : ((carrier.move here).skip isLineBlank).expect? ";" =
      ((here.skip isLineBlank).expect? ";").map carrier.move := by
  rw [carrier.skip_move (carrier.stops_of_inside h (by decide))]
  exact carrier.expect?_move (carrier.inside_skip h (by decide)) (by decide)

theorem afterSemicolon_move :
    afterSemicolon (carrier.move here) = afterSemicolon here + carrier.far := by
  rw [afterSemicolon, carrier.semicolon_move h, getD_map_move, carrier.offset_move]
  rfl

/-- A list that goes on to a brace is read up to there. -/
theorem braceList?_move
    (hbrace : ∀ {inside}, here.expect? "\x7b" = some inside →
      carrier.Stops (fun c => c != '{' && c != '}') inside) :
    braceList? (carrier.move here) = (braceList? here).map fun (inside, next) =>
      (inside, carrier.move next) := by
  simp only [braceList?, bind, carrier.expect?_move h (show '\n' ∉ "\x7b".toList by decide)]
  cases hopen : here.expect? "\x7b" with
  | none => rfl
  | some inside =>
    have hstop := hbrace hopen
    have hskip := carrier.inside_of_stops (carrier.stops_skip hstop)
    simp only [Option.map_some, Option.bind_some, carrier.skip_move hstop, carrier.run_move hstop,
      carrier.expect?_move hskip (show '\n' ∉ "\x7d".toList by decide)]
    cases (inside.skip fun c => c != '{' && c != '}').expect? "\x7d" <;> rfl

/-- A list ends before the text does. -/
theorem inside_of_braceList? {inside : List Char} (hlist : braceList? here = some (inside, next)) :
    carrier.Inside next := by
  refine carrier.inside_of_spans h (braceList?_iff.1 hlist).1 ?_
  rw [List.getLast?_concat]
  decide

end

/-! ### Statements -/

section

variable (h : carrier.Inside here)
include h

theorem namedStar?_move :
    namedStar? (carrier.move here) = (namedStar? here).map fun (passage, literal, next) =>
      (passage, literal.shift carrier.far, carrier.move next) := by
  simp only [namedStar?, bind, carrier.spacedWord?_move h (show "as" ∈ openers by decide)]
  cases hword : spacedWord? "as" here with
  | none => rfl
  | some mid =>
    have hmid := carrier.inside_of_stops (carrier.stops_of_spacedWord? h (by decide) hword)
    have hstop : carrier.Stops isIdent mid := carrier.stops_of_inside hmid (by decide)
    simp only [Option.map_some, Option.bind_some, carrier.run_move hstop, carrier.skip_move hstop,
      carrier.fromLiteral?_move (carrier.inside_of_stops (carrier.stops_skip hstop))]
    rw [Option.map_bind]
    cases fromLiteral? (mid.skip isIdent) with
    | some found => rfl
    | none =>
      simp only [Option.map_none, Function.comp_apply, Option.map_bind]
      generalize hname : mid.run isIdent = name
      generalize hshort : name.take (name.length - 4) = shortened
      by_cases hfrom : name = shortened ++ "from".toList
      · have hbusy := carrier.stops_of_from hmid (hname.trans hfrom)
        simp only [carrier.skip_move hbusy,
          carrier.literal?_move (carrier.inside_of_stops (carrier.stops_skip hbusy))]
        cases literal? ((mid.skip isIdent).skip isBlank) <;> rfl
      · have hno : (!shortened.isEmpty && name == shortened ++ "from".toList) = false := by
          rw [beq_false_of_ne hfrom, Bool.and_false]
        rw [hno]
        rfl

theorem passage?_move
    (hbrace : ∀ {inside}, here.expect? "\x7b" = some inside →
      carrier.Stops (fun c => c != '{' && c != '}') inside) :
    passage? (carrier.move here) = (passage? here).map fun (passage, literal, next) =>
      (passage, literal.shift carrier.far, carrier.move next) := by
  simp only [passage?, carrier.expect?_move h (show '\n' ∉ "*".toList by decide)]
  cases hstar : here.expect? "*" with
  | some star =>
    have hbusy := carrier.stops_of_expect? h (by decide) hstar
    have hskip := carrier.inside_of_stops (carrier.stops_skip hbusy)
    simp only [Option.map_some, carrier.skip_move hbusy, carrier.namedStar?_move hskip,
      carrier.fromLiteral?_move hskip]
    cases namedStar? (star.skip isBlank) with
    | some found => rfl
    | none => cases fromLiteral? (star.skip isBlank) <;> rfl
  | none =>
    simp only [Option.map_none, bind, carrier.braceList?_move h hbrace]
    cases hlist : braceList? here with
    | none => rfl
    | some list =>
      simp only [Option.map_some, Option.bind_some,
        carrier.fromLiteral?_move (carrier.inside_of_braceList? h hlist)]
      cases fromLiteral? list.2 <;> rfl

/-- A re-export is the same re-export in the other text. -/
theorem reexportForm?_move :
    reexportForm? (carrier.move here) = (reexportForm? here).map fun (form, next) =>
      (form.shift carrier.far, carrier.move next) := by
  simp only [reexportForm?, bind, carrier.spacedWord?_move h (show "export" ∈ openers by decide)]
  cases hword : spacedWord? "export" here with
  | none => rfl
  | some qualifier =>
    have hqualifier := carrier.stops_of_spacedWord? h (by decide) hword
    have htyped := carrier.inside_of_stops (carrier.stops_typeWord hqualifier)
    simp only [Option.map_some, Option.bind_some,
      carrier.typeWord_move (carrier.inside_of_stops hqualifier),
      carrier.passage?_move htyped (carrier.stops_of_brace h hword)]
    cases hpassage : passage? (typeWord qualifier).2 with
    | none => rfl
    | some found =>
      obtain ⟨passage, literal, last⟩ := found
      obtain ⟨piece, hspans, hquote, -⟩ := passage?_spans hpassage
      have hlast : carrier.Inside last := by
        refine carrier.inside_of_spans htyped hspans ?_
        rw [List.getLast?_concat]
        rcases hquote with hquote | hquote <;> rw [hquote] <;> decide
      simp only [Option.map_some, Option.bind_some]
      rw [carrier.semicolon_move hlast,
        carrier.skip_move (carrier.stops_of_inside hlast (by decide)), getD_map_move,
        carrier.offset_move, carrier.offset_move]
      rfl

/-- A list of exports is the same list in the other text. -/
theorem localList?_move : localList? (carrier.move here) = (localList? here).map fun (form, next) =>
      (form.map (·.shift carrier.far), carrier.move next) := by
  simp only [localList?, bind, carrier.spacedWord?_move h (show "export" ∈ openers by decide)]
  cases hword : spacedWord? "export" here with
  | none => rfl
  | some qualifier =>
    have hqualifier := carrier.stops_of_spacedWord? h (by decide) hword
    have htyped := carrier.inside_of_stops (carrier.stops_typeWord hqualifier)
    simp only [Option.map_some, Option.bind_some,
      carrier.typeWord_move (carrier.inside_of_stops hqualifier),
      carrier.braceList?_move htyped (carrier.stops_of_brace h hword)]
    cases hlist : braceList? (typeWord qualifier).2 with
    | none => rfl
    | some list =>
      have hinside := carrier.inside_of_braceList? htyped hlist
      simp only [Option.map_some, Option.bind_some, carrier.fromFollows_move hinside,
        carrier.afterSemicolon_move hinside, carrier.offset_move]
      split <;> rfl

end

/-! ### Heads of declarations -/

section

variable (h : carrier.Inside here)
include h

theorem functionWord?_move :
    functionWord? (carrier.move here) = (functionWord? here).map carrier.move := by
  simp only [functionWord?, bind, carrier.expect?_move_word h (show "function" ∈ openers by decide)]
  cases hword : here.expect? "function" with
  | none => rfl
  | some word =>
    have hbusy := carrier.stops_of_expect? h (by decide) hword
    have hskip := carrier.inside_of_stops (carrier.stops_skip hbusy)
    simp only [Option.map_some, Option.bind_some, carrier.skip_move hbusy,
      carrier.expect?_move_word hskip (show "*" ∈ openers by decide)]
    cases hstar : (word.skip isBlank).expect? "*" with
    | none =>
      have hends := carrier.wordEnds_move (carrier.inside_of_stops hbusy)
      by_cases hends' : wordEnds word <;> simp [hends, hends']
    | some star =>
      have hends := carrier.wordEnds_move (carrier.inside_of_expect? hskip (by decide) hstar)
      by_cases hends' : wordEnds star <;> simp [hends, hends']

theorem stops_of_functionWord? (hfunction : functionWord? here = some next) :
    carrier.Stops isBlank next := by
  simp only [functionWord?, bind, Option.bind_eq_some_iff] at hfunction
  obtain ⟨word, hword, hnext⟩ := hfunction
  have hskip := carrier.stops_skip (carrier.stops_of_expect? h (by decide) hword)
  split at hnext
  · rename_i star hstar
    cases hnext
    split
    · exact carrier.stops_of_expect? (carrier.inside_of_stops hskip) (by decide) hstar
    · exact hskip
  · split at hnext
    · cases hnext
      exact hskip
    · cases hnext

/-- The first of several words that stands in the text stands in the other. -/
theorem findSome?_wholeWord_move {words : List (String × DeclarationKind)}
    (hwords : words ⊆ kindWords) :
    (words.findSome? fun (word, kind) => (wholeWord? word (carrier.move here)).map (kind, ·)) =
      (words.findSome? fun (word, kind) => (wholeWord? word here).map (kind, ·)).map
        fun (kind, next) => (kind, carrier.move next) := by
  induction words with
  | nil => rfl
  | cons word words ih =>
    have hword := mem_openers_of_mem_kindWords word (hwords List.mem_cons_self)
    simp only [List.findSome?_cons, carrier.wholeWord?_move h hword]
    cases wholeWord? word.1 here with
    | none => simpa using ih fun pair hpair => hwords (List.mem_cons_of_mem _ hpair)
    | some next => rfl

theorem kind?_move :
    kind? (carrier.move here) = (kind? here).map fun (kind, next) => (kind, carrier.move next) := by
  have henum : (do wholeWord? "enum" (← spacedWord? "const" (carrier.move here))) =
      (do wholeWord? "enum" (← spacedWord? "const" here) : Option Cursor).map carrier.move := by
    simp only [bind, carrier.spacedWord?_move h (show "const" ∈ openers by decide)]
    cases hword : spacedWord? "const" here with
    | none => rfl
    | some next =>
      have hnext := carrier.stops_of_spacedWord? h (by decide) hword
      exact carrier.wholeWord?_move (carrier.inside_of_stops hnext) (by decide)
  simp only [kind?, henum, carrier.functionWord?_move h,
    carrier.findSome?_wholeWord_move h (List.Subset.refl kindWords)]
  cases (do wholeWord? "enum" (← spacedWord? "const" here) : Option Cursor) with
  | some next => rfl
  | none =>
    cases functionWord? here with
    | some next => rfl
    | none => rfl

theorem stops_of_kind? {kind : DeclarationKind} (hkind : kind? here = some (kind, next)) :
    carrier.Stops isBlank next := by
  simp only [kind?, bind, Option.orElse_eq_orElse, Option.orElse_eq_or, Option.or_eq_some_iff,
    Option.map_eq_some_iff, Option.bind_eq_some_iff, Prod.mk.injEq] at hkind
  rcases hkind with ⟨next', ⟨mid, hconst, henum⟩, -, rfl⟩ |
    ⟨-, ⟨next', hfunction, -, rfl⟩ | ⟨-, hword⟩⟩
  · have hmid := carrier.stops_of_spacedWord? h (by decide) hconst
    exact carrier.stops_of_wholeWord? (carrier.inside_of_stops hmid) (by decide) henum
  · exact carrier.stops_of_functionWord? h hfunction
  · obtain ⟨pair, hpair, hwhole⟩ := List.exists_of_findSome?_eq_some hword
    obtain ⟨next', hwhole', heq⟩ := Option.map_eq_some_iff.1 hwhole
    cases heq
    exact carrier.stops_of_wholeWord? h (mem_openers_of_mem_kindWords pair hpair) hwhole'

end

theorem afterModifier_move (h : carrier.Stops isBlank here) (hword : word ∈ openers) :
    afterModifier word (carrier.move here) = carrier.move (afterModifier word here) ∧
      carrier.Stops isBlank (afterModifier word here) := by
  have hinside := carrier.inside_of_stops h
  unfold afterModifier
  rw [carrier.spacedWord?_move hinside hword]
  cases hspaced : spacedWord? word here with
  | none => exact ⟨rfl, h⟩
  | some next => exact ⟨rfl, carrier.stops_of_spacedWord? hinside hword hspaced⟩

theorem afterModifiers_move (h : carrier.Stops isBlank here) :
    afterModifiers (carrier.move here) = carrier.move (afterModifiers here) ∧
      carrier.Stops isBlank (afterModifiers here) := by
  obtain ⟨h1, hstops⟩ := carrier.afterModifier_move h (show "default" ∈ openers by decide)
  obtain ⟨h2, hstops⟩ := carrier.afterModifier_move hstops (show "declare" ∈ openers by decide)
  obtain ⟨h3, hstops⟩ := carrier.afterModifier_move hstops (show "abstract" ∈ openers by decide)
  obtain ⟨h4, hstops⟩ := carrier.afterModifier_move hstops (show "async" ∈ openers by decide)
  exact ⟨by rw [afterModifiers, h1, h2, h3, h4, afterModifiers], hstops⟩

theorem kindAndName_move (h : carrier.Stops isBlank here) : kindAndName (carrier.move here) =
      ((kindAndName here).1.map fun (kind, stop) => (kind, stop + carrier.far),
        (kindAndName here).2.1, carrier.move (kindAndName here).2.2) := by
  have hinside := carrier.inside_of_stops h
  simp only [kindAndName, carrier.kind?_move hinside]
  cases hkind : kind? here with
  | none => rfl
  | some found =>
    have hbusy := carrier.stops_of_kind? hinside hkind
    have hname : carrier.Stops isIdent (found.2.skip isBlank) :=
      carrier.stops_of_inside (carrier.inside_of_stops (carrier.stops_skip hbusy)) (by decide)
    simp only [Option.map_some, carrier.skip_move hbusy, carrier.run_move hname,
      carrier.skip_move hname, carrier.offset_move]

/-- The head of a declaration is the same head in the other text. -/
theorem head?_move (h : carrier.Inside here) :
    head? (carrier.move here) = (head? here).map fun (head, next) =>
      (head.shift carrier.far, carrier.move next) := by
  simp only [head?_eq, carrier.spacedWord?_move h (show "export" ∈ openers by decide)]
  cases hword : spacedWord? "export" here with
  | none => rfl
  | some qualifier =>
    have hqualifier := carrier.stops_of_spacedWord? h (by decide) hword
    obtain ⟨hmodifiers, hstops⟩ := carrier.afterModifiers_move hqualifier
    simp only [Option.map_some, hmodifiers, carrier.kindAndName_move hstops,
      carrier.spacedWord?_move (carrier.inside_of_stops hqualifier)
        (show "default" ∈ openers by decide), Option.isSome_map, carrier.offset_move]
    rfl

end Carrier

/-- The carrier into the text after `n` more characters. -/
def Carrier.shift (n : Nat) : Carrier where
  move := Cursor.shift n
  far := n
  Inside _ := True
  Stops _ _ := True
  offset_move _ := rfl
  head_move _ := rfl
  nil_move _ hnil := hnil
  advance_move _ := Cursor.advance_shift _
  run_move _ := rfl
  expect?_move _ _ := Cursor.expect?_shift _
  from_move _ := by simp
  inside_of_stops h := h
  inside_of_reaches h _ _ := h
  inside_of_spans h _ _ := h
  stops_of_inside h _ := h
  stops_mono h _ := h
  stops_of_spans h _ _ := h
  stops_of_expect? h _ _ := h
  stops_of_from h _ := h
  stops_of_brace h _ _ := h

@[simp] theorem fromLiteral?_shift :
    fromLiteral? (here.shift n) = (fromLiteral? here).map fun (literal, next) =>
      (literal.shift n, next.shift n) := (Carrier.shift n).fromLiteral?_move trivial

@[simp] theorem afterSemicolon_shift : afterSemicolon (here.shift n) = afterSemicolon here + n :=
  (Carrier.shift n).afterSemicolon_move trivial

@[simp] theorem fromFollows_shift : fromFollows (here.shift n) = fromFollows here :=
  (Carrier.shift n).fromFollows_move trivial

theorem reexportForm?_shift :
    reexportForm? (here.shift n) = (reexportForm? here).map fun (form, next) =>
      (form.shift n, next.shift n) := (Carrier.shift n).reexportForm?_move trivial

theorem localList?_shift :
    localList? (here.shift n) = (localList? here).map fun (form, next) =>
      (form.map (·.shift n), next.shift n) := (Carrier.shift n).localList?_move trivial

theorem head?_shift :
    head? (here.shift n) = (head? here).map fun (head, next) => (head.shift n, next.shift n) :=
  (Carrier.shift n).head?_move trivial

/-! ## What recognisers reach -/

variable {next : Cursor} {word : String}

theorem reaches_of_spacedWord? (h : spacedWord? word here = some next) : here.Reaches next := by
  obtain ⟨mid, blanks, hspans, -, hruns⟩ := spacedWord?_iff.1 h
  exact ⟨_, hspans.trans hruns.toSpans⟩

theorem reaches_typeWord : here.Reaches (typeWord here).2 := typeWord_spans here

theorem reaches_of_reexportForm? {form : ReexportForm}
    (h : reexportForm? here = some (form, next)) : here.Reaches next := by
  obtain ⟨mid, piece, hexport, hpiece, -⟩ := (reexportForm?_spec h).2.2.2.exists_piece
  exact ⟨_, hexport.trans hpiece⟩

theorem reaches_of_localList? {form : Option ListForm}
    (h : localList? here = some (form, next)) : here.Reaches next := by
  obtain ⟨qualifier, inside, hword, hlist, -⟩ := localList?_cases h
  exact ((reaches_of_spacedWord? hword).trans reaches_typeWord).trans
    ⟨_, (braceList?_iff.1 hlist).1⟩

/-! ## The words of a head -/

theorem overWords_afterModifiers : here.OverWords (afterModifiers here) := by
  have hstep : ∀ word ∈ ["default", "declare", "abstract", "async"], ∀ here : Cursor,
      here.OverWords (afterModifier word here) := by
    intro word hmem here
    unfold afterModifier
    cases hspaced : spacedWord? word here with
    | none => exact .refl here
    | some next =>
      refine overWords_of_spacedWord? hspaced ?_
      clear hspaced
      revert word
      decide
  exact (((hstep _ (by decide) _).trans (hstep _ (by decide) _)).trans
    (hstep _ (by decide) _)).trans (hstep _ (by decide) _)

theorem overWords_of_functionWord? (h : functionWord? here = some next) : here.OverWords next := by
  simp only [functionWord?, bind, Option.bind_eq_some_iff] at h
  obtain ⟨word, hword, hnext⟩ := h
  have hskip := (Cursor.overWords_of_expect? hword (by decide)).trans Cursor.overWords_skipBlanks
  split at hnext
  · rename_i star hstar
    cases hnext
    split
    · exact hskip.trans (Cursor.overWords_of_expect? hstar (by decide))
    · exact hskip
  · split at hnext
    · cases hnext
      exact hskip
    · cases hnext

theorem overWords_of_wholeWord? (h : wholeWord? word here = some next)
    (hword : word.toList.all Cursor.isWordText) : here.OverWords next :=
  Cursor.overWords_of_expect? (Option.filter_eq_some_iff.1 h).1 hword

theorem overWords_of_kind? {kind : DeclarationKind} (h : kind? here = some (kind, next)) :
    here.OverWords next := by
  simp only [kind?, bind, Option.orElse_eq_orElse, Option.orElse_eq_or, Option.or_eq_some_iff,
    Option.map_eq_some_iff, Option.bind_eq_some_iff, Prod.mk.injEq] at h
  rcases h with ⟨next', ⟨mid, hconst, henum⟩, -, rfl⟩ | ⟨-, ⟨next', hfunction, -, rfl⟩ | ⟨-, hword⟩⟩
  · exact (overWords_of_spacedWord? hconst (by decide)).trans
      (overWords_of_wholeWord? henum (by decide))
  · exact overWords_of_functionWord? hfunction
  · obtain ⟨pair, hpair, hwhole⟩ := List.exists_of_findSome?_eq_some hword
    obtain ⟨next', hwhole', heq⟩ := Option.map_eq_some_iff.1 hwhole
    cases heq
    have hwords : ∀ pair ∈ kindWords, pair.1.toList.all Cursor.isWordText := by decide
    exact overWords_of_wholeWord? hwhole' (hwords pair hpair)

theorem overWords_kindAndName : here.OverWords (kindAndName here).2.2 := by
  unfold kindAndName
  split
  · exact .refl here
  · rename_i kind next hkind
    exact ((overWords_of_kind? hkind).trans Cursor.overWords_skipBlanks).trans
      (Cursor.overWords_skip fun c hc => by simp [Cursor.isWordText, hc])

theorem reaches_of_head? {head : Head} (h : head? here = some (head, next)) :
    here.Reaches next := by
  rw [head?_eq] at h
  obtain ⟨qualifier, hword, heq⟩ := Option.map_eq_some_iff.1 h
  cases heq
  exact (reaches_of_spacedWord? hword).trans
    (overWords_afterModifiers.trans overWords_kindAndName).reaches

/-! ## Scans -/

section Scan

variable {α : Type} {admits : Option Char → Bool} {recognise : Cursor → Option (α × Cursor)}

/-- What is found does not depend on how many characters stand before the text. -/
theorem scanFrom_shift {f : α → α} (hshift : ∀ here, recognise (here.shift n) =
      (recognise here).map fun (a, next) => (f a, next.shift n)) (previous : Option Char)
    (offset : Nat) (text : List Char) : scanFrom admits recognise previous (offset + n) text =
      (scanFrom admits recognise previous offset text).map f := by
  have htry : ∀ previous offset text, (if admits previous then recognise ⟨offset + n, text⟩
      else none) = (if admits previous then recognise ⟨offset, text⟩ else none).map
        fun (a, next) => (f a, next.shift n) := by
    intro previous offset text
    split
    · exact hshift ⟨offset, text⟩
    · rfl
  fun_induction scanFrom admits recognise previous offset text with
  | case1 previous offset => simp [scanFrom]
  | case2 previous offset c cs hnone ih =>
    rw [dite_eq_ite] at hnone
    rw [scanFrom, htry, hnone]
    simp only [Option.map_none]
    rw [Nat.add_right_comm, ih]
  | case3 previous offset c cs found next hfound skipped ih =>
    have hskipped : (next.shift n).offset - (offset + n) - 1 = skipped := by
      simp only [Cursor.offset_shift, skipped]
      omega
    rw [dite_eq_ite] at hfound
    rw [scanFrom, htry, hfound]
    simp only [Option.map_some, hskipped, List.map_cons]
    have hplace : offset + n + 1 + skipped = offset + 1 + skipped + n := by omega
    rw [hplace, ih]

/-- Of what stands before a text, only whether it admits a form at the beginning matters. -/
theorem scanFrom_congr {previous previous' : Option Char} (h : admits previous = admits previous')
    (offset : Nat) (text : List Char) : scanFrom admits recognise previous offset text =
      scanFrom admits recognise previous' offset text := by
  cases text with
  | nil => simp [scanFrom]
  | cons c cs => rw [scanFrom, scanFrom, h]

end Scan

end Deadwood.Module

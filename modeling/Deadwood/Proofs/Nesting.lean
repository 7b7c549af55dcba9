import Deadwood.Proofs.Parsing

/-!
# Nested brackets

A text is well nested if its brackets stand in pairs (`WellNested`), which is what the stack of open
brackets tells (`wellNested_iff`). Followed through a well-nested text, a declaration ends after a
part of it that is well nested itself, or it goes on after the text (`extentFrom_wellNested`). So
what is cut out of a well-nested module leaves a well-nested one (`declarationEnd_wellNested`).

A declaration with a block ends with the first block that stands outside of all brackets, be it its
own or not: this is the block of its body exactly if neither a brace nor a semicolon stands outside
of the brackets of its header (`block_declaration_stop_iff`).
-/

set_option autoImplicit false

namespace Deadwood.Module

open Text Reference
open List hiding Cursor

/-! ## Well-nested texts -/

/-- The brackets of a text stand in pairs, one inside the other or one after the other. -/
inductive WellNested : List Char → Prop
  | nil : WellNested []
  | plain {c : Char} {cs : List Char} (hopen : isOpening c = false) (hclose : isClosing c = false)
      (hcs : WellNested cs) : WellNested (c :: cs)
  | bracket {o c : Char} {inside cs : List Char} (hpair : closes o c = true)
      (hinside : WellNested inside) (hcs : WellNested cs) : WellNested (o :: (inside ++ c :: cs))

namespace WellNested

variable {cs front inside more : List Char}

theorem openAfter (h : WellNested cs) (stack : List Char) :
    Module.openAfter stack cs = some stack := by
  induction h generalizing stack with
  | nil => rfl
  | plain hopen hclose _ ih => rw [openAfter_plain hopen hclose, ih]
  | bracket hpair _ _ ihinside ihcs =>
    rw [openAfter_opening (isOpening_of_closes hpair), openAfter_append, ihinside, Option.bind_some]
    exact (openAfter_closing (isClosing_of_closes hpair)).2 ⟨_, stack, rfl, hpair, ihcs stack⟩

end WellNested

variable {o c : Char} {cs : List Char} {kind : DeclarationKind}

/-- A bracket that is open before a text which closes all brackets is closed in it, after the
brackets `inner` that were opened later. -/
theorem exists_closing {inner outer : List Char}
    (h : openAfter (inner ++ o :: outer) cs = some []) :
    ∃ inside c rest, cs = inside ++ c :: rest ∧ openAfter inner inside = some [] ∧
      closes o c ∧ openAfter outer rest = some [] := by
  induction cs generalizing inner with
  | nil => simp [openAfter] at h
  | cons d cs ih =>
    cases hopen : isOpening d with
    | true =>
      rw [openAfter_opening hopen, ← cons_append] at h
      obtain ⟨inside, c, rest, rfl, hinside, hpair, hrest⟩ := ih h
      exact ⟨d :: inside, c, rest, rfl, by rwa [openAfter_opening hopen], hpair, hrest⟩
    | false =>
      cases hclose : isClosing d with
      | true =>
        obtain ⟨p, stack, hstack, hcloses, hrest⟩ := (openAfter_closing hclose).1 h
        cases inner with
        | nil =>
          obtain ⟨rfl, rfl⟩ := cons.inj hstack
          exact ⟨[], d, cs, rfl, rfl, hcloses, hrest⟩
        | cons q inner =>
          obtain ⟨rfl, rfl⟩ := cons.inj hstack
          obtain ⟨inside, c, rest, rfl, hinside, hpair, hrest⟩ := ih hrest
          exact ⟨d :: inside, c, rest, rfl,
            (openAfter_closing hclose).2 ⟨q, inner, rfl, hcloses, hinside⟩, hpair, hrest⟩
      | false =>
        rw [openAfter_plain hopen hclose] at h
        obtain ⟨inside, c, rest, rfl, hinside, hpair, hrest⟩ := ih h
        exact ⟨d :: inside, c, rest, rfl, by rwa [openAfter_plain hopen hclose], hpair, hrest⟩

/-- The brackets of a text stand in pairs exactly if each closes the last one that is open and none
is left open. -/
theorem wellNested_iff : WellNested cs ↔ openAfter [] cs = some [] := by
  refine ⟨fun h => h.openAfter [], fun h => ?_⟩
  -- the inside of a bracket and what follows it are both shorter
  induction hlength : cs.length using Nat.strong_induction_on generalizing cs with
  | _ n ih =>
    cases cs with
    | nil => exact .nil
    | cons c cs =>
      rw [length_cons] at hlength
      cases hopen : isOpening c with
      | true =>
        rw [openAfter_opening hopen, ← nil_append [c]] at h
        obtain ⟨inside, d, rest, rfl, hinside, hpair, hrest⟩ := exists_closing h
        rw [length_append, length_cons] at hlength
        exact .bracket hpair (ih _ (by omega) hinside rfl) (ih _ (by omega) hrest rfl)
      | false =>
        cases hclose : isClosing c with
        | true =>
          obtain ⟨o, stack, hstack, -⟩ := (openAfter_closing hclose).1 h
          cases hstack
        | false =>
          rw [openAfter_plain hopen hclose] at h
          exact .plain hopen hclose (ih _ (by omega) h rfl)

instance (cs : List Char) : Decidable (WellNested cs) := decidable_of_iff _ wellNested_iff.symm

namespace WellNested

variable {cs front inside more : List Char}

theorem append (h : WellNested cs) (h' : WellNested more) : WellNested (cs ++ more) := by
  rw [wellNested_iff, openAfter_append, h.openAfter, Option.bind_some, h'.openAfter]

/-- A well-nested part can be taken out. -/
theorem cut (h : WellNested (front ++ (inside ++ more))) (hinside : WellNested inside) :
    WellNested (front ++ more) := by
  rw [wellNested_iff, openAfter_append] at h ⊢
  obtain ⟨stack, hfront, hrest⟩ := Option.bind_eq_some_iff.1 h
  rw [openAfter_append, hinside.openAfter, Option.bind_some] at hrest
  rw [hfront, Option.bind_some, hrest]

theorem of_plain (h : ∀ c ∈ cs, isOpening c = false ∧ isClosing c = false) : WellNested cs :=
  wellNested_iff.2 (openAfter_of_plain h)

/-- What is left of a text, some of whose brackets are open, is well nested up to its end or to a
bracket that closes one of them. -/
theorem exists_prefix {stack : List Char} (h : Module.openAfter stack cs = some []) :
    ∃ part rest, cs = part ++ rest ∧ WellNested part ∧ ∀ c ∈ rest.head?, isClosing c := by
  cases stack with
  | nil => exact ⟨cs, [], by simp, wellNested_iff.2 h, by simp⟩
  | cons o outer =>
    rw [← nil_append (o :: outer)] at h
    obtain ⟨inside, c, rest, rfl, hinside, hpair, -⟩ := exists_closing h
    exact ⟨inside, c :: rest, rfl, wellNested_iff.2 hinside,
      by simpa using isClosing_of_closes hpair⟩

/-- A count of one kind of bracket passes over a well-nested text. -/
theorem matching?_append {o c : Char} (hpair : closes o c) (h : WellNested cs)
    {depth n : Nat} (hmore : matching? o c (depth + 1) more = some n) :
    matching? o c (depth + 1) (cs ++ more) = some (cs.length + n) := by
  have hopening := isOpening_of_closes hpair
  have hclosing := isClosing_of_closes hpair
  induction h generalizing depth n more with
  | nil => simpa using hmore
  | @plain d cs hopen hclose _ ih =>
    have hne : d ≠ o := by
      rintro rfl
      simp [hopening] at hopen
    have hne' : d ≠ c := by
      rintro rfl
      simp [hclosing] at hclose
    simp only [cons_append, matching?, hne, hne', if_false, ih hmore, Option.map_some,
      length_cons, Option.some.injEq]
    omega
  | @bracket p d inside cs hpair' _ _ ihinside ihcs =>
    have hne : p ≠ c := by
      rintro rfl
      simp [isClosing_of_isOpening (isOpening_of_closes hpair')] at hclosing
    have hne' : d ≠ o := by
      rintro rfl
      have hclosed := isClosing_of_closes hpair'
      simp [isClosing_of_isOpening hopening] at hclosed
    -- the pair counts if it is of this kind, and then it is counted twice
    have hstep : ∃ deeper, matching? o c (depth + 1) (p :: (inside ++ d :: (cs ++ more))) =
        (matching? o c (deeper + 1) (inside ++ d :: (cs ++ more))).map (· + 1) ∧
        matching? o c (deeper + 1) (d :: (cs ++ more)) = some (cs.length + n + 1) := by
      have hsame := eq_iff_of_closes hpair hpair'
      by_cases hp : p = o
      · have hd := hsame.1 hp
        subst hp hd
        exact ⟨depth + 1, by simp [matching?], by simp [matching?, hne', ihcs hmore]⟩
      · exact ⟨depth, by simp [matching?, hp, hne],
          by simp [matching?, hne', mt hsame.2 hp, ihcs hmore]⟩
    obtain ⟨deeper, hfirst, hlast⟩ := hstep
    simp only [cons_append, append_assoc, hfirst, ihinside hlast, Option.map_some,
      length_cons, length_append, Option.some.injEq]
    omega

/-- A block is as long as its inside and two braces. -/
theorem blockEnd_eq (h : WellNested inside) (n : Nat) (more : List Char) :
    blockEnd ⟨n, '{' :: (inside ++ '}' :: more)⟩ =
      afterSemicolon ⟨n + (inside.length + 2), more⟩ := by
  have hmatch : matching? '{' '}' 1 (inside ++ '}' :: more) = some (inside.length + 0) :=
    h.matching?_append (by decide) (by simp [matching?])
  have hdrop : ('{' :: (inside ++ '}' :: more)).drop (inside.length + 2) = more := by simp
  simp [blockEnd, matching?, hmatch, Cursor.advance, hdrop]

end WellNested

/-! ## Extents in well-nested texts -/

/-- The characters of a text that stand outside of all brackets, where `depth` brackets are open
before it. A bracket that is opened outside of all others is one of them. -/
def outside (depth : Nat) : List Char → List Char
  | [] => []
  | c :: cs =>
    if isClosing c then outside (depth - 1) cs
    else
      (if depth = 0 then [c] else []) ++ outside (if isOpening c then depth + 1 else depth) cs

theorem outside_append (h : WellNested cs) (depth : Nat) (more : List Char) :
    outside (depth + 1) (cs ++ more) = outside (depth + 1) more := by
  induction h generalizing depth more with
  | nil => rfl
  | plain hopen hclose _ ih => simp [outside, hopen, hclose, ih]
  | bracket hpair _ _ ihinside ihcs =>
    have hopen := isOpening_of_closes hpair
    simp [outside, hopen, isClosing_of_isOpening hopen, isClosing_of_closes hpair, ihinside, ihcs]

theorem outside_bracket {inside : List Char} (hpair : closes o c) (h : WellNested inside)
    (cs : List Char) : outside 0 (o :: (inside ++ c :: cs)) = o :: outside 0 cs := by
  have hopen := isOpening_of_closes hpair
  simp [outside, hopen, isClosing_of_isOpening hopen, outside_append h, isClosing_of_closes hpair]

section Extent

variable {kind : DeclarationKind} {before cs rest : List Char} {offset : Nat}

theorem extentFrom_opening {c : Char} {depth : Nat} (hopen : isOpening c)
    (hblock : ¬ (c = '{' ∧ depth = 0 ∧ kind.hasBlock)) :
    extentFrom kind before depth offset (c :: cs) =
      extentFrom kind (c :: before) (depth + 1) (offset + 1) cs := by
  rw [extentFrom, if_neg (by simpa [and_assoc] using hblock), if_pos hopen]

variable {c : Char} {depth : Nat}

theorem extentFrom_closing (hclose : isClosing c) :
    extentFrom kind before depth offset (c :: cs) =
      if depth = 0 then offset else extentFrom kind (c :: before) (depth - 1) (offset + 1) cs := by
  have hopen : isOpening c = false := Bool.eq_false_iff.2 fun hopen => by
    simp [isClosing_of_isOpening hopen] at hclose
  have hbrace : c ≠ '{' := by
    rintro rfl
    exact absurd hopen (by decide)
  simp [extentFrom, hopen, hclose, hbrace]

theorem extentFrom_plain (hopen : isOpening c = false) (hclose : isClosing c = false) :
    extentFrom kind before depth offset (c :: cs) =
      if c = ';' ∧ depth = 0 then offset + 1
      else if c = '\n' ∧ depth = 0 ∧ kind.hasBlock = false ∧ mayEndBetween before (c :: cs) then
        offset
      else extentFrom kind (c :: before) depth (offset + 1) cs := by
  have hbrace : c ≠ '{' := by
    rintro rfl
    exact absurd hopen (by decide)
  simp [extentFrom, hopen, hclose, hbrace, and_assoc]

/-- Inside of a bracket, an extent passes over a well-nested text. -/
theorem extentFrom_inside (h : WellNested cs) (depth : Nat) :
    extentFrom kind before (depth + 1) offset (cs ++ rest) =
      extentFrom kind (cs.reverse ++ before) (depth + 1) (offset + cs.length) rest := by
  induction h generalizing before depth offset rest with
  | nil => simp
  | plain hopen hclose _ ih =>
    rw [cons_append, extentFrom_plain hopen hclose]
    simp [ih, Nat.add_assoc, Nat.add_comm 1]
  | bracket hpair _ _ ihinside ihcs =>
    rw [cons_append, append_assoc, cons_append,
      extentFrom_opening (isOpening_of_closes hpair) (by simp), ihinside,
      extentFrom_closing (isClosing_of_closes hpair), if_neg (by simp), Nat.add_sub_cancel, ihcs]
    simp [Nat.add_comm, Nat.add_left_comm]

/-- A pair of brackets and what stands between them are passed over, unless they are a block that
ends the declaration. -/
theorem extentFrom_bracket {o c : Char} {inside : List Char} (hpair : closes o c)
    (h : WellNested inside) (hblock : ¬ (o = '{' ∧ kind.hasBlock)) :
    extentFrom kind before 0 offset (o :: (inside ++ [c]) ++ cs) =
      extentFrom kind ((o :: (inside ++ [c])).reverse ++ before) 0
        (offset + (o :: (inside ++ [c])).length) cs := by
  rw [cons_append, append_assoc, singleton_append,
    extentFrom_opening (isOpening_of_closes hpair) fun ⟨ho, _, hkind⟩ => hblock ⟨ho, hkind⟩,
    extentFrom_inside h, extentFrom_closing (isClosing_of_closes hpair), if_neg (by simp)]
  simp [Nat.add_assoc, Nat.add_comm 1]

/-- A semicolon after a block is found in a text that something else follows. -/
theorem exists_afterSemicolon (hrest : ∀ c ∈ rest.head?, isLineBlank c = false ∧ c ≠ ';')
    (n : Nat) (cs : List Char) : ∃ piece more, cs = piece ++ more ∧ WellNested piece ∧
      afterSemicolon ⟨n, cs ++ rest⟩ = n + piece.length := by
  have hplain : ∀ {c : Char}, isLineBlank c ∨ c = ';' →
      isOpening c = false ∧ isClosing c = false := by
    rintro c (hc | rfl)
    · have hblank := isBlank_of_isLineBlank hc
      exact ⟨isOpening_of_isBlank hblank, isClosing_of_isBlank hblank⟩
    · decide
  rw [afterSemicolon]
  cases hsemi : (Cursor.skip isLineBlank ⟨n, cs ++ rest⟩).expect? ";" with
  | none => exact ⟨[], cs, rfl, .nil, rfl⟩
  | some next =>
    have hruns := Cursor.skip_runs isLineBlank ⟨n, cs ++ rest⟩
    have hspans := hruns.toSpans.trans (Cursor.expect?_iff.1 hsemi)
    generalize hpiece : Cursor.run isLineBlank ⟨n, cs ++ rest⟩ ++ ";".toList = piece at hspans
    have hends : ∀ c ∈ piece, isLineBlank c ∨ c = ';' := by
      rw [← hpiece, forall_mem_append]
      exact ⟨fun c hc => .inl (hruns.all c hc), by simp⟩
    rcases append_eq_append_iff.1 hspans.rest_eq with ⟨past, rfl, hpast⟩ | ⟨more, hmore, -⟩
    · cases past with
      | nil =>
        refine ⟨cs ++ [], [], by simp, .of_plain fun c hc => hplain (hends c hc), ?_⟩
        exact hspans.offset_eq
      | cons c past =>
        have hc := hrest c (by simp [hpast])
        rcases hends c (by simp) with hblank | hsemi
        · simp [hblank] at hc
        · exact absurd hsemi hc.2
    · exact ⟨piece, more, hmore, .of_plain fun c hc => hplain (hends c hc), hspans.offset_eq⟩

/-- A brace or a semicolon stands outside of all brackets. -/
def Stops (cs : List Char) : Prop := '{' ∈ outside 0 cs ∨ ';' ∈ outside 0 cs

instance (cs : List Char) : Decidable (Stops cs) := inferInstanceAs (Decidable (_ ∨ _))

/-- How the extent of a declaration goes through the text `cs`: it ends after a well-nested part of
it, or it goes on to `rest`. If the declaration has a block, what stands outside of all brackets
tells which. -/
def Course (kind : DeclarationKind) (before : List Char) (offset : Nat) (cs rest : List Char) :
    Prop :=
  (∃ piece more, cs = piece ++ more ∧ WellNested piece ∧
      extentFrom kind before 0 offset (cs ++ rest) = offset + piece.length ∧
      (kind.hasBlock = true → Stops cs)) ∨
    extentFrom kind before 0 offset (cs ++ rest) =
        extentFrom kind (cs.reverse ++ before) 0 (offset + cs.length) rest ∧
      (kind.hasBlock = true → ¬ Stops cs)

/-- An extent goes through what it passes over and then as it does through the rest. -/
theorem Course.append (lead : List Char) (hlead : WellNested lead)
    (hpass : extentFrom kind before 0 offset (lead ++ (cs ++ rest)) =
      extentFrom kind (lead.reverse ++ before) 0 (offset + lead.length) (cs ++ rest))
    (hstops : kind.hasBlock → (Stops (lead ++ cs) ↔ Stops cs))
    (h : Course kind (lead.reverse ++ before) (offset + lead.length) cs rest) :
    Course kind before offset (lead ++ cs) rest := by
  rcases h with ⟨piece, more, rfl, hpiece, hextent, hblock⟩ | ⟨hextent, hblock⟩
  · refine .inl ⟨lead ++ piece, more, by simp, hlead.append hpiece, ?_, fun hkind =>
      (hstops hkind).2 (hblock hkind)⟩
    rw [append_assoc, hpass, hextent, length_append, Nat.add_assoc]
  · refine .inr ⟨?_, fun hkind => mt (hstops hkind).1 (hblock hkind)⟩
    rw [append_assoc, hpass, hextent, length_append, Nat.add_assoc, reverse_append,
      append_assoc]

/-- An extent that is followed through a well-nested text ends after a well-nested part of it or
goes on after it. -/
theorem extentFrom_wellNested (h : WellNested cs)
    (hrest : ∀ c ∈ rest.head?, isLineBlank c = false ∧ c ≠ ';') :
    Course kind before offset cs rest := by
  induction h generalizing before offset with
  | nil => exact .inr ⟨rfl, fun _ => by decide⟩
  | @plain c cs hopen hclose hcs ih =>
    have hbrace : c ≠ '{' := by
      rintro rfl
      exact absurd hopen (by decide)
    have houtside : outside 0 (c :: cs) = c :: outside 0 cs := by simp [outside, hopen, hclose]
    have hstep : extentFrom kind before 0 offset (c :: (cs ++ rest)) = _ :=
      extentFrom_plain hopen hclose
    by_cases hsemi : c = ';'
    · rw [if_pos ⟨hsemi, rfl⟩] at hstep
      exact .inl ⟨[c], cs, rfl, .plain hopen hclose .nil, hstep,
        fun _ => .inr (by rw [houtside, hsemi]; exact mem_cons_self)⟩
    rw [if_neg fun h => hsemi h.1] at hstep
    split at hstep
    · rename_i hline
      exact .inl ⟨[], c :: cs, rfl, .nil, hstep, fun hkind => by simp [hkind] at hline⟩
    · refine Course.append [c] (.plain hopen hclose .nil) hstep (fun _ => ?_) ih
      simp [Stops, houtside, hbrace.symm, Ne.symm hsemi]
  | @bracket o c inside cs hpair hinside hcs _ ih =>
    have houtside := outside_bracket hpair hinside cs
    by_cases hblock : o = '{' ∧ kind.hasBlock
    · -- the block ends the declaration
      obtain ⟨rfl, hkind⟩ := hblock
      obtain rfl := (eq_iff_of_closes hpair (show closes '{' '}' from rfl)).1 rfl
      obtain ⟨piece, more, rfl, hpiece, hsemi⟩ :=
        exists_afterSemicolon hrest (offset + (inside.length + 2)) cs
      refine .inl ⟨'{' :: (inside ++ '}' :: piece), more, by simp,
        .bracket hpair hinside hpiece, ?_, fun _ => .inl (houtside ▸ mem_cons_self)⟩
      rw [cons_append, append_assoc, cons_append, extentFrom,
        if_pos (by simp [hkind]), hinside.blockEnd_eq, hsemi]
      simp
      omega
    · have hsplit : o :: (inside ++ c :: cs) = (o :: (inside ++ [c])) ++ cs := by simp
      rw [hsplit]
      refine Course.append _ (.bracket hpair hinside .nil)
        (extentFrom_bracket hpair hinside hblock) (fun hkind => ?_) ih
      have hbrace : o ≠ '{' := fun ho => hblock ⟨ho, hkind⟩
      have hsemi : o ≠ ';' := by
        rintro rfl
        exact absurd (isOpening_of_closes hpair) (by decide)
      rw [← hsplit]
      simp [Stops, houtside, hbrace.symm, hsemi.symm]

end Extent

/-! ## What is cut out -/

/-- A declaration of a well-nested text ends after a well-nested part of it, so that what is left
without it is well nested too. -/
theorem declarationEnd_wellNested {shape : List Char} (h : WellNested shape) {position : Nat}
    (hle : position ≤ shape.length) (kind : DeclarationKind) :
    position ≤ declarationEnd shape position kind ∧
      declarationEnd shape position kind ≤ shape.length ∧
      WellNested ((shape.take (declarationEnd shape position kind)).drop position) ∧
      WellNested (shape.take position ++ shape.drop (declarationEnd shape position kind)) := by
  obtain ⟨front, back, rfl, rfl⟩ : ∃ front back, shape = front ++ back ∧ position = front.length :=
    ⟨shape.take position, shape.drop position, by simp, by simp [hle]⟩
  have hopen := wellNested_iff.1 h
  rw [openAfter_append] at hopen
  obtain ⟨stack, -, hback⟩ := Option.bind_eq_some_iff.1 hopen
  obtain ⟨part, rest, rfl, hpart, hrest⟩ := WellNested.exists_prefix hback
  have hstart : declarationEnd (front ++ (part ++ rest)) front.length kind =
      extentFrom kind front.reverse 0 front.length (part ++ rest) := by
    simp [declarationEnd]
  have hhead : ∀ c ∈ rest.head?, isLineBlank c = false ∧ c ≠ ';' := by
    intro c hc
    have hclose := hrest c hc
    refine ⟨Bool.eq_false_iff.2 fun hblank => ?_, ?_⟩
    · simp [isClosing_of_isBlank (isBlank_of_isLineBlank hblank)] at hclose
    · rintro rfl
      exact absurd hclose (by decide)
  -- if the declaration goes on after the part, the bracket there or the end of the text ends it
  obtain ⟨piece, more, rfl, hpiece, hend⟩ : ∃ piece more, part = piece ++ more ∧ WellNested piece ∧
      declarationEnd (front ++ (part ++ rest)) front.length kind = front.length + piece.length := by
    rw [hstart]
    rcases extentFrom_wellNested hpart hhead with ⟨piece, more, hsplit, hpiece, hextent, -⟩ |
      ⟨hextent, -⟩
    · exact ⟨piece, more, hsplit, hpiece, hextent⟩
    · refine ⟨part, [], by simp, hpart, hextent.trans ?_⟩
      cases rest with
      | nil => rfl
      | cons c rest => rw [extentFrom_closing (hrest c rfl), if_pos rfl]
  have htake : (front ++ (piece ++ more ++ rest)).take (front.length + piece.length) =
      front ++ piece := by
    rw [← length_append, append_assoc, ← append_assoc, take_left]
  have hdrop : (front ++ (piece ++ more ++ rest)).drop (front.length + piece.length) =
      more ++ rest := by
    rw [← length_append, append_assoc, ← append_assoc, drop_left]
  rw [hend, htake, hdrop, drop_left, take_left]
  refine ⟨Nat.le_add_right _ _, by simp, hpiece, WellNested.cut ?_ hpiece⟩
  rwa [← append_assoc piece]

/-- Inside of a bracket, the declaration ends with its block and the semicolon after it. -/
theorem declarationEnd_wellNested_inner : WellNested "[class A { f(x) { } } ; y]".toList ∧
      declarationEnd "[class A { f(x) { } } ; y]".toList 8 .classType = 23 ∧
      WellNested " { f(x) { } } ;".toList ∧ WellNested "[class A y]".toList := by
  have hcut := declarationEnd_wellNested (show WellNested "[class A { f(x) { } } ; y]".toList by
    decide +kernel) (show 8 ≤ _ by decide +kernel) .classType
  have hend : declarationEnd "[class A { f(x) { } } ; y]".toList 8 .classType = 23 := by
    decide +kernel
  rw [hend] at hcut
  exact ⟨by decide +kernel, hend, hcut.2.2⟩

/-! ## Declarations with a block -/

/-- The text of a declaration with a block: the header stands between the name and the block. -/
def blockDeclaration (kind : DeclarationKind) (name header body : List Char) : List Char :=
  "export".toList ++ ' ' ::
    (kind.word.toList ++ ' ' :: (name ++ (header ++ '{' :: (body ++ ['}']))))

theorem blockDeclaration_append (kind : DeclarationKind) (name header body rest : List Char) :
    blockDeclaration kind name header body ++ rest = "export".toList ++ ' ' ::
      (kind.word.toList ++ ' ' :: (name ++ (header ++ '{' :: (body ++ '}' :: rest)))) := by
  have htext : blockDeclaration kind name header body = "export".toList ++ ' ' ::
    (kind.word.toList ++ ' ' :: (name ++ (header ++ '{' :: (body ++ ['}'])))) := rfl
  simp [htext]

/-- The kinds whose word is followed by the name of what has the block. -/
def blockKinds : List DeclarationKind := [.function, .classType, .interface]

theorem functionWord?_name (hblank : isBlank c = false) (hstar : c ≠ '*') (n : Nat)
    (tail : List Char) :
    functionWord? ⟨n, "function".toList ++ ' ' :: c :: tail⟩ = some ⟨n + 9, c :: tail⟩ := by
  have hword : Cursor.expect? "function" ⟨n, "function".toList ++ ' ' :: c :: tail⟩ =
      some ⟨n + 8, ' ' :: c :: tail⟩ := rfl
  have hspace : (c :: tail).head?.any isBlank = false := hblank
  have hnone : Cursor.expect? "*" ⟨n + 9, c :: tail⟩ = none := by
    rw [Cursor.expect?_eq_none_iff]
    simpa using hstar.symm
  simp only [functionWord?, bind, hword, Option.bind_some, (runs_space hspace (n + 8)).eq.2, hnone]
  rfl

/-- The kind and the name of a declaration with a block are read off its words. -/
theorem kindAndName_block (hkind : kind ∈ blockKinds) {name : List Char}
    (hname : isName name) {tail : List Char} (htail : tail.head?.any isIdent = false)
    (n : Nat) : ∃ stop,
    kindAndName (afterModifiers ⟨n, kind.word.toList ++ ' ' :: (name ++ tail)⟩) =
      (some (kind, stop), name, ⟨n + kind.word.toList.length + 1 + name.length, tail⟩) := by
  obtain ⟨hne, hident⟩ := isName_iff.1 hname
  obtain ⟨c, cs, rfl⟩ := exists_cons_of_ne_nil hne
  have hc := hident c mem_cons_self
  have hblank : isBlank c = false := isBlank_of_isIdent hc
  have hspace : (c :: cs ++ tail).head?.any isBlank = false := hblank
  -- after the word of the kind, blanks and then the name are read
  have hread : ∀ {here : Cursor} (mid : Cursor), kind? here = some (kind, mid) →
      mid.skip isBlank = ⟨n + kind.word.toList.length + 1, c :: cs ++ tail⟩ →
      kindAndName here = (some (kind, mid.offset), c :: cs,
        ⟨n + kind.word.toList.length + 1 + (c :: cs).length, tail⟩) := by
    intro here mid hword hskip
    obtain ⟨hrun, hstop⟩ := skip_append hident htail (n + kind.word.toList.length + 1)
    simp only [kindAndName, hword, hskip, hrun, hstop]
  simp only [blockKinds, mem_cons, not_mem_nil, or_false] at hkind
  rcases hkind with rfl | rfl | rfl
  · have hstar : c ≠ '*' := by
      rintro rfl
      exact absurd hc (by decide)
    have hword : functionWord? ⟨n, "function".toList ++ ' ' :: (c :: cs ++ tail)⟩ =
        some ⟨n + 9, c :: cs ++ tail⟩ := functionWord?_name hblank hstar n (cs ++ tail)
    have hfunction : kind? (afterModifiers ⟨n, "function".toList ++ ' ' :: (c :: cs ++ tail)⟩) =
        ((functionWord? ⟨n, "function".toList ++ ' ' :: (c :: cs ++ tail)⟩).map (.function, ·) <|>
          none) := rfl
    rw [hword] at hfunction
    exact ⟨_, hread _ hfunction (skip_eq_self hspace _)⟩
  · exact ⟨_, hread ⟨n + 5, ' ' :: (c :: cs ++ tail)⟩ rfl (runs_space hspace _).eq.2⟩
  · exact ⟨_, hread ⟨n + 9, ' ' :: (c :: cs ++ tail)⟩ rfl (runs_space hspace _).eq.2⟩

/-- Followed from its name on, a declaration with a block ends with the block of its body exactly if
neither a brace nor a semicolon stands outside of the brackets of its header. -/
theorem declarationEnd_block_iff (hkind : kind.hasBlock) {header body : List Char}
    (hheader : WellNested header) (hbody : WellNested body) (front rest : List Char) :
    declarationEnd (front ++ (header ++ '{' :: (body ++ '}' :: rest))) front.length kind =
        afterSemicolon ⟨front.length + (header.length + (body.length + 2)), rest⟩ ↔
      ¬ Stops header := by
  have hstart : declarationEnd (front ++ (header ++ '{' :: (body ++ '}' :: rest))) front.length
      kind = extentFrom kind front.reverse 0 front.length
        (header ++ '{' :: (body ++ '}' :: rest)) := by
    simp [declarationEnd]
  have hhead : ∀ c ∈ ('{' :: (body ++ '}' :: rest)).head?, isLineBlank c = false ∧ c ≠ ';' := by
    simp
    decide
  rw [hstart]
  rcases extentFrom_wellNested hheader hhead with ⟨piece, more, rfl, -, hextent, hstops⟩ |
    ⟨hextent, hstops⟩
  · -- the declaration ends in its header
    refine iff_of_false (fun heq => ?_) (not_not_intro (hstops hkind))
    have hle := le_afterSemicolon
      ⟨front.length + ((piece ++ more).length + (body.length + 2)), rest⟩
    rw [← heq, hextent, length_append] at hle
    simp only at hle
    omega
  · refine iff_of_true ?_ (hstops hkind)
    rw [hextent, extentFrom, if_pos (by simp [hkind]), hbody.blockEnd_eq, Nat.add_assoc]

/-- A declaration with a block is found at the word that it begins with, and it ends with the block
of its body exactly if neither a brace nor a semicolon stands outside of the brackets of its
header. -/
theorem block_declaration_stop_iff {kind : DeclarationKind} (hkind : kind ∈ blockKinds)
    {name header body : List Char} (hname : isName name = true) (hheader : WellNested header)
    (hbody : WellNested body) (hstart : header.head?.any isIdent = false)
    (source front rest : List Char) : ∃ head next declaration,
      head? ⟨front.length, blockDeclaration kind name header body ++ rest⟩ = some (head, next) ∧
      head.declarations source (front ++ (blockDeclaration kind name header body ++ rest)) =
        [declaration] ∧ declaration.name = String.ofList name ∧ declaration.kind = kind ∧
      declaration.start = front.length ∧ (declaration.stop = afterSemicolon
          ⟨front.length + (blockDeclaration kind name header body).length, rest⟩ ↔
        ¬ Stops header) := by
  have htail : (header ++ '{' :: (body ++ '}' :: rest)).head?.any isIdent = false := by
    cases header with
    | nil => rfl
    | cons c header => exact hstart
  obtain ⟨stop, hread⟩ := kindAndName_block hkind hname htail (front.length + 7)
  have htext := blockDeclaration_append kind name header body rest
  obtain ⟨hspace, hdefault, hvariable, hblock⟩ : (kind.word.toList ++ ' ' ::
        (name ++ (header ++ '{' :: (body ++ '}' :: rest)))).head?.any isBlank = false ∧
      spacedWord? "default" ⟨front.length + 7, kind.word.toList ++ ' ' ::
        (name ++ (header ++ '{' :: (body ++ '}' :: rest)))⟩ = none ∧
      kind.isVariable = false ∧ kind.hasBlock = true := by
    simp only [blockKinds, mem_cons, not_mem_nil, or_false] at hkind
    rcases hkind with rfl | rfl | rfl <;> exact ⟨rfl, rfl, rfl, rfl⟩
  have hempty : name.isEmpty = false := by simpa using (isName_iff.1 hname).1
  refine ⟨_, _, ⟨String.ofList name, kind, front.length,
      declarationEnd (front ++ (blockDeclaration kind name header body ++ rest))
        (front.length + 7 + kind.word.toList.length + 1 + name.length) kind, front.length + 7⟩,
    htext ▸ head?_of_kindAndName hspace _ hdefault hread, ?_, rfl, rfl, rfl, ?_⟩
  · simp only [Head.declarations, Bool.false_eq_true, if_false, hvariable, hempty]
  · -- what stands before the header ends with the name
    have hsplit : front ++ (blockDeclaration kind name header body ++ rest) =
        (front ++ ("export ".toList ++ (kind.word.toList ++ ' ' :: name))) ++
          (header ++ '{' :: (body ++ '}' :: rest)) := by
      simp [htext]
    have hlength : front.length + 7 + kind.word.toList.length + 1 + name.length =
        (front ++ ("export ".toList ++ (kind.word.toList ++ ' ' :: name))).length := by
      simp
      omega
    have hend : front.length + (blockDeclaration kind name header body).length =
        (front ++ ("export ".toList ++ (kind.word.toList ++ ' ' :: name))).length +
          (header.length + (body.length + 2)) := by
      have hnil := congrArg length (blockDeclaration_append kind name header body [])
      simp at hnil ⊢
      omega
    rw [hsplit, hlength, hend]
    exact declarationEnd_block_iff hblock hheader hbody _ rest

/-- A function whose header is spread over two lines, with object types in the brackets around its
parameters and around the type of its result. -/
theorem block_declaration_stop_iff_nested : ∃ head next declaration,
    head? ⟨0, blockDeclaration .function "f".toList "<T>(x: { a: T })\n  : [{ b: T }] ".toList
        " g(x); ".toList ++ ";\n".toList⟩ = some (head, next) ∧
      head.declarations [] (blockDeclaration .function "f".toList
        "<T>(x: { a: T })\n  : [{ b: T }] ".toList " g(x); ".toList ++ ";\n".toList) =
          [declaration] ∧ declaration.stop = 59 := by
  obtain ⟨head, next, declaration, hhead, hdeclared, -, -, -, hstop⟩ :=
    block_declaration_stop_iff (show .function ∈ blockKinds by decide)
      (show isName "f".toList = true by decide)
      (show WellNested "<T>(x: { a: T })\n  : [{ b: T }] ".toList by decide +kernel)
      (show WellNested " g(x); ".toList by decide +kernel) (by decide) [] [] ";\n".toList
  exact ⟨head, next, declaration, hhead, hdeclared,
    (hstop.2 (by decide +kernel)).trans (by decide +kernel)⟩

/-- The object type that a function returns is taken for its block. -/
theorem object_type_ends_function : ∃ m,
    parse (blockDeclaration .function "f".toList "(): { a: T } ".toList " g(); ".toList) = .ok m ∧
      m.declarations = [⟨"f", .function, 0, 29, 7⟩] ∧
      (blockDeclaration .function "f".toList "(): { a: T } ".toList " g(); ".toList).length = 38 ∧
      WellNested "(): { a: T } ".toList ∧ WellNested " g(); ".toList := by
  refine ⟨{ declarations := [⟨"f", .function, 0, 29, 7⟩] }, ?_, rfl, ?_, ?_, ?_⟩ <;>
    decide +kernel

end Deadwood.Module

import Deadwood.Proofs.Edits
import Deadwood.Proofs.Splicing

/-!
# Lines that are taken out

A declaration is deleted with the documentation above it, its indentation and the line break after
it. If these are whole lines between a finished text and one that begins anew (`Cutout`), every
other statement is found again in what is left, in the same order and with its offsets moved
(`delete_keeps_statements`). Where a declaration ends is told by the brackets, semicolons and line
breaks of its shape, and the line breaks of a template show in it as well: a declaration may be cut
off inside of one, and then what is left of the template is never closed (`template_is_cut`).
-/

set_option autoImplicit false

namespace Deadwood.Module

open Text List

/-- A text in three parts of which the lines in the middle can be taken out: a finished text, lines
in which only blanks and comments come before the first word `export`, and a text that begins anew.
The lines are finished, unless nothing follows. -/
structure Cutout where
  front : List Char
  lines : List Char
  back : List Char
  frontShape : List Char
  /-- The shape of the lines before the word. -/
  lead : List Char
  /-- The shape of the lines after the word. -/
  rest : List Char
  backShape : List Char
  front_finished : Finished front frontShape
  lines_shape : shape lines = .ok (lead ++ "export".toList ++ rest)
  lines_finished : back = [] ∨ Finished lines (lead ++ "export".toList ++ rest)
  lead_blank : ∀ c ∈ lead, isBlank c = true
  back_shape : shape back = .ok backShape
  back_fresh : Fresh backShape

namespace Cutout

variable (cut : Cutout) {m : Module}

/-- The whole text. -/
def text : List Char := cut.front ++ (cut.lines ++ cut.back)

/-- The shape of the lines. -/
def linesShape : List Char := cut.lead ++ "export".toList ++ cut.rest

/-- Where the rest begins in the whole text. -/
def old : Nat := cut.linesShape.length + cut.frontShape.length

/-- Where the rest begins in the text without the lines. -/
def new : Nat := cut.frontShape.length

/-! ## The text without the lines -/

theorem length_front : cut.front.length = cut.frontShape.length := cut.front_finished.length_eq

theorem length_lines : cut.lines.length = cut.linesShape.length :=
  (masks_of_shape cut.lines_shape).length_eq

theorem backShape_eq_nil (h : cut.back = []) : cut.backShape = [] :=
  eq_nil_of_shape_nil (h ▸ cut.back_shape)

theorem more_fresh : Fresh (cut.linesShape ++ cut.backShape) := by
  have hlines : Fresh cut.linesShape := fresh_export cut.lead_blank
  rcases cut.lines_finished with hnil | hfinished
  · rw [cut.backShape_eq_nil hnil, append_nil]
    exact hlines
  · exact hlines.append hfinished.settled.line cut.back_fresh

theorem shape_more : shape (cut.lines ++ cut.back) = .ok (cut.linesShape ++ cut.backShape) := by
  rcases cut.lines_finished with hnil | hfinished
  · rw [hnil, cut.backShape_eq_nil hnil, append_nil, append_nil]
    exact cut.lines_shape
  · exact shape_append hfinished.shape_eq hfinished.endsLine cut.back_shape cut.back_fresh

/-- What the lines and the text after them export. -/
theorem exportsOf_more : exportsOf (cut.lines ++ cut.back) (cut.linesShape ++ cut.backShape) =
    (exportsOf cut.lines cut.linesShape).join cut.linesShape.length
      (exportsOf cut.back cut.backShape) := by
  rcases cut.lines_finished with hnil | hfinished
  · rw [hnil, cut.backShape_eq_nil hnil, append_nil, append_nil, exportsOf_nil]
    simp [join, exportsOf]
  · exact hfinished.exportsOf_append cut.back_fresh

/-- If the lines import nothing, all imports follow them. -/
theorem imports_more (himports : importsOf cut.lines cut.linesShape = []) :
    boundImports (cut.lines ++ cut.back) (cut.linesShape ++ cut.backShape) =
      (boundImports cut.back cut.backShape).map (Prod.map (· + cut.linesShape.length) id) ∧
    effectImports (cut.lines ++ cut.back) (cut.linesShape ++ cut.backShape) =
      (effectImports cut.back cut.backShape).map (Prod.map (· + cut.linesShape.length) id) := by
  obtain ⟨hbound, heffect⟩ := importsOf_eq_nil_iff.1 himports
  rcases cut.lines_finished with hnil | hfinished
  · obtain ⟨hbound', heffect'⟩ := importsOf_eq_nil_iff.1 importsOf_nil
    rw [hnil, cut.backShape_eq_nil hnil, append_nil, append_nil, hbound, heffect, hbound',
      heffect']
    exact ⟨rfl, rfl⟩
  · have hmore := hfinished.imports_append cut.back cut.back_fresh
    rw [← linesShape, hbound, heffect] at hmore
    exact hmore

/-- If the lines import nothing, taking them out moves the rest and changes nothing else. -/
theorem splice (himports : importsOf cut.lines cut.linesShape = []) :
    Splice cut.linesShape.length 0 (cut.lines ++ cut.back) (cut.linesShape ++ cut.backShape)
      cut.back cut.backShape where
  pos := by
    have hword : "export".toList.length = 6 := rfl
    simp only [linesShape, length_append]
    omega
  shape_eq := cut.shape_more
  shape_eq' := cut.back_shape
  fresh := cut.more_fresh
  fresh' := cut.back_fresh
  bound := ⟨_, (cut.imports_more himports).1, (map_id _).symm⟩
  effect := ⟨_, (cut.imports_more himports).2, (map_id _).symm⟩

/-- The statements of the whole text are those of its parts. -/
theorem sameStatements_of_parse (hparse : parse cut.text = .ok m) :
    m.SameStatements { (exportsOf cut.front cut.frontShape).join cut.frontShape.length
      ((exportsOf cut.lines cut.linesShape).join cut.linesShape.length
        (exportsOf cut.back cut.backShape)) with imports := m.imports } := by
  rw [← exportsOf_more]
  exact cut.front_finished.sameStatements_of_parse cut.shape_more cut.more_fresh hparse

theorem bounds_of_parse (hparse : parse cut.text = .ok m) {declaration : Declaration}
    (hmem : declaration ∈ m.declarations) :
    declaration.start < declaration.stop ∧ declaration.stop ≤ cut.text.length := by
  obtain ⟨masked, hshape, rfl⟩ := parse_eq_ok_iff.1 hparse
  rw [(masks_of_shape hshape).length_eq]
  exact bounds_of_mem_declarationsOf hmem

/-- What the text exports outside of the lines. -/
def others : Module :=
  (exportsOf cut.front cut.frontShape).join cut.frontShape.length
    (({} : Module).join cut.linesShape.length (exportsOf cut.back cut.backShape))

/-- The text without the lines can be read, and its statements are those of the whole text outside
of the lines. -/
theorem exists_parse_left (hparse : parse cut.text = .ok m)
    (himports : importsOf cut.lines cut.linesShape = []) :
    ∃ m', parse (cut.front ++ cut.back) = .ok m' ∧
      m'.SameStatements ({ cut.others with imports := m.imports }.move cut.old cut.new) := by
  have hback : exportsOf cut.back cut.backShape =
      (move cut.linesShape.length 0 {}).join 0 (exportsOf cut.back cut.backShape) := by
    have hreexport : Reexport.shift 0 = id := rfl
    have hlist : LocalExports.shift 0 = id := rfl
    have hdeclaration : Declaration.shift 0 = id := rfl
    simp [join, move, exportsOf, hreexport, hlist, hdeclaration]
  obtain ⟨m', hparse', hsame⟩ :=
    cut.front_finished.exists_parse_splice (cut.splice himports) hparse hback
  rw [Nat.zero_add] at hsame
  exact ⟨m', hparse', hsame⟩

/-! ## The declaration in the lines -/

/-- The lines are those that go with a declaration: they begin with its documentation, or with its
indentation, nothing but blanks follows it in them, and they hold no other kind of statement. -/
structure Holds (declaration : Declaration) : Prop where
  start : declaration.start = cut.lead.length + cut.front.length
  first : headBefore cut.text
    ((documentationStart? cut.text declaration.start).getD declaration.start) = cut.front
  last : tailAfter (cut.text.drop declaration.stop) = cut.back
  imports : importsOf cut.lines cut.linesShape = []
  reexports : reexportsOf cut.lines cut.linesShape = []
  localExports : localExportsOf cut.linesShape = []

variable {cut} {declaration : Declaration}

section

variable (h : cut.Holds declaration) (hstop : declaration.stop ≤ cut.text.length)
include h hstop

/-- Deleting the declaration takes the lines out. -/
theorem Holds.deleteDeclaration_eq :
    deleteDeclaration cut.text declaration = .ok (cut.front ++ cut.back) := by
  rw [deleteDeclaration, removeStatement, if_neg hstop.not_gt, removeSpan, h.first, h.last]

/-- Nothing but blanks follows the declaration in the lines. -/
theorem Holds.stop_le (hlt : declaration.start < declaration.stop) : declaration.stop ≤ cut.old ∧
      ∀ c ∈ cut.lines.drop (declaration.stop - cut.new), isBlank c := by
  obtain ⟨htail, hblank, -⟩ := tailAfter_spec cut.text declaration.stop
  generalize marginAfter cut.text declaration.stop = blanks at *
  rw [h.last] at htail
  have hstart := h.start
  have hfront := cut.length_front
  have hlines := cut.length_lines
  have hle : declaration.stop ≤ cut.old := by
    have hlength := congrArg length htail
    simp only [length_drop, text, length_append] at hlength hstop
    simp only [old]
    omega
  have hdrop : cut.lines.drop (declaration.stop - cut.new) ++ cut.back = blanks ++ cut.back := by
    have hsplit : declaration.stop = cut.front.length + (declaration.stop - cut.new) := by
      simp only [new]
      omega
    have hlength : declaration.stop - cut.new ≤ cut.lines.length := by
      simp only [new, old] at hle ⊢
      omega
    rw [← drop_append_of_le_length hlength, ← htail, text]
    nth_rewrite 2 [hsplit]
    rw [drop_length_add_append]
  exact ⟨hle, append_cancel_right hdrop ▸ hblank⟩

/-- All that the lines declare overlaps the declaration. -/
theorem Holds.overlap (hlt : declaration.start < declaration.stop) {found : Declaration}
    (hfound : found ∈ declarationsOf cut.lines cut.linesShape) :
    declaration.start < (found.shift cut.new).stop ∧
      (found.shift cut.new).start < declaration.stop := by
  have hplaced := placed_of_mem_declarationsOf hfound
  obtain ⟨-, hblank⟩ := h.stop_le hstop hlt
  have hfirst : cut.lead.length ≤ found.start := by
    by_contra hlt
    -- the word would begin with a blank
    have hword := hplaced.word
    rw [linesShape, append_assoc, drop_append_of_le_length (by omega)] at hword
    obtain ⟨c, cs, hdrop⟩ := exists_cons_of_ne_nil
      (ne_nil_of_length_pos (l := cut.lead.drop found.start) (by rw [length_drop]; omega))
    rw [hdrop] at hword
    obtain rfl : 'e' = c := (cons_prefix_cons.1 hword).1
    have hmem : 'e' ∈ cut.lead := mem_of_mem_drop (hdrop ▸ mem_cons_self)
    exact absurd (cut.lead_blank 'e' hmem) (by decide)
  have hlast : found.start < declaration.stop - cut.new := by
    by_contra hle
    -- the word would stand among the blanks after the declaration
    have hmem : 'e' ∈ cut.lines.drop found.start :=
      (hplaced.source_word (masks_of_shape cut.lines_shape)).subset (by decide)
    have hsuffix : cut.lines.drop found.start <:+ cut.lines.drop (declaration.stop - cut.new) :=
      drop_suffix_drop_left _ (by omega)
    exact absurd (hblank 'e' (hsuffix.subset hmem)) (by decide)
  have hbounds := (bounds_of_mem_declarationsOf hfound).1
  have hstart := h.start
  have hfront := cut.length_front
  simp only [Declaration.shift, new] at hlast ⊢
  omega

end

/-- The others are all declarations but the one that goes. -/
theorem Holds.others_declarations (h : cut.Holds declaration)
    (hparse : parse cut.text = .ok m) {before after : List Declaration}
    (hmem : m.declarations = before ++ declaration :: after) (hapart : ∀ other ∈ before ++ after,
      other.stop ≤ declaration.start ∨ declaration.stop ≤ other.start) :
    cut.others.declarations = before ++ after := by
  have hall := (cut.sameStatements_of_parse hparse).declarations
  obtain ⟨hlt, hstop⟩ := cut.bounds_of_parse hparse (hmem ▸ mem_append_right _ mem_cons_self)
  have hold := (h.stop_le hstop hlt).1
  have hfront := cut.length_front
  have hstart := h.start
  -- both sides are what does not overlap the declaration
  have hothers : m.declarations.filter (fun other =>
      decide (other.stop ≤ declaration.start ∨ declaration.stop ≤ other.start)) =
      cut.others.declarations := by
    simp only [join, exportsOf] at hall
    -- what comes before ends before it, what the lines declare overlaps it, the rest follows it
    rw [hall, filter_append, map_append, filter_append, filter_eq_self.2,
      filter_eq_nil_iff.2, filter_eq_self.2]
    · rfl
    · intro other hother
      obtain ⟨found, hfound, rfl⟩ := mem_map.1 hother
      obtain ⟨found, -, rfl⟩ := mem_map.1 hfound
      refine decide_eq_true (.inr ?_)
      simp only [Declaration.shift]
      rw [old] at hold
      omega
    · intro other hother
      obtain ⟨found, hfound, rfl⟩ := mem_map.1 hother
      have hoverlap := h.overlap hstop hlt hfound
      rw [decide_eq_true_eq]
      rw [new] at hoverlap
      omega
    · intro other hother
      have hbounds := (bounds_of_mem_declarationsOf hother).2
      exact decide_eq_true (.inl (by omega))
  rw [← hothers, hmem, filter_append, filter_cons_of_neg, ← filter_append,
    filter_eq_self.2]
  · exact fun other hother => decide_eq_true (hapart other hother)
  · rw [decide_eq_true_eq]
    omega

end Cutout

/-- If a declaration goes with whole lines, no others overlap it and no other statements stand in
these lines, then what is left can be read, and every other statement is found in it again. -/
theorem delete_keeps_statements (cut : Cutout) {m : Module} {declaration : Declaration}
    {before after : List Declaration} (hparse : parse cut.text = .ok m)
    (hmem : m.declarations = before ++ declaration :: after)
    (hapart : ∀ other ∈ before ++ after,
      other.stop ≤ declaration.start ∨ declaration.stop ≤ other.start)
    (hholds : cut.Holds declaration) :
    ∃ edited m', deleteDeclaration cut.text declaration = .ok edited ∧ parse edited = .ok m' ∧
      m'.SameStatements ({ m with declarations := before ++ after }.move cut.old cut.new) := by
  obtain ⟨-, hstop⟩ := cut.bounds_of_parse hparse (hmem ▸ mem_append_right _ mem_cons_self)
  obtain ⟨m', hparse', hsame⟩ := cut.exists_parse_left hparse hholds.imports
  have hall := cut.sameStatements_of_parse hparse
  have hreexports : m.reexports = cut.others.reexports := by
    rw [hall.reexports]
    simp [Cutout.others, join, exportsOf, hholds.reexports]
  have hlists : m.localExports = cut.others.localExports := by
    rw [hall.localExports]
    simp [Cutout.others, join, exportsOf, hholds.localExports]
  have hdeclarations := hholds.others_declarations hparse hmem hapart
  refine ⟨_, m', hholds.deleteDeclaration_eq hstop, hparse', hsame.imports, ?_, ?_, ?_⟩
  · simpa only [move, hreexports] using hsame.reexports
  · simpa only [move, hlists] using hsame.localExports
  · simpa only [move, hdeclarations] using hsame.declarations

/-- A function with its documentation, between statements without semicolons. -/
def documentedCut : Cutout where
  front := "import \x7b x \x7d from './x'\nexport const one = x\n".toList
  lines := "/** Two. */\nexport function two() \x7b\n  return 2\n\x7d\n".toList
  back := "export \x7b x \x7d\n".toList
  frontShape := "import \x7b x \x7d from '   '\nexport const one = x\n".toList
  lead := "           \n".toList
  rest := " function two() \x7b\n  return 2\n\x7d\n".toList
  backShape := "export \x7b x \x7d\n".toList
  front_finished := by decide +kernel
  lines_shape := by decide +kernel
  lines_finished := .inr (by decide +kernel)
  lead_blank := all_eq_true.1 (by decide)
  back_shape := by decide +kernel
  back_fresh := by decide +kernel

/-- What the text of `documentedCut` says. -/
def documentedModule : Module where
  imports := [⟨"./x", some ⟨none, none, [("x", "x")]⟩, false⟩]
  localExports := [⟨94, 106, [⟨"x", "x", "x"⟩], false⟩]
  declarations := [⟨"one", .constant, 24, 44, 31⟩, ⟨"two", .function, 57, 93, 64⟩]

theorem delete_keeps_statements_documented : ∃ edited m',
    deleteDeclaration documentedCut.text ⟨"two", .function, 57, 93, 64⟩ = .ok edited ∧
      parse edited = .ok m' ∧
      m'.SameStatements {
        imports := documentedModule.imports
        localExports := [⟨45, 57, [⟨"x", "x", "x"⟩], false⟩]
        declarations := [⟨"one", .constant, 24, 44, 31⟩] } := by
  have hparse : parse documentedCut.text = .ok documentedModule := by decide +kernel
  have hholds : documentedCut.Holds ⟨"two", .function, 57, 93, 64⟩ :=
    ⟨by decide, by decide +kernel, by decide +kernel, by decide +kernel, by decide +kernel,
      by decide +kernel⟩
  have hmem : documentedModule.declarations =
      [⟨"one", .constant, 24, 44, 31⟩] ++ ⟨"two", .function, 57, 93, 64⟩ :: [] := rfl
  exact delete_keeps_statements documentedCut hparse hmem (by decide) hholds

/-- A line break in a template is taken for the end of a declaration: once the declaration is
deleted, the rest of the template begins another one, which is never closed. -/
theorem template_is_cut : ∃ m edited declaration other,
    parse "export const text = `one\ntwo`;\nexport const used = 1;\n".toList = .ok m ∧
      m.declarations = [declaration, other] ∧ declaration.kind = .constant ∧
      declaration.stop ≤ other.start ∧
      deleteDeclaration "export const text = `one\ntwo`;\nexport const used = 1;\n".toList
        declaration = .ok edited ∧ parse edited = .error (.openTemplate 3) := by
  refine ⟨{ declarations := [⟨"text", .constant, 0, 24, 7⟩, ⟨"used", .constant, 31, 53, 38⟩] },
    "two`;\nexport const used = 1;\n".toList, _, _, ?_, rfl, rfl, ?_, ?_, ?_⟩ <;> decide +kernel

end Deadwood.Module

import Deadwood.Proofs.Nesting

/-!
# How deep declarations are nested

Declarations are looked for at every word `export` of the shape, in brackets or not. In a
well-nested shape each of them is nested as a whole: as many brackets are open where it ends as
where it begins. All begin outside of brackets if no word `export` stands in them
(`declaration_depths`); otherwise the module gives out what a namespace in it exports
(`namespace_gives_out`).
-/

set_option autoImplicit false

namespace Deadwood.Module

open Text List

/-! ## Open brackets -/

/-- How many brackets are open after the first `n` characters. -/
def depthAt (masked : List Char) (n : Nat) : Option Nat :=
  (openAfter [] (masked.take n)).map length

variable {masked : List Char} {start stop : Nat}

/-- As many brackets are open where a well-nested part ends as where it begins. -/
theorem depthAt_eq_of_wellNested (hle : start ≤ stop)
    (hpart : WellNested ((masked.take stop).drop start)) :
    depthAt masked stop = depthAt masked start := by
  have hsplit : masked.take stop = masked.take start ++ (masked.take stop).drop start := by
    conv_lhs => rw [← take_append_drop start (masked.take stop)]
    rw [take_take, Nat.min_eq_left hle]
  unfold depthAt
  rw [hsplit, openAfter_append]
  cases openAfter [] (masked.take start) with
  | none => rfl
  | some stack => rw [Option.bind_some, hpart.openAfter]

/-! ## Declarations -/

/-- The word `export` stands free at a place, and a blank follows it. -/
def ExportAt (masked : List Char) (n : Nat) : Prop :=
  ∃ front rest, masked = front ++ ("export".toList ++ rest) ∧ front.length = n ∧
    standsFree front.getLast? = true ∧ rest.head?.any isBlank = true

theorem not_bracket_of_isWordText {c : Char} (h : Cursor.isWordText c) :
    isOpening c = false ∧ isClosing c = false := by
  constructor <;>
  · refine Bool.eq_false_iff.2 fun hbracket => ?_
    simp only [isOpening, isClosing, Bool.or_eq_true, decide_eq_true_eq] at hbracket
    rcases hbracket with (rfl | rfl) | rfl <;> exact absurd h (by decide)

variable {source : List Char} {declaration : Declaration}

/-- The extent of a declaration is followed from a place behind the words of its head. -/
theorem Head.exists_words {head : Head} (h : head ∈ scan standsFree head? masked)
    (hmem : declaration ∈ head.declarations source masked) :
    ∃ front rest last kind, masked = front ++ rest ∧ declaration.start = front.length ∧
      Cursor.OverWords ⟨front.length, rest⟩ last ∧
      declaration.stop = declarationEnd masked last.offset kind := by
  obtain ⟨front, rest, next, hsplit, -, hread⟩ := mem_scan h
  rw [head?_eq] at hread
  obtain ⟨qualifier, hword, heq⟩ := Option.map_eq_some_iff.1 hread
  cases heq
  have hstart := (Head.mem_declarations hmem).1
  have hwords := (overWords_of_spacedWord? hword (by decide)).trans overWords_afterModifiers
  -- it is followed from the end of the head, but for variables from the end of their kind
  have hextent := Head.stop_mem_extent? hmem
  unfold Head.extent? at hextent
  split at hextent
  · exact ⟨front, rest, _, _, hsplit, hstart, hwords.trans overWords_kindAndName,
      (Option.some.inj hextent).symm⟩
  · obtain ⟨⟨kind, kindStop⟩, hkind, hextent⟩ := Option.bind_eq_some_iff.1 hextent
    simp only at hextent
    split at hextent
    · obtain ⟨last, hlast, rfl⟩ := exists_kind?_of_kindAndName hkind
      exact ⟨front, rest, last, kind, hsplit, hstart, hwords.trans (overWords_of_kind? hlast),
        (Option.some.inj hextent).symm⟩
    · split at hextent
      · cases hextent
      · exact ⟨front, rest, _, kind, hsplit, hstart, hwords.trans overWords_kindAndName,
          (Option.some.inj hextent).symm⟩

/-- What a declaration spans is well nested: the words of its head hold no brackets, and what
follows them is well nested. -/
theorem wellNested_of_mem_declarationsOf (hmasked : WellNested masked)
    (h : declaration ∈ declarationsOf source masked) : declaration.start ≤ declaration.stop ∧
      WellNested ((masked.take declaration.stop).drop declaration.start) := by
  obtain ⟨head, hhead, hmem⟩ := mem_flatMap.1 h
  obtain ⟨front, rest, last, kind, rfl, hstart, ⟨piece, hspans, hpiece⟩, hstop⟩ :=
    Head.exists_words hhead hmem
  have hoffset : last.offset = (front ++ piece).length := by
    rw [hspans.offset_eq, length_append]
  have hrest : rest = piece ++ last.rest := hspans.rest_eq
  rw [hrest, ← append_assoc] at hmasked hstop ⊢
  obtain ⟨hle, -, hpart, -⟩ := declarationEnd_wellNested hmasked
    (show last.offset ≤ _ by rw [hoffset]; simp) kind
  rw [← hstop] at hle hpart
  rw [hoffset, length_append] at hle
  refine ⟨by omega, ?_⟩
  have hsplit : ((front ++ piece ++ last.rest).take declaration.stop).drop declaration.start =
      piece ++ ((front ++ piece ++ last.rest).take declaration.stop).drop last.offset := by
    rw [hoffset, hstart, take_append, take_of_length_le (by simpa using hle),
      append_assoc, drop_left, ← append_assoc, drop_left]
  rw [hsplit]
  exact (WellNested.of_plain fun c hc => not_bracket_of_isWordText (hpiece c hc)).append hpart

theorem exportAt_of_mem_declarationsOf (h : declaration ∈ declarationsOf source masked) :
    ExportAt masked declaration.start := by
  obtain ⟨head, hhead, hmem⟩ := mem_flatMap.1 h
  obtain ⟨front, rest, next, hsplit, hfree, hread⟩ := mem_scan hhead
  obtain ⟨hstart, mid, qualifier, blanks, hexport, hruns, hne, -⟩ := head?_spec hread
  have hrest : rest = "export".toList ++ mid.rest := hexport.rest_eq
  refine ⟨front, mid.rest, by rw [hsplit, hrest], ?_, hfree, ?_⟩
  · rw [(Head.mem_declarations hmem).1, hstart]
  · obtain ⟨c, blanks, rfl⟩ := exists_cons_of_ne_nil hne
    rw [hruns.rest_eq]
    exact hruns.all c mem_cons_self

/-- The declarations of a well-nested module are nested as a whole: what one spans is well nested,
so that as many brackets are open where it ends as where it begins. If no word `export` stands in
brackets, no declaration does. -/
theorem declaration_depths {source : List Char} {m : Module} (hparse : parse source = .ok m)
    (hshape : shape source = .ok masked) (hnested : WellNested masked) :
    (∀ declaration ∈ m.declarations,
        WellNested ((masked.take declaration.stop).drop declaration.start) ∧
          depthAt masked declaration.stop = depthAt masked declaration.start) ∧
      ((∀ n, ExportAt masked n → depthAt masked n = some 0) →
        ∀ declaration ∈ m.declarations, depthAt masked declaration.start = some 0) := by
  obtain ⟨masked', hshape', rfl⟩ := parse_eq_ok_iff.1 hparse
  obtain rfl := Except.ok.inj (hshape.symm.trans hshape')
  constructor
  · intro declaration hmem
    obtain ⟨hle, hpart⟩ := wellNested_of_mem_declarationsOf hnested hmem
    exact ⟨hpart, depthAt_eq_of_wellNested hle hpart⟩
  · intro hexports declaration hmem
    exact hexports _ (exportAt_of_mem_declarationsOf hmem)

/-- What a namespace exports is nested in it as a whole. -/
theorem declaration_depths_inner : ∃ m masked,
    parse "export namespace N \x7b export const x = [1]; \x7d".toList = .ok m ∧
      shape "export namespace N \x7b export const x = [1]; \x7d".toList = .ok masked ∧
      WellNested masked ∧ ⟨"x", .constant, 21, 42, 28⟩ ∈ m.declarations ∧
      WellNested ((masked.take 42).drop 21) ∧ depthAt masked 42 = depthAt masked 21 := by
  have hparse : parse "export namespace N \x7b export const x = [1]; \x7d".toList =
      .ok { declarations := [⟨"N", .scope, 0, 44, 7⟩, ⟨"x", .constant, 21, 42, 28⟩] } := by
    decide +kernel
  have hshape : shape "export namespace N \x7b export const x = [1]; \x7d".toList =
      .ok "export namespace N \x7b export const x = [1]; \x7d".toList := by
    decide +kernel
  have hnested : WellNested "export namespace N \x7b export const x = [1]; \x7d".toList := by
    decide +kernel
  exact ⟨_, _, hparse, hshape, hnested, by simp,
    (declaration_depths hparse hshape hnested).1 ⟨"x", .constant, 21, 42, 28⟩ (by simp)⟩

/-- What a namespace exports is listed among the exports of the module. -/
theorem namespace_gives_out : ∃ m masked,
    parse "export namespace N \x7b export const x = 1; \x7d".toList = .ok m ∧
      shape "export namespace N \x7b export const x = 1; \x7d".toList = .ok masked ∧
      WellNested masked ∧ m.exportedNames = ["N", "x"] ∧
      ∃ declaration ∈ m.declarations, depthAt masked declaration.start = some 1 := by
  refine ⟨{ declarations := [⟨"N", .scope, 0, 42, 7⟩, ⟨"x", .constant, 21, 40, 28⟩] },
    "export namespace N \x7b export const x = 1; \x7d".toList, ?_, ?_, ?_, ?_, ?_⟩ <;>
    decide +kernel

end Deadwood.Module

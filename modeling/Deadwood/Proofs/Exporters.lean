import Deadwood.Proofs.Joining

/-!
# Where a name is exported

A statement that exports a name begins with the word `export`, so a text exports nothing where the
word does not stand (`wordAt_of_mem_exporters`). What is put together of two texts exports a name
where the parts do (`mem_exporters_join`).
-/

set_option autoImplicit false

namespace Deadwood.Module

open Text Reference
open List hiding Cursor

variable {source source' masked more : List Char} {name : String} {start : Nat}

/-! ## Where a name is exported -/

variable {m : Module} {next here : Cursor}

/-- The exports of a text with the shape `masked`. -/
def exportsOf (source masked : List Char) : Module where
  reexports := reexportsOf source masked
  localExports := localExportsOf masked
  declarations := declarationsOf source masked

/-- The exports of a text that begins with those of `first` and goes on after `n` characters with
those of `second`. -/
def join (first : Module) (n : Nat) (second : Module) : Module where
  reexports := first.reexports ++ second.reexports.map (Reexport.shift n)
  localExports := first.localExports ++ second.localExports.map (LocalExports.shift n)
  declarations := first.declarations ++ second.declarations.map (Declaration.shift n)

/-- What a text exports that goes on after a settled one in which all declarations end. -/
theorem exportsOf_append (hsettled : Settled masked)
    (hheads : ∀ head ∈ scan standsFree head? masked, head.EndsIn masked) (hfresh : Fresh more)
    (hlength : source.length = masked.length) : exportsOf (source ++ source') (masked ++ more) =
      (exportsOf source masked).join masked.length (exportsOf source' more) := by
  simp only [exportsOf, join, reexportsOf_append hsettled hfresh hlength,
    localExportsOf_append hsettled hfresh, declarationsOf_append hsettled hheads hfresh hlength]

/-- The word `export` stands free at a place of the shape, with a blank after it. -/
structure WordAt (masked : List Char) (start : Nat) : Prop where
  exists_split : ∃ front after, masked = front ++ "export".toList ++ after ∧ start = front.length ∧
    isEdge front.getLast? = true ∧ isEdge after.head? = true

/-- No token ends where a statement may begin. -/
theorem isEdge_of_standsFree {c : Option Char} (h : standsFree c) : isEdge c := by
  refine isEdge_of_not_isIdent fun d hd => ?_
  rw [standsFree, hd] at h
  simp only [Option.all_some, Bool.not_eq_true', Bool.or_eq_false_iff] at h
  exact h.1

/-- A word is read where it stands. -/
theorem wordAt_of_spacedWord? {front rest : List Char} (hmasked : masked = front ++ rest)
    (hfree : standsFree front.getLast?)
    (h : spacedWord? "export" ⟨front.length, rest⟩ = some next) : WordAt masked front.length := by
  obtain ⟨mid, blanks, hexport, hne, hruns⟩ := spacedWord?_iff.1 h
  refine ⟨front, mid.rest, ?_, rfl, isEdge_of_standsFree hfree, ?_⟩
  · rw [hmasked, show rest = "export".toList ++ mid.rest from hexport.rest_eq, append_assoc]
  · obtain ⟨c, blanks, rfl⟩ := exists_cons_of_ne_nil hne
    rw [hruns.rest_eq]
    refine isEdge_of_isBlank fun d hd => ?_
    obtain rfl : c = d := by simpa using hd
    exact hruns.all c mem_cons_self

/-- What is found by a recogniser that begins with the word is found where the word stands. -/
theorem mem_scan_word {α : Type} {recognise : Cursor → Option (α × Cursor)}
    (hword : ∀ {here a next}, recognise here = some (a, next) →
      ∃ qualifier, spacedWord? "export" here = some qualifier)
    {a : α} (h : a ∈ scan standsFree recognise masked) :
    ∃ front rest next, masked = front ++ rest ∧ WordAt masked front.length ∧
      recognise ⟨front.length, rest⟩ = some (a, next) := by
  obtain ⟨front, rest, next, hmasked, hfree, hread⟩ := mem_scan h
  obtain ⟨qualifier, hqualifier⟩ := hword hread
  exact ⟨front, rest, next, hmasked, wordAt_of_spacedWord? hmasked hfree hqualifier, hread⟩

theorem exists_word_of_head? {head : Head} (h : head? here = some (head, next)) :
    ∃ qualifier, spacedWord? "export" here = some qualifier := by
  rw [head?_eq] at h
  obtain ⟨qualifier, hword, -⟩ := Option.map_eq_some_iff.1 h
  exact ⟨qualifier, hword⟩

theorem exists_word_of_localList? {form : Option ListForm}
    (h : localList? here = some (form, next)) :
    ∃ qualifier, spacedWord? "export" here = some qualifier := by
  obtain ⟨qualifier, -, hword, -⟩ := localList?_cases h
  exact ⟨qualifier, hword⟩

theorem exists_word_of_reexportForm? {form : ReexportForm}
    (h : reexportForm? here = some (form, next)) :
    ∃ qualifier, spacedWord? "export" here = some qualifier := by
  obtain ⟨qualifier, -, hword, -⟩ := reexportForm?_cases h
  exact ⟨qualifier, hword⟩

/-- A list of exports begins with the word. -/
theorem wordAt_of_mem_localExportsOf {list : LocalExports} (h : list ∈ localExportsOf masked) :
    WordAt masked list.start := by
  obtain ⟨form?, hform, hlist⟩ := mem_filterMap.1 h
  obtain ⟨form, rfl, rfl⟩ := Option.map_eq_some_iff.1 hlist
  obtain ⟨front, rest, next, -, hword, hread⟩ := mem_scan_word exists_word_of_localList? hform
  simp only [(localList?_spec hread).1]
  exact hword

/-- A re-export begins with the word. -/
theorem wordAt_of_mem_reexportsOf {statement : Reexport}
    (h : statement ∈ reexportsOf source masked) :
    WordAt masked statement.start := by
  obtain ⟨form, hform, rfl⟩ := mem_map.1 h
  obtain ⟨front, rest, next, -, hword, hread⟩ := mem_scan_word exists_word_of_reexportForm? hform
  simp only [(reexportForm?_spec hread).1]
  exact hword

theorem WordAt.stands (h : WordAt masked start) : Stands "export".toList masked := by
  obtain ⟨front, after, hmasked, -, hfront, hafter⟩ := h.exists_split
  exact stands_iff.2 ⟨front, after, hmasked, hfront, hafter⟩

theorem WordAt.lt (h : WordAt masked start) : start < masked.length := by
  obtain ⟨front, after, rfl, rfl, -, -⟩ := h.exists_split
  simp only [length_append]
  have : "export".toList.length = 6 := rfl
  omega

/-- Two words do not overlap. -/
theorem isPrefix_of_word_eq {piece rest after : List Char} (hne : piece ≠ [])
    (h : "export".toList ++ rest = piece ++ ("export".toList ++ after)) :
    "export".toList <+: piece := by
  rcases piece with _ | ⟨a, _ | ⟨b, _ | ⟨c, _ | ⟨d, _ | ⟨e, _ | ⟨f, piece⟩⟩⟩⟩⟩⟩
  · exact absurd rfl hne
  iterate 5 simp at h
  · obtain ⟨rfl, rfl, rfl, rfl, rfl, rfl, -⟩ : _ ∧ _ ∧ _ ∧ _ ∧ _ ∧ _ ∧ _ := by simpa using h
    exact ⟨piece, rfl⟩

/-- Where the word stands in a shape, if it stands once and only blanks come before it. -/
theorem WordAt.eq_length {lead rest : List Char}
    (h : WordAt (lead ++ "export".toList ++ rest) start) (hlead : ∀ c ∈ lead, isBlank c)
    (hrest : ¬ Stands "export".toList rest) : start = lead.length := by
  obtain ⟨front, after, hsplit, rfl, hfront, hafter⟩ := h.exists_split
  rw [append_assoc, append_assoc, append_eq_append_iff] at hsplit
  rcases hsplit with ⟨piece, rfl, hpiece⟩ | ⟨piece, rfl, hpiece⟩
  · by_cases hne : piece = []
    · simp [hne]
    · -- the word would stand a second time
      obtain ⟨between, rfl⟩ := isPrefix_of_word_eq hne hpiece
      have hrest' := append_cancel_left hpiece
      refine absurd (stands_iff.2 ⟨between, after, by simpa using hrest', ?_, hafter⟩) hrest
      cases hlast : between.getLast? with
      | none => rfl
      | some c =>
        rw [getLast?_append, getLast?_append, hlast] at hfront
        exact hfront
  · cases piece with
    | nil => simp
    | cons c piece =>
      -- the word would begin with a blank
      obtain rfl : c = 'e' := by
        have hhead := congrArg List.head? hpiece
        simpa using hhead.symm
      exact absurd (hlead 'e' (by simp)) (by decide)

/-- A statement begins inside the text. -/
theorem Placed.lt {stop : Nat} (h : Placed masked start stop) : start < masked.length := by
  obtain ⟨front, piece, rest, rfl, rfl, -⟩ := h.exists_split
  simp only [length_append]
  have hword : "export".toList.length = 6 := rfl
  omega

/-- What begins in the middle part of three belongs to it. -/
theorem mem_middle {α : Type} {begins : α → Nat} {shift : Nat → α → α}
    (hshift : ∀ n a, begins (shift n a) = begins a + n) {fronts lines backs : List α} {f l k : Nat}
    {a : α} (hfront : ∀ b ∈ fronts, begins b < f) (hk : k < l) (ha : begins a = k + f)
    (h : a ∈ fronts ++ (lines ++ backs.map (shift l)).map (shift f)) :
    ∃ b ∈ lines, a = shift f b := by
  rcases mem_append.1 h with h | h
  · have := hfront a h
    omega
  · obtain ⟨b, hb, rfl⟩ := mem_map.1 h
    rcases mem_append.1 hb with hb | hb
    · exact ⟨b, hb, rfl⟩
    · obtain ⟨c, -, rfl⟩ := mem_map.1 hb
      rw [hshift, hshift] at ha
      omega

theorem shape_nil : shape [] = .ok [] := shape_eq_ok_iff.2 ⟨by simp, [], .nil, rfl⟩

theorem eq_nil_of_shape_nil (h : shape [] = .ok masked) : masked = [] :=
  (Except.ok.inj (shape_nil.symm.trans h)).symm

theorem exportsOf_nil : exportsOf [] [] = {} := by
  simp [exportsOf, declarationsOf, localExportsOf, reexportsOf, scan, scanFrom]

/-- Blanks carry no statement on. -/
theorem Fresh.blank_append (h : Fresh more) (hblank : ∀ c ∈ masked, isBlank c) :
    Fresh (masked ++ more) := by
  have htrim : trimStart (masked ++ more) = trimStart more := by
    rw [trimStart, dropWhile_append_of_pos hblank]
    rfl
  exact ⟨htrim ▸ h.head, htrim ▸ h.word⟩

theorem Fresh.append (hfirst : Fresh masked) (hline : masked = [] ∨ masked.getLast? = some '\n')
    (hmore : Fresh more) : Fresh (masked ++ more) := by
  by_cases hblank : ∀ c ∈ masked, isBlank c
  · exact hmore.blank_append hblank
  · have hne : trimStart masked ≠ [] := fun hnil => hblank (dropWhile_eq_nil_iff.1 hnil)
    have htrim : trimStart (masked ++ more) = trimStart masked ++ more := by
      rw [trimStart, dropWhile_append, if_neg (by simpa [trimStart] using hne)]
      rfl
    obtain ⟨c, rest, hcons⟩ := exists_cons_of_ne_nil hne
    refine ⟨?_, fun hword => ?_⟩
    · intro d hd
      refine hfirst.head d ?_
      rw [htrim, hcons] at hd
      rwa [hcons]
    · rw [htrim] at hword
      rcases prefix_or_prefix_of_prefix hword (prefix_append _ _) with h | h
      · exact hfirst.word h
      · -- the word would hold the line break
        have hlast : (trimStart masked).getLast? = some '\n' := by
          obtain ⟨front, hfront⟩ := dropWhile_suffix (p := isBlank) (l := masked)
          have hmasked := hline.resolve_left (by rintro rfl; exact hne rfl)
          rw [← hfront, getLast?_append] at hmasked
          cases hlast : (masked.dropWhile isBlank).getLast? with
          | none => exact absurd (getLast?_eq_none_iff.1 hlast) hne
          | some d =>
            rw [hlast, Option.some_or] at hmasked
            exact hlast.trans hmasked
        exact absurd (h.subset (mem_of_getLast? hlast)) (by decide)

/-- Lines begin anew with the word `export`. -/
theorem fresh_export {lead rest : List Char} (hlead : ∀ c ∈ lead, isBlank c) :
    Fresh (lead ++ "export".toList ++ rest) := by
  have htrim : trimStart (lead ++ "export".toList ++ rest) = "export".toList ++ rest := by
    rw [append_assoc, trimStart, dropWhile_append_of_pos hlead]
    rfl
  refine ⟨?_, ?_⟩
  · rw [htrim]
    intro c hc
    obtain rfl : 'e' = c := by simpa using hc
    decide
  · rw [htrim]
    simp

end Deadwood.Module

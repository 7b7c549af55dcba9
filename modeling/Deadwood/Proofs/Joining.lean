import Deadwood.Proofs.Extents

/-!
# Modules that are put together

A text that goes on after a settled one exports what the first part exports, and then what the rest
exports, moved by the length of the first part. This holds for re-exports (`reexportsOf_append`),
for lists of local exports (`localExportsOf_append`) and, if those of the first part end in it
(`Head.EndsIn`), for declarations (`declarationsOf_append`), with all their offsets.
-/

set_option autoImplicit false

namespace Deadwood.Module

open Text Reference
open List hiding Cursor

variable {source source' masked more : List Char} {n : Nat}

/-! ## Re-exports -/

/-- The re-export after `n` more characters. -/
def Reexport.shift (n : Nat) (statement : Reexport) : Reexport :=
  { statement with start := statement.start + n, stop := statement.stop + n }

/-- A text after `n` characters is cut as the text is. -/
theorem take_drop_shift (front text : List Char) (start stop : Nat) :
    ((front ++ text).take (stop + front.length)).drop (start + front.length) =
      (text.take stop).drop start := by
  rw [Nat.add_comm stop, take_length_add_append, Nat.add_comm start,
    drop_length_add_append]

/-- A re-export lies in the text in which it is found, with its literal. -/
theorem stop_le_of_mem_scan {form : ReexportForm}
    (h : form ∈ scan standsFree reexportForm? masked) :
    form.literal.stop ≤ form.stop ∧ form.stop ≤ masked.length := by
  obtain ⟨front, rest, next, rfl, -, hread⟩ := mem_scan h
  obtain ⟨-, hstop, hliteral, -⟩ := reexportForm?_spec hread
  have hle := (reaches_of_reexportForm? hread).le.2
  simp only [length_append] at hle ⊢
  omega

/-- The re-exports of a text that goes on after a settled one. -/
theorem reexportsOf_append (hsettled : Settled masked) (hfresh : Fresh more)
    (hlength : source.length = masked.length) : reexportsOf (source ++ source') (masked ++ more) =
      reexportsOf source masked ++
        (reexportsOf source' more).map (Reexport.shift masked.length) := by
  have hscan : scan standsFree reexportForm? (masked ++ more) =
      scan standsFree reexportForm? masked ++
        (scan standsFree reexportForm? more).map (ReexportForm.shift masked.length) :=
    scan_append (f := ReexportForm.shift) hsettled (fun _ => rfl)
      (fun _ h => (hsettled.carrier hfresh).reexportForm?_move h)
      reaches_of_reexportForm? fun _ => reexportForm?_shift
  simp only [reexportsOf, hscan, map_append, map_map]
  congr 1
  · refine map_congr_left fun form hform => ?_
    have hle := stop_le_of_mem_scan hform
    simp only [Literal.specifier]
    rw [take_append_of_le_length (by omega)]
  · refine map_congr_left fun form _ => ?_
    have hspecifier : (form.literal.shift masked.length).specifier (source ++ source') =
        form.literal.specifier source' := by
      simp only [Literal.specifier, Literal.shift, ← hlength, take_drop_shift]
    simp only [Function.comp_apply, ReexportForm.shift, Reexport.shift, hspecifier]
    rfl

/-! ## Lists of local exports -/

/-- The list after `n` more characters. -/
def LocalExports.shift (n : Nat) (statement : LocalExports) : LocalExports :=
  { statement with start := statement.start + n, stop := statement.stop + n }

/-- The lists of local exports of a text that goes on after a settled one. -/
theorem localExportsOf_append (hsettled : Settled masked) (hfresh : Fresh more) :
    localExportsOf (masked ++ more) =
      localExportsOf masked ++ (localExportsOf more).map (LocalExports.shift masked.length) := by
  have hscan : scan standsFree localList? (masked ++ more) =
      scan standsFree localList? masked ++
        (scan standsFree localList? more).map (Option.map (ListForm.shift masked.length)) :=
    scan_append (f := fun n => Option.map (ListForm.shift n)) hsettled
      (fun form => by cases form <;> rfl) (fun _ h => (hsettled.carrier hfresh).localList?_move h)
      reaches_of_localList? fun _ => localList?_shift
  simp only [localExportsOf, hscan, filterMap_append, filterMap_map, map_filterMap]
  congr 1
  refine filterMap_congr fun form _ => ?_
  cases form <;> rfl

/-! ## Places of heads -/

/-- The word `export` stands before a position of the text, and nothing that comes before the word
matters for what follows. -/
structure Anchored (masked : List Char) (position : Nat) : Prop where
  le : position ≤ masked.length
  anchor : 2 ≤ ((masked.take position).reverse.dropWhile isBlank).length

theorem le_length_dropWhile {c : Char} (hc : isBlank c = false) (front rest : List Char) :
    (c :: rest).length ≤ ((front ++ c :: rest).dropWhile isBlank).length := by
  induction front with
  | nil => rw [nil_append, dropWhile_cons_of_neg (by simp [hc])]
  | cons d front ih =>
    rw [cons_append, dropWhile_cons]
    split
    · exact ih
    · simp only [length_cons, length_append]
      omega

variable {front front' : List Char} {here : Cursor} {head : Head}

theorem anchored_of_reaches {rest : List Char} {mid last : Cursor}
    (hmasked : masked = front ++ rest)
    (hexport : Cursor.Spans ⟨front.length, rest⟩ "export".toList mid) (hreach : mid.Reaches last) :
    Anchored masked last.offset := by
  obtain ⟨piece, hpiece⟩ := hreach
  have hrest : rest = "export".toList ++ piece ++ last.rest := (hexport.trans hpiece).rest_eq
  have hoffset : last.offset = (front ++ "export".toList ++ piece).length := by
    have h := (hexport.trans hpiece).offset_eq
    simp only [length_append] at h ⊢
    omega
  have hsplit : masked = front ++ "export".toList ++ piece ++ last.rest := by
    rw [hmasked, hrest]
    simp only [append_assoc]
  refine ⟨?_, ?_⟩
  · rw [hsplit, hoffset]
    exact (prefix_append _ _).length_le
  · rw [hsplit, hoffset, take_left]
    have hreverse : (front ++ "export".toList ++ piece).reverse =
        piece.reverse ++ 't' :: ("ropxe".toList ++ front.reverse) := by
      simp
    rw [hreverse]
    refine le_trans ?_ (le_length_dropWhile (by decide) _ _)
    simp

/-- The kind of a head ends where its words do. -/
theorem exists_kind?_of_kindAndName {kind : DeclarationKind} {stop : Nat}
    (h : (kindAndName here).1 = some (kind, stop)) :
    ∃ last, kind? here = some (kind, last) ∧ last.offset = stop := by
  unfold kindAndName at h
  split at h
  · cases h
  · rename_i kind' next hkind
    cases h
    exact ⟨next, hkind, rfl⟩

/-- Where the extents of what a head declares begin. -/
structure Head.Stands (masked : List Char) (head : Head) : Prop where
  stop : Anchored masked head.stop
  kind : ∀ {kind stop}, head.kind = some (kind, stop) → Anchored masked stop

theorem Head.stands_of_mem_scan (h : head ∈ scan standsFree head? masked) : head.Stands masked := by
  obtain ⟨front, rest, next, hmasked, -, hread⟩ := mem_scan h
  rw [head?_eq] at hread
  obtain ⟨qualifier, hword, heq⟩ := Option.map_eq_some_iff.1 hread
  cases heq
  obtain ⟨mid, blanks, hexport, -, hruns⟩ := spacedWord?_iff.1 hword
  have hqualifier : mid.Reaches qualifier := ⟨_, hruns.toSpans⟩
  refine ⟨anchored_of_reaches hmasked hexport
    (hqualifier.trans (overWords_afterModifiers.trans overWords_kindAndName).reaches),
    fun hkind => ?_⟩
  obtain ⟨last, hlast, rfl⟩ := exists_kind?_of_kindAndName hkind
  exact anchored_of_reaches hmasked hexport
    (hqualifier.trans (overWords_afterModifiers.trans (overWords_of_kind? hlast)).reaches)

/-- Where what a head declares ends, if it declares anything. -/
def Head.extent? (masked : List Char) (head : Head) : Option Nat :=
  if head.isDefault then
    some (declarationEnd masked head.stop ((head.kind.map Prod.fst).getD .default))
  else
    head.kind.bind fun (kind, kindStop) =>
      if kind.isVariable then some (declarationEnd masked kindStop kind)
      else if head.name.isEmpty then none
      else some (declarationEnd masked head.stop kind)

/-- What a head declares ends before the text does, and so does each pattern of a variable
statement. -/
structure Head.EndsIn (masked : List Char) (head : Head) : Prop where
  extent : ∀ stop ∈ head.extent? masked, stop < masked.length
  patterns : ∀ found ∈ head.kind, found.1.isVariable = true →
    ∀ pair ∈ declarators 0 found.2
      ((masked.take (declarationEnd masked found.2 found.1)).drop found.2),
    patternCloses masked pair.1 pair.2 = true

/-! ## Declarations -/

/-- The names of a variable statement whose patterns are closed do not depend on what follows. -/
theorem variableNames_extend (hlength : source.length = masked.length) {start stop : Nat}
    (hcloses : ∀ pair ∈ declarators 0 start ((masked.take stop).drop start),
      patternCloses masked pair.1 pair.2) (hstop : stop ≤ masked.length) :
    variableNames (source ++ source') (masked ++ more) start stop =
      variableNames source masked start stop := by
  unfold variableNames
  rw [take_append_of_le_length hstop]
  exact flatMap_congr fun pair hpair => declaratorNames_extend hlength (hcloses pair hpair)

/-- The names of a variable statement move with the text. -/
theorem variableNames_shift (hfront : front.length = front'.length) (hne : masked ≠ [])
    (start stop : Nat) : variableNames (front ++ source) (front' ++ masked) (start + front.length)
        (stop + front.length) = variableNames source masked start stop := by
  unfold variableNames
  rw [hfront, take_drop_shift, ← hfront, declarators_shift, flatMap_map]
  exact flatMap_congr fun pair _ => declaratorNames_shift hfront hne

/-- The declaration after `n` more characters. -/
def Declaration.shift (n : Nat) (declaration : Declaration) : Declaration :=
  { declaration with
    start := declaration.start + n, stop := declaration.stop + n
    qualifierStop := declaration.qualifierStop + n }

/-- A declaration ends where its head says. -/
theorem Head.stop_mem_extent? {declaration : Declaration}
    (h : declaration ∈ head.declarations source masked) :
    head.extent? masked = some declaration.stop := by
  unfold Head.declarations at h
  simp only at h
  unfold Head.extent?
  split at h
  · rename_i hdefault
    rw [if_pos hdefault, mem_singleton.1 h]
  · rename_i hdefault
    rw [if_neg hdefault]
    split at h
    · cases h
    · rename_i kind kindStop hkind
      simp only [hkind, Option.bind_some]
      split at h
      · rename_i hvariable
        obtain ⟨name, -, rfl⟩ := mem_map.1 h
        rw [if_pos hvariable]
      · rename_i hvariable
        rw [if_neg hvariable]
        split at h
        · cases h
        · rename_i hname
          rw [if_neg hname, mem_singleton.1 h]

/-- What a head declares that ends in a settled text does not depend on what follows. -/
theorem Head.declarations_extend (hsettled : Settled masked) (hfresh : Fresh more)
    (hlength : source.length = masked.length) (hstands : head.Stands masked)
    (hends : head.EndsIn masked) :
    head.declarations (source ++ source') (masked ++ more) = head.declarations source masked := by
  have hextent := hends.extent
  unfold Head.extent? at hextent
  unfold Head.declarations
  simp only
  split
  · rename_i hdefault
    rw [if_pos hdefault] at hextent
    rw [declarationEnd_extend hsettled hfresh hstands.stop.le (hextent _ rfl)]
  · rename_i hdefault
    rw [if_neg hdefault] at hextent
    split
    · rfl
    · rename_i kind kindStop hkind
      simp only [hkind, Option.bind_some] at hextent
      split
      · rename_i hvariable
        rw [if_pos hvariable] at hextent
        have hlt := hextent _ rfl
        rw [declarationEnd_extend hsettled hfresh (hstands.kind hkind).le hlt,
          variableNames_extend hlength (hends.patterns _ hkind hvariable) hlt.le]
      · rename_i hvariable
        rw [if_neg hvariable] at hextent
        split
        · rfl
        · rename_i hname
          rw [if_neg hname] at hextent
          rw [declarationEnd_extend hsettled hfresh hstands.stop.le (hextent _ rfl)]

/-- What a head declares moves with the text. -/
theorem Head.declarations_shift (hfront : front.length = front'.length) (h : head.Stands masked) :
    (head.shift front.length).declarations (front ++ source) (front' ++ masked) =
      (head.declarations source masked).map (Declaration.shift front.length) := by
  have hne : masked ≠ [] := by
    rintro rfl
    have := h.stop.anchor
    simp at this
  have hstop : ∀ kind, declarationEnd (front' ++ masked) (head.stop + front.length) kind =
      declarationEnd masked head.stop kind + front.length := by
    intro kind
    rw [hfront]
    exact declarationEnd_shift front' h.stop.le h.stop.anchor
  unfold Head.declarations
  simp only [Head.shift, hstop]
  by_cases hdefault : head.isDefault
  · simp [hdefault, Function.comp_def, Declaration.shift]
  · simp only [hdefault, Bool.false_eq_true, if_false]
    cases hkind : head.kind with
    | none => rfl
    | some found =>
      obtain ⟨kind, kindStop⟩ := found
      have hvariable : declarationEnd (front' ++ masked) (kindStop + front.length) kind =
          declarationEnd masked kindStop kind + front.length := by
        rw [hfront]
        exact declarationEnd_shift front' (h.kind hkind).le (h.kind hkind).anchor
      simp only [Option.map_some]
      split
      · rw [hvariable, variableNames_shift hfront hne, map_map]
        rfl
      · split <;> rfl

/-- What all heads of a text declare moves with the text. -/
theorem flatMap_declarations_shift (hfront : front.length = front'.length) :
    ((scan standsFree head? masked).map (Head.shift front'.length)).flatMap
        (Head.declarations (front ++ source) (front' ++ masked)) =
      (declarationsOf source masked).map (Declaration.shift front'.length) := by
  simp only [declarationsOf, flatMap_map, map_flatMap]
  refine flatMap_congr fun head hhead => ?_
  rw [← hfront]
  exact Head.declarations_shift hfront (Head.stands_of_mem_scan hhead)

/-- The declarations of a text that goes on after a settled one in which all declarations end. -/
theorem declarationsOf_append (hsettled : Settled masked)
    (hheads : ∀ head ∈ scan standsFree head? masked, head.EndsIn masked) (hfresh : Fresh more)
    (hlength : source.length = masked.length) :
    declarationsOf (source ++ source') (masked ++ more) = declarationsOf source masked ++
        (declarationsOf source' more).map (Declaration.shift masked.length) := by
  have hscan : scan standsFree head? (masked ++ more) = scan standsFree head? masked ++
      (scan standsFree head? more).map (Head.shift masked.length) :=
    scan_append (f := Head.shift) hsettled (fun _ => by simp [Head.shift])
      (fun _ h => (hsettled.carrier hfresh).head?_move h)
      reaches_of_head? fun _ => head?_shift
  rw [declarationsOf, hscan, flatMap_append, flatMap_declarations_shift hlength]
  congr 1
  exact flatMap_congr fun head hhead => Head.declarations_extend hsettled hfresh hlength
    (Head.stands_of_mem_scan hhead) (hheads head hhead)

end Deadwood.Module

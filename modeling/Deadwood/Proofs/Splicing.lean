import Deadwood.Proofs.Exporters
import Deadwood.Proofs.Importing

/-!
# Texts that are changed after a finished part

A text goes on after a finished one (`Finished`), and what comes next in it is changed: the exports
there become other ones, and the rest is as it was but at another place. Then the changed text can
be read, and it has the same imports and exports with their offsets moved (`exists_parse_splice`).
-/

set_option autoImplicit false

namespace Deadwood.Module

open Text List

/-! ## Offsets that move -/

/-- Where a place of a text is once the part up to `old` has become one up to `new`. Places before
`old` stay where they are. -/
def moved (old new place : Nat) : Nat := if place < old then place else place - old + new

variable {old new : Nat} {m m' : Module} {declaration : Declaration}

theorem moved_of_lt {place : Nat} (h : place < old) : moved old new place = place :=
  if_pos h

theorem moved_add (old new place : Nat) : moved old new (place + old) = place + new := by
  unfold moved
  split <;> omega

theorem moved_add_add (old new place n : Nat) :
    moved (old + n) (new + n) (place + n) = moved old new place + n := by
  unfold moved
  split <;> split <;> omega

/-- Places outside of the part that changes keep their order. -/
theorem moved_le_iff {low a b : Nat} (hold : low ≤ old) (hnew : low ≤ new) (ha : a < low ∨ old ≤ a)
    (hb : b < low ∨ old ≤ b) : moved old new a ≤ moved old new b ↔ a ≤ b := by
  unfold moved
  split <;> split <;> omega

/-- The re-export with its places moved. -/
def Reexport.move (old new : Nat) (statement : Reexport) : Reexport :=
  { statement with start := moved old new statement.start, stop := moved old new statement.stop }

/-- The list with its places moved. -/
def LocalExports.move (old new : Nat) (statement : LocalExports) : LocalExports :=
  { statement with start := moved old new statement.start, stop := moved old new statement.stop }

/-- The declaration with its places moved. -/
def Declaration.move (old new : Nat) (declaration : Declaration) : Declaration :=
  { declaration with
    start := moved old new declaration.start, stop := moved old new declaration.stop
    qualifierStop := moved old new declaration.qualifierStop }

/-- The module with the places of its statements moved. -/
def move (old new : Nat) (m : Module) : Module :=
  { m with
    reexports := m.reexports.map (Reexport.move old new)
    localExports := m.localExports.map (LocalExports.move old new)
    declarations := m.declarations.map (Declaration.move old new) }

/-- The statements of two modules are the same. What is loaded at run time does not count: it is
looked for in comments as well. -/
structure SameStatements (m m' : Module) : Prop where
  imports : m.imports = m'.imports
  reexports : m.reexports = m'.reexports
  localExports : m.localExports = m'.localExports
  declarations : m.declarations = m'.declarations

theorem SameStatements.symm (h : m.SameStatements m') : m'.SameStatements m :=
  ⟨h.imports.symm, h.reexports.symm, h.localExports.symm, h.declarations.symm⟩

theorem SameStatements.trans {m'' : Module} (h : m.SameStatements m') (h' : m'.SameStatements m'') :
    m.SameStatements m'' :=
  ⟨h.imports.trans h'.imports, h.reexports.trans h'.reexports,
    h.localExports.trans h'.localExports, h.declarations.trans h'.declarations⟩

theorem SameStatements.move (h : m.SameStatements m') (old new : Nat) :
    (m.move old new).SameStatements (m'.move old new) :=
  ⟨h.imports, congrArg (map _) h.reexports, congrArg (map _) h.localExports,
    congrArg (map _) h.declarations⟩

/-- What a text has that goes on after `n` characters with something that changes. What comes first
stays, what is changed moves inside of its part, and what follows moves with the part. -/
theorem map_move_append {α : Type} (shift : Nat → α → α) (move : Nat → Nat → α → α) {n l l' : Nat}
    {fronts backs : List α} (firsts : List α) (hfront : ∀ a ∈ fronts, move (l + n) (l' + n) a = a)
    (hfirst : ∀ a, move (l + n) (l' + n) (shift n a) = shift n (move l l' a))
    (hback : ∀ a, move l l' (shift l a) = shift l' a) :
    (fronts ++ (firsts ++ backs.map (shift l)).map (shift n)).map (move (l + n) (l' + n)) =
      fronts ++ (firsts.map (move l l') ++ backs.map (shift l')).map (shift n) := by
  have hmap : (move (l + n) (l' + n) ∘ shift n) = shift n ∘ move l l' := funext hfirst
  have hmap' : move l l' ∘ shift l = shift l' := funext hback
  rw [map_append, map_map, hmap, ← map_map, map_append, map_map, hmap',
    (map_congr_left hfront).trans (map_id' fronts)]

theorem Reexport.move_shift (l l' n : Nat) (statement : Reexport) :
    (statement.shift n).move (l + n) (l' + n) = (statement.move l l').shift n := by
  simp [Reexport.move, Reexport.shift, moved_add_add]

theorem LocalExports.move_shift (l l' n : Nat) (statement : LocalExports) :
    (statement.shift n).move (l + n) (l' + n) = (statement.move l l').shift n := by
  simp [LocalExports.move, LocalExports.shift, moved_add_add]

theorem Declaration.move_shift (l l' n : Nat) (declaration : Declaration) :
    (declaration.shift n).move (l + n) (l' + n) = (declaration.move l l').shift n := by
  simp [Declaration.move, Declaration.shift, moved_add_add]

/-! ## Places of statements -/

variable {source source' masked more : List Char}

section

variable {start stop : Nat} (h : Placed masked start stop)
include h

theorem Placed.le : start < stop ∧ stop ≤ masked.length := by
  obtain ⟨front, piece, rest, rfl, rfl, rfl, -⟩ := h.exists_split
  simp only [length_append]
  have hword : "export".toList.length = 6 := rfl
  omega

/-- A statement begins with the word. -/
theorem Placed.word : "export".toList <+: masked.drop start := by
  obtain ⟨front, piece, rest, rfl, rfl, -⟩ := h.exists_split
  rw [append_assoc, append_assoc, drop_left]
  exact prefix_append _ _

/-- The word with which a statement begins stands in the source as well. -/
theorem Placed.source_word (hmasks : Masks source masked) :
    "export".toList <+: source.drop start := by
  obtain ⟨front, piece, rest, rfl, rfl, -⟩ := h.exists_split
  rw [append_assoc, append_assoc] at hmasks
  obtain ⟨text, more, rfl, htext, hmore, -⟩ := hmasks.cut
  obtain ⟨word, tail, rfl, hword, -, -⟩ := hmore.cut
  rw [← htext.length_eq, drop_left, hword.eq_of_no_space (by decide)]
  exact prefix_append _ _

end

/-- The extent of what a head declares is followed from a place after its first word. -/
theorem Head.qualifierStop_le {head : Head} (h : head ∈ scan standsFree head? masked) :
    head.start < head.qualifierStop ∧ head.qualifierStop ≤ head.stop ∧
      ∀ found ∈ head.kind, head.qualifierStop ≤ found.2 := by
  obtain ⟨front, rest, next, -, -, hread⟩ := mem_scan h
  rw [head?_eq] at hread
  obtain ⟨qualifier, hword, heq⟩ := Option.map_eq_some_iff.1 hread
  cases heq
  have hlt : front.length < qualifier.offset := by
    obtain ⟨mid, blanks, hexport, -, hruns⟩ := spacedWord?_iff.1 hword
    have hoffset := (hexport.trans hruns.toSpans).offset_eq
    have hexport : "export".toList.length = 6 := rfl
    simp only [length_append] at hoffset
    omega
  refine ⟨hlt, (overWords_afterModifiers.trans overWords_kindAndName).reaches.le.1, ?_⟩
  rintro ⟨kind, stop⟩ hkind
  obtain ⟨last, hlast, rfl⟩ := exists_kind?_of_kindAndName hkind
  exact (overWords_afterModifiers.trans (overWords_of_kind? hlast)).reaches.le.1

/-- A declaration goes on after its first word, and it ends inside the text. -/
theorem span_of_mem_declarationsOf (h : declaration ∈ declarationsOf source masked) :
    declaration.start < declaration.qualifierStop ∧
      declaration.qualifierStop ≤ declaration.stop ∧ declaration.stop ≤ masked.length := by
  obtain ⟨head, hhead, hmem⟩ := mem_flatMap.1 h
  have hstands := Head.stands_of_mem_scan hhead
  obtain ⟨hstart, hstop, hkind⟩ := Head.qualifierStop_le hhead
  have hextent := Head.stop_mem_extent? hmem
  rw [(Head.mem_declarations hmem).1, (Head.mem_declarations hmem).2]
  refine ⟨hstart, ?_⟩
  have hbounds : ∀ {position kind}, position ≤ masked.length → head.qualifierStop ≤ position →
      declarationEnd masked position kind = declaration.stop →
      head.qualifierStop ≤ declaration.stop ∧ declaration.stop ≤ masked.length := by
    intro position kind hle hlt hend
    have hextent : position ≤ declarationEnd masked position kind ∧
        declarationEnd masked position kind ≤ masked.length := declarationEnd_bounds hle
    omega
  -- the end is looked for from the name on, or from the word that tells the kind
  unfold Head.extent? at hextent
  split at hextent
  · exact hbounds hstands.stop.le hstop (Option.some.inj hextent)
  · obtain ⟨⟨kind, kindStop⟩, hfound, hextent⟩ := Option.bind_eq_some_iff.1 hextent
    simp only at hextent
    split at hextent
    · exact hbounds (hstands.kind hfound).le (hkind _ hfound) (Option.some.inj hextent)
    · split at hextent
      · cases hextent
      · exact hbounds hstands.stop.le hstop (Option.some.inj hextent)

/-- A declaration stands inside the text. -/
theorem bounds_of_mem_declarationsOf (h : declaration ∈ declarationsOf source masked) :
    declaration.start < declaration.stop ∧ declaration.stop ≤ masked.length := by
  obtain ⟨hstart, hstop, hle⟩ := span_of_mem_declarationsOf h
  exact ⟨lt_of_lt_of_le hstart hstop, hle⟩

/-! ## Finished texts -/

/-- A text in which all statements end, with its shape: it leaves no statement open, and all imports
and exported declarations that begin in it end in it. -/
structure Finished (text masked : List Char) : Prop where
  shape_eq : shape text = .ok masked
  endsLine : EndsLine text
  settled : Settled masked
  halts : Halts masked
  heads : ∀ head ∈ scan standsFree head? masked, head.EndsIn masked

instance (masked : List Char) : Decidable (Settled masked) :=
  decidable_of_iff ((masked = [] ∨ masked.getLast? = some '\n') ∧
      (∀ word ∈ openers, ¬ word.toList <:+ trimEnd masked) ∧
      ∀ tail ∈ masked.tails, ∀ qualifier ∈ spacedWord? "export" ⟨0, tail⟩,
        ∀ inside ∈ (typeWord qualifier).2.expect? "\x7b",
          inside.rest.any (fun c => c == '{' || c == '}') = true) (by
    simp only [any_eq_true, Bool.or_eq_true, beq_iff_eq]
    exact ⟨fun ⟨hline, hwords, hlists⟩ => ⟨hline, hwords, hlists⟩,
      fun h => ⟨h.line, h.words, h.lists⟩⟩)

instance (masked : List Char) (head : Head) : Decidable (head.EndsIn masked) :=
  decidable_of_iff ((∀ stop ∈ head.extent? masked, stop < masked.length) ∧
      ∀ found ∈ head.kind, found.1.isVariable = true →
        ∀ pair ∈ declarators 0 found.2
          ((masked.take (declarationEnd masked found.2 found.1)).drop found.2),
        patternCloses masked pair.1 pair.2 = true)
    ⟨fun ⟨hextent, hpatterns⟩ => ⟨hextent, hpatterns⟩, fun h => ⟨h.extent, h.patterns⟩⟩

instance (text masked : List Char) : Decidable (Finished text masked) :=
  decidable_of_iff (shape text = .ok masked ∧ EndsLine text ∧ Settled masked ∧ Halts masked ∧
      ∀ head ∈ scan standsFree head? masked, head.EndsIn masked)
    ⟨fun ⟨hshape, hline, hsettled, hhalts, hheads⟩ => ⟨hshape, hline, hsettled, hhalts, hheads⟩,
      fun h => ⟨h.shape_eq, h.endsLine, h.settled, h.halts, h.heads⟩⟩

namespace Finished

variable {front back frontShape backShape : List Char}

theorem length_eq (h : Finished front frontShape) : front.length = frontShape.length :=
  (masks_of_shape h.shape_eq).length_eq

/-- What a text exports that goes on after a finished one. -/
theorem exportsOf_append (h : Finished front frontShape) (hfresh : Fresh backShape) :
    exportsOf (front ++ back) (frontShape ++ backShape) =
      (exportsOf front frontShape).join frontShape.length (exportsOf back backShape) :=
  Module.exportsOf_append h.settled h.heads hfresh h.length_eq

/-- The imports of a text that goes on after a finished one. -/
theorem imports_append (h : Finished front frontShape) (back : List Char)
    (hfresh : Fresh backShape) :
    boundImports (front ++ back) (frontShape ++ backShape) = boundImports front frontShape ++
        (boundImports back backShape).map (Prod.map (· + frontShape.length) id) ∧
    effectImports (front ++ back) (frontShape ++ backShape) = effectImports front frontShape ++
        (effectImports back backShape).map (Prod.map (· + frontShape.length) id) :=
  ⟨boundImports_append h.settled h.halts hfresh h.length_eq,
    effectImports_append h.settled h.halts hfresh h.length_eq⟩

end Finished

theorem importsOf_eq_nil_iff :
    importsOf source masked = [] ↔ boundImports source masked = [] ∧
      effectImports source masked = [] := by
  rw [importsOf_eq, map_eq_nil_iff, ← length_eq_zero_iff, length_mergeSort,
    length_eq_zero_iff, append_eq_nil_iff]

theorem importsOf_nil : importsOf [] [] = [] :=
  importsOf_eq_nil_iff.2 (by simp [boundImports, effectImports, scan, scanFrom])

/-! ## What follows a finished text -/

/-- A text with its shape that is changed up to the place `l`, which becomes `l'`. All imports
follow this place, and they move with it. -/
structure Splice (l l' : Nat) (more moreShape more' moreShape' : List Char) : Prop where
  pos : 0 < l
  shape_eq : shape more = .ok moreShape
  shape_eq' : shape more' = .ok moreShape'
  fresh : Fresh moreShape
  fresh' : Fresh moreShape'
  bound : ∃ imports : List (Nat × Import),
    boundImports more moreShape = imports.map (Prod.map (· + l) id) ∧
      boundImports more' moreShape' = imports.map (Prod.map (· + l') id)
  effect : ∃ imports : List (Nat × Import),
    effectImports more moreShape = imports.map (Prod.map (· + l) id) ∧
      effectImports more' moreShape' = imports.map (Prod.map (· + l') id)

section Splice

variable {front frontShape more moreShape more' moreShape' : List Char} {l l' : Nat}

/-- Imports that follow the place that moves. -/
theorem map_moved_imports {fronts imports : List (Nat × Import)} {n : Nat} (hl : 0 < l)
    (hfront : ∀ pair ∈ fronts, pair.1 < n) :
    (fronts ++ (imports.map (Prod.map (· + l) id)).map (Prod.map (· + n) id)).map
        (Prod.map (moved (l + n) (l' + n)) id) =
      fronts ++ (imports.map (Prod.map (· + l') id)).map (Prod.map (· + n) id) := by
  refine map_move_append (fun k => Prod.map (· + k) id) (fun old new => Prod.map (moved old new) id)
    [] ?_ ?_ ?_
  · intro pair hpair
    have := hfront pair hpair
    exact Prod.ext (moved_of_lt (by omega)) rfl
  · intro pair
    exact Prod.ext (moved_add_add _ _ _ _) rfl
  · intro pair
    exact Prod.ext (moved_add _ _ _) rfl

/-- The change leaves the imports as they are. -/
theorem Finished.importsOf_splice (h : Finished front frontShape)
    (hsplice : Splice l l' more moreShape more' moreShape') :
    importsOf (front ++ more') (frontShape ++ moreShape') =
      importsOf (front ++ more) (frontShape ++ moreShape) := by
  obtain ⟨bound, hbound, hbound'⟩ := hsplice.bound
  obtain ⟨effect, heffect, heffect'⟩ := hsplice.effect
  obtain ⟨htext, htext'⟩ := h.imports_append more hsplice.fresh
  obtain ⟨hedited, hedited'⟩ := h.imports_append more' hsplice.fresh'
  rw [hbound] at htext
  rw [heffect] at htext'
  rw [hbound'] at hedited
  rw [heffect'] at hedited'
  have hlt : ∀ pair ∈ boundImports front frontShape ++ effectImports front frontShape,
      pair.1 < frontShape.length := fun _ => lt_of_mem_imports
  -- imports are put in the order of their places, and no import begins in the part that changes
  refine importsOf_congr (moved (l + frontShape.length) (l' + frontShape.length)) ?_ ?_ ?_
  · have hplaces : ∀ place ∈ (boundImports (front ++ more) (frontShape ++ moreShape) ++
        effectImports (front ++ more) (frontShape ++ moreShape)).map Prod.fst,
        place < frontShape.length ∨ l + frontShape.length ≤ place := by
      intro place hplace
      rw [htext, htext'] at hplace
      simp only [map_append, map_map, mem_append, mem_map] at hplace hlt
      rcases hplace with (⟨pair, hpair, rfl⟩ | ⟨pair, -, rfl⟩) |
        (⟨pair, hpair, rfl⟩ | ⟨pair, -, rfl⟩)
      · exact .inl (hlt pair (.inl hpair))
      · exact .inr (by simp only [Function.comp_apply, Prod.map_fst]; omega)
      · exact .inl (hlt pair (.inr hpair))
      · exact .inr (by simp only [Function.comp_apply, Prod.map_fst]; omega)
    intro a ha b hb
    exact moved_le_iff (Nat.le_add_left _ _) (Nat.le_add_left _ _) (hplaces a ha) (hplaces b hb)
  · rw [htext, hedited]
    exact (map_moved_imports hsplice.pos fun pair hpair =>
      hlt pair (mem_append_left _ hpair)).symm
  · rw [htext', hedited']
    exact (map_moved_imports hsplice.pos fun pair hpair =>
      hlt pair (mem_append_right _ hpair)).symm

variable {m : Module}

/-- The statements of a text that goes on after a finished one. -/
theorem Finished.sameStatements_of_parse (h : Finished front frontShape)
    (hshape : shape more = .ok moreShape) (hfresh : Fresh moreShape)
    (hparse : parse (front ++ more) = .ok m) :
    m.SameStatements { (exportsOf front frontShape).join frontShape.length
      (exportsOf more moreShape) with imports := m.imports } := by
  obtain ⟨masked, hmasked, rfl⟩ := parse_eq_ok_iff.1 hparse
  obtain rfl :=
    Except.ok.inj ((shape_append h.shape_eq h.endsLine hshape hfresh).symm.trans hmasked)
  have hexports : exportsOf (front ++ more) (frontShape ++ moreShape) = _ :=
    h.exportsOf_append hfresh
  have hreexports := congrArg Module.reexports hexports
  have hlists := congrArg Module.localExports hexports
  have hdeclarations := congrArg Module.declarations hexports
  exact ⟨rfl, hreexports, hlists, hdeclarations⟩

/-- The exports of a text stay where they are if what follows it moves. -/
theorem exportsOf_join_move (hl : 0 < l) (first base : Module) :
    ((exportsOf front frontShape).join frontShape.length (first.join l base)).move
        (l + frontShape.length) (l' + frontShape.length) =
      (exportsOf front frontShape).join frontShape.length ((first.move l l').join l' base) := by
  have hstays : ∀ {place}, place ≤ frontShape.length →
      moved (l + frontShape.length) (l' + frontShape.length) place = place :=
    fun hle => moved_of_lt (by omega)
  simp only [move, join, exportsOf]
  -- re-exports, lists and declarations move alike: all that is known of each is where it ends
  congr 1
  · refine map_move_append Reexport.shift Reexport.move _ ?_
      (fun _ => Reexport.move_shift _ _ _ _) ?_
    · intro statement hmem
      have hplaced := placed_of_mem_reexportsOf hmem
      simp only [Reexport.move, hstays hplaced.lt.le, hstays hplaced.le.2]
    · intro statement
      simp only [Reexport.move, Reexport.shift, moved_add]
  · refine map_move_append LocalExports.shift LocalExports.move _ ?_
      (fun _ => LocalExports.move_shift _ _ _ _) ?_
    · intro statement hmem
      have hplaced := placed_of_mem_localExportsOf hmem
      simp only [LocalExports.move, hstays hplaced.lt.le, hstays hplaced.le.2]
    · intro statement
      simp only [LocalExports.move, LocalExports.shift, moved_add]
  · refine map_move_append Declaration.shift Declaration.move _ ?_
      (fun _ => Declaration.move_shift _ _ _ _) ?_
    · intro declaration hmem
      have hplaced := placed_of_mem_declarationsOf hmem
      simp only [Declaration.move, hstays hplaced.lt.le, hstays hplaced.le.2,
        hstays (bounds_of_mem_declarationsOf hmem).2]
    · intro declaration
      simp only [Declaration.move, Declaration.shift, moved_add]

/-- If what follows a finished text is changed, the text can still be read. It has the same imports
and exports but for the `first` ones of what follows. -/
theorem Finished.exists_parse_splice (h : Finished front frontShape)
    (hsplice : Splice l l' more moreShape more' moreShape') {first base : Module}
    (hparse : parse (front ++ more) = .ok m)
    (hexports : exportsOf more' moreShape' = (first.move l l').join l' base) :
    ∃ m', parse (front ++ more') = .ok m' ∧
      m'.SameStatements
        ({ (exportsOf front frontShape).join frontShape.length (first.join l base) with
        imports := m.imports }.move (l + frontShape.length) (l' + frontShape.length)) := by
  have hshape := shape_append h.shape_eq h.endsLine hsplice.shape_eq hsplice.fresh
  have hshape' := shape_append h.shape_eq h.endsLine hsplice.shape_eq' hsplice.fresh'
  obtain ⟨masked, hmasked, rfl⟩ := parse_eq_ok_iff.1 hparse
  obtain rfl := Except.ok.inj (hshape.symm.trans hmasked)
  have hall : exportsOf (front ++ more') (frontShape ++ moreShape') =
      ((exportsOf front frontShape).join frontShape.length (first.join l base)).move
        (l + frontShape.length) (l' + frontShape.length) := by
    rw [h.exportsOf_append hsplice.fresh', hexports, exportsOf_join_move hsplice.pos]
  have hreexports := congrArg Module.reexports hall
  have hlists := congrArg Module.localExports hall
  have hdeclarations := congrArg Module.declarations hall
  exact ⟨_, parse_eq_ok_iff.2 ⟨_, hshape', rfl⟩, h.importsOf_splice hsplice, hreexports, hlists,
    hdeclarations⟩

end Splice

end Deadwood.Module

import Deadwood.Proofs.Listing
import Deadwood.Proofs.Removing

/-!
# Lists that keep some of their entries

A list of exports is written anew where it stands, or removed with its lines if nothing of it is
kept. All other statements are then found again, and the statement that the list belongs to has just
the entries that were kept (`keepEntries_keeps_statements`). The list is read off the shape, but its
braces are looked for in the source: a brace in a comment before the list is taken for its own, and
what is written then leaves the comment open (`comment_is_opened`).
-/

set_option autoImplicit false

namespace Deadwood.Module

open Text Reference List

/-! ## Statements with a list -/

/-- The statement of a list stands inside the text. -/
theorem HasList.bounds {m : Module} {start stop : Nat} {list : List Entry} {text : List Char}
    (h : HasList m start stop list) (hparse : parse text = .ok m) :
    start < stop ∧ stop ≤ text.length := by
  obtain ⟨masked, hshape, rfl⟩ := parse_eq_ok_iff.1 hparse
  rw [(masks_of_shape hshape).length_eq]
  exact (h.placed rfl rfl).le

/-- The statements, with those that begin at `start` changed or left out. -/
def changeAt {α : Type} (begins : α → Nat) (start : Nat) (change : α → Option α)
    (statements : List α) : List α :=
  statements.filterMap fun a => if begins a = start then change a else some a

/-- The re-export with other entries; there is none without entries. -/
def Reexport.relist (kept : List Entry) (statement : Reexport) : Option Reexport :=
  if kept.isEmpty then none else some { statement with passage := .listed kept }

/-- The list with other entries; there is none without entries. -/
def LocalExports.relist (kept : List Entry) (statement : LocalExports) : Option LocalExports :=
  if kept.isEmpty then none else some { statement with entries := kept }

/-- The module in which the list that begins at `start` has the entries `kept`; without entries its
statement is left out. -/
def relist (start : Nat) (kept : List Entry) (m : Module) : Module :=
  { m with
    reexports := changeAt Reexport.start start (Reexport.relist kept) m.reexports
    localExports := changeAt LocalExports.start start (LocalExports.relist kept) m.localExports }

section ChangeAt

variable {α : Type} {begins : α → Nat} {change : α → Option α}

theorem changeAt_of_eq {k : Nat} {statements : List α} (h : ∀ a ∈ statements, begins a = k) :
    changeAt begins k change statements = statements.filterMap change :=
  filterMap_congr fun a ha => if_pos (h a ha)

theorem changeAt_of_ne {k : Nat} {statements : List α} (h : ∀ a ∈ statements, begins a ≠ k) :
    changeAt begins k change statements = statements := by
  rw [changeAt, filterMap_congr fun a ha => if_neg (h a ha), filterMap_some]

/-- What begins in the middle part of three is changed there. -/
theorem changeAt_middle (shift : Nat → α → α) (hshift : ∀ n a, begins (shift n a) = begins a + n)
    (hchange : ∀ n a, change (shift n a) = (change a).map (shift n)) {fronts lines backs : List α}
    {f l k : Nat} (hfront : ∀ a ∈ fronts, begins a < f) (hk : k < l) :
    changeAt begins (k + f) change (fronts ++ (lines ++ backs.map (shift l)).map (shift f)) =
      fronts ++ (changeAt begins k change lines ++ backs.map (shift l)).map (shift f) := by
  have hfronts : changeAt begins (k + f) change fronts = fronts := by
    refine changeAt_of_ne fun a ha => ?_
    have := hfront a ha
    omega
  have hbacks : changeAt begins (k + f) change ((backs.map (shift l)).map (shift f)) =
      (backs.map (shift l)).map (shift f) := by
    refine changeAt_of_ne fun a ha => ?_
    obtain ⟨b, hb, rfl⟩ := mem_map.1 ha
    obtain ⟨c, -, rfl⟩ := mem_map.1 hb
    rw [hshift, hshift]
    omega
  have hlines : changeAt begins (k + f) change (lines.map (shift f)) =
      (changeAt begins k change lines).map (shift f) := by
    rw [changeAt, filterMap_map, changeAt, map_filterMap]
    refine filterMap_congr fun a _ => ?_
    rw [Function.comp_apply, hshift, hchange]
    by_cases hbegins : begins a = k
    · rw [if_pos hbegins, if_pos (congrArg (· + f) hbegins)]
    · rw [if_neg hbegins, if_neg (by omega)]
      rfl
  -- a list is changed part by part
  unfold changeAt at hfronts hbacks hlines ⊢
  rw [filterMap_append, map_append, filterMap_append, hfronts, hlines, hbacks,
    map_append]

end ChangeAt

section Relist

variable {front frontShape : List Char} {first base : Module} {kept : List Entry} {k l : Nat}

theorem Reexport.relist_shift (kept : List Entry) (n : Nat) (statement : Reexport) :
    (statement.shift n).relist kept = (statement.relist kept).map (Reexport.shift n) := by
  unfold Reexport.relist
  split <;> rfl

theorem LocalExports.relist_shift (kept : List Entry) (n : Nat) (statement : LocalExports) :
    (statement.shift n).relist kept = (statement.relist kept).map (LocalExports.shift n) := by
  unfold LocalExports.relist
  split <;> rfl

/-- Of a text in parts, a list in the middle is changed there. -/
theorem relist_join (hk : k < l) (imports : List Import) :
    relist (k + frontShape.length) kept
        { (exportsOf front frontShape).join frontShape.length (first.join l base) with
          imports := imports } =
      { (exportsOf front frontShape).join frontShape.length ((first.relist k kept).join l base) with
        imports := imports } := by
  simp only [relist, join, exportsOf]
  rw [changeAt_middle Reexport.shift (fun _ _ => rfl) (Reexport.relist_shift kept)
      (fun statement hmem => (placed_of_mem_reexportsOf hmem).lt) hk,
    changeAt_middle LocalExports.shift (fun _ _ => rfl) (LocalExports.relist_shift kept)
      (fun statement hmem => (placed_of_mem_localExportsOf hmem).lt) hk]

/-- A statement with a list has the other entries afterwards. -/
theorem relist_withList (hne : kept ≠ []) (list : List Entry) (template : Module) :
    (template.withList k l list).relist k kept = template.withList k l kept := by
  have hempty : kept.isEmpty = false := by simpa using hne
  simp only [relist, withList]
  congr 1
  · rw [changeAt_of_eq (by simp), filterMap_map]
    simp [Function.comp_def, Reexport.relist, hempty]
  · rw [changeAt_of_eq (by simp), filterMap_map]
    simp [Function.comp_def, LocalExports.relist, hempty]

theorem withList_move (hk : k < l) (l' : Nat) (list : List Entry) (template : Module) :
    (template.withList k l list).move l l' = template.withList k l' list := by
  simp [move, withList, Function.comp_def, Reexport.move, LocalExports.move, moved_of_lt hk,
    moved_add]

end Relist

theorem SameStatements.relist {m m' : Module} (h : m.SameStatements m') (start : Nat)
    (kept : List Entry) : (m.relist start kept).SameStatements (m'.relist start kept) :=
  ⟨h.imports, congrArg (changeAt _ _ _) h.reexports, congrArg (changeAt _ _ _) h.localExports,
    h.declarations⟩

/-! ## A list that is written anew -/

/-- A text with a list of exports after a finished text. The list is cut out of the source and of
the shape: what comes before its words, the words, the inside of its braces, and the rest. The first
braces of the statement in the source are those of the list, and no statement begins in them. -/
structure ListPlace where
  front : List Char
  lead : List Char
  head : List Char
  inside : List Char
  rest : List Char
  frontShape : List Char
  leadShape : List Char
  headShape : List Char
  insideShape : List Char
  restShape : List Char
  front_finished : Finished front frontShape
  shape_eq : shape (lead ++ (head ++ '{' :: (inside ++ '}' :: rest))) =
    .ok (leadShape ++ (headShape ++ '{' :: (insideShape ++ '}' :: restShape)))
  length_lead : lead.length = leadShape.length
  length_head : head.length = headShape.length
  length_inside : inside.length = insideShape.length
  lead_blank : ∀ c ∈ leadShape, isBlank c = true
  listHead : ListHead headShape
  quiet : Quiet insideShape
  opens : '{' ∉ head
  closes : '}' ∉ inside

namespace ListPlace

variable (place : ListPlace) {m : Module} {kept : List Entry}

/-- The text in which the list has the inside `inside`. -/
def textWith (inside : List Char) : List Char :=
  place.front ++ (place.lead ++ (place.head ++ '{' :: (inside ++ '}' :: place.rest)))

/-- The whole text. -/
def text : List Char := place.textWith place.inside

/-- The shape of what follows the finished text, up to the closing brace. -/
def shown (inside : List Char) : List Char := upTo place.leadShape place.headShape inside

/-- Where the list begins. -/
def start : Nat := place.leadShape.length + place.frontShape.length

/-- Where the rest begins in the whole text. -/
def old : Nat := (place.shown place.insideShape).length + place.frontShape.length

/-- Where the rest begins in the text whose list has the entries `kept`. -/
def new (kept : List Entry) : Nat := (place.shown (written kept)).length + place.frontShape.length

/-- What is written with entries of the list is no statement either. -/
theorem quiet_written (hkept : ∀ entry ∈ kept, entry ∈ entries place.insideShape) :
    Quiet (written kept) := by
  -- a word in what is written stands in an entry, and so in the list as it was
  have hstands : ∀ {name : List Char}, isName name → Stands name (written kept) →
      Stands name place.insideShape := by
    intro name hname h
    obtain ⟨entry, hentry, hstands⟩ := exists_of_stands_written hname h
    exact stands_of_mem_entries (hkept entry hentry) hname hstands
  refine ⟨fun hc => ?_, fun hc => ?_, fun h => place.quiet.exports (hstands (by decide) h),
    fun h => place.quiet.imports (hstands (by decide) h)⟩
  · rcases mem_of_mem_written hkept hc with h | h | h
    · exact absurd h (by decide)
    · exact absurd h (by decide)
    · exact place.quiet.opens h
  · rcases mem_of_mem_written hkept hc with h | h | h
    · exact absurd h (by decide)
    · exact absurd h (by decide)
    · exact place.quiet.closes h

/-- What is written shows as it is, and it holds no slash. -/
structure Shows (kept : List Entry) : Prop where
  shape_eq : shape (written kept ++ ['}']) = .ok (written kept ++ ['}'])
  slash : '/' ∉ written kept

theorem shown_append (inside rest : List Char) : place.shown inside ++ rest =
    place.leadShape ++ (place.headShape ++ '{' :: (inside ++ '}' :: rest)) :=
  upTo_append rest

theorem lead_lt (inside : List Char) : place.leadShape.length < (place.shown inside).length := by
  rw [shown, length_upTo]
  omega

theorem fresh (inside : List Char) : Fresh (place.shown inside ++ place.restShape) := by
  obtain ⟨tail, htail, -⟩ := place.listHead.exists_tail
  have hsplit : place.shown inside ++ place.restShape = place.leadShape ++ "export".toList ++
      (tail ++ '{' :: (inside ++ '}' :: place.restShape)) := by
    rw [shown_append, htail]
    simp
  rw [hsplit]
  exact fresh_export place.lead_blank

/-- The text in which the list is written anew has a shape. -/
theorem shape_written (hshows : Shows kept) :
    shape (place.lead ++ (place.head ++ '{' :: (written kept ++ '}' :: place.rest))) =
      .ok (place.shown (written kept) ++ place.restShape) := by
  have hslash : '/' ∉ place.leadShape ++ place.headShape := by
    intro hmem
    rcases mem_append.1 hmem with hmem | hmem
    · exact absurd (place.lead_blank _ hmem) (by decide)
    · exact absurd (place.listHead.isListChar _ hmem) (by decide)
  have hshape := place.shape_eq
  rw [← append_assoc, ← append_assoc] at hshape
  have hwritten := shape_rewrite hshape
    (by rw [length_append, length_append, place.length_lead, place.length_head])
    place.length_inside hslash hshows.shape_eq hshows.slash
  rw [shown_append, ← append_assoc, ← append_assoc]
  exact hwritten

/-- The source of what is shown up to the closing brace is as long. -/
theorem length_shown {inside insideShape : List Char} (h : inside.length = insideShape.length) :
    (place.lead ++ (place.head ++ '{' :: (inside ++ ['}']))).length =
      (place.shown insideShape).length := by
  rw [shown, upTo]
  simp only [length_append, length_cons, length_nil, h, place.length_lead,
    place.length_head]

theorem source_append (inside : List Char) :
    place.lead ++ (place.head ++ '{' :: (inside ++ '}' :: place.rest)) =
      (place.lead ++ (place.head ++ '{' :: (inside ++ ['}']))) ++ place.rest := by
  simp

/-- Writing the list anew moves the imports after it and changes no others. -/
theorem splice (hkept : ∀ entry ∈ kept, entry ∈ entries place.insideShape) (hshows : Shows kept) :
    Splice (place.shown place.insideShape).length (place.shown (written kept)).length
      (place.lead ++ (place.head ++ '{' :: (place.inside ++ '}' :: place.rest)))
      (place.shown place.insideShape ++ place.restShape)
      (place.lead ++ (place.head ++ '{' :: (written kept ++ '}' :: place.rest)))
      (place.shown (written kept) ++ place.restShape) := by
  have himports := imports_list place.listHead place.lead_blank place.restShape place.rest
    place.quiet (place.length_shown place.length_inside)
  have himports' := imports_list place.listHead place.lead_blank place.restShape place.rest
    (place.quiet_written hkept) (place.length_shown rfl)
  rw [← source_append] at himports himports'
  exact {
    pos := (Nat.zero_le _).trans_lt (place.lead_lt _)
    shape_eq := by rw [shown_append]; exact place.shape_eq
    shape_eq' := place.shape_written hshows
    fresh := place.fresh _
    fresh' := place.fresh _
    bound := ⟨_, himports.1, himports'.1⟩
    effect := ⟨_, himports.2, himports'.2⟩ }

/-- What follows the finished text exports the list and, after it, what does not depend on the
list. -/
theorem exists_exportsOf : ∃ template base : Module,
    ∀ {inside insideShape : List Char}, inside.length = insideShape.length → Quiet insideShape →
      exportsOf (place.lead ++ (place.head ++ '{' :: (inside ++ '}' :: place.rest)))
          (place.shown insideShape ++ place.restShape) =
        (template.withList place.leadShape.length (place.shown insideShape).length
          (entries insideShape)).join (place.shown insideShape).length base := by
  obtain ⟨template, base, hexports⟩ :=
    exists_exportsOf_list place.listHead place.lead_blank place.restShape place.rest
  refine ⟨template, base, fun {inside insideShape} hlength hquiet => ?_⟩
  rw [source_append]
  exact hexports hquiet (place.length_shown hlength)

end ListPlace

/-- A list that is put in its place is the one that is found there. -/
theorem HasList.of_withList {template : Module} {k l start stop : Nat} {list inside : List Entry}
    (h : HasList (template.withList k l inside) start stop list) : list = inside ∧ l ≤ stop := by
  cases h with
  | @reexport statement hmem list hlist =>
    obtain ⟨form, -, rfl⟩ := mem_map.1 hmem
    exact ⟨(Passage.listed.inj hlist).symm, Nat.le_add_left _ _⟩
  | @localExports statement hmem =>
    obtain ⟨form, -, rfl⟩ := mem_map.1 hmem
    exact ⟨rfl, Nat.le_add_left _ _⟩

/-- Where the braces of a statement are the first ones in the source, the list is written into
them. -/
theorem writeEntries?_eq {front head inside rest : List Char} (hopen : '{' ∉ head)
    (hclose : '}' ∉ inside) {stop : Nat}
    (hstop : front.length + (head.length + (inside.length + 2)) ≤ stop) (kept : List Entry) :
    writeEntries? (front ++ (head ++ '{' :: (inside ++ '}' :: rest))) front.length stop kept =
      some (front ++ (head ++ '{' :: (written kept ++ '}' :: rest))) :=
  writeEntries?_iff.2 ⟨head, inside, rest, drop_left, hopen, hclose, hstop, by rw [take_left]⟩

namespace ListPlace

variable (place : ListPlace) {m : Module} {kept list : List Entry} {stop : Nat}

/-- The list is written between its own braces. -/
theorem keepEntries_eq (hne : kept ≠ []) (hstop : place.old ≤ stop) :
    keepEntries place.text place.start stop kept = .ok (place.textWith (written kept)) := by
  have hempty : kept.isEmpty = false := by simpa using hne
  have hlength := place.front_finished.length_eq
  have hstart : place.start = (place.front ++ place.lead).length := by
    rw [start, length_append, hlength, place.length_lead, Nat.add_comm]
  have hstop' : (place.front ++ place.lead).length +
      (place.head.length + (place.inside.length + 2)) ≤ stop := by
    rw [old, shown, length_upTo] at hstop
    rw [length_append, hlength, place.length_lead, place.length_head, place.length_inside]
    omega
  have hwrite : writeEntries? ((place.front ++ place.lead) ++
      (place.head ++ '{' :: (place.inside ++ '}' :: place.rest))) _ _ _ = _ :=
    writeEntries?_eq place.opens place.closes hstop' kept
  rw [append_assoc, append_assoc, ← hstart] at hwrite
  rw [keepEntries, if_neg (by simp [hempty]), text, textWith, hwrite]
  rfl

/-- A list that is written anew at its place has the entries that were kept, and all else stays as
it was. -/
theorem exists_parse_written (hparse : parse place.text = .ok m)
    (hlist : HasList m place.start stop list) (hkept : ∀ entry ∈ kept, entry ∈ list)
    (hne : kept ≠ []) (hshows : ListPlace.Shows kept) :
    ∃ edited m', keepEntries place.text place.start stop kept = .ok edited ∧ parse edited = .ok m' ∧
      m'.SameStatements ((m.relist place.start kept).move place.old (place.new kept)) := by
  obtain ⟨template, base, hexports⟩ := place.exists_exportsOf
  have hk := place.lead_lt place.insideShape
  have hsame := place.front_finished.sameStatements_of_parse
    (by rw [shown_append]; exact place.shape_eq) (place.fresh place.insideShape) hparse
  rw [hexports place.length_inside place.quiet] at hsame
  obtain ⟨stop', hlines, hstop⟩ := hlist.of_join hk hsame.reexports hsame.localExports
  obtain ⟨rfl, hle⟩ := hlines.of_withList
  -- what is written is read as the entries that were kept, so only the list itself differs
  have hwritten := hexports rfl (place.quiet_written hkept)
  rw [entries_written hkept, ← withList_move hk] at hwritten
  obtain ⟨m', hparse', hsame'⟩ :=
    place.front_finished.exists_parse_splice (place.splice hkept hshows) hparse hwritten
  refine ⟨_, m', place.keepEntries_eq hne (by rw [old]; omega), hparse', hsame'.trans ?_⟩
  have hrelist := (hsame.relist place.start kept).move place.old (place.new kept)
  rw [start, relist_join hk, relist_withList hne] at hrelist
  exact hrelist.symm

end ListPlace

/-! ## A list that is removed -/

namespace Cutout

variable {cut : Cutout} {m : Module} {start stop : Nat} {list : List Entry}

variable (cut) in
/-- The lines are those that go with a list: they begin with its indentation, nothing but blanks
follows it in them, and no other statement begins in them. -/
structure HoldsList (start stop : Nat) : Prop where
  start_eq : start = cut.lead.length + cut.frontShape.length
  first : headBefore cut.text start = cut.front
  last : tailAfter (cut.text.drop stop) = cut.back
  exports : ¬ Stands "export".toList cut.rest
  imports : ¬ Stands "import".toList cut.linesShape

theorem lead_lt : cut.lead.length < cut.linesShape.length := by
  have hword : "export".toList.length = 6 := rfl
  simp only [linesShape, length_append]
  omega

/-- All that the lines export begins at the same place. -/
theorem HoldsList.eq_length (h : cut.HoldsList start stop) {n : Nat}
    (hword : WordAt cut.linesShape n) :
    n = cut.lead.length :=
  WordAt.eq_length hword cut.lead_blank h.exports

theorem HoldsList.importsOf_eq_nil (h : cut.HoldsList start stop) :
    importsOf cut.lines cut.linesShape = [] := by
  rw [importsOf_eq_nil_iff, boundImports, effectImports,
    beginsWith_importForm?.scan_eq_nil h.imports, beginsWith_effectImport?.scan_eq_nil h.imports]
  exact ⟨rfl, rfl⟩

section

variable (h : cut.HoldsList start stop) (hparse : parse cut.text = .ok m)
  (hlist : HasList m start stop list)
include h hparse hlist

/-- The list shows in the lines. -/
theorem HoldsList.exists_showsList : ∃ inside, ShowsList ("export".toList ++ cut.rest) inside := by
  have hsame := cut.sameStatements_of_parse hparse
  rw [h.start_eq] at hlist
  obtain ⟨_, hlines, -⟩ := hlist.of_join lead_lt hsame.reexports hsame.localExports
  obtain ⟨front, rest, inside, hsplit, hstart, hshows, -⟩ := hlines.exists_showsList rfl rfl
  rw [linesShape, append_assoc] at hsplit
  obtain ⟨-, rfl⟩ := append_inj hsplit hstart
  exact ⟨inside, hshows⟩

/-- The lines declare nothing. -/
theorem HoldsList.declarationsOf_eq_nil : declarationsOf cut.lines cut.linesShape = [] := by
  obtain ⟨inside, hshows⟩ := h.exists_showsList hparse hlist
  obtain ⟨head, after, hhead, hrest, -, -⟩ := hshows.exists_split
  -- every head of a declaration in the lines is read from the words of the list
  rw [declarationsOf, flatMap_eq_nil_iff]
  intro found hfound
  obtain ⟨front, rest, next, hsplit, hword, hread⟩ := mem_scan_word exists_word_of_head? hfound
  have hlength := h.eq_length hword
  rw [linesShape, append_assoc] at hsplit
  obtain ⟨-, rfl⟩ := append_inj hsplit hlength.symm
  rw [hrest] at hread
  exact hhead.declarations_eq_nil hread

/-- Without the list, the lines export nothing. -/
theorem HoldsList.relist_lines :
    (exportsOf cut.lines cut.linesShape).relist cut.lead.length [] = {} := by
  simp only [relist, exportsOf, h.declarationsOf_eq_nil hparse hlist]
  rw [changeAt_of_eq fun _ hmem => h.eq_length (wordAt_of_mem_reexportsOf hmem),
    changeAt_of_eq fun _ hmem => h.eq_length (wordAt_of_mem_localExportsOf hmem)]
  have hreexports : ∀ statements : List Reexport, statements.filterMap (Reexport.relist []) = [] :=
    fun statements => filterMap_eq_nil_iff.2 fun _ _ => rfl
  have hlists : ∀ statements : List LocalExports,
      statements.filterMap (LocalExports.relist []) = [] :=
    fun statements => filterMap_eq_nil_iff.2 fun _ _ => rfl
  rw [hreexports, hlists]

/-- A list of which nothing is kept goes with its lines. -/
theorem HoldsList.exists_parse_removed :
    ∃ edited m', keepEntries cut.text start stop [] = .ok edited ∧ parse edited = .ok m' ∧
      m'.SameStatements ((m.relist start []).move cut.old cut.new) := by
  obtain ⟨m', hparse', hsame'⟩ := cut.exists_parse_left hparse h.importsOf_eq_nil
  have hkeep : keepEntries cut.text start stop [] = .ok (cut.front ++ cut.back) := by
    rw [keepEntries, if_pos isEmpty_nil, removeStatement, if_neg (hlist.bounds hparse).2.not_gt,
      removeSpan, h.first, h.last]
  refine ⟨_, m', hkeep, hparse', hsame'.trans ?_⟩
  have hrelist := ((cut.sameStatements_of_parse hparse).relist start []).move cut.old cut.new
  rw [h.start_eq, relist_join lead_lt, h.relist_lines hparse hlist] at hrelist
  rw [h.start_eq]
  exact hrelist.symm

end

end Cutout

/-! ## Both ways -/

/-- How a list that begins at `start` and whose statement ends at `stop` is left with the entries
`kept`: it is written anew where it stands, or removed with its lines. The text that followed the
place `old` then follows the place `new`. -/
inductive Relists (text : List Char) (start stop : Nat) : List Entry → Nat → Nat → Prop
  | written (place : ListPlace) {kept : List Entry} (htext : place.text = text)
      (hstart : place.start = start) (hne : kept ≠ []) (hshows : ListPlace.Shows kept) :
      Relists text start stop kept place.old (place.new kept)
  | removed (cut : Cutout) (htext : cut.text = text) (hholds : cut.HoldsList start stop) :
      Relists text start stop [] cut.old cut.new

variable {text : List Char} {m : Module} {start stop old new : Nat} {list kept : List Entry}

/-- Both ways leave a text that can be read. -/
theorem Relists.exists_parse (h : Relists text start stop kept old new)
    (hparse : parse text = .ok m)
    (hlist : HasList m start stop list) (hkept : ∀ entry ∈ kept, entry ∈ list) :
    ∃ edited m', keepEntries text start stop kept = .ok edited ∧ parse edited = .ok m' ∧
      m'.SameStatements ((m.relist start kept).move old new) := by
  cases h with
  | written place htext hstart hne hshows =>
    subst htext hstart
    exact place.exists_parse_written hparse hlist hkept hne hshows
  | removed cut htext hholds =>
    subst htext
    exact hholds.exists_parse_removed hparse hlist

/-- A list of exports can be left with any of its entries: the edited text can be read, and it has
the same statements as before but for the list, which has just these entries or is gone. -/
theorem keepEntries_keeps_statements {text : List Char} {m : Module} {start stop old new : Nat}
    {list kept : List Entry} (hparse : parse text = .ok m) (hlist : HasList m start stop list)
    (hkept : ∀ entry ∈ kept, entry ∈ list) (hrelists : Relists text start stop kept old new) :
    ∃ edited m', keepEntries text start stop kept = .ok edited ∧ parse edited = .ok m' ∧
      m'.SameStatements ((m.relist start kept).move old new) :=
  hrelists.exists_parse hparse hlist hkept

/-- An indented re-export between an import and a declaration, with a comment before its list. -/
def commentedPlace : ListPlace where
  front := "import \x7b a \x7d from './a'\n".toList
  lead := "  ".toList
  head := "export /* all */ ".toList
  inside := " a as b, c ".toList
  rest := " from './b'\nexport const one = a\n".toList
  frontShape := "import \x7b a \x7d from '   '\n".toList
  leadShape := "  ".toList
  headShape := "export".toList ++ "           ".toList
  insideShape := " a as b, c ".toList
  restShape := " from '   '\nexport const one = a\n".toList
  front_finished := by decide +kernel
  shape_eq := by decide +kernel
  length_lead := rfl
  length_head := by decide
  length_inside := rfl
  lead_blank := all_eq_true.1 (by decide)
  listHead := .bare (by decide) (all_eq_true.1 (by decide))
  quiet := by decide +kernel
  opens := by decide
  closes := by decide

/-- The lines of the same re-export. -/
def commentedCut : Cutout where
  front := commentedPlace.front
  lines := "  export /* all */ \x7b a as b, c \x7d from './b'\n".toList
  back := "export const one = a\n".toList
  frontShape := commentedPlace.frontShape
  lead := "  ".toList
  rest := "           \x7b a as b, c \x7d from '   '\n".toList
  backShape := "export const one = a\n".toList
  front_finished := commentedPlace.front_finished
  lines_shape := by decide +kernel
  lines_finished := .inr (by decide +kernel)
  lead_blank := all_eq_true.1 (by decide)
  back_shape := by decide +kernel
  back_fresh := by decide +kernel

/-- What the text says. -/
def commentedModule : Module where
  imports := [⟨"./a", some ⟨none, none, [("a", "a")]⟩, false⟩]
  reexports := [⟨"./b", 26, 67, .listed [⟨"a", "b", "a as b"⟩, ⟨"c", "c", "c"⟩], '\'', false⟩]
  declarations := [⟨"one", .constant, 68, 88, 75⟩]

theorem keepEntries_keeps_statements_commented :
    (∃ edited m', keepEntries commentedPlace.text 26 67 [⟨"a", "b", "a as b"⟩] = .ok edited ∧
      parse edited = .ok m' ∧
      m'.SameStatements {
        imports := commentedModule.imports
        reexports := [⟨"./b", 26, 64, .listed [⟨"a", "b", "a as b"⟩], '\'', false⟩]
        declarations := [⟨"one", .constant, 65, 85, 72⟩] }) ∧
    ∃ edited m', keepEntries commentedPlace.text 26 67 [] = .ok edited ∧ parse edited = .ok m' ∧
      m'.SameStatements {
        imports := commentedModule.imports
        declarations := [⟨"one", .constant, 24, 44, 31⟩] } := by
  have hparse : parse commentedPlace.text = .ok commentedModule := by decide +kernel
  have hmem : ⟨"./b", 26, 67, .listed [⟨"a", "b", "a as b"⟩, ⟨"c", "c", "c"⟩], '\'', false⟩ ∈
      commentedModule.reexports := mem_singleton.2 rfl
  have hlist : HasList commentedModule 26 67 [⟨"a", "b", "a as b"⟩, ⟨"c", "c", "c"⟩] :=
    .reexport hmem rfl
  have hwritten : Relists commentedPlace.text 26 67 [⟨"a", "b", "a as b"⟩] _ _ :=
    .written commentedPlace rfl rfl (by decide) ⟨by decide +kernel, by decide⟩
  have hremoved : Relists commentedPlace.text 26 67 [] _ _ :=
    .removed commentedCut rfl ⟨rfl, by decide +kernel, by decide +kernel,
      (countTokens_eq_zero_iff (by decide) _).1 (by decide +kernel),
      (countTokens_eq_zero_iff (by decide) _).1 (by decide +kernel)⟩
  exact ⟨keepEntries_keeps_statements hparse hlist (by decide) hwritten,
    keepEntries_keeps_statements hparse hlist (by decide) hremoved⟩

/-- A brace in a comment before a list is taken for that of the list: the end of the comment is
written over, and it is never closed. -/
theorem comment_is_opened : ∃ m edited statement,
    parse "const x = 1, y = 2;\nexport /* \x7b */ \x7b x, y \x7d;\n".toList = .ok m ∧
      m.localExports = [statement] ∧ statement.entries = [⟨"x", "x", "x"⟩, ⟨"y", "y", "y"⟩] ∧
      keepEntries "const x = 1, y = 2;\nexport /* \x7b */ \x7b x, y \x7d;\n".toList
        statement.start statement.stop [⟨"y", "y", "y"⟩] = .ok edited ∧
      parse edited = .error (.openComment 27) := by
  refine ⟨{ localExports := [⟨20, 44, [⟨"x", "x", "x"⟩, ⟨"y", "y", "y"⟩], false⟩] },
    "const x = 1, y = 2;\nexport /* \x7b y \x7d;\n".toList, _, ?_, rfl, rfl, ?_, ?_⟩ <;>
    decide +kernel

end Deadwood.Module

import Deadwood.Proofs.Joining

/-!
# Imports of texts that are put together

An import is read from the word `import` on, up to its literal or to a character that no clause
holds. So it is read by itself in a settled text in which such a character follows every such word
(`Halts`), and a text that goes on after it has the imports of both parts, those of the second moved
(`boundImports_append`, `effectImports_append`). Offsets only order the imports of a module: a
change of the text that moves all of them the same way leaves the imports as they are
(`importsOf_congr`).
-/

set_option autoImplicit false

namespace Deadwood.Module

open List hiding Cursor Cursor.mk
open Text Reference

variable {source source' masked more : List Char} {here next : Cursor} {n : Nat}

/-! ## Imports in another text -/

/-- The import after `n` more characters. -/
def ImportForm.shift (n : Nat) (form : ImportForm) : ImportForm :=
  { form with start := form.start + n, literal := form.literal.shift n }

theorem isClauseChar_of_isBlank {c : Char} (h : isBlank c) : isClauseChar c := by
  simp [isClauseChar, h]

namespace Carrier

variable (carrier : Carrier) {offset : Nat} {c : Char} {cs : List Char}

theorem stops_of_clause (h : carrier.Stops isClauseChar here) : carrier.Stops isBlank here :=
  carrier.stops_mono h fun _ hc => isClauseChar_of_isBlank hc

/-- The text goes on with the same character, and then where the next cursor is carried. -/
theorem move_cons (h : carrier.Inside ⟨offset, c :: cs⟩) : carrier.move ⟨offset, c :: cs⟩ =
      ⟨offset + carrier.far, c :: (carrier.move ⟨offset + 1, cs⟩).rest⟩ := by
  have hhead := carrier.head_move h
  have htail : (carrier.move ⟨offset, c :: cs⟩).advance 1 = carrier.move ⟨offset + 1, cs⟩ :=
    carrier.advance_move (k := 1) (by simp)
  obtain ⟨rest, hrest⟩ := head?_eq_some_iff.1 hhead
  calc carrier.move ⟨offset, c :: cs⟩
      = ⟨(carrier.move ⟨offset, c :: cs⟩).offset, (carrier.move ⟨offset, c :: cs⟩).rest⟩ := rfl
    _ = _ := by rw [← htail, Cursor.advance, carrier.offset_move, hrest, drop_one, tail_cons]

theorem shortestClause?_move (h : carrier.Stops isClauseChar ⟨offset, cs⟩) :
    shortestClause? (offset + carrier.far) (carrier.move ⟨offset, cs⟩).rest =
      (shortestClause? offset cs).map fun (clause, literal, next) =>
        (clause, literal.shift carrier.far, carrier.move next) := by
  induction cs generalizing offset with
  | nil =>
    rw [carrier.nil_move h rfl]
    rfl
  | cons c cs ih =>
    rw [carrier.move_cons (carrier.inside_of_stops h), shortestClause?, shortestClause?]
    split
    · rename_i hc
      have hspans : Cursor.Spans ⟨offset, c :: cs⟩ [c] ⟨offset + 1, cs⟩ := ⟨rfl, rfl⟩
      have hnext := carrier.stops_of_spans h hspans (by simp [hc])
      have hplace : Cursor.mk (offset + carrier.far + 1) (carrier.move ⟨offset + 1, cs⟩).rest =
          carrier.move ⟨offset + 1, cs⟩ :=
        congrArg (Cursor.mk · _)
          ((Nat.add_right_comm ..).trans (carrier.offset_move ⟨offset + 1, cs⟩).symm)
      rw [hplace, carrier.fromLiteral?_move (carrier.inside_of_stops hnext)]
      cases fromLiteral? ⟨offset + 1, cs⟩ with
      | some found => rfl
      | none =>
        simp only [Option.map_none]
        rw [Nat.add_right_comm, ih hnext]
        cases shortestClause? (offset + 1) cs <;> rfl
    · rfl

theorem clauseAfterBlanks?_move (h : carrier.Stops isClauseChar here) :
    clauseAfterBlanks? (carrier.move here) =
      (clauseAfterBlanks? here).map fun (clause, literal, next) =>
        (clause, literal.shift carrier.far, carrier.move next) := by
  have hle : (here.run isBlank).length ≤ here.rest.length :=
    (List.takeWhile_prefix isBlank).length_le
  have hclause : ∀ k, k ≤ (here.run isBlank).length →
      shortestClause? ((carrier.move here).advance k).offset ((carrier.move here).advance k).rest =
        (shortestClause? (here.advance k).offset (here.advance k).rest).map
          fun (clause, literal, next) =>
            (clause, literal.shift carrier.far, carrier.move next) := by
    intro k hk
    rw [carrier.advance_move (by omega), carrier.offset_move]
    refine carrier.shortestClause?_move ?_
    refine carrier.stops_of_spans h (Cursor.spans_advance (by omega)) fun c hc => ?_
    have hmem : c ∈ here.run isBlank := by
      have hleads : here.rest.take k <+: here.run isBlank :=
        prefix_of_prefix_length_le (List.take_prefix _ _) (List.takeWhile_prefix isBlank)
          (by rw [length_take]; omega)
      exact hleads.subset hc
    exact isClauseChar_of_isBlank (mem_takeWhile_imp hmem)
  simp only [clauseAfterBlanks?, carrier.run_move (carrier.stops_of_clause h), hclause _ le_rfl,
    hclause _ (Nat.sub_le _ 1)]
  split
  · rfl
  · split
    · cases shortestClause? _ (here.advance (here.run isBlank).length).rest <;> rfl
    · cases shortestClause? _ (here.advance (here.run isBlank).length).rest with
      | some found => rfl
      | none => rfl

/-- A clause after the word `type` is the same in the other text. -/
theorem typedClause?_move (h : carrier.Stops isClauseChar here) :
    (((here.skipSome? isBlank).map carrier.move).bind fun here =>
        (here.expect? "type").bind clauseAfterBlanks?) =
      ((here.skipSome? isBlank).bind fun here => (here.expect? "type").bind
        clauseAfterBlanks?).map fun (clause, literal, next) =>
          (clause, literal.shift carrier.far, carrier.move next) := by
  cases hblank : here.skipSome? isBlank with
  | none => rfl
  | some blank =>
    obtain ⟨blanks, -, hruns⟩ := Cursor.skipSome?_iff.1 hblank
    have hstop := carrier.stops_of_spans h hruns.toSpans
      fun c hc => isClauseChar_of_isBlank (hruns.all c hc)
    simp only [Option.map_some, Option.bind_some,
      carrier.expect?_move (carrier.inside_of_stops hstop) (show '\n' ∉ "type".toList by decide)]
    cases htype : blank.expect? "type" with
    | none => rfl
    | some word =>
      exact carrier.clauseAfterBlanks?_move (carrier.stops_of_spans hstop
        (Cursor.expect?_iff.1 htype) (all_eq_true.1 (by decide)))

section

variable (h : carrier.Inside here)
  (hhalt : ∀ {mid}, here.expect? "import" = some mid → carrier.Stops isClauseChar mid)
include h hhalt

/-- An import with a clause is the same import in the other text. -/
theorem importForm?_move :
    importForm? (carrier.move here) = (importForm? here).map fun (form, next) =>
      (form.shift carrier.far, carrier.move next) := by
  simp only [importForm?, bind, carrier.expect?_move h (show '\n' ∉ "import".toList by decide)]
  cases hword : here.expect? "import" with
  | none => rfl
  | some mid =>
    have hstop := hhalt hword
    simp only [Option.map_some, Option.bind_some,
      carrier.skipSome?_move (carrier.stops_of_clause hstop), carrier.typedClause?_move hstop,
      carrier.offset_move]
    cases (mid.skipSome? isBlank).bind fun here =>
      (here.expect? "type").bind clauseAfterBlanks? with
    | some found => rfl
    | none =>
      simp only [Option.map_none, carrier.clauseAfterBlanks?_move hstop]
      cases clauseAfterBlanks? mid <;> rfl

/-- An import for its effects is the same import in the other text. -/
theorem effectImport?_move :
    effectImport? (carrier.move here) = (effectImport? here).map fun (found, next) =>
      ((found.1 + carrier.far, found.2.shift carrier.far), carrier.move next) := by
  simp only [effectImport?, bind, carrier.expect?_move h (show '\n' ∉ "import".toList by decide)]
  cases hword : here.expect? "import" with
  | none => rfl
  | some mid =>
    have hstop := carrier.stops_of_clause (hhalt hword)
    simp only [Option.map_some, Option.bind_some, carrier.skip_move hstop,
      carrier.literal?_move (carrier.inside_of_stops (carrier.stops_skip hstop)),
      carrier.offset_move]
    cases literal? (mid.skip isBlank) <;> rfl

end

end Carrier

theorem importForm?_shift : importForm? (here.shift n) = (importForm? here).map fun (form, next) =>
      (form.shift n, next.shift n) :=
  (Carrier.shift n).importForm?_move trivial fun _ => trivial

theorem effectImport?_shift :
    effectImport? (here.shift n) = (effectImport? here).map fun (found, next) =>
      ((found.1 + n, found.2.shift n), next.shift n) :=
  (Carrier.shift n).effectImport?_move trivial fun _ => trivial

/-! ## What is read of an import -/

variable {offset : Nat} {cs clause : List Char} {literal : Literal} {form : ImportForm}

theorem exists_from_of_shortestClause?
    (h : shortestClause? offset cs = some (clause, literal, next)) :
    ∃ mid, Cursor.Reaches ⟨offset, cs⟩ mid ∧ fromLiteral? mid = some (literal, next) := by
  induction cs generalizing offset clause with
  | nil => cases h
  | cons c cs ih =>
    have hstep : Cursor.Reaches ⟨offset, c :: cs⟩ ⟨offset + 1, cs⟩ := ⟨[c], rfl, rfl⟩
    rw [shortestClause?] at h
    split at h
    · split at h
      · rename_i found last hfrom
        cases h
        exact ⟨_, hstep, hfrom⟩
      · simp only [Option.map_eq_some_iff, Prod.exists, Prod.mk.injEq] at h
        obtain ⟨inner, literal', next', hinner, -, rfl, rfl⟩ := h
        obtain ⟨mid, hreach, hfrom⟩ := ih hinner
        exact ⟨mid, hstep.trans hreach, hfrom⟩
    · cases h

theorem exists_from_of_clauseAfterBlanks?
    (h : clauseAfterBlanks? here = some (clause, literal, next)) :
    ∃ mid, here.Reaches mid ∧ fromLiteral? mid = some (literal, next) := by
  have hfrom : ∀ {k}, k ≤ (here.run isBlank).length →
      shortestClause? (here.advance k).offset (here.advance k).rest = some (clause, literal, next) →
      ∃ mid, here.Reaches mid ∧ fromLiteral? mid = some (literal, next) := by
    intro k hk hclause
    have hle : k ≤ here.rest.length := hk.trans (List.takeWhile_prefix isBlank).length_le
    obtain ⟨mid, hreach, hfrom⟩ := exists_from_of_shortestClause? hclause
    exact ⟨mid, Cursor.Reaches.trans ⟨_, Cursor.spans_advance hle⟩ hreach, hfrom⟩
  simp only [clauseAfterBlanks?] at h
  split at h
  · cases h
  · simp only [Option.orElse_eq_orElse, Option.orElse_eq_or, Option.or_eq_some_iff] at h
    rcases h with h | ⟨-, h⟩
    · exact hfrom le_rfl h
    · split at h
      · cases h
      · exact hfrom (Nat.sub_le _ _) h

/-- An import with a clause begins with its word and ends with its literal. -/
theorem exists_from_of_importForm? (h : importForm? here = some (form, next)) :
    form.start = here.offset ∧ "import".toList <+: here.rest ∧
      ∃ mid, here.Reaches mid ∧ fromLiteral? mid = some (form.literal, next) := by
  simp only [importForm?, bind, Option.bind_eq_some_iff] at h
  obtain ⟨mid, hword, h⟩ := h
  have hspans := Cursor.expect?_iff.1 hword
  suffices hrest : form.start = here.offset ∧ ∃ later, mid.Reaches later ∧
      fromLiteral? later = some (form.literal, next) by
    obtain ⟨hstart, later, hreach, hfrom⟩ := hrest
    exact ⟨hstart, ⟨_, hspans.rest_eq.symm⟩, later, Cursor.Reaches.trans ⟨_, hspans⟩ hreach, hfrom⟩
  split at h
  · rename_i clause literal last htyped
    cases h
    simp only [Option.bind_eq_some_iff, Cursor.skipSome?_iff] at htyped
    obtain ⟨blank, ⟨blanks, -, hruns⟩, word, htype, hclause⟩ := htyped
    obtain ⟨later, hreach, hfrom⟩ := exists_from_of_clauseAfterBlanks? hclause
    exact ⟨rfl, later, Cursor.Reaches.trans
      ⟨_, hruns.toSpans.trans (Cursor.expect?_iff.1 htype)⟩ hreach, hfrom⟩
  · simp only [Option.bind_eq_some_iff, Prod.exists, pure, Option.some.injEq, Prod.mk.injEq] at h
    obtain ⟨clause, literal, last, hclause, rfl, rfl⟩ := h
    exact ⟨rfl, exists_from_of_clauseAfterBlanks? hclause⟩

theorem importForm?_spec (h : importForm? here = some (form, next)) :
    form.start = here.offset ∧ "import".toList <+: here.rest ∧ here.Reaches next ∧
      next.offset = form.literal.stop + 1 := by
  obtain ⟨hstart, hword, mid, hreach, hfrom⟩ := exists_from_of_importForm? h
  obtain ⟨piece, hspans, -, hstop⟩ := (drawsFrom_of_fromLiteral? hfrom).endsWith
  exact ⟨hstart, hword, hreach.trans ⟨_, hspans⟩, hstop⟩

/-- What is read of an import for its effects. -/
theorem effectImport?_spec {found : Nat × Literal} (h : effectImport? here = some (found, next)) :
    found.1 = here.offset ∧ "import".toList <+: here.rest ∧ here.Reaches next ∧
      next.offset = found.2.stop + 1 := by
  simp only [effectImport?, bind, Option.bind_eq_some_iff, Prod.exists, pure, Option.some.injEq,
    Prod.mk.injEq] at h
  obtain ⟨mid, hword, literal, last, hliteral, rfl, rfl⟩ := h
  have hspans := Cursor.expect?_iff.1 hword
  obtain ⟨piece, hpiece, -, hstop⟩ := literal?_spec hliteral
  exact ⟨rfl, ⟨_, hspans.rest_eq.symm⟩, ⟨_, (hspans.trans
    (Cursor.skip_runs isBlank mid).toSpans).trans hpiece⟩, hstop⟩

/-! ## Texts in which imports end -/

/-- After every word `import` comes a character that no clause holds. -/
def Halts (masked : List Char) : Prop :=
  ∀ tail ∈ masked.tails, "import".toList <+: tail → ∃ c ∈ tail, isClauseChar c = false

instance (masked : List Char) : Decidable (Halts masked) :=
  decidable_of_iff (∀ tail ∈ masked.tails, "import".toList <+: tail →
    tail.any (fun c => !isClauseChar c) = true) (by simp [Halts])

/-- After the word `import` comes a character that no clause holds. -/
theorem Halts.stops_after (hhalts : Halts masked) (h : here.rest <:+ masked)
    (hword : here.expect? "import" = some next) : StopsIn masked isClauseChar next := by
  have hspans := Cursor.expect?_iff.1 hword
  have hhere : StopsIn masked isClauseChar here :=
    ⟨h, hhalts _ ((mem_tails _ _).2 h) ⟨_, hspans.rest_eq.symm⟩⟩
  exact hhere.of_spans hspans (all_eq_true.1 (by decide))

/-! ## Imports with their offsets -/

/-- The imports that bind something, with their offsets. -/
def boundImports (source masked : List Char) : List (Nat × Import) :=
  (scan standsFree importForm? masked).map fun form =>
    (form.start, {
      specifier := form.literal.specifier source
      clause := some (clauseOf form.clause)
      typeOnly := form.typeOnly })

/-- The imports for their effects, with their offsets. -/
def effectImports (source masked : List Char) : List (Nat × Import) :=
  (scan standsFree effectImport? masked).map fun (start, literal) =>
    (start, { specifier := literal.specifier source, clause := none, typeOnly := false })

theorem importsOf_eq (source masked : List Char) :
    importsOf source masked =
      ((boundImports source masked ++ effectImports source masked).mergeSort
        fun a b => a.1 ≤ b.1).map Prod.snd := rfl

/-- Imports whose offsets are moved and keep their order are the same imports. -/
theorem importsOf_congr {masked' : List Char} (f : Nat → Nat)
    (hf : ∀ a ∈ (boundImports source masked ++ effectImports source masked).map Prod.fst,
      ∀ b ∈ (boundImports source masked ++ effectImports source masked).map Prod.fst,
        f a ≤ f b ↔ a ≤ b)
    (hbound : boundImports source' masked' = (boundImports source masked).map (Prod.map f id))
    (heffect : effectImports source' masked' = (effectImports source masked).map (Prod.map f id)) :
    importsOf source' masked' = importsOf source masked := by
  rw [importsOf_eq, importsOf_eq, hbound, heffect, ← map_append,
    ← map_mergeSort (r := fun a b => a.1 ≤ b.1), map_map]
  · rfl
  · intro a ha b hb
    have hiff := hf a.1 (mem_map_of_mem ha) b.1 (mem_map_of_mem hb)
    simp only [Prod.map_fst, decide_eq_decide]
    exact hiff.symm

theorem specifier_append (h : literal.stop ≤ source.length) :
    literal.specifier (source ++ source') = literal.specifier source := by
  simp only [Literal.specifier]
  rw [take_append_of_le_length h]

theorem specifier_shift (literal : Literal) (front : List Char) :
    (literal.shift front.length).specifier (front ++ source) = literal.specifier source := by
  simp only [Literal.specifier, Literal.shift, take_drop_shift]

/-- An import that is found in a text begins and ends inside it. -/
theorem bounds_of_mem_scan {α : Type} {recognise : Cursor → Option (α × Cursor)} {start : α → Nat}
    {literal : α → Literal} (hspec : ∀ {here found next}, recognise here = some (found, next) →
      start found = here.offset ∧ "import".toList <+: here.rest ∧ here.Reaches next ∧
        next.offset = (literal found).stop + 1)
    {found : α} (h : found ∈ scan standsFree recognise masked) :
    start found < masked.length ∧ (literal found).stop ≤ masked.length := by
  obtain ⟨front, rest, next, hsplit, -, hread⟩ := mem_scan h
  obtain ⟨hstart, hword, hreach, hstop⟩ := hspec hread
  have hword := hword.length_le
  have hsix : "import".toList.length = 6 := rfl
  have hle := hreach.le.2
  simp only at hstart hword hle
  rw [hsplit, length_append]
  omega

section

variable (hsettled : Settled masked) (hhalts : Halts masked) (hfresh : Fresh more)
  (hlength : source.length = masked.length)
include hsettled hhalts hfresh hlength

/-- The imports that bind something of a text that goes on after a settled one. -/
theorem boundImports_append : boundImports (source ++ source') (masked ++ more) =
      boundImports source masked ++
        (boundImports source' more).map (Prod.map (· + masked.length) id) := by
  have hscan : scan standsFree importForm? (masked ++ more) = scan standsFree importForm? masked ++
      (scan standsFree importForm? more).map (ImportForm.shift masked.length) :=
    scan_append (f := ImportForm.shift) hsettled (fun _ => rfl)
      (fun _ h => (hsettled.carrier hfresh).importForm?_move h (hhalts.stops_after h.suffix))
      (fun h => (importForm?_spec h).2.2.1) fun _ => importForm?_shift
  simp only [boundImports, hscan, map_append, map_map]
  congr 1
  · refine map_congr_left fun form hform => ?_
    rw [specifier_append (hlength ▸ (bounds_of_mem_scan importForm?_spec hform).2)]
  · refine map_congr_left fun form _ => ?_
    simp only [Function.comp_apply, ImportForm.shift, ← hlength, specifier_shift]
    rfl

/-- The imports for their effects of a text that goes on after a settled one. -/
theorem effectImports_append : effectImports (source ++ source') (masked ++ more) =
      effectImports source masked ++
        (effectImports source' more).map (Prod.map (· + masked.length) id) := by
  have hscan : scan standsFree effectImport? (masked ++ more) =
      scan standsFree effectImport? masked ++ (scan standsFree effectImport? more).map
        fun found => (found.1 + masked.length, found.2.shift masked.length) :=
    scan_append (f := fun n (found : Nat × Literal) => (found.1 + n, found.2.shift n)) hsettled
      (fun _ => rfl)
      (fun _ h => (hsettled.carrier hfresh).effectImport?_move h (hhalts.stops_after h.suffix))
      (fun h => (effectImport?_spec h).2.2.1) fun _ => effectImport?_shift
  simp only [effectImports, hscan, map_append, map_map]
  congr 1
  · refine map_congr_left fun found hfound => ?_
    rw [specifier_append (hlength ▸ (bounds_of_mem_scan effectImport?_spec hfound).2)]
  · refine map_congr_left fun found _ => ?_
    simp only [Function.comp_apply, ← hlength, specifier_shift]
    rfl

end

/-- An import begins inside the text in which it is found. -/
theorem lt_of_mem_imports {pair : Nat × Import}
    (h : pair ∈ boundImports source masked ++ effectImports source masked) :
    pair.1 < masked.length := by
  rcases mem_append.1 h with h | h
  · obtain ⟨form, hform, rfl⟩ := mem_map.1 h
    exact (bounds_of_mem_scan importForm?_spec hform).1
  · obtain ⟨found, hfound, rfl⟩ := mem_map.1 h
    exact (bounds_of_mem_scan effectImport?_spec hfound).1

end Deadwood.Module

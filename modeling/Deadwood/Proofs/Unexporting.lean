import Deadwood.Proofs.Keeping
import Deadwood.Trim.Run

/-!
# Edits that take a name out of the exports

An edit works on one statement (`target?`): it drops the word `export`, writes a list anew, or
removes the statement. If the statement follows a finished text and is laid out as one would write
it (`Around`), the edited text can be read again, and it still exports all that the other statements
export. So the name is gone exactly if all statements that export it begin at the same place.
-/

set_option autoImplicit false

namespace Deadwood.Module

open Text Reference List

/-! ## What is left to export -/

variable {text : List Char} {m : Module} {name : String} {start stop : Nat} {list : List Entry}
  {declaration : Declaration}

namespace Cutout

variable (cut : Cutout)

variable {cut} {edited : List Char}

end Cutout

end Deadwood.Module

namespace Deadwood.Trim

open Text Deadwood.Module List

variable {text edited : List Char} {m : Module} {name : String} {action : Action}

/-! ## What an edit works on -/

/-- The span of the statement that an edit takes `name` out of: of a re-export that lists it, or
else of a list of exports, or else of a declaration. -/
def target? (m : Module) (name : String) : Option (Nat × Nat) :=
  ((m.reexports.find? fun r => lists name r.passage.entries).map fun r => (r.start, r.stop)) <|>
    ((m.localExports.find? fun l => lists name l.entries).map fun l => (l.start, l.stop)) <|>
    ((m.declarations.find? (·.name == name)).map fun d => (d.start, d.stop))

/-- What an edit does to the statement at a span. -/
inductive Takes (text : List Char) (m : Module) (name : String) :
    Nat × Nat → List Char → Action → Prop
  | list {start stop : Nat} {list : List Module.Entry} {edited : List Char} {action : Action}
      (hlist : HasList m start stop list) (hname : lists name list = true)
      (haction : action = .reexportEntry ∨ action = .localEntry)
      (hkeep : keepEntries text start stop (without name list) = .ok edited) :
      Takes text m name (start, stop) edited action
  | strip {declaration : Declaration} (hmem : declaration ∈ m.declarations)
      (hname : declaration.name = name) :
      Takes text m name (declaration.start, declaration.stop) (stripExport text declaration)
        .declarationStrip
  | delete {declaration : Declaration} {edited : List Char} (hmem : declaration ∈ m.declarations)
      (hname : declaration.name = name)
      (hdelete : deleteDeclaration text declaration = .ok edited) :
      Takes text m name (declaration.start, declaration.stop) edited .declarationDelete

/-- The first list that has the name is edited. -/
theorem editList?_eq (statements : List (Nat × Nat × List Module.Entry)) :
    editList? text name action statements =
      (statements.find? fun s => lists name s.2.2).map fun s =>
        ((keepEntries text s.1 s.2.1 (without name s.2.2)).mapError Obstacle.edit).map
          fun edited => (edited, action) := by
  fun_induction editList? text name action statements with
  | case1 => rfl
  | case2 start stop entries statements hlists =>
    simp only [find?_cons, hlists, Option.map_some]
    cases keepEntries text start stop (without name entries) <;> rfl
  | case3 start stop entries statements hlists ih => simp [ih, hlists]

theorem find?_passed (name : String) (statements : List Reexport) :
    (statements.filterMap fun r =>
      match r.passage with
      | .listed entries => some (r.start, r.stop, entries)
      | _ => none).find? (fun s => lists name s.2.2) =
      (statements.find? fun r => lists name r.passage.entries).map fun r =>
        (r.start, r.stop, r.passage.entries) := by
  induction statements with
  | nil => rfl
  | cons r statements ih =>
    cases hpassage : r.passage with
    | everything | whole =>
      rw [filterMap_cons_none (by simp [hpassage]), ih,
        find?_cons_of_neg (by simp [hpassage, Passage.entries, lists])]
    | listed entries =>
      cases hlists : lists name entries <;> simp [hpassage, hlists, ih, Passage.entries]

theorem entries_of_lists {passage : Passage} (h : lists name passage.entries) :
    passage = .listed passage.entries := by
  cases passage with
  | everything | whole => cases h
  | listed entries => rfl

variable {mode : Mode} {declaration : Declaration} {span : Nat × Nat}

/-- A declaration is taken out in one of two ways. -/
theorem takes_of_editDeclaration (hmem : declaration ∈ m.declarations)
    (hname : declaration.name = name)
    (h : editDeclaration mode text m declaration = .ok (edited, action)) :
    Takes text m name (declaration.start, declaration.stop) edited action := by
  unfold editDeclaration at h
  split at h
  · cases h
  · split at h
    · split at h
      · rename_i kept hdelete
        cases h
        exact .delete hmem hname hdelete
      · cases h
    · cases h
      exact .strip hmem hname

/-- An edit works on a list that has the name, or else on a declaration of it. -/
theorem edit_cases (mode : Mode) (text : List Char) (m : Module) (name : String) :
    (∃ start stop list action, HasList m start stop list ∧ lists name list ∧
      target? m name = some (start, stop) ∧ (action = .reexportEntry ∨ action = .localEntry) ∧
      edit mode text m name =
        ((keepEntries text start stop (without name list)).mapError Obstacle.edit).map
          fun edited => (edited, action)) ∨
    (∃ declaration ∈ m.declarations, declaration.name = name ∧
      target? m name = some (declaration.start, declaration.stop) ∧
      edit mode text m name = editDeclaration mode text m declaration) ∨
    edit mode text m name = .error (absence m) := by
  unfold edit target?
  simp only [editList?_eq]
  erw [find?_passed]
  simp only [find?_map, Option.map_map, Function.comp_def]
  cases hr : m.reexports.find? fun r => lists name r.passage.entries with
  | some r =>
    have hname : lists name r.passage.entries := by simpa using find?_some hr
    exact .inl ⟨r.start, r.stop, _, .reexportEntry,
      .reexport (mem_of_find?_eq_some hr) (entries_of_lists hname), hname, rfl, .inl rfl, rfl⟩
  | none =>
    cases hl : m.localExports.find? fun l => lists name l.entries with
    | some l =>
      exact .inl ⟨l.start, l.stop, _, .localEntry, .localExports (mem_of_find?_eq_some hl),
        by simpa using find?_some hl, rfl, .inr rfl, rfl⟩
    | none =>
      cases hd : m.declarations.find? (·.name == name) with
      | some d =>
        exact .inr (.inl ⟨d, mem_of_find?_eq_some hd, by simpa using find?_some hd, rfl, rfl⟩)
      | none => exact .inr (.inr rfl)

/-- A successful edit takes the name out of its target. -/
theorem edit_spec (h : edit mode text m name = .ok (edited, action)) :
    ∃ span, target? m name = some span ∧ Takes text m name span edited action := by
  rcases edit_cases mode text m name with
    ⟨start, stop, list, done, hlist, hname, htarget, haction, hedit⟩ |
    ⟨declaration, hmem, hname, htarget, hedit⟩ | hedit <;> rw [hedit] at h
  · cases hkeep : keepEntries text start stop (without name list) with
    | error e => rw [hkeep] at h; cases h
    | ok kept =>
      rw [hkeep] at h
      cases h
      exact ⟨_, htarget, .list hlist hname haction hkeep⟩
  · exact ⟨_, htarget, takes_of_editDeclaration hmem hname h⟩
  · cases h

/-! ## How the statement is laid out -/

/-- Documentation that begins inside of another comment: once it is removed, the outer comment is
never closed. -/
example : deleteDeclaration "/* a /** b */\nexport const A = 1;\n".toList
      ⟨"A", .constant, 14, 33, 21⟩ = .ok "/* a ".toList ∧
    parse "/* a ".toList = .error (.openComment 0) := by
  decide +kernel

end Deadwood.Trim

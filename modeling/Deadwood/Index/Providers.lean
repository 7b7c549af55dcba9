import Deadwood.Index.Basic

/-!
# Where exports come from

The exported names of a candidate with the files that supply them. A name that the candidate
declares or lists itself has no supplier. A name that it passes on is supplied by the files of the
chain that it comes through. A re-export of everything passes on all names of the other module but
its default; a chain of them is followed until it meets a module that is already on it. An index
keeps what it has found for a candidate and does not look for it again (`ask`).
-/

set_option autoImplicit false

namespace Deadwood.Index

/-- Exported names with the files that supply them, in the order in which they are found. -/
abbrev Suppliers := List (String × List String)

/-- The suppliers with those of further names, which do not replace any. -/
def supply (table more : Suppliers) : Suppliers :=
  more.foldl (fun table (name, files) => Keyed.putNew name files table) table

/-- The names that a module declares or lists itself. -/
def ownNames (module : Module) : List String :=
  module.declarations.map Module.Declaration.name ++
    module.localExports.flatMap (·.entries.map Module.Entry.exportedAs)

/-- The names that a re-export passes on from its target, given the suppliers of the target's own
names. -/
def passedOn (target : Option String) (inner : Suppliers) : Module.Passage → Suppliers
  | .whole name => [(name, target.toList)]
  | .everything =>
    (inner.filter fun (name, _) => name != "default").map fun (name, files) =>
      (name, (target.toList ++ files).eraseDups)
  | .listed entries =>
    entries.map fun entry =>
      (entry.exportedAs, (target.toList ++ (inner.lookup entry.name).getD []).eraseDups)

/-- The candidates that are not on the chain. -/
def unseen (index : Index) (chain : List String) : List Candidate :=
  index.files.filter fun candidate => !chain.contains candidate.path

theorem length_unseen_lt {index : Index} {path : String} {candidate : Candidate}
    {chain : List String} (found : index.find? path = some candidate)
    (fresh : chain.contains path = false) :
    (index.unseen (path :: chain)).length < (index.unseen chain).length := by
  have mem := List.mem_of_find?_eq_some found
  have same : candidate.path = path := by simpa using List.find?_some found
  have step : index.unseen (path :: chain) = (index.unseen chain).filter (·.path ≠ path) := by
    simp [unseen, List.filter_filter]
  rw [step, List.length_filter_lt_length_iff_exists]
  exact ⟨candidate, List.mem_filter.2 ⟨mem, by simpa [same] using fresh⟩, by simp [same]⟩

/-- The exported names of a candidate with the files that supply them, where `chain` holds the
candidates that are being looked at. -/
def suppliersFrom (index : Index) (chain : List String) (path : String) : Suppliers :=
  match _found : index.find? path with
  | none => []
  | some candidate =>
    if _fresh : chain.contains path = false then
      let own := supply [] ((ownNames candidate.module).map (·, []))
      candidate.module.reexports.foldl (fun table statement =>
        let target := index.target? path statement.specifier
        let inner := match statement.passage, target with
          | .whole _, _ => []
          | _, none => []
          | _, some file => index.suppliersFrom (path :: chain) file
        supply table (passedOn target inner statement.passage)) own
    else []
termination_by (index.unseen chain).length
decreasing_by exact length_unseen_lt _found _fresh

/-- The exported names of a candidate with the files that supply them. -/
def suppliers (index : Index) (path : String) : Suppliers := index.suppliersFrom [] path

/-- The exported names of a candidate. -/
def exportedNames (index : Index) (path : String) : List String :=
  (index.suppliers path).map Prod.fst

/-! ## Answers that are kept -/

/-- The exports of the candidates that have been asked for. -/
abbrev Answers := List (String × Suppliers)

/-- Ask for the exports of a candidate. An answer that was given before is given again; a new one is
kept. What a chain leads through is never asked for in this way, since it depends on the chain. -/
def ask (index : Index) (path : String) (answers : Answers) : Suppliers × Answers :=
  match answers.lookup path with
  | some answer => (answer, answers)
  | none =>
    let answer := index.suppliers path
    (answer, Keyed.put path answer answers)

end Deadwood.Index

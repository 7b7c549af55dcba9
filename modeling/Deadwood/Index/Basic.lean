import Deadwood.Alias.Resolver
import Deadwood.Module.Parse

/-!
# The index of a project

The candidates of a project with what their texts say, and the edges between them: an edge leads
from a module to the file that one of its imports or re-exports stands for.
-/

set_option autoImplicit false

namespace Deadwood

open Alias

/-- Why a candidate's text says nothing. -/
inductive CandidateError where
  | unreadable (e : Disk.TextError)
  | unparsable (e : Module.ParseError)
  deriving DecidableEq, Repr

/-- The wording of an error. -/
def CandidateError.message : CandidateError → String
  | .unreadable (.encoding e) => "Unicode decode error: " ++ e.message
  | .unreadable (.disk e) => "Could not read file: " ++ e.message
  | .unparsable e =>
    let place := match e.offset? with
      | some n => " at offset " ++ toString n
      | none => ""
    "Parse error" ++ place ++ ": " ++ e.message

/-- A candidate with its text, which is empty if it cannot be read, and what the text says. -/
structure Candidate where
  path : String
  text : List Char
  module : Module := {}
  error : Option CandidateError := none
  deriving DecidableEq, Repr

/-- A candidate with a text. -/
def Candidate.ofText (path : String) (text : List Char) : Candidate :=
  match Module.parse text with
  | .ok module => { path, text, module }
  | .error e => { path, text, error := some (.unparsable e) }

/-- Read a candidate. One that cannot be read is kept as such, unless its path cannot be handed to
the disk at all. -/
def Candidate.load (disk : Disk) (root : Path) (path : String) : Except Failure Candidate :=
  match disk.readText (root.child path) with
  | .ok text => .ok (.ofText path text)
  | .error (.disk ⟨.zeroCharacter, name⟩) => .error (.disk ⟨.zeroCharacter, name⟩)
  | .error e => .ok { path, text := [], error := some (.unreadable e) }

/-- How a module reaches another. -/
inductive EdgeKind where
  | static | sideEffect | dynamic | reexport
  deriving DecidableEq, Repr

/-- The name that stands for every export of a module. -/
def allNames : String := "*"

/-- A statement of a module that asks for another: its specifier, how it reaches the other module,
and the names that it binds. -/
structure Request where
  specifier : String
  kind : EdgeKind
  names : List String
  deriving DecidableEq, Repr

/-- What an import asks for. -/
def Module.Import.request (statement : Module.Import) : Request :=
  match statement.clause with
  | none => ⟨statement.specifier, .sideEffect, []⟩
  | some clause =>
    ⟨statement.specifier, .static,
      clause.importedNames ++ (if clause.wholeName.isSome then [allNames] else [])⟩

/-- What a re-export asks for. -/
def Module.Reexport.request (statement : Module.Reexport) : Request :=
  match statement.passage with
  | .listed entries => ⟨statement.specifier, .reexport, entries.map Module.Entry.name⟩
  | _ => ⟨statement.specifier, .reexport, [allNames]⟩

/-- Everything that a module asks for: imports, then re-exports, then what is loaded at run time. -/
def Module.requests (module : Module) : List Request :=
  module.imports.map Module.Import.request ++ module.reexports.map Module.Reexport.request ++
    module.dynamicImports.map fun specifier => ⟨specifier, .dynamic, [allNames]⟩

/-- A way from one candidate to another file. -/
structure Edge where
  importer : String
  target : String
  kind : EdgeKind
  names : List String
  deriving DecidableEq, Repr

/-- The edge uses the default export of its target. -/
def Edge.bindsDefault (edge : Edge) : Bool :=
  edge.kind == .dynamic || edge.names.contains "default"

/-- The candidates of a project and the edges between them. -/
structure Index where
  /-- One candidate for each path, in ascending order. -/
  files : List Candidate
  edges : List Edge
  /-- The resolver that found the targets, with all its answers. -/
  resolver : Resolver
  deriving Repr

namespace Index

/-- The edges of the requests that lead to a file other than the module itself. -/
def edgesFrom (disk : Disk) (path : String) (resolver : Resolver) :
    List Request → Except Failure (List Edge × Resolver)
  | [] => .ok ([], resolver)
  | request :: requests => do
    let (target, resolver) ← resolver.resolve disk request.specifier (Relative.parent path)
    let (edges, resolver) ← edgesFrom disk path resolver requests
    match target with
    | some target =>
      if target = path then return (edges, resolver)
      else return (⟨path, target, request.kind, request.names⟩ :: edges, resolver)
    | none => return (edges, resolver)

/-- The edges of candidates, in their order. -/
def edgesOf (disk : Disk) (resolver : Resolver) :
    List Candidate → Except Failure (List Edge × Resolver)
  | [] => .ok ([], resolver)
  | candidate :: candidates => do
    let (edges, resolver) ← edgesFrom disk candidate.path resolver candidate.module.requests
    let (more, resolver) ← edgesOf disk resolver candidates
    return (edges ++ more, resolver)

/-- The index of the candidates at the given paths. -/
def build (disk : Disk) (root : Path) (paths : List String) (resolver : Resolver) :
    Except Failure Index := do
  let ordered := (paths.mergeSort (· ≤ ·)).eraseDups
  let files ← ordered.mapM (Candidate.load disk root)
  let (edges, resolver) ← edgesOf disk { resolver with known := ordered } files
  return ⟨files, edges, resolver⟩

/-- The paths of the candidates. -/
def paths (index : Index) : List String := index.files.map Candidate.path

/-- The candidate at a path. -/
def find? (index : Index) (path : String) : Option Candidate :=
  index.files.find? (·.path == path)

/-- The text of the candidate at a path, or the empty text. -/
def textOf (index : Index) (path : String) : List Char :=
  ((index.find? path).map Candidate.text).getD []

/-- The file that a specifier in a candidate was found to stand for. -/
def target? (index : Index) (path specifier : String) : Option String :=
  (index.resolver.answer? specifier (Relative.parent path)).join

/-- The edges to a file. -/
def edgesTo (index : Index) (path : String) : List Edge :=
  index.edges.filter fun edge => edge.target == path && (index.find? edge.importer).isSome

/-- The edges to a file that have one of the given kinds. -/
def edgesOfKind (index : Index) (path : String) (kinds : List EdgeKind) : List Edge :=
  (index.edgesTo path).filter fun edge => kinds.contains edge.kind

/-- The candidates that reach a file, in ascending order. -/
def importersOf (index : Index) (path : String) : List String :=
  (((index.edgesTo path).map Edge.importer).mergeSort (· ≤ ·)).eraseDups

/-- The files that are loaded at run time. -/
def dynamicTargets (index : Index) : List String :=
  ((index.edges.filter (·.kind == .dynamic)).map Edge.target).eraseDups

end Index

end Deadwood

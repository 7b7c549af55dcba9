import Deadwood.Glob.Basic
import Deadwood.Project
import Deadwood.Reference.Scanner
import Deadwood.Verdict.Report

/-!
# Analysis

Every candidate of a project is looked at for every reason to keep it, so the reasons and the counts
of a record are complete. A candidate for which no reason is found is dropped.
-/

set_option autoImplicit false

namespace Deadwood.Analysis

open Reference

/-! ## Reasons -/

/-- A path is protected: an entry of the list is the path, or a pattern for it. -/
def isAllowlisted (path : String) : (entries : List Value) → Except Fault Bool
  | [] => .ok false
  | .text entry :: entries =>
    if entry = path || Glob.isMatch entry path then .ok true else isAllowlisted path entries
  | _ :: _ => .error .wrongKind

/-- One of the words is among the elements of a value. -/
def includesAny (v : Value) : (words : List String) → Except Fault Bool
  | [] => .ok false
  | word :: words => do if ← v.includes word then return true else includesAny v words

/-- A file is loaded by convention: its name is reserved, and one of its directories is one in which
reserved names are loaded. -/
def isRoute (path : String) (directories names : Value) : Except Fault Bool := do
  if ← names.includes (Relative.stem path) then
    includesAny directories (Relative.segments path).dropLast
  else return false

/-- A file that gathers exports is in use: it exports something, and a candidate imports it. -/
def isUsedBarrel (index : Index) (path : String) (exports : Index.Suppliers) : Bool :=
  (index.find? path).isSome && Relative.isBarrel path && !exports.isEmpty &&
    !(index.edgesOfKind path [.static, .sideEffect]).isEmpty

/-- The names that candidates import from a file. -/
def importedNames (index : Index) (path : String) : List String :=
  (((index.edgesOfKind path [.static]).flatMap Edge.names).filter (· != allNames)).eraseDups

/-- The names that candidates import from a file and that it is not known to export. -/
def unlistedNames (index : Index) (path : String) (exports : Index.Suppliers) : List String :=
  (importedNames index path).filter fun name => !(exports.map Prod.fst).contains name

/-- The file is loaded at run time, or loads others at run time. -/
def isDynamic (index : Index) (path : String) : Bool :=
  (index.find? path).any (fun candidate => !candidate.module.dynamicImports.isEmpty) ||
    index.dynamicTargets.contains path

/-! ## Records -/

/-- What is to be said about a file apart from its reasons. -/
def notesOn (index : Index) (path : String) (unlisted : List String) : List String :=
  let failed := (index.find? path).bind Candidate.error
  (failed.map fun e =>
      "parse failed, classified by path and importers only: " ++ e.message).toList ++
    (if unlisted.isEmpty then []
      else ["imported but not among parsed exports: " ++
        ", ".intercalate (unlisted.mergeSort (· ≤ ·))])

/-- The verdict on a candidate with the given exports. -/
def classify (project : Project) (directories names : Value) (path : String)
    (exports : Index.Suppliers) : Except Fault (Record String) := do
  let index := project.index
  let exportRefs := (countEach index path exports).map fun (name, n) => ExportRef.mk name (n : Int)
  let unlisted := unlistedNames index path exports
  let allowed ← isAllowlisted path project.allowlist
  let routed ← isRoute path directories names
  let blank : Record String :=
    { path, exportRefs, importers := index.importersOf path, notes := notesOn index path unlisted }
  return blank
    |>.addReasonIf allowed .allowlist
    |>.addReasonIf routed .routeConvention
    |>.addReasonIf (isDynamic index path) .dynamicImportTarget
    |>.addReasonIf (isUsedBarrel index path exports) .barrelUsed
    |>.addReasonIf (exportRefs.any (0 < ·.refs)) .exportReferenced
    |>.addReasonIf (!unlisted.isEmpty) .exportReferenced
    |>.addReasonIf (!(project.corpus.mentions path).isEmpty) .pathMentioned
    |>.addReasonIf (!(index.edgesOfKind path [.sideEffect]).isEmpty) .sideEffectImport

/-- The verdicts on candidates, whose exports are asked for one after the other. -/
def classifyAll (project : Project) (directories names : Value) (answers : Index.Answers) :
    (paths : List String) → Except Fault (List (Record String))
  | [] => .ok []
  | path :: paths => do
    let (exports, answers) := project.index.ask path answers
    let record ← classify project directories names path exports
    return record :: (← classifyAll project directories names answers paths)

/-- The version of this program. -/
def version : String := "0.3.0"

/-- The report on a project, made at the time `now`. -/
def run (project : Project) (now : Stamp) : Except Fault (Report String) := do
  let directories ← project.config.routeDirectories
  let names ← project.config.routeNames
  let records ← classifyAll project directories names [] project.index.paths
  return ⟨records, some {
    project := .text project.root.name
    analyzedAt := now
    version := .text version
    durationMs := .int 0
    aliasSource := .textOrNull project.index.resolver.table.source }⟩

end Deadwood.Analysis

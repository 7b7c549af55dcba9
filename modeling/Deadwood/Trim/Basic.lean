import Deadwood.Module.Edit
import Deadwood.Verdict.Record

/-!
# Trims

What is done about an export that is not used: how it is taken out, or why it is left. The results
of a run are stored as a table.
-/

set_option autoImplicit false

namespace Deadwood

namespace Trim

/-- What becomes of an unused declaration. -/
inductive Mode where
  /-- It stays, but is no longer exported. -/
  | strip
  /-- It goes, unless its own file uses it. -/
  | delete
  deriving DecidableEq, Repr

/-- The word for a mode. -/
def Mode.word : Mode → String
  | .strip => "strip"
  | .delete => "delete"

/-- The mode with a word. -/
def Mode.ofWord (word : String) : Except Fault Mode :=
  match word with
  | "strip" => .ok .strip
  | "delete" => .ok .delete
  | _ => .error (.trimMode (.text word))

/-- How an export is taken out. -/
inductive Action where
  /-- Its entry in a re-export goes. -/
  | reexportEntry
  /-- Its entry in a list of exports goes. -/
  | localEntry
  | declarationStrip
  | declarationDelete
  deriving DecidableEq, Repr

/-- The word for an action. -/
def Action.word : Action → String
  | .reexportEntry => "reexport_list"
  | .localEntry => "local_export_list"
  | .declarationStrip => "declaration_strip"
  | .declarationDelete => "declaration_delete"

/-- What came of an attempt. -/
inductive Outcome where
  | applied
  /-- It would be applied, but nothing is written. -/
  | dryRun
  | skipped
  deriving DecidableEq, Repr

/-- The word for an outcome. -/
def Outcome.word : Outcome → String
  | .applied => "applied"
  | .dryRun => "dry_run"
  | .skipped => "skipped"

/-- Why an export is left. -/
inductive Obstacle where
  | referenced
  | protectedName
  | protectedDirectory
  | defaultExport
  /-- The name comes in through a re-export of everything. -/
  | wildcard
  | notFound
  | unparsable
  /-- The declaration exports other names as well. -/
  | shared
  /-- The text cannot be edited. -/
  | edit (e : Module.EditError)
  deriving DecidableEq, Repr

/-- The wording of an obstacle. -/
def Obstacle.message : Obstacle → String
  | .referenced => "still referenced"
  | .protectedName => "protected by allowlist"
  | .protectedDirectory => "generated or dependency directory"
  | .defaultExport => "default exports are not trimmed"
  | .wildcard => "provided by a wildcard re-export"
  | .notFound => "declaration not found"
  | .unparsable => "file could not be parsed"
  | .shared => "declaration also exports other names"
  | .edit e => e.message

/-- What came of one unused export. An entry is over a type of names, as a record is. -/
structure Entry (ν : Type) where
  file : ν
  name : ν
  outcome : Outcome
  action : Option Action := none
  /-- Why the export is left, or null. -/
  reason : Value := .null
  /-- How often the export is used after all. -/
  refs : Value := .int 0
  deriving Repr

/-- The results of a run. -/
structure Results (ν : Type) where
  metadata : Value := .table []
  entries : List (Entry ν) := []
  written : List String := []
  /-- The snapshot of each file that was written. -/
  backups : List (String × String) := []
  deriving Repr

variable {ν μ : Type}

/-- The entry with other names. -/
def Entry.map (f : ν → μ) (entry : Entry ν) : Entry μ :=
  ⟨f entry.file, f entry.name, entry.outcome, entry.action, entry.reason, entry.refs⟩

/-- The results with other names. -/
def Results.map (f : ν → μ) (results : Results ν) : Results μ :=
  ⟨results.metadata, results.entries.map (Entry.map f), results.written, results.backups⟩

/-- How many attempts had an outcome. -/
def Results.count (results : Results ν) (outcome : Outcome) : Nat :=
  (results.entries.filter (·.outcome == outcome)).length

/-- The attempts that were given up. -/
def Results.skipped (results : Results ν) : List (Entry ν) :=
  results.entries.filter (·.outcome == .skipped)

/-! ## Stored results -/

/-- The value of an entry. -/
def Entry.toValue (entry : Entry Value) : Value :=
  .table [("file", entry.file), ("name", entry.name),
    ("status", .text entry.outcome.word), ("action", .textOrNull (entry.action.map Action.word)),
    ("reason", entry.reason), ("refs", entry.refs)]

/-- The entry that a value stands for. -/
def Entry.ofValue (v : Value) : Except Fault (Entry Value) := do
  let action ← v.get "action" .null
  let file ← v.need "file"
  let name ← v.need "name"
  let outcome ← Deadwood.ofWord "TrimStatus" Outcome.word [.applied, .dryRun, .skipped]
    (← v.need "status")
  let action ← if action.isSet then
      (Deadwood.ofWord "TrimAction" Action.word
        [.reexportEntry, .localEntry, .declarationStrip, .declarationDelete] action).map some
    else pure none
  return {
    file, name, outcome, action
    reason := ← v.get "reason" .null, refs := ← v.get "refs" (.int 0) }

/-- The name of a file that a value stands for. -/
def fileOf : Value → Except Fault String
  | .text s => .ok s
  | .list _ | .table _ => .error .wrongKind
  | _ => .error .notText

/-- The entry with texts for names. -/
def Entry.readable (entry : Entry Value) : Except Fault (Entry String) := do
  return ⟨← fileOf entry.file, ← entry.name.asText, entry.outcome, entry.action, entry.reason,
    entry.refs⟩

/-- The entries that values stand for. All of them are read before any name is looked at. -/
def entriesOf (values : List Value) : Except Fault (List (Entry String)) := do
  (← values.mapM Entry.ofValue).mapM Entry.readable

/-- The value of results. -/
def Results.toValue (results : Results Value) : Value :=
  .table [("version", .text "1.0"), ("metadata", results.metadata),
    ("summary", .table [("total", .nat results.entries.length),
      ("applied", .nat (results.count .applied)), ("dry_run", .nat (results.count .dryRun)),
      ("skipped", .nat (results.count .skipped)),
      ("files_written", .nat results.written.length)]),
    ("entries", .list (results.entries.map Entry.toValue)),
    ("files_written", .texts results.written),
    ("backups", .table (results.backups.map fun (file, snapshot) => (file, .text snapshot)))]

end Trim

end Deadwood

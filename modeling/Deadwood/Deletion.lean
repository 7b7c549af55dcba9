import Deadwood.Act
import Deadwood.Ignore.Excluder
import Deadwood.Json.Reader
import Deadwood.Json.Writer
import Deadwood.Path.Layout
import Deadwood.Verdict.Report

/-!
# Deletion

The dropped files of a report are deleted, once this is confirmed twice: by a flag, and by a typed
word or a second flag for runs without a user. Whatever the report says, nothing is deleted outside
the project or in a protected directory. A file that cannot be deleted does not stop the run.
-/

set_option autoImplicit false

namespace Deadwood.Deletion

open Text

/-! ## The gate -/

/-- What has been confirmed. -/
structure Gate where
  confirmed : Bool := false
  /-- There is no user who could type. -/
  nonInteractive : Bool := false
  typed : Option String := none
  deriving DecidableEq, Repr

/-- The word that a user types to confirm. -/
def phrase : String := "DELETE"

/-- Deletion may go ahead. -/
def Gate.isOpen (gate : Gate) : Bool :=
  gate.confirmed && (gate.nonInteractive || gate.typed == some phrase)

/-- Refuse unless the gate is open. -/
def Gate.check (gate : Gate) : Except Refusal Unit :=
  if gate.isOpen then .ok ()
  else if gate.confirmed then .error .notTyped
  else .error .notConfirmed

/-- The variable of the environment says that there is no user. -/
def isAutomatic (setting : Option String) : Bool :=
  let word := (trim (setting.getD "").toList).map Char.toLower
  ["1", "true", "yes"].contains (String.ofList word)

/-! ## Results -/

/-- What came of a deletion. -/
inductive Outcome where
  | applied | skipped | failed
  deriving DecidableEq, Repr

/-- The word for an outcome. -/
def Outcome.word : Outcome → String
  | .applied => "applied"
  | .skipped => "skipped"
  | .failed => "failed"

/-- What came of one file. -/
structure Item where
  file : Value
  outcome : Outcome
  /-- Why the file is still there, or null. -/
  error : Value := .null
  deriving Repr

/-- The results of a run. -/
structure Results where
  version : Value := .text "1.0"
  metadata : Value := .table []
  items : List Item := []
  /-- The commit that was checked out before the run, or null. -/
  commit : Value := .null
  deriving Repr

/-- How many files had an outcome. -/
def Results.count (results : Results) (outcome : Outcome) : Nat :=
  (results.items.filter (·.outcome == outcome)).length

/-- The value of an item. -/
def Item.toValue (item : Item) : Value :=
  .table [("file", item.file), ("status", .text item.outcome.word), ("error", item.error)]

/-- The item that a value stands for. -/
def Item.ofValue (v : Value) : Except Fault Item := do
  let file ← v.need "file"
  let outcome ← ofWord "DeletionStatus" Outcome.word [.applied, .skipped, .failed]
    (← v.get "status" (.text "skipped"))
  return { file, outcome, error := ← v.get "error" .null }

/-- The value of results. -/
def Results.toValue (results : Results) : Value :=
  .table [("version", results.version), ("metadata", results.metadata),
    ("summary", .table [("total_items", .nat results.items.length),
      ("applied", .nat (results.count .applied)), ("skipped", .nat (results.count .skipped)),
      ("failed", .nat (results.count .failed))]),
    ("items", .list (results.items.map Item.toValue)), ("git_commit_before", results.commit)]

/-- The results that a value stands for. -/
def Results.ofValue (v : Value) : Except Fault Results := do
  let version ← v.get "version" (.text "1.0")
  let metadata ← v.get "metadata" (.table [])
  let items ← (← (← v.get "items" (.list [])).elements).mapM Item.ofValue
  return { version, metadata, items, commit := ← v.get "git_commit_before" .null }

/-- Write results to a file. -/
def Results.save (results : Results) (path : Path) : Act Unit :=
  Act.change fun disk => disk.writeText path (Json.write results.toValue)

/-- The results in a file. -/
def Results.load (disk : Disk) (path : Path) : Except Failure Results :=
  match disk.readText path with
  | .error (.disk e) => .error (.disk e)
  | .error (.encoding e) => .error (.encoding e)
  | .ok text =>
    match Json.read text with
    | .error (.excess e) => .error (.excess e)
    | .error e => .error (.json e)
    | .ok v => ofFault (ofValue v)

/-! ## Deleting -/

/-- What the surroundings of a run say: the commit that is checked out, and the files that the
system will not delete. -/
structure Surroundings where
  commit : Option String := none
  /-- Why a file, named by its path from the root, will not be deleted. -/
  refusal : String → Option String := fun _ => none

/-- Delete a file of the project, or say why it is left. The file must be named by a text. -/
def deleteFile (root : Path) (refusal : String → Option String) (name : Value) (disk : Disk) :
    Except Failure ((Outcome × Option String) × Disk) := do
  let file ← ofFault name.asText
  let target := root.child file
  match target.inProject? root disk.here with
  | none => return ((.skipped, some "outside project root"), disk)
  | some inside =>
    if Ignore.isProtected file then return ((.skipped, some "protected directory"), disk)
    else if ← ofDisk (disk.isFile target) then
      match refusal inside, disk.remove target with
      | some message, _ => return ((.failed, some message), disk)
      | none, .ok disk => return ((.applied, none), disk)
      | none, .error e => return ((.failed, some e.message), disk)
    else return ((.skipped, some "file not found"), disk)

/-- Delete files of the project, one after the other. A name that is no path, or one that the disk
cannot look at, ends the run, and what was deleted before stays deleted. -/
def deleteFiles (root : Path) (refusal : String → Option String) (disk : Disk) :
    (files : List Value) → Except Failure (List Item) × Disk
  | [] => (.ok [], disk)
  | file :: files =>
    match deleteFile root refusal file disk with
    | .error e => (.error e, disk)
    | .ok ((outcome, error), disk) =>
      let (items, disk) := deleteFiles root refusal disk files
      (items.map ({ file, outcome, error := .textOrNull error } :: ·), disk)

/-- What is known about a run. -/
def metadata (root : Path) (gate : Gate) (now : Stamp) : Value :=
  .table [("project", .text root.name), ("deleted_at", .text now.write),
    ("mode", .text (if gate.nonInteractive then "non_interactive" else "typed_confirmation"))]

/-- Delete the dropped files of a report, if the gate is open, at the universal time `now`. -/
def run (directory : Path) (report : Report Value) (gate : Gate) (surroundings : Surroundings)
    (now : Stamp) : Act Results := do
  Act.look fun _ => gate.check.mapError .refused
  let root ← Act.look fun disk => directory.resolved disk.here
  let items ← Act.attempt fun disk =>
    deleteFiles root surroundings.refusal disk (report.droppable.map Record.path)
  return {
    metadata := metadata root gate now, items, commit := .textOrNull surroundings.commit }

end Deadwood.Deletion

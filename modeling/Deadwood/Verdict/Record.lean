import Deadwood.Value.Fault

/-!
# Verdicts

The verdict on a candidate. A candidate is kept for reasons, of which each one is enough, and is
dropped if there is none. A record is over a type of names: texts when it comes from an analysis,
and any values when it comes from a stored report, which is passed on as it is.
-/

set_option autoImplicit false

namespace Deadwood

/-- What is to become of a file. -/
inductive Status where
  | keep | drop
  deriving DecidableEq, Repr

/-- Why a file is kept. -/
inductive Reason where
  | allowlist
  | routeConvention
  | dynamicImportTarget
  | barrelUsed
  | exportReferenced
  | pathMentioned
  | sideEffectImport
  deriving DecidableEq, Repr

/-- The word for a status. -/
def Status.word : Status → String
  | .keep => "KEEP"
  | .drop => "DROP"

/-- The word for a reason. -/
def Reason.word : Reason → String
  | .allowlist => "ALLOWLIST"
  | .routeConvention => "ROUTE_CONVENTION"
  | .dynamicImportTarget => "DYNAMIC_IMPORT_TARGET"
  | .barrelUsed => "BARREL_REEXPORTED_AND_USED"
  | .exportReferenced => "EXPORT_REFERENCED_ELSEWHERE"
  | .pathMentioned => "TEXT_REFERENCED_IN_DOCS_OR_TESTS"
  | .sideEffectImport => "SIDE_EFFECT_IMPORT"

/-- All reasons. -/
def Reason.all : List Reason :=
  [.allowlist, .routeConvention, .dynamicImportTarget, .barrelUsed, .exportReferenced,
    .pathMentioned, .sideEffectImport]

/-- The member of a family whose word a value is. -/
def ofWord {α : Type} (family : String) (word : α → String) (all : List α) (v : Value) :
    Except Fault α :=
  let found := match v with
    | .text s => all.find? fun a => word a == s
    | _ => none
  match found with
  | some a => .ok a
  | none => .error (.notAmong family v)

/-- The status whose word a value is. -/
def Status.ofValue (v : Value) : Except Fault Status := ofWord "Status" word [.keep, .drop] v

/-- The reason whose word a value is. -/
def Reason.ofValue (v : Value) : Except Fault Reason := ofWord "Reason" word all v

/-- How often an export is used elsewhere. -/
structure ExportRef (ν : Type) where
  name : ν
  refs : Int
  deriving DecidableEq, Repr

/-- The verdict on one file. -/
structure Record (ν : Type) where
  path : ν
  reasons : List Reason := []
  exportRefs : List (ExportRef ν) := []
  importers : List ν := []
  notes : List ν := []
  deriving DecidableEq, Repr

namespace Record

variable {ν μ : Type}

/-- A file without a reason is dropped. -/
def status (record : Record ν) : Status := if record.reasons.isEmpty then .drop else .keep

/-- The record with one more reason, unless it has it. -/
def addReason (record : Record ν) (reason : Reason) : Record ν :=
  if record.reasons.contains reason then record
  else { record with reasons := record.reasons ++ [reason] }

/-- The record with a reason if a condition holds. -/
def addReasonIf (record : Record ν) (condition : Bool) (reason : Reason) : Record ν :=
  if condition then record.addReason reason else record

/-- The exports that are not used elsewhere. -/
def unusedExports (record : Record ν) : List ν :=
  (record.exportRefs.filter (·.refs == 0)).map ExportRef.name

/-- Some exports are used elsewhere, and some are not. -/
def isPartlyUsed (record : Record ν) : Bool :=
  record.exportRefs.any (0 < ·.refs) && !record.unusedExports.isEmpty

/-- The record with other names. -/
def map (f : ν → μ) (record : Record ν) : Record μ :=
  ⟨f record.path, record.reasons, record.exportRefs.map fun ref => ⟨f ref.name, ref.refs⟩,
    record.importers.map f, record.notes.map f⟩

/-- The record with texts for names. Its path must be one; other names are shown as they are. -/
def readable (record : Record Value) : Except Fault (Record String) := do
  return { record.map Value.plain with path := ← record.path.asText }

/-! ## Stored records -/

/-- The value of a record. Notes are left out if there are none. -/
def toValue (record : Record Value) : Value :=
  .table ([("path", record.path), ("status", .text record.status.word),
      ("reasons", .texts (record.reasons.map Reason.word)),
      ("exportRefs", .list (record.exportRefs.map fun ref =>
        .table [("export", ref.name), ("refs", .int ref.refs)])),
      ("importers", .list record.importers)] ++
    (if record.notes.isEmpty then [] else [("notes", .list record.notes)]))

/-- The member of a table of elements, or no elements if it is missing. -/
def elementsOf (v : Value) (key : String) : Except Fault (List Value) := do
  (← v.get key (.list [])).elements

/-- The use of an export that a value stands for. -/
def exportRefOf (v : Value) : Except Fault (ExportRef Value) := do
  return ⟨← v.need "export", ← (← v.get "refs" (.int 0)).count⟩

/-- The record that a value stands for. A status, if there is one, must agree with the reasons. -/
def ofValue (v : Value) : Except Fault (Record Value) := do
  let path ← v.need "path"
  let reasons ← (← elementsOf v "reasons").mapM Reason.ofValue
  let exportRefs ← (← elementsOf v "exportRefs").mapM exportRefOf
  let importers ← elementsOf v "importers"
  let notes ← elementsOf v "notes"
  let record : Record Value := { path, reasons, exportRefs, importers, notes }
  match ← v.get "status" .null with
  | .null => return record
  | stored =>
    if (← Status.ofValue stored) = record.status then return record
    else .error (.contradiction path stored (← v.get "reasons" (.list [])))

end Record

end Deadwood

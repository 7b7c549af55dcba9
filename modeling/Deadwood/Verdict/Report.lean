import Deadwood.Verdict.Record

/-!
# Reports

A report holds the records of one analysis with what is known about the run. It can be looked at as
a whole or only for one status, and it is stored as a table.
-/

set_option autoImplicit false

namespace Deadwood

/-- Which records of a report are looked at. -/
inductive Filter where
  | all
  | only (status : Status)
  deriving DecidableEq, Repr

/-- The word for a filter. -/
def Filter.word : Filter → String
  | .all => "ALL"
  | .only status => status.word

/-- The filter whose word a value is. -/
def Filter.ofValue (v : Value) : Except Fault Filter :=
  ofWord "StatusFilter" word [.all, .only .drop, .only .keep] v

/-- What is known about the run of an analysis. -/
structure Metadata where
  project : Value
  analyzedAt : Stamp
  version : Value
  durationMs : Value
  aliasSource : Value
  deriving Repr

/-- The records of an analysis, in the order of their paths. -/
structure Report (ν : Type) where
  records : List (Record ν) := []
  metadata : Option Metadata := none
  deriving Repr

/-- How many files are kept and dropped. -/
structure Summary where
  candidates : Nat
  kept : Nat
  droppable : Nat
  deriving DecidableEq, Repr

namespace Report

variable {ν μ : Type}

/-- The filter lets the record through. -/
def accepts (filter : Filter) (record : Record ν) : Bool :=
  match filter with
  | .all => true
  | .only status => record.status == status

/-- The records that a filter lets through. -/
def view (report : Report ν) (filter : Filter) : List (Record ν) :=
  report.records.filter (accepts filter)

/-- The records of files that are dropped. -/
def droppable (report : Report ν) : List (Record ν) := report.view (.only .drop)

/-- How many files are kept and dropped. -/
def summary (report : Report ν) : Summary :=
  let kept := (report.view (.only .keep)).length
  ⟨report.records.length, kept, report.records.length - kept⟩

/-- The report with other names. -/
def map (f : ν → μ) (report : Report ν) : Report μ :=
  ⟨report.records.map (Record.map f), report.metadata⟩

/-- The part of a report that a filter lets through, with texts for names. -/
def readable (report : Report Value) (filter : Filter) : Except Fault (Report String) := do
  return ⟨← (report.view filter).mapM Record.readable, report.metadata⟩

/-- The first record of a path. -/
def find? (report : Report Value) (path : String) : Option (Record Value) :=
  report.records.find? fun record => record.path.same (.text path)

/-- The paths of files that are dropped, in ascending order. -/
def dropPaths (report : Report String) : List String :=
  (report.droppable.map Record.path).mergeSort (· ≤ ·)

/-- The paths of files that are dropped, one to a line. -/
def pathLines (report : Report String) : String :=
  String.join (report.dropPaths.map (· ++ "\n"))

/-! ## Stored reports -/

/-- The value of the metadata, under a filter. -/
def metadataValue (metadata : Metadata) (filter : Filter) : Value :=
  .table [("project", metadata.project), ("analyzed_at", .text metadata.analyzedAt.write),
    ("orphanprune_version", metadata.version), ("analysis_duration_ms", metadata.durationMs),
    ("alias_source", metadata.aliasSource), ("only", .text filter.word)]

/-- The value of a summary. -/
def summaryValue (summary : Summary) : Value :=
  .table [("candidates", .nat summary.candidates), ("kept", .nat summary.kept),
    ("droppable", .nat summary.droppable)]

/-- The value of a report under a filter. The summary counts all records. -/
def toValue (report : Report Value) (filter : Filter) : Value :=
  .table ((report.metadata.map fun metadata =>
      ("metadata", metadataValue metadata filter)).toList ++
    [("summary", summaryValue report.summary),
      ("files", .list ((report.view filter).map Record.toValue))])

/-- The metadata that a value stands for. -/
def metadataOf (v : Value) : Except Fault Metadata := do
  let project ← v.get "project" (.text "")
  let stamp ← (← v.need "analyzed_at").asText
  let analyzedAt ← (Stamp.read stamp).mapError .stamp
  return ⟨project, analyzedAt, ← v.get "orphanprune_version" (.text ""),
    ← v.get "analysis_duration_ms" (.int 0), ← v.get "alias_source" .null⟩

/-- The report that a value stands for. -/
def ofValue (v : Value) : Except Fault (Report Value) := do
  let metadata ← v.get "metadata" .null
  let records ← (← Record.elementsOf v "files").mapM Record.ofValue
  if metadata.isSet then return ⟨records, some (← metadataOf metadata)⟩ else return ⟨records, none⟩

/-- Files that are kept because some of their exports are used, while others are not. -/
def partlyUsed (report : Report ν) : List (Record ν) :=
  report.records.filter fun record =>
    record.reasons.contains .exportReferenced && record.isPartlyUsed

end Report

end Deadwood

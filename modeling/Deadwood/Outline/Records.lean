import Deadwood.Outline.Basic
import Deadwood.Path.Basic
import Deadwood.Trim.Basic
import Deadwood.Verdict.Report

/-!
# Outlines of results

Verdicts are shown under the directories of their files, in ascending order of their paths. Trims
are shown under their files, in the order in which they were made.
-/

set_option autoImplicit false

namespace Deadwood.Outline

/-! ## Verdicts -/

/-- The segments of a path, of which the slashes in front of an absolute path are the first. -/
def steps (path : String) : List String :=
  let parsed := Path.ofString path
  if parsed.isAbsolute then String.ofList (List.replicate parsed.slashes '/') :: parsed.parts
  else parsed.parts

/-- The directories on the way to a file. -/
def directories (path : String) : List String := (steps path).dropLast

/-- The label of a directory. -/
def directoryLabel (name : String) : Label := .plain (name ++ "/") "bold blue"

/-- The label of a file with its verdict. -/
def recordLabel (record : Record String) : Label :=
  let name := (Path.ofString record.path).name
  match record.status with
  | .drop => Label.append (Label.append {} "x " "red bold") name "red"
  | .keep =>
    let reasons := ", ".intercalate (record.reasons.map Reason.word)
    Label.append (Label.append {} name "green") (" (" ++ reasons ++ ")") "dim"

/-- The label of an export with how often it is used. -/
def exportLabel (ref : ExportRef String) : Label :=
  Label.append (.plain ref.name (if ref.refs = 0 then "red" else "green"))
    (" (" ++ toString ref.refs ++ " refs)") "dim"

/-- The label of a note. -/
def noteLabel (note : String) : Label := .plain ("! " ++ note) "yellow"

/-- A file with its verdict and, if `verbose`, with its exports and notes. -/
def recordTree (verbose : Bool) (record : Record String) : Tree :=
  .node (recordLabel record) <|
    if verbose then
      (record.exportRefs.map exportLabel ++ record.notes.map noteLabel).map (.node · [])
    else []

/-- The records under the directories of their files, in ascending order of their paths. -/
def ofRecords (records : List (Record String)) : List (Outline (Record String)) :=
  ofItems (fun record => directories record.path)
    (records.mergeSort fun a b => a.path ≤ b.path)

/-- The display of records. -/
def recordTrees (records : List (Record String)) (project : String) (verbose : Bool) : Titled :=
  titled project (displayAll directoryLabel (recordTree verbose) (ofRecords records))

/-- The records with names that can be shown. A path must be a text, and so must the name of an
export where exports are shown; notes may be anything. -/
def showable (records : List (Record Value)) (verbose : Bool) :
    Except Fault (List (Record String)) := do
  let shown ← records.mapM Record.readable
  if verbose && records.any fun record => record.exportRefs.any fun ref =>
      !(ref.name matches .text _) then .error .notText
  else return shown

/-! ## Trims -/

/-- The style of an outcome. -/
def outcomeStyle : Trim.Outcome → String
  | .applied => "green"
  | .dryRun => "yellow"
  | .skipped => "dim"

/-- The label of a name with what came of it. -/
def entryLabel (entry : Trim.Entry String) : Label :=
  let detail := (entry.action.map Trim.Action.word).getD entry.reason.plain
  Label.append (Label.append {} entry.name (outcomeStyle entry.outcome))
    (" [" ++ entry.outcome.word ++ ": " ++ detail ++ "]") "dim"

/-- The display of trims. -/
def trimTrees (entries : List (Trim.Entry String)) (title : String) : Titled :=
  titled title (displayAll (.plain · "yellow") (fun entry => .node (entryLabel entry) [])
    (ofItems (fun entry => [entry.file]) entries))

end Deadwood.Outline

import Deadwood.Cli.Request
import Deadwood.Cli.Session
import Deadwood.Outline.Records
import Deadwood.Trim.Run
import Deadwood.Verdict.Store

/-!
# Commands

What the program does for each request.
-/

set_option autoImplicit false

namespace Deadwood.Cli

open Session

/-! ## Reports -/

/-- How often each reason was found, in ascending order of the words for reasons. -/
def reasonCounts {ν : Type} (report : Report ν) : List (String × Nat) :=
  let found := report.records.flatMap Record.reasons
  let counts := Reason.all.map fun reason => (reason.word, found.count reason)
  (counts.filter fun (_, n) => n != 0).mergeSort fun a b => a.1 ≤ b.1

/-- Show how many files are kept and dropped, and for which reasons. -/
def printSummary {ν : Type} (report : Report ν) : Session Unit :=
  let summary := report.summary
  let counts := reasonCounts report
  let reasons := if counts.isEmpty then [] else
    ["", ""] :: ["By reason:", ""] ::
      counts.map fun (word, n) => ["  " ++ word, toString n]
  print (Console.rows "[bold]Reachability Summary[/]" ([
    ["Candidates", toString summary.candidates],
    ["Kept", "[green]" ++ toString summary.kept ++ "[/]"],
    ["Droppable", "[red]" ++ toString summary.droppable ++ "[/]"]] ++ reasons))

/-- Show an outline between empty lines. -/
def printOutline (outline : Outline.Titled) : Session Unit := do
  write ['\n']
  print (Console.outline outline)

/-- Show the records of a report under a filter. -/
def printRecords (environment : Environment) (report : Report Value) (only : Filter)
    (name : String) (verbose : Bool) : Session Unit := do
  let records ← perform environment isNeverReported <|
    Act.look fun _ => ofFault (Outline.showable (report.view only) verbose)
  printOutline (Outline.recordTrees records name verbose)

/-- Open a project and analyse it. -/
def openAndAnalyze (environment : Environment) (request : Analyze) :
    Session (Project × Report Value) :=
  perform environment isReported <| Act.look fun disk => do
    let project ← Project.load disk request.directory request.options
    return (project, (← ofFault (Analysis.run project environment.now)).map Value.text)

/-- Find out which files are in use. -/
def analyze (environment : Environment) (request : Analyze) : Session Unit := do
  if request.form matches .file _ then
    say "[bold blue]orphanprune - Reachability Analysis[/]"
  let (project, report) ← openAndAnalyze environment request
  match request.form with
  | .paths =>
    let drops ← perform environment isNeverReported <|
      Act.look fun _ => ofFault (report.readable (.only .drop))
    write drops.pathLines.toList
  | .document => write (report.render request.only ++ ['\n'])
  | .file path =>
    let target ← match path with
      | some path => pure path
      | none =>
        perform environment isNeverReported <|
          Act.change fun disk => disk.ensureDirectory (Layout.home project.root)
        pure (Layout.report project.root)
    perform environment isNeverReported (report.save target request.only)
    say ("\n[green]Report saved to:[/] " ++ target.toString)
    printSummary report
    if request.verbose then
      printRecords environment report request.only project.root.name request.verbose

/-- Show a report. -/
def display (environment : Environment) (request : Display) : Session Unit := do
  let state ← get
  let path := request.report.getD (Layout.report ⟨1, state.disk.here⟩)
  let report ← perform environment isReported <| Act.look fun disk => Report.load disk path
  let name := match report.metadata with
    | some metadata => metadata.project.plain
    | none => path.parent.name
  printSummary report
  printRecords environment report request.only name request.verbose

/-! ## Trims -/

/-- Show what came of the unused exports. -/
def printTrims (results : Trim.Results String) : Session Unit := do
  if results.entries.isEmpty then say "\n[green]No partially used files to trim.[/]"
  else
    printOutline (Outline.trimTrees results.entries "Trim Results")
    print (Console.rows "[bold]Trim Summary[/]" [
      ["Applied", toString (results.count .applied)],
      ["Dry run", toString (results.count .dryRun)],
      ["Skipped", toString (results.count .skipped)],
      ["Files written", toString results.written.length]])

/-- How a request and a configuration say that trimming is to be done. -/
def trimOptions (request : TrimRequest) (config : Config) : Except Failure Trim.Options := do
  let word ← if request.mode = "" then config.trimMode else pure request.mode
  let backup ← ofFault config.backup
  return {
    write := request.write, mode := ← ofFault (Trim.Mode.ofWord word)
    backup := backup.isSet && !request.noBackup }

/-- Take out unused exports. -/
def trim (environment : Environment) (request : TrimRequest) : Session Unit := do
  say "[bold blue]orphanprune - Export Trimming[/]"
  let (project, options, report) ← perform environment isReportedContent <| Act.look fun disk => do
    let project ← Project.load disk request.directory request.options
    let options ← trimOptions request project.config
    return (project, options, ← ofFault (Analysis.run project environment.now))
  say ("\n[dim]Mode:[/] " ++ options.mode.word ++
    (if options.write then " (write)" else " (dry-run)"))
  let path := Layout.trims project.root
  let results ← perform environment isNeverReported do
    let session : Trim.Session := { name := environment.now.compact }
    let results ← Trim.run project options session environment.now report
    Act.change fun disk => disk.ensureDirectory (Layout.home project.root)
    results.save path
    return results
  printTrims results
  say ("\n[green]Trim results saved to:[/] " ++ path.toString)
  if !options.write && results.count .dryRun != 0 then
    say "[dim]Dry run: use --write to apply these changes[/]"

/-! ## Deletion -/

/-- Show the files that would be deleted. -/
def printPlan (drops : Report String) : Session Unit := do
  let records := drops.records.mergeSort fun a b => a.path ≤ b.path
  print (Console.rows "Files to Delete" (["File", "Importers", "Exports"] ::
    records.map fun record => [Console.Markup.escape record.path,
      toString record.importers.length, toString record.exportRefs.length]))
  say ("\n[bold]Total:[/] " ++ toString records.length ++ " files")

/-- What a user types, without the blanks around it, unless there is nothing to read. -/
def typedAnswer (input : List Char) : Option String :=
  if input.isEmpty then none
  else some (String.ofList (Text.trim (input.takeWhile fun c => c != '\n' && c != '\r')))

/-- Ask the user to confirm. -/
def askToConfirm (environment : Environment) (count : Nat) : Session (Option String) := do
  print (Console.shown ("\n[bold]Type " ++ Deletion.phrase ++ " to remove " ++ toString count ++
    " files[/]: "))
  ask
  return typedAnswer environment.input

/-- Show what came of a file, if there is something to say. -/
def printItem (item : Deletion.Item) : Session Unit :=
  if item.error.isSet then
    let style := if item.outcome = .failed then "red" else "yellow"
    say ("  [" ++ style ++ "]" ++ item.outcome.word ++ "[/] " ++
      Console.Markup.escape item.file.plain ++ ": " ++ Console.Markup.escape item.error.plain)
  else pure ()

/-- Show what came of the files. -/
def printDeletions (results : Deletion.Results) : Session Unit := do
  say ("\n[bold]Deleted:[/] " ++ toString (results.count .applied) ++
    "  [bold]Skipped:[/] " ++ toString (results.count .skipped) ++
    "  [bold]Failed:[/] " ++ toString (results.count .failed))
  results.items.forM printItem

/-- Show how a deletion is undone. -/
def printUndo (commit : Option String) : Session Unit :=
  match commit with
  | some commit =>
    if commit = "" then pure ()
    else say ("[dim]To undo:[/] git checkout " ++ String.ofList (commit.toList.take 12) ++ " -- .")
  | none => pure ()

/-- Delete the dropped files of a report, once this is confirmed. -/
def delete (environment : Environment) (request : Apply) (root : Path) (report : Report Value) :
    Session Unit := do
  say "[bold red]orphanprune - Delete Unreachable Files[/]"
  let drops ← perform environment isNeverReported <|
    Act.look fun _ => ofFault (report.readable (.only .drop))
  printPlan drops
  let nonInteractive := request.nonInteractive || Deletion.isAutomatic environment.automatic
  let typed ← if request.confirmed && !nonInteractive then
      askToConfirm environment drops.records.length
    else pure none
  let gate : Deletion.Gate := { confirmed := request.confirmed, nonInteractive, typed }
  let results ← perform environment isReported
    (Deletion.run root report gate environment.surroundings environment.universal)
  let path := Layout.deletions root
  perform environment isNeverReported do
    Act.change fun disk => disk.ensureDirectory (Layout.home root)
    results.save path
  printDeletions results
  say ("\n[green]Deletion results saved to:[/] " ++ path.toString)
  printUndo environment.surroundings.commit

/-- Delete the dropped files of a report, if there are any. -/
def apply (environment : Environment) (request : Apply) : Session Unit := do
  let state ← get
  let root := request.directory.resolve state.disk.here
  let path := request.report.getD (Layout.report root)
  let report ← perform environment isReported <| Act.look fun disk => Report.load disk path
  if report.droppable.isEmpty then
    say "[green]No DROP files in the report. Nothing to delete.[/]"
  else delete environment request root report

/-! ## Runs -/

/-- A short description of the program. -/
def helpText : String :=
  "\n".intercalate [
    "Usage: orphanprune [OPTIONS] COMMAND [ARGS]...", "",
    "Find and remove unreachable files in TypeScript/JavaScript projects", "",
    "Commands:",
    "  analyze  Classify every candidate file as KEEP or DROP.",
    "  show     Display a report from a previous analysis run.",
    "  trim     Remove unreferenced exports from files that are only partially used.",
    "  apply    Delete the DROP files of a previously written report.", ""]

/-- Do what a request asks for. -/
def serve (environment : Environment) : Request → Session Unit
  | .help => write helpText.toList
  | .version => say ("orphanprune version " ++ Analysis.version)
  | .unusable path => throw (.crash (.failure (.disk ⟨.zeroCharacter, path⟩)))
  | .analyze request => analyze environment request
  | .display request => display environment request
  | .trim request => trim environment request
  | .apply request => apply environment request

/-- What is left of a run: its exit code, what it wrote, and the disk. -/
structure Outcome where
  exit : Nat
  output : List Char
  disk : Disk
  crash : Option Crash := none
  /-- What was wrong with the command line. -/
  usage : Option Usage := none
  /-- What had been written when the user was asked to confirm. -/
  asked : Option (List Char) := none

/-- Run the program. -/
def run (environment : Environment) (arguments : List String) (disk : Disk) : Outcome :=
  match Request.read arguments with
  | .error usage => { exit := 2, output := [], disk, usage := some usage }
  | .ok request =>
    let (result, state) := (serve environment request).run { disk }
    let outcome : Outcome :=
      { exit := 0, output := state.output, disk := state.disk, asked := state.asked }
    match result with
    | .ok () => outcome
    | .error (.exit code) => { outcome with exit := code }
    | .error (.crash crash) => { outcome with exit := 1, crash := some crash }

end Deadwood.Cli

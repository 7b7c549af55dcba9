import Deadwood.Act
import Deadwood.Json.Writer
import Deadwood.Trim.Basic
import Deadwood.Verdict.Analysis

/-!
# Trimming

Unused exports are taken out of files that are kept for other exports. A run works on copies of the
texts: every name is counted anew in the copies before it is taken out, so a later step sees what an
earlier one did. Only when all names are done are the changed files written, each after a snapshot
of what it was.
-/

set_option autoImplicit false

namespace Deadwood.Trim

/-- How a run is to be done. -/
structure Options where
  /-- Changed files are written. -/
  write : Bool := false
  mode : Mode := .strip
  /-- Files are copied before they are written. -/
  backup : Bool := true
  deriving DecidableEq, Repr

/-- What a run has done so far: the texts as they would be written, and as they were. -/
structure Session where
  /-- The name of the run, under which snapshots are kept. -/
  name : String
  working : List (String × List Char) := []
  initial : List (String × List Char) := []
  deriving Repr

/-! ## One name -/

/-- The entries of a list without those that export `name`. -/
def without (name : String) (entries : List Module.Entry) : List Module.Entry :=
  entries.filter (·.exportedAs != name)

/-- A list exports `name`. -/
def lists (name : String) (entries : List Module.Entry) : Bool :=
  entries.any (·.exportedAs == name)

/-- Take an entry out of the first list that has it. -/
def editList? (text : List Char) (name : String) (action : Action) :
    (statements : List (Nat × Nat × List Module.Entry)) →
    Option (Except Obstacle (List Char × Action))
  | [] => none
  | (start, stop, entries) :: statements =>
    if lists name entries then
      some <| match Module.keepEntries text start stop (without name entries) with
        | .ok edited => .ok (edited, action)
        | .error e => .error (.edit e)
    else editList? text name action statements

/-- Take out a declaration, in the way that the mode says. -/
def editDeclaration (mode : Mode) (text : List Char) (module : Module)
    (declaration : Module.Declaration) : Except Obstacle (List Char × Action) :=
  if module.declarations.any fun other =>
      other.start == declaration.start && other.name != declaration.name then .error .shared
  else if mode = .delete ∧ !Module.usedLocally text declaration then
    match Module.deleteDeclaration text declaration with
    | .ok edited => .ok (edited, .declarationDelete)
    | .error e => .error (.edit e)
  else .ok (Module.stripExport text declaration, .declarationStrip)

/-- What stands in the way of a name that a module does not say it exports. -/
def absence (module : Module) : Obstacle :=
  if module.reexports.any (·.passage == .everything) then .wildcard else .notFound

/-- Take a name out of the exports of a module. Re-exports come first, then lists, then
declarations. -/
def edit (mode : Mode) (text : List Char) (module : Module) (name : String) :
    Except Obstacle (List Char × Action) :=
  let passed := module.reexports.filterMap fun r =>
    match r.passage with
    | .listed entries => some (r.start, r.stop, entries)
    | _ => none
  let listed := module.localExports.map fun l => (l.start, l.stop, l.entries)
  match editList? text name .reexportEntry passed <|> editList? text name .localEntry listed with
  | some edited => edited
  | none =>
    match module.declarations.find? (·.name == name) with
    | some declaration => editDeclaration mode text module declaration
    | none => .error (absence module)

/-- The text of a file: as it would be written, or else as it is on the disk. A file that cannot be
read has no text, but its path must be one that can be handed to the disk. -/
def Session.read (session : Session) (disk : Disk) (root : Path) (path : String) :
    Except Failure (List Char) :=
  match session.working.lookup path with
  | some text => .ok text
  | none =>
    match disk.readText (root.child path) with
    | .ok text => .ok text
    | .error (.disk ⟨.zeroCharacter, name⟩) => .error (.disk ⟨.zeroCharacter, name⟩)
    | .error _ => .ok []

/-- The text of a file, or the empty text. -/
def Session.textOf (session : Session) (disk : Disk) (root : Path) (path : String) : List Char :=
  match session.read disk root path with
  | .ok text => text
  | .error _ => []

/-- An entry for a name that is left. -/
def leave {ν : Type} (file name : ν) (obstacle : Obstacle) (refs : Nat := 0) : Entry ν :=
  { file, name, outcome := .skipped, reason := .text obstacle.message, refs := .nat refs }

/-- Take one name, which is not used, out of the text of a file. -/
def trimText (options : Options) (file : String) (session : Session) (name : String)
    (text : List Char) : Entry String × Session :=
  match Module.parse text with
  | .error _ => (leave file name .unparsable, session)
  | .ok module =>
    match edit options.mode text module name with
    | .error obstacle => (leave file name obstacle, session)
    | .ok (edited, action) =>
      ({ file, name, outcome := if options.write then .applied else .dryRun
         action := some action },
        { session with
          working := Keyed.put file edited session.working
          initial := Keyed.putNew file text session.initial })

/-- Take one name out of a file, unless something stands in the way. `paths` are the files in which
the name is counted, if they can be found. -/
def trimName (project : Project) (disk : Disk) (options : Options)
    (paths : Except Failure (List String)) (file : String) (session : Session) (name : String) :
    Except Failure (Entry String × Session) := do
  if project.allowlist.any (·.same (.text name)) then
    return (leave file name .protectedName, session)
  else if name = "default" then return (leave file name .defaultExport, session)
  else
    let suppliers := ((project.index.suppliers file).lookup name).getD []
    let refs := Reference.countIn name file suppliers (session.textOf disk project.root) (← paths)
    if 0 < refs then return (leave file name .referenced refs, session)
    else return trimText options file session name (← session.read disk project.root file)

/-! ## A run -/

/-- Take one step for each item, one after the other. Every step finds the session that the step
before it leaves. -/
def Session.each {α β : Type} (step : Session → α → Except Failure (β × Session))
    (session : Session) : List α → Except Failure (List β × Session)
  | [] => .ok ([], session)
  | a :: as => do
    let (b, session) ← step session a
    let (bs, session) ← session.each step as
    return (b :: bs, session)

/-- Take names out of a file, one after the other. -/
def trimNames (project : Project) (disk : Disk) (options : Options)
    (paths : Except Failure (List String)) (file : String) (session : Session)
    (names : List String) : Except Failure (List (Entry String) × Session) :=
  session.each (trimName project disk options paths file) names

/-- Take the unused exports out of a file. Nothing is changed in a protected directory. -/
def trimFile (project : Project) (disk : Disk) (options : Options)
    (paths : Except Failure (List String)) (session : Session) (record : Record String) :
    Except Failure (List (Entry String) × Session) :=
  if Ignore.isProtected record.path then
    .ok (record.unusedExports.map (leave record.path · .protectedDirectory), session)
  else trimNames project disk options paths record.path session record.unusedExports

/-- Take the unused exports out of files, one after the other. -/
def trimFiles (project : Project) (disk : Disk) (options : Options)
    (paths : Except Failure (List String)) (session : Session)
    (records : List (Record String)) : Except Failure (List (Entry String) × Session) := do
  let (entries, session) ← session.each (trimFile project disk options paths) records
  return (entries.flatten, session)

/-- The files in which names are counted: the candidates as they are now, and those that have been
worked on. -/
def Session.searched (session : Session) (project : Project) (disk : Disk) :
    Except Failure (List String) := do
  return ((← project.walk.paths disk) ++ session.working.map Prod.fst).mergeSort (· ≤ ·)
    |>.eraseDups

/-- What becomes of every unused export of the files that are to be trimmed. -/
def plan (project : Project) (disk : Disk) (options : Options) (session : Session)
    (targets : List (Record String)) : Except Failure (List (Entry String) × Session) :=
  trimFiles project disk options (session.searched project disk) session targets

/-! ## Writing -/

variable {ν : Type}

/-- Copy a file to the snapshots of a run, and name the snapshot. -/
def snapshot (root : Path) (run file : String) : Act String := do
  let target := (Layout.backups root run).child file
  Act.change fun disk => disk.ensureDirectory target.parent
  Act.change fun disk => disk.copy (root.child file) target
  match target.relativeTo? root with
  | some path => return path.toString
  | none => throw (.data (.outside target.toString root.toString))

/-- Write the files whose texts have changed, in ascending order, each after its snapshot. -/
def flushFiles (root : Path) (options : Options) (session : Session) (results : Results ν) :
    (files : List (String × List Char)) → Act (Results ν)
  | [] => return results
  | (file, text) :: files => do
    if session.initial.lookup file = some text then
      flushFiles root options session results files
    else
      let backups ← if options.backup then do
          pure (Keyed.put file (← snapshot root session.name file) results.backups)
        else pure results.backups
      Act.change fun disk => disk.writeText (root.child file) text
      flushFiles root options session
        { results with backups, written := results.written ++ [file] } files

/-- Write what a run has changed. -/
def flush (root : Path) (options : Options) (session : Session) (results : Results ν) :
    Act (Results ν) :=
  flushFiles root options session results (session.working.mergeSort fun a b => a.1 ≤ b.1)

/-- What is known about a run. -/
def metadata (project : Project) (options : Options) (session : Session) (now : Stamp) : Value :=
  .table [("project", .text project.root.name), ("trimmed_at", .text now.write),
    ("run_id", .text session.name), ("mode", .text options.mode.word),
    ("write", .bool options.write)]

/-- The results of a run whose entries are known: the changed files are written if that is asked
for. -/
def finish (project : Project) (options : Options) (session : Session) (now : Stamp)
    (entries : List (Entry ν)) : Act (Results ν) :=
  let results : Results ν := { metadata := metadata project options session now, entries }
  if options.write then flush project.root options session results else pure results

/-- Trim the partly used files of a report. -/
def run (project : Project) (options : Options) (session : Session) (now : Stamp)
    (report : Report String) : Act (Results String) := do
  let (entries, session) ← Act.look fun disk =>
    plan project disk options session report.partlyUsed
  finish project options session now entries

/-- Write results to a file. -/
def Results.save (results : Results String) (path : Path) : Act Unit :=
  Act.change fun disk => disk.writeText path (Json.write (results.map .text).toValue)

end Deadwood.Trim

import Deadwood.Cli.Option
import Deadwood.Project
import Deadwood.Verdict.Report

/-!
# Requests

What a command line asks for.
-/

set_option autoImplicit false

namespace Deadwood.Cli

/-- In which form a report is wanted. -/
inductive Form where
  /-- In a file, with a summary on the console. -/
  | file (path : Option Path)
  /-- On the console, as a document. -/
  | document
  /-- On the console, as the paths of dropped files. -/
  | paths
  deriving DecidableEq, Repr

/-- Find out which files are in use. -/
structure Analyze where
  directory : Path
  options : OpenOptions
  form : Form
  only : Filter
  verbose : Bool
  deriving Repr

/-- Show a report. -/
structure Display where
  report : Option Path
  only : Filter
  verbose : Bool
  deriving Repr

/-- Take out unused exports. -/
structure TrimRequest where
  directory : Path
  options : OpenOptions
  write : Bool
  /-- What becomes of declarations; if it is empty, the configuration says so. -/
  mode : String
  noBackup : Bool
  deriving Repr

/-- Delete the dropped files of a report. -/
structure Apply where
  directory : Path
  report : Option Path
  confirmed : Bool
  nonInteractive : Bool
  deriving Repr

/-- What a command line asks for. -/
inductive Request where
  | help
  | version
  /-- Nothing that can be done, because a path cannot be handed to the disk. -/
  | unusable (path : String)
  | analyze (request : Analyze)
  | display (request : Display)
  | trim (request : TrimRequest)
  | apply (request : Apply)
  deriving Repr

/-! ## Options -/

def helpFlag : Flag := { name := "help" }

def verboseFlag : Flag := { name := "verbose", short := some 'v' }

def onlyFlag : Flag := { name := "only", takesValue := true }

/-- The options that say how a project is opened. -/
def projectFlags : List Flag :=
  [{ name := "config", short := some 'c', takesValue := true },
    { name := "tsconfig", takesValue := true },
    { name := "allow", short := some 'a', takesValue := true },
    { name := "include-ignored" },
    { name := "workers", short := some 'j', takesValue := true }]

/-- The options before a command. -/
def topFlags : List Flag := [{ name := "version", short := some 'V' }, helpFlag]

def analyzeFlags : List Flag :=
  projectFlags ++ [{ name := "out", short := some 'o', takesValue := true }, onlyFlag,
    { name := "stdout" }, { name := "paths-only" }, verboseFlag, helpFlag]

def displayFlags : List Flag := [onlyFlag, verboseFlag, helpFlag]

def trimFlags : List Flag :=
  projectFlags ++ [{ name := "write", short := some 'w' },
    { name := "mode", short := some 'm', takesValue := true }, { name := "no-backup" },
    verboseFlag, helpFlag]

def applyFlags : List Flag :=
  [{ name := "report", short := some 'r', takesValue := true },
    { name := "yes", short := some 'y' }, { name := "non-interactive" }, verboseFlag, helpFlag]

/-! ## Reading -/

/-- The path that an option asks for. -/
def pathOption (given : Given) (name : String) : Option Path :=
  (given.value? name).map Path.ofString

/-- The capital of a letter; the sign for kelvins is a capital as well. -/
def capital (c : Char) : Char := if c = '\u212a' then 'K' else c.toUpper

/-- The filter that an option asks for; case does not matter. -/
def filterOption (given : Given) : Except Usage Filter :=
  match given.value? "only" with
  | none => .ok .all
  | some word =>
    match Filter.ofValue (.text (String.ofList (word.toList.map capital))) with
    | .ok filter => .ok filter
    | .error _ => .error (.badValue "--only" word)

/-- The number of workers that an option asks for. -/
def workersOption (given : Given) : Except Usage (Option Value) :=
  match given.value? "workers" with
  | none => .ok none
  | some word =>
    match Number.loose word.toList with
    | .ok n => if 1 ≤ n then .ok (some (.int n)) else .error (.badValue "--workers" word)
    | .error _ => .error (.badValue "--workers" word)

/-- How the options say that a project is to be opened. -/
def openOptions (given : Given) : Except Usage OpenOptions := do
  return {
    config := pathOption given "config"
    aliases := (pathOption given "tsconfig").map Path.toString
    allow := given.values "allow"
    everything := given.has "include-ignored"
    workers := ← workersOption given }

/-- The only argument, if there is one. -/
def argument? (given : Given) : Except Usage (Option String) :=
  match given.arguments with
  | [] => .ok none
  | [argument] => .ok (some argument)
  | _ :: extra :: _ => .error (.extraArgument extra)

/-- The directory of the project, or the directory in which the program runs. -/
def directory (given : Given) : Except Usage Path := do
  return Path.ofString ((← argument? given).getD ".")

def readAnalyze (given : Given) : Except Usage Request := do
  return .analyze {
    directory := ← directory given
    options := ← openOptions given
    form := if given.has "paths-only" then .paths
      else if given.has "stdout" then .document
      else .file (pathOption given "out")
    only := ← filterOption given
    verbose := given.has "verbose" }

def readDisplay (given : Given) : Except Usage Request := do
  return .display {
    report := (← argument? given).map Path.ofString
    only := ← filterOption given
    verbose := given.has "verbose" }

def readTrim (given : Given) : Except Usage Request := do
  return .trim {
    directory := ← directory given
    options := ← openOptions given
    write := given.has "write"
    mode := (given.value? "mode").getD ""
    noBackup := given.has "no-backup" }

def readApply (given : Given) : Except Usage Request := do
  return .apply {
    directory := ← directory given
    report := pathOption given "report"
    confirmed := given.has "yes"
    nonInteractive := given.has "non-interactive" }

/-- The options of a command, and how its request is read from them. -/
def command? : (name : String) → Option (List Flag × (Given → Except Usage Request))
  | "analyze" => some (analyzeFlags, readAnalyze)
  | "show" => some (displayFlags, readDisplay)
  | "trim" => some (trimFlags, readTrim)
  | "apply" => some (applyFlags, readApply)
  | _ => none

/-- The arguments and the values of options that are paths. -/
def pathTexts (given : Given) : List String :=
  given.arguments ++ ["config", "tsconfig", "out", "report"].flatMap given.values

/-- The request of a command with its arguments. -/
def readCommand (name : String) (arguments : List String) : Except Usage Request :=
  match command? name with
  | none => .error (.unknownCommand name)
  | some (flags, read) => do
    let given ← readOptions flags false none arguments
    if given.has "help" then return .help
    else
      let request ← read given
      match (pathTexts given).find? fun text => (Path.ofString text).hasZero with
      | some text => return .unusable text
      | none => return request

/-- The request of a command line. -/
def Request.read (arguments : List String) : Except Usage Request := do
  let given ← readOptions topFlags true none arguments
  match given.options, given.arguments with
  | ("version", _) :: _, _ => return .version
  | _ :: _, _ => return .help
  | [], name :: arguments => readCommand name arguments
  | [], [] => .error .missingCommand

end Deadwood.Cli

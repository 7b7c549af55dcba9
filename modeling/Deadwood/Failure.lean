import Deadwood.Disk
import Deadwood.Ignore.Pattern
import Deadwood.Toml.Reader
import Deadwood.Value.Fault

/-!
# Failures

Everything that can go wrong in a run. Most of it is a `ConfigError`: a file of the project, or a
setting in it, that the run cannot use. The other failures are passed on from the layers below.
-/

set_option autoImplicit false

namespace Deadwood

/-- A document that breaks the rules of its format. -/
inductive SyntaxError where
  | json (e : Json.Error)
  | toml (e : Toml.Error)
  deriving DecidableEq, Repr

/-- The wording of a broken rule. -/
def SyntaxError.message : SyntaxError → String
  | .json e => e.message
  | .toml e => e.message

/-- Why a file is of no use. -/
inductive Unreadable where
  | text (e : Disk.TextError)
  | format (e : SyntaxError)
  deriving DecidableEq, Repr

/-- A file or a setting that a run cannot use. -/
inductive ConfigError where
  | noRoot (root : String)
  | noConfig (path : String)
  | unreadableConfig (path : String) (cause : Unreadable)
  | configNotTable (path : String)
  | unreadable (path : String) (cause : Unreadable)
  | malformed (path : String) (e : SyntaxError)
  | notTable (path : String)
  | noAliases (path : String)
  /-- A configuration extends itself, directly or through others. -/
  | circular (path : String)
  | noParent (path parent : String)
  | baseOutside (base root : String)
  | pathsNotTable (path : String)
  | workers (v : Value)
  | trimMode (v : Value)
  | noReport (path : String)
  | unreadableReport (path : String) (cause : Unreadable)
  | invalidReport (path : String) (fault : Fault)
  deriving Repr

/-- What stands in the way of a deletion. -/
inductive Refusal where
  | notConfirmed
  | notTyped
  deriving DecidableEq, Repr

/-- Everything that can go wrong in a run. -/
inductive Failure where
  | config (e : ConfigError)
  | refused (e : Refusal)
  | data (fault : Fault)
  | encoding (e : Text.Utf8.DecodeError)
  | disk (e : Disk.Error)
  | pattern (e : Ignore.Error)
  | json (e : Json.Error)
  /-- A document goes beyond what can be read. -/
  | excess (e : Excess)
  deriving Repr

/-- The wording of a cause, in which `format` words the broken rules of a format. -/
def Unreadable.describe (format : SyntaxError → String) : Unreadable → String
  | .text e => e.message
  | .format e => format e

/-- The wording of an error, in which `format` words the broken rules of a format. -/
def ConfigError.describe (format : SyntaxError → String) : ConfigError → String
  | .noRoot root => "Project root is not a directory: " ++ root
  | .noConfig path => "Config file not found: " ++ path
  | .unreadableConfig path cause =>
    "Could not read config " ++ path ++ ": " ++ cause.describe format
  | .configNotTable path => "Config " ++ path ++ " must contain a JSON object"
  | .unreadable path cause => "Could not read " ++ path ++ ": " ++ cause.describe format
  | .malformed path e => "Malformed JSON in " ++ path ++ ": " ++ format e
  | .notTable path => path ++ " must contain a JSON object"
  | .noAliases path => "Alias config not found: " ++ path
  | .circular path => "Circular extends chain at " ++ path
  | .noParent path parent => path ++ " extends missing file " ++ parent
  | .baseOutside base root => "Alias base directory " ++ base ++ " lies outside " ++ root
  | .pathsNotTable path => "compilerOptions.paths in " ++ path ++ " must be an object"
  | .workers v => "workers must be a positive integer, got " ++ v.shown
  | .trimMode v => "trim.mode must be one of ('strip', 'delete'), got " ++ v.shown
  | .noReport path => "No report found at " ++ path
  | .unreadableReport path cause =>
    "Could not read report " ++ path ++ ": " ++ cause.describe format
  | .invalidReport path fault => "Invalid report " ++ path ++ ": " ++ fault.message

/-- The wording of a refusal. -/
def Refusal.message : Refusal → String
  | .notConfirmed => "Refusing to delete files without --yes"
  | .notTyped => "Refusing to delete files: pass --non-interactive or type 'DELETE'"

/-- The wording of a failure, in which `format` words the broken rules of a format. -/
def Failure.describe (format : SyntaxError → String) : Failure → String
  | .config e => e.describe format
  | .refused e => e.message
  | .data fault => fault.message
  | .encoding e => e.message
  | .disk e => e.message
  | .pattern e => e.message
  | .json e => format (.json e)
  | .excess e => e.message

/-- The wording of a failure. -/
def Failure.message (failure : Failure) : String := failure.describe SyntaxError.message

/-- Pass on the faults of values as failures. -/
def ofFault {α : Type} (result : Except Fault α) : Except Failure α := result.mapError .data

/-- Pass on the failures of the disk. -/
def ofDisk {α : Type} (result : Except Disk.Error α) : Except Failure α := result.mapError .disk

/-- The absolute path without `..`, seen from the directory `here`, unless the path cannot be handed
to the disk. -/
def Path.resolved (path : Path) (here : Place) : Except Failure Path :=
  if path.hasZero then .error (.disk ⟨.zeroCharacter, path.toString⟩) else .ok (path.resolve here)

/-- Fail because of a path that cannot be handed to the disk, or else with a configuration error. -/
def failDisk {α : Type} (error : Disk.Error) (e : ConfigError) : Except Failure α :=
  if error.cause = .zeroCharacter then .error (.disk error) else .error (.config e)

/-- Fail because a document goes beyond what can be read, or else with a configuration error. -/
def failJson {α : Type} (error : Json.Error) (e : ConfigError) : Except Failure α :=
  match error with
  | .excess excess => .error (.excess excess)
  | _ => .error (.config e)

/-- Fail with a configuration error. -/
def failConfig {α : Type} (e : ConfigError) : Except Failure α := .error (.config e)

end Deadwood

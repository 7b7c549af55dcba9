import Deadwood.Console.Layout
import Deadwood.Deletion

/-!
# Sessions

One run of the program: it reads and changes a disk, writes to the console, and ends with an exit
code. What was written and changed before the end stays. A failure that is not reported to the user
ends the run as a crash.
-/

set_option autoImplicit false

namespace Deadwood.Cli

/-- What a run finds around it. -/
structure Environment where
  /-- The local time of the run. -/
  now : Stamp
  /-- The universal time of the run. -/
  universal : Stamp := { now with offset := some 0 }
  /-- The variable that says whether there is a user. -/
  automatic : Option String := none
  /-- What there is to read on the standard input. -/
  input : List Char := []
  surroundings : Deletion.Surroundings := {}
  /-- The wording of broken rules of a format. -/
  wording : SyntaxError → String := SyntaxError.message

/-- A failure that is not reported to the user. -/
inductive Crash where
  | failure (e : Failure)
  | markup (e : Console.Markup.Error)
  deriving Repr

/-- The wording of a crash. -/
def Crash.message : Crash → String
  | .failure e => e.message
  | .markup e => e.message

/-- Why a run ends early. -/
inductive Stop where
  | exit (code : Nat)
  | crash (crash : Crash)
  deriving Repr

/-- What a run changes. -/
structure State where
  disk : Disk
  /-- What was written to the standard output. -/
  output : List Char := []
  /-- What had been written when the user was asked to confirm. -/
  asked : Option (List Char) := none

/-- A part of a run. -/
abbrev Session (α : Type) := ExceptT Stop (StateM State) α

namespace Session

variable {α : Type}

/-- Write a text to the standard output. -/
def write (text : List Char) : Session Unit :=
  modify fun state => { state with output := state.output ++ text }

/-- Write what is shown on the console. -/
def print (shown : Except Console.Markup.Error (List Char)) : Session Unit :=
  match shown with
  | .ok text => write text
  | .error e => throw (.crash (.markup e))

/-- Write a line of markup. -/
def say (markup : String) : Session Unit := print (Console.line markup)

/-- Note that the user is asked now. -/
def ask : Session Unit := modify fun state => { state with asked := some state.output }

/-- Tell the user about a failure, and end the run. -/
def fail (environment : Environment) (failure : Failure) : Session α := do
  say ("[red]Error:[/] " ++ failure.describe environment.wording)
  throw (.exit 1)

/-- End the run with a failure: it is told to the user if `reported`, and is a crash otherwise. -/
def stop (environment : Environment) (reported : Failure → Bool) (failure : Failure) :
    Session α :=
  if reported failure then fail environment failure else throw (.crash (.failure failure))

/-- Do an action, and end the run if it fails. -/
def perform (environment : Environment) (reported : Failure → Bool) (act : Act α) :
    Session α := do
  let state ← get
  let (result, disk) := act.run state.disk
  set { state with disk }
  match result with
  | .ok a => return a
  | .error failure => stop environment reported failure

end Session

/-- The failures that are told to the user: those of the configuration and refusals. -/
def isReported : Failure → Bool
  | .config _ | .refused _ => true
  | _ => false

/-- The failures that are told to the user where all wrong content is: also texts, patterns, numbers
and values that are not what they should be. -/
def isReportedContent : Failure → Bool
  | .config _ | .refused _ | .encoding _ | .pattern (.invalid _) | .excess (.digits _) => true
  | .data fault => fault.isContent
  | .disk e => e.cause = .zeroCharacter
  | _ => false

/-- No failure is told to the user. -/
def isNeverReported (_ : Failure) : Bool := false

end Deadwood.Cli

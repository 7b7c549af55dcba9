/-!
# Options on the command line

Options begin with a dash and come in any order among the other arguments, until two dashes alone. A
long option has its value after an equals sign or in the next argument. Short options may stand
together after one dash; the value of a short option is the rest of the argument or the next one.
-/

set_option autoImplicit false

namespace Deadwood.Cli

/-- An option that a command has. -/
structure Flag where
  name : String
  short : Option Char := none
  takesValue : Bool := false
  deriving DecidableEq, Repr

/-- Why a command line makes no sense. -/
inductive Usage where
  | unknownOption (option : String)
  | missingValue (option : String)
  | unwantedValue (option : String)
  | badValue (option value : String)
  | unknownCommand (name : String)
  | missingCommand
  | extraArgument (argument : String)
  deriving DecidableEq, Repr

/-- The wording of an error. -/
def Usage.message : Usage → String
  | .unknownOption option => "No such option: " ++ option
  | .missingValue option => "Option '" ++ option ++ "' requires an argument."
  | .unwantedValue option => "Option '" ++ option ++ "' does not take a value."
  | .badValue option value => "Invalid value for '" ++ option ++ "': " ++ value
  | .unknownCommand name => "No such command '" ++ name ++ "'."
  | .missingCommand => "Missing command."
  | .extraArgument argument => "Got unexpected extra argument (" ++ argument ++ ")"

/-- The options that were given, with their values, and the other arguments. -/
structure Given where
  options : List (String × String) := []
  arguments : List String := []
  deriving DecidableEq, Repr

namespace Given

/-- The option was given. -/
def has (given : Given) (name : String) : Bool := given.options.any (·.1 == name)

/-- The values of an option. -/
def values (given : Given) (name : String) : List String :=
  (given.options.filter (·.1 == name)).map Prod.snd

/-- The value of an option, the last of them if there are several. -/
def value? (given : Given) (name : String) : Option String := (given.values name).getLast?

end Given

/-! ## Reading -/

/-- The options of an argument with their values, and the option whose value is the next
argument. -/
abbrev Opened := List (String × String) × Option String

/-- The short options of an argument. -/
def openShort (flags : List Flag) : (letters : List Char) → Except Usage Opened
  | [] => .ok ([], none)
  | c :: letters =>
    match flags.find? (·.short == some c) with
    | none => .error (.unknownOption ("-" ++ String.singleton c))
    | some flag =>
      if flag.takesValue then
        if letters.isEmpty then .ok ([], some flag.name)
        else .ok ([(flag.name, String.ofList letters)], none)
      else do
        let (options, waiting) ← openShort flags letters
        return ((flag.name, "") :: options, waiting)

/-- The value after the first equals sign of a text. -/
def afterEquals (cs : List Char) : Option String :=
  match cs.dropWhile (· != '=') with
  | [] => none
  | _ :: value => some (String.ofList value)

/-- The options of an argument that begins with a dash. -/
def openOption (flags : List Flag) (argument : List Char) : Except Usage Opened :=
  match argument with
  | '-' :: '-' :: long =>
    let name := String.ofList (long.takeWhile (· != '='))
    match flags.find? (·.name == name), afterEquals long with
    | none, _ => .error (.unknownOption ("--" ++ name))
    | some flag, none => .ok (if flag.takesValue then ([], some name) else ([(name, "")], none))
    | some flag, some value =>
      if flag.takesValue then .ok ([(name, value)], none)
      else .error (.unwantedValue ("--" ++ name))
  | letters => openShort flags letters.tail

/-- Read arguments, of which the first is the value of the option that waits for one. If `strict`,
all that follows the first argument without a dash is left alone. -/
def readOptions (flags : List Flag) (strict : Bool) :
    (waiting : Option String) → (arguments : List String) → Except Usage Given
  | none, [] => .ok {}
  | some name, [] => .error (.missingValue name)
  | some name, value :: arguments => do
    let given ← readOptions flags strict none arguments
    return { given with options := (name, value) :: given.options }
  | none, argument :: arguments => do
    if argument = "--" then return { arguments }
    else if argument.startsWith "-" && argument != "-" then
      let (options, waiting) ← openOption flags argument.toList
      let given ← readOptions flags strict waiting arguments
      return { given with options := options ++ given.options }
    else if strict then return { arguments := argument :: arguments }
    else
      let given ← readOptions flags strict none arguments
      return { given with arguments := argument :: given.arguments }

end Deadwood.Cli

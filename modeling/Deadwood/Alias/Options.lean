import Deadwood.Alias.Resolver
import Deadwood.Json.Relaxed

/-!
# Compiler options

The alias table of a project comes from its compiler configuration, which may extend others. The
options of a configuration are those of the configurations it extends, in their order, and then its
own; the last one that sets an option decides. Targets start from the directory of the configuration
that set the base, or else the paths.
-/

set_option autoImplicit false

namespace Deadwood.Alias

/-- The options of a configuration with those that it extends. -/
structure Options where
  values : List (String × Value) := []
  /-- The directory of the configuration that set the base. -/
  baseDirectory : Option Path := none
  /-- The directory of the configuration that set the paths. -/
  pathsDirectory : Option Path := none
  deriving Repr, Inhabited

/-- The table of a configuration file. -/
def readTable (disk : Disk) (path : Path) : Except Failure Value :=
  match disk.readText path with
  | .error (.disk e) => failDisk e (.unreadable path.toString (.text (.disk e)))
  | .error e => failConfig (.unreadable path.toString (.text e))
  | .ok text =>
    match Json.readRelaxed text with
    | .error e => failJson e (.malformed path.toString (.json e))
    | .ok (.table members) => .ok (.table members)
    | .ok _ => failConfig (.notTable path.toString)

/-- The configurations that a configuration extends by a relative path. -/
def parentsOf (config : Value) : List String :=
  let named := match config.member? "extends" with
    | some (.list items) => items
    | some v => [v]
    | none => []
  named.filterMap fun
    | .text name => if name.startsWith "." then some name else none
    | _ => none

/-- The file that a relative path names in a configuration. -/
def parentPath (here : Place) (path : Path) (name : String) : Except Failure Path := do
  let parent ← (path.parent.child name).resolved here
  if parent.suffix = ".json" then return parent
  else
    match parent.withName? (parent.name ++ ".json") with
    | some named => return named
    | none => .error (.data (.nameless parent.toString))

/-- The options with those of another configuration laid over them. -/
def Options.over (base next : Options) : Options :=
  ⟨Keyed.putAll base.values next.values, next.baseDirectory <|> base.baseDirectory,
    next.pathsDirectory <|> base.pathsDirectory⟩

/-- The options that a configuration sets itself. -/
def ownOptions (path : Path) (config : Value) : Except Fault Options := do
  let own := (config.member? "compilerOptions").getD (.table [])
  if !own.isSet then return {}
  else
    let setsBase ← own.includes "baseUrl"
    let setsPaths ← own.includes "paths"
    return ⟨← own.additions, if setsBase then some path.parent else none,
      if setsPaths then some path.parent else none⟩

/-- The options of a configuration with those that it extends, and the files that were read for it
and before it. A file that was read before ends the chain. Files may extend each other `fuel`
deep. -/
def collect (disk : Disk) : (fuel : Nat) → (seen : List Path) → Path →
    Except Failure (Options × List Path)
  | 0, _, path => failConfig (.circular path.toString)
  | fuel + 1, seen, path => do
    if seen.contains (path.resolve disk.here) then failConfig (.circular path.toString)
    else
      let config ← readTable disk path
      let start : Options × List Path := ({}, path.resolve disk.here :: seen)
      let (options, seen) ← (parentsOf config).foldlM (fun (options, seen) name => do
        let parent ← parentPath disk.here path name
        if ← ofDisk (disk.isFile parent) then
          let (inherited, seen) ← collect disk fuel seen parent
          return (options.over inherited, seen)
        else failConfig (.noParent path.toString parent.toString)) start
      return (options.over (← ofFault (ownOptions path config)), seen)

/-- The files in which a project's compiler configuration is looked for. -/
def configNames : List String := ["tsconfig.json", "jsconfig.json"]

/-- The first of some files that exists. -/
def firstConfig? (disk : Disk) : (paths : List Path) → Except Disk.Error (Option Path)
  | [] => .ok none
  | path :: paths => do if ← disk.isFile path then return some path else firstConfig? disk paths

/-- The compiler configuration of a project: the one that is asked for, or the first that is
there. -/
def configPath? (disk : Disk) (root : Path) (asked : Option String) :
    Except Failure (Option Path) :=
  match asked with
  | some name => do
    let path := root.child name
    if ← ofDisk (disk.isFile path) then return some path
    else failConfig (.noAliases path.toString)
  | none => ofDisk (firstConfig? disk (configNames.map root.child))

/-- The targets of each pattern that has a list of them. -/
def patternsOf (members : List (String × Value)) : List (String × List Value) :=
  members.filterMap fun (pattern, v) =>
    match v with
    | .list items => some (pattern, items)
    | _ => none

/-- The alias table of a project. Without a compiler configuration it is empty. -/
def load (disk : Disk) (root : Path) (asked : Option String) : Except Failure Table := do
  match ← configPath? disk root asked with
  | none => return {}
  | some path =>
    let (options, _) ← collect disk (disk.nodes.length + 1) [] path
    let base ← match options.baseDirectory with
      | some directory => do
        let name := (options.values.lookup "baseUrl").getD (.text ".")
        pure (directory.child (← ofFault name.asText))
      | none => pure (options.pathsDirectory.getD path.parent)
    match base.inProject? root disk.here with
    | none => failConfig (.baseOutside base.toString root.toString)
    | some start =>
      let paths := (options.values.lookup "paths").getD .null
      let members ← match paths with
        | .table members => pure members
        | v => if v.isSet then failConfig (.pathsNotTable path.toString) else pure []
      let source := match path.inProject? root disk.here with
        | some name => if name.isEmpty then path.toString else name
        | none => path.toString
      return .ofPaths (patternsOf members) start (some source)

end Deadwood.Alias

import Deadwood.Failure
import Deadwood.Json.Reader
import Deadwood.Module.Basic
import Deadwood.Path.Layout

/-!
# Configuration

The settings of a project come from a table of its TOML project file and from a JSON file, of which
the JSON file is the stronger. Every setting has a default, and is looked at only when it is used.
-/

set_option autoImplicit false

namespace Deadwood

/-- The settings of a project, by name. -/
abbrev Config := List (String × Value)

namespace Config

/-! ## Loading -/

/-- The settings of a JSON file. -/
def loadFile (disk : Disk) (path : Path) : Except Failure Config :=
  match disk.readText path with
  | .error (.disk e) =>
    if e.cause = .missing then failConfig (.noConfig path.toString)
    else failDisk e (.unreadableConfig path.toString (.text (.disk e)))
  | .error (.encoding e) => .error (.encoding e)
  | .ok text =>
    match Json.read text with
    | .error e => failJson e (.unreadableConfig path.toString (.format (.json e)))
    | .ok (.table members) => .ok members
    | .ok _ => failConfig (.configNotTable path.toString)

/-- The document of a project file. -/
def readProjectFile (path : Path) (bytes : List UInt8) : Except Failure Value :=
  match Text.Utf8.decode bytes with
  | .error e => .error (.encoding e)
  | .ok text =>
    match Toml.read text with
    | .ok document => .ok document
    | .error (.excess e) => .error (.excess e)
    | .error e => failConfig (.unreadable path.toString (.format (.toml e)))

/-- The settings in a project file, if it has a table for them. -/
def loadProjectFile (disk : Disk) (root : Path) : Except Failure (Option Config) := do
  let path := root.child "pyproject.toml"
  match ← ofDisk (disk.node? path) with
  | some (.file bytes) =>
    let document ← readProjectFile path bytes
    let tools ← ofFault (document.get "tool" (.table []))
    match ← ofFault (tools.get "orphanprune" .null) with
    | .table members => return some members
    | _ => return none
  | _ => return none

/-- The settings of a project. A file that is asked for must be there. -/
def resolve (disk : Disk) (root : Path) (asked : Option Path) : Except Failure Config := do
  if ← ofDisk (disk.isDirectory root) then
    let base := (← loadProjectFile disk root).getD []
    match asked with
    | some path => return Keyed.putAll base (← loadFile disk path)
    | none =>
      if ← ofDisk (disk.isFile (Layout.config root)) then
        return Keyed.putAll base (← loadFile disk (Layout.config root))
      else return base
  else failConfig (.noRoot root.toString)

/-! ## Settings -/

def defaultRouteDirectories : List String := ["app", "routes"]

def defaultRouteNames : List String :=
  ["page", "layout", "loading", "error", "not-found", "route", "template", "default",
    "global-error", "opengraph-image", "twitter-image", "icon", "apple-icon", "sitemap", "robots",
    "manifest", "middleware", "entry", "root"]

def defaultReferenceDirectories : List String := ["docs", "scripts", "tools", "tests", ".agent"]

/-- A setting, or its default. -/
def setting (config : Config) (key : String) (default : Value) : Value :=
  (config.lookup key).getD default

/-- A setting inside a section, or its default. -/
def sectionSetting (config : Config) (part key : String) (default : Value) : Except Fault Value :=
  (config.setting part (.table [])).get key default

/-- The values without repetitions, none of which may be a list or a table. -/
def distinct (values : List Value) : Except Fault (List Value) :=
  if values.any fun v => v matches .list _ | .table _ then .error .wrongKind
  else .ok (Value.distinct values)

/-- Paths, patterns and names that are protected. -/
def allowlist (config : Config) : Except Fault (List Value) := do
  distinct (← (config.setting "allowlist" (.list [])).elements)

/-- Further patterns of files to leave out. -/
def exclude (config : Config) : Value := config.setting "exclude" (.list [])

/-- The ends of the names of candidates, in the order in which they are tried. -/
def extensions (config : Config) : Value := config.setting "extensions" (.texts Module.extensions)

/-- Directories in which reserved names are loaded by convention. -/
def routeDirectories (config : Config) : Except Fault Value :=
  config.sectionSetting "routes" "directories" (.texts defaultRouteDirectories)

/-- Names that are loaded by convention. -/
def routeNames (config : Config) : Except Fault Value :=
  config.sectionSetting "routes" "basenames" (.texts defaultRouteNames)

/-- Directories of documents, tests and tools in which paths may be mentioned. -/
def referenceDirectories (config : Config) : Value :=
  config.setting "reference_dirs" (.texts defaultReferenceDirectories)

/-- Whether files that gather the exports of their directory are passed over. -/
def skipBarrels (config : Config) : Value := config.setting "skip_index_barrels" (.bool false)

/-- How many files are read at a time; null leaves the choice open. -/
def workers (config : Config) : Except Failure Value :=
  match config.setting "workers" .null with
  | .null => .ok .null
  | .bool true => .ok (.bool true)
  | .int n => if 1 ≤ n then .ok (.int n) else failConfig (.workers (.int n))
  | v => failConfig (.workers v)

/-- How an unused declaration is trimmed. -/
def trimMode (config : Config) : Except Failure String := do
  match ← ofFault (config.sectionSetting "trim" "mode" (.text "strip")) with
  | .text "strip" => return "strip"
  | .text "delete" => return "delete"
  | v => failConfig (.trimMode v)

/-- Whether files are copied before they are written. -/
def backup (config : Config) : Except Fault Value :=
  config.sectionSetting "trim" "backup" (.bool true)

/-- The compiler configuration to take aliases from. -/
def aliasConfig (config : Config) : Value := config.setting "tsconfig" .null

end Config

end Deadwood

import Deadwood.Alias.Options
import Deadwood.Config
import Deadwood.Index.Providers
import Deadwood.Reference.Corpus

/-!
# Projects

Everything that a run knows about a project: its settings, its candidates with their index, and the
files that may mention them. A project is opened once, from the disk as it is at that moment.
-/

set_option autoImplicit false

namespace Deadwood

/-- How a project is to be opened. -/
structure OpenOptions where
  /-- The configuration file to use instead of the usual one. -/
  config : Option Path := none
  /-- The compiler configuration to use instead of the usual ones. -/
  aliases : Option String := none
  /-- Further paths, patterns and names to protect. -/
  allow : List String := []
  /-- Only what is always left out is left out. -/
  everything : Bool := false
  /-- How many files to read at a time. -/
  workers : Option Value := none
  deriving Repr, Inhabited

/-- A project that has been opened. -/
structure Project where
  root : Path
  config : Config
  allowlist : List Value
  walk : Walk
  index : Index
  corpus : Reference.Corpus
  workers : Value
  deriving Repr

namespace Project

/-- The compiler configuration that a setting asks for. -/
def aliasRequest (config : Config) : Except Fault (Option String) :=
  match config.aliasConfig with
  | .null => .ok none
  | v => (v.asText).map some

/-- The patterns that a setting adds. -/
def extraPatterns (config : Config) : Except Fault (List Value) :=
  if config.exclude.isSet then config.exclude.elements else .ok []

/-- How many files to read at a time, if that is said, must be a positive number. -/
def checkWorkers : (workers : Value) → Except Fault Unit
  | .null => .ok ()
  | .int n => if n < 1 then .error .noWorkers else .ok ()
  | .bool b => if b then .ok () else .error .noWorkers
  | .real x => if x.isPositive then .ok () else .error .noWorkers
  | .text _ | .list _ | .table _ => .error .wrongKind

/-- How many files to read at a time: as the options say, or else the configuration. -/
def workersFor (config : Config) (options : OpenOptions) : Except Failure Value :=
  match options.workers with
  | some v => .ok v
  | none => config.workers

/-- The compiler configuration to use: as the options say, or else the configuration. -/
def aliasesFor (config : Config) (options : OpenOptions) : Except Failure (Option String) :=
  match options.aliases with
  | some name => .ok (some name)
  | none => ofFault (aliasRequest config)

/-- The patterns that are left out further; none if everything is asked for. -/
def patternsFor (config : Config) (options : OpenOptions) : Except Failure (List Value) :=
  if options.everything then .ok [] else ofFault (extraPatterns config)

/-- Open the project in a directory. -/
def load (disk : Disk) (directory : Path) (options : OpenOptions) :
    Except Failure Project := do
  let root ← directory.resolved disk.here
  let config ← Config.resolve disk root options.config
  let allowlist ← ofFault (do
    Config.distinct ((← config.allowlist) ++ options.allow.map .text))
  let workers ← workersFor config options
  let table ← Alias.load disk root (← aliasesFor config options)
  let excluder ← Ignore.Excluder.load disk root options.everything (← patternsFor config options)
  let extensions ← ofFault config.extensions.elements
  let walk : Walk := { root, excluder, extensions, skipBarrels := config.skipBarrels.isSet }
  let paths ← walk.paths disk
  ofFault (checkWorkers workers)
  let index ← Index.build disk root paths
    { root, table, extensions := extensions.map Value.plain }
  let directories ← ofFault config.referenceDirectories.elements
  let corpus ← Reference.Corpus.load disk root excluder (directories.map Value.plain)
  return { root, config, allowlist, walk, index, corpus, workers }

end Project

end Deadwood

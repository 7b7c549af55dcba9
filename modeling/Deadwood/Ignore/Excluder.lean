import Deadwood.Failure

/-!
# Excluded files

Which files are left out of a project: build output, dependencies and the program's own results
always, and what the project's ignore file and its configuration name unless they are to be
included. A path is left out as soon as the name of one of its directories is.
-/

set_option autoImplicit false

namespace Deadwood.Ignore

open Text

/-- Patterns that always hold. -/
def defaultLines : List String :=
  ["node_modules", ".next", ".turbo", "dist", "build", "coverage", "reports", "cache", ".git",
    ".orphanprune", "*.d.ts"]

/-- Directories in which nothing is edited or deleted. -/
def protectedNames : List String :=
  ["node_modules", ".next", ".turbo", "dist", "build", "coverage", ".git", ".orphanprune",
    "generated", "__generated__", "vendor"]

/-- The file lies below a directory in which nothing is edited or deleted. -/
def isProtected (path : String) : Bool :=
  (Relative.segments (Relative.normalize path)).dropLast.any protectedNames.contains

/-- The patterns that hold in a project. -/
structure Excluder where
  root : Path
  /-- The lines of the ignore file. -/
  ignored : List String
  /-- The lines of the configuration, which may be any values. -/
  extra : List Value
  /-- Where the patterns come from. -/
  sources : List String
  /-- The patterns that always hold. -/
  defaults : List Pattern
  /-- The patterns of this project. -/
  own : List Pattern
  deriving Repr

namespace Excluder

/-- The lines of an ignore file that are neither empty nor comments. -/
def linesOf (content : List Char) : List String :=
  ((lines content).filter fun line => !(trim line).isEmpty && line.head? != some '#').map
    fun line => String.ofList (trim line)

/-- The lines of a project's ignore file, if there is one. -/
def ignoreFile? (disk : Disk) (root : Path) : Except Disk.Error (Option (List String)) := do
  match ← disk.node? (root.child ".gitignore") with
  | some (.file bytes) => return some (linesOf (unifyLineEnds (Utf8.decodeLenient bytes)))
  | _ => return none

/-- The patterns of lines. An empty value is no line, and any other line must be a text. -/
def patternsOf : (lines : List Value) → Except Failure (List Pattern)
  | [] => .ok []
  | line :: lines => do
    let pattern ← if line.isSet then (parse (← ofFault line.asText)).mapError .pattern
      else pure none
    return pattern.toList ++ (← patternsOf lines)

/-- The excluder of a project. `everything` leaves out nothing but what is always left out. -/
def load (disk : Disk) (root : Path) (everything : Bool) (extra : List Value) :
    Except Failure Excluder := do
  let file ← if everything then pure none else ofDisk (ignoreFile? disk root)
  let extra := if everything then [] else extra
  let ignored := file.getD []
  let sources := "defaults" :: (file.map fun _ => (root.child ".gitignore").toString).toList ++
    (if extra.isEmpty then [] else ["config"])
  return ⟨root, ignored, extra, sources, ← patternsOf (defaultLines.map .text),
    ← patternsOf (ignored.map .text ++ extra)⟩

/-- The patterns exclude a path, or the name of one of its directories by itself. -/
def excludesAnywhere (patterns : List Pattern) (path : String) : Bool :=
  let bare := String.ofList (path.toList.reverse.dropWhile (· == '/')).reverse
  excludes patterns path || (Relative.segments bare).dropLast.any (excludes patterns)

/-- The path is left out. -/
def leavesOut (excluder : Excluder) (path : String) : Bool :=
  excludesAnywhere excluder.defaults path || excludesAnywhere excluder.own path

/-- The directory is left out with everything below it. -/
def leavesOutDirectory (excluder : Excluder) (path : String) : Bool :=
  excluder.leavesOut (path ++ "/")

/-- The file is left out. An absolute path outside of the project is not. -/
def leavesOutFile (excluder : Excluder) (path : Path) : Bool :=
  let inside := if path.isAbsolute then path.relativeTo? excluder.root else some path
  inside.any fun path => excluder.leavesOut (Relative.normalize path.toString)

end Excluder

end Deadwood.Ignore

import Deadwood.Ignore.Excluder

/-!
# Walking a project

The candidates of a project are found by walking its directories from the top: first the files of a
directory, then its directories, each in ascending order. A directory that is left out is not
entered. The ends of names come from a configuration and may be any values; one that is no text
stops the walk at the first name that is compared with it.
-/

set_option autoImplicit false

namespace Deadwood

open Ignore

/-- Which files of a project are candidates. -/
structure Walk where
  root : Path
  excluder : Excluder
  /-- The ends of the names of candidates; without any, every file is one. -/
  extensions : List Value
  /-- Files that gather the exports of their directory are passed over. -/
  skipBarrels : Bool := false
  /-- The directory in which the walk begins, from the root. -/
  start : String := ""
  deriving Repr

namespace Walk

/-- The name ends with one of the extensions, which are tried in their order. -/
def endsWithAny (name : String) : (extensions : List Value) → Except Fault Bool
  | [] => .ok false
  | ext :: extensions => do
    if name.endsWith (← ext.asText) then return true else endsWithAny name extensions

/-- A file with this name may be a candidate. -/
def admits (walk : Walk) (name : String) : Except Fault Bool := do
  let fits ← if walk.extensions.isEmpty then pure true else endsWithAny name walk.extensions
  return fits && !(walk.skipBarrels && Relative.stemOf name == "index")

/-- The way from one place to another: up to where they part, then down. -/
def trail : (base place : Place) → List String
  | a :: base, b :: place =>
    if a = b then trail base place
    else (a :: base).map (fun _ => "..") ++ b :: place
  | base, place => base.map (fun _ => "..") ++ place

/-- The path of a directory from the root of the project. -/
def pathOf (base place : Place) : String :=
  Relative.normalize (Relative.ofSegments (trail base place))

/-- The path of the candidate with a name in a directory, if it is one. -/
def candidate? (walk : Walk) (directory name : String) : Except Fault (Option String) := do
  let path := Relative.child directory name
  if (← walk.admits name) && !walk.excluder.leavesOutFile (Path.ofString path) then
    return some path
  else return none

/-- The candidates among the files of a directory, in ascending order. -/
def filesAt (walk : Walk) (disk : Disk) (base place : Place) : Except Fault (List String) :=
  (disk.children place).foldlM (fun found (name, node) =>
    match node with
    | .directory => .ok found
    | .file _ => do return found ++ (← walk.candidate? (pathOf base place) name).toList) []

/-- The candidates below a directory, in the order of the walk. -/
def below (walk : Walk) (disk : Disk) (base place : Place) : Except Fault (List String) := do
  let files ← walk.filesAt disk base place
  let deeper ← (disk.children place).attach.mapM fun ⟨(name, node), _⟩ =>
    match node with
    | .file _ => .ok []
    | .directory =>
      if walk.excluder.leavesOutDirectory (Relative.child (pathOf base place) name) then .ok []
      else walk.below disk base (place ++ [name])
  return files ++ deeper.flatten
termination_by disk.depth - place.length
decreasing_by
  have := Disk.length_lt_depth ‹_›
  simp only [List.length_append, List.length_cons, List.length_nil]
  omega

/-- The candidates of a project, in the order of the walk. There are none where the walk cannot
begin, but its beginning must be a path that can be handed to the disk. -/
def paths (walk : Walk) (disk : Disk) : Except Failure (List String) :=
  let start := walk.root.child (Relative.normalize walk.start)
  match disk.locate walk.root, disk.locate start with
  | .error .zeroCharacter, _ | _, .error .zeroCharacter =>
    .error (.disk ⟨.zeroCharacter, start.toString⟩)
  | .ok base, .ok place =>
    if disk.at? place = some .directory then ofFault (walk.below disk base place) else .ok []
  | _, _ => .ok []

/-- The candidates of a project, in ascending order. -/
def files (walk : Walk) (disk : Disk) : Except Failure (List String) := do
  return (← walk.paths disk).mergeSort (· ≤ ·)

end Walk

end Deadwood

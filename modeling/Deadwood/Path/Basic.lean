import Deadwood.Path.Relative

/-!
# Paths

A path as it is given on the command line or in a configuration: relative to where the program runs,
or absolute with one or two slashes in front. Empty segments and `.` are dropped when a path is
read; `..` is kept until the path is resolved.
-/

set_option autoImplicit false

namespace Deadwood

/-- A path. -/
structure Path where
  /-- The slashes in front: none for a relative path, one or two for an absolute one. -/
  slashes : Nat
  parts : List String
  deriving DecidableEq, Repr, Inhabited

namespace Path

/-- The path that a text stands for. -/
def ofString (text : String) : Path :=
  ⟨Relative.leadingSlashes text.toList,
    (Relative.segments text).filter fun part => part != "" && part != "."⟩

/-- The text of a path; the empty relative path is `.`. -/
def toString (path : Path) : String :=
  if path.slashes = 0 ∧ path.parts = [] then "."
  else String.ofList (List.replicate path.slashes '/') ++ Relative.ofSegments path.parts

/-- The path does not depend on where the program runs. -/
def isAbsolute (path : Path) : Bool := path.slashes != 0

/-- `next` as seen from the directory `path`. -/
def append (path next : Path) : Path :=
  if next.isAbsolute then next else ⟨path.slashes, path.parts ++ next.parts⟩

instance : Append Path := ⟨append⟩

/-- `next` as seen from the directory `path`. -/
def child (path : Path) (next : String) : Path := path ++ ofString next

/-- The directory of a path. -/
def parent (path : Path) : Path := ⟨path.slashes, path.parts.dropLast⟩

/-- The last segment of a path. -/
def name (path : Path) : String := path.parts.getLastD ""

/-- The path with another last segment, if it has any. -/
def withName? (path : Path) (name : String) : Option Path :=
  if path.parts.isEmpty then none else some ⟨path.slashes, path.parts.dropLast ++ [name]⟩

/-- The end of the last segment from its last dot on, unless the dot is its first or last
character. -/
def suffix (path : Path) : String :=
  let reversed := path.name.toList.reverse
  let tail := reversed.takeWhile (· != '.')
  if tail.isEmpty ∨ reversed.length ≤ tail.length + 1 then ""
  else String.ofList ('.' :: tail.reverse)

/-- The path holds the zero character. -/
def hasZero (path : Path) : Bool := path.parts.any (·.toList.contains '\x00')

/-- The absolute path without `..`, seen from the directory `here`. -/
def resolve (here : List String) (path : Path) : Path :=
  ⟨1, Relative.collapse true (if path.isAbsolute then path.parts else here ++ path.parts)⟩

/-- What follows `base` in a path that begins with it. -/
def relativeTo? (path base : Path) : Option Path :=
  if path.slashes = base.slashes ∧ base.parts.isPrefixOf path.parts then
    some ⟨0, path.parts.drop base.parts.length⟩
  else none

/-- The path of a file from the project's root, unless the file lies outside. A relative path is
taken as seen from the root already. An absolute path with the zero character lies nowhere. -/
def inProject? (path root : Path) (here : List String) : Option String :=
  if path.isAbsolute then
    if path.hasZero || root.hasZero then none else
    ((path.resolve here).relativeTo? (root.resolve here)).map fun rest =>
      Relative.normalize rest.toString
  else
    let rest := Relative.normalize path.toString
    if Relative.escapes rest then none else some rest

end Path

end Deadwood

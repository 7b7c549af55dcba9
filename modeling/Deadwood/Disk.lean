import Deadwood.Path.Basic
import Deadwood.Text.Blank
import Deadwood.Text.Utf8

/-!
# Disks

A disk is a table from places to files and directories, with the directory in which the program
runs. A path is followed segment by segment: every segment but the last must lead to a directory,
and neither a segment nor a path may be longer than the disk allows. Operations that change the disk
give the changed disk, and each failure names its cause and the path that was asked for.

There are no links on a disk, neither symbolic nor hard ones: a place stands for itself, and a file
is reached by one place only. What is said about a disk holds for file systems without links.
-/

set_option autoImplicit false

namespace Deadwood

/-- A place on a disk: the segments from the top. -/
abbrev Place := List String

/-- What stands at a place. -/
inductive Node where
  | directory
  | file (bytes : List UInt8)
  deriving DecidableEq, Repr

/-- The files and directories of a disk. The top is a directory without an entry of its own. -/
structure Disk where
  nodes : List (Place × Node) := []
  /-- The directory in which the program runs. -/
  here : Place := []
  deriving Repr, Inhabited

namespace Disk

/-! ## Failures -/

/-- Why an operation on a disk fails. -/
inductive Cause where
  | missing
  | notDirectory
  | isDirectory
  | exists
  /-- The path or one of its segments is too long. -/
  | tooLong
  /-- The path holds the zero character, so it cannot be handed to the disk at all. -/
  | zeroCharacter
  /-- A file was to be copied to a path that leads back to it. -/
  | sameFile (copy : String)
  deriving DecidableEq, Repr

/-- A failed operation with the path that it was asked for. -/
structure Error where
  cause : Cause
  path : String
  deriving DecidableEq, Repr

/-- The wording of a failure with a number. -/
def numbered (number : Nat) (wording path : String) : String :=
  "[Errno " ++ toString number ++ "] " ++ wording ++ ": " ++ Text.quoted path

/-- The wording of a failure. -/
def Error.message (e : Error) : String :=
  match e.cause with
  | .missing => numbered 2 "No such file or directory" e.path
  | .notDirectory => numbered 20 "Not a directory" e.path
  | .isDirectory => numbered 21 "Is a directory" e.path
  | .exists => numbered 17 "File exists" e.path
  | .tooLong => numbered 36 "File name too long" e.path
  | .zeroCharacter => "embedded null byte"
  | .sameFile copy =>
    "PosixPath(" ++ Text.quoted e.path ++ ") and PosixPath(" ++ Text.quoted copy ++
      ") are the same file"

/-! ## Looking -/

/-- What stands at a place. -/
def at? (disk : Disk) : Place → Option Node
  | [] => some .directory
  | place => disk.nodes.lookup place

/-- The most bytes that a segment may have. -/
def maxSegment : Nat := 255

/-- The most bytes that a path may have. -/
def maxPath : Nat := 4095

/-- The place that the segments lead to from a place, or why they lead nowhere. -/
def descend (disk : Disk) (place : Place) : List String → Except Cause Place
  | [] => .ok place
  | part :: parts =>
    match disk.at? place with
    | some .directory =>
      if part == ".." then disk.descend place.dropLast parts
      else if maxSegment < part.utf8ByteSize then .error .tooLong
      else disk.descend (place ++ [part]) parts
    | some (.file _) => .error .notDirectory
    | none => .error .missing

/-- The place of a path. Something need not stand there, but its directory does. -/
def locate (disk : Disk) (path : Path) : Except Cause Place :=
  if path.hasZero then .error .zeroCharacter
  else if maxPath < path.toString.utf8ByteSize then .error .tooLong
  else disk.descend (if path.isAbsolute then [] else disk.here) path.parts

/-- What stands at a path. Nothing stands where a path cannot lead, but a path that is too long
cannot be looked at. -/
def node? (disk : Disk) (path : Path) : Except Error (Option Node) :=
  match disk.locate path with
  | .ok place => .ok (disk.at? place)
  | .error .tooLong => .error ⟨.tooLong, path.toString⟩
  | .error _ => .ok none

/-- A file stands at the path. -/
def isFile (disk : Disk) (path : Path) : Except Error Bool := do
  match ← disk.node? path with
  | some (.file _) => return true
  | _ => return false

/-- A directory stands at the path. -/
def isDirectory (disk : Disk) (path : Path) : Except Error Bool := do
  return (← disk.node? path) == some .directory

/-- The bytes of a file. -/
def read (disk : Disk) (path : Path) : Except Error (List UInt8) :=
  match disk.locate path with
  | .error cause => .error ⟨cause, path.toString⟩
  | .ok place =>
    match disk.at? place with
    | some (.file bytes) => .ok bytes
    | some .directory => .error ⟨.isDirectory, path.toString⟩
    | none => .error ⟨.missing, path.toString⟩

/-! ## Texts -/

/-- Why a file cannot be read as a text. -/
inductive TextError where
  | disk (e : Error)
  | encoding (e : Text.Utf8.DecodeError)
  deriving DecidableEq, Repr

/-- The wording of a failure. -/
def TextError.message : TextError → String
  | .disk e => e.message
  | .encoding e => e.message

/-- The text of a file, with every line end as a line feed. -/
def readText (disk : Disk) (path : Path) : Except TextError (List Char) :=
  match disk.read path with
  | .error e => .error (.disk e)
  | .ok bytes =>
    match Text.Utf8.decode bytes with
    | .error e => .error (.encoding e)
    | .ok text => .ok (Text.unifyLineEnds text)

/-! ## Changing -/

/-- The disk with `node` at a place. -/
def put (disk : Disk) (place : Place) (node : Node) : Disk :=
  { disk with nodes := (place, node) :: disk.nodes.filter fun (p, _) => p != place }

/-- The disk with nothing at a place. -/
def erase (disk : Disk) (place : Place) : Disk :=
  { disk with nodes := disk.nodes.filter fun (p, _) => p != place }

/-- The disk after bytes are written to a file, which may be new. -/
def write (disk : Disk) (path : Path) (bytes : List UInt8) : Except Error Disk :=
  match disk.locate path with
  | .error cause => .error ⟨cause, path.toString⟩
  | .ok place =>
    if disk.at? place = some .directory then .error ⟨.isDirectory, path.toString⟩
    else .ok (disk.put place (.file bytes))

/-- The disk after a file is copied; into a directory it is copied under its own name. -/
def copy (disk : Disk) (source target : Path) : Except Error Disk := do
  let target := if ← disk.isDirectory target then target.child source.name else target
  let bytes ← disk.read source
  if (disk.locate source).toOption = (disk.locate target).toOption then
    .error ⟨.sameFile target.toString, source.toString⟩
  else disk.write target bytes

/-- The disk after a text is written to a file. -/
def writeText (disk : Disk) (path : Path) (text : List Char) : Except Error Disk :=
  disk.write path (Text.Utf8.encode text)

/-- The disk after a file is removed. -/
def remove (disk : Disk) (path : Path) : Except Error Disk :=
  match disk.locate path with
  | .error cause => .error ⟨cause, path.toString⟩
  | .ok place =>
    match disk.at? place with
    | some (.file _) => .ok (disk.erase place)
    | some .directory => .error ⟨.isDirectory, path.toString⟩
    | none => .error ⟨.missing, path.toString⟩

/-- The disk with a new directory at a path. -/
def makeDirectory (disk : Disk) (path : Path) : Except Error Disk :=
  match disk.locate path with
  | .error cause => .error ⟨cause, path.toString⟩
  | .ok place =>
    if (disk.at? place).isSome then .error ⟨.exists, path.toString⟩
    else .ok (disk.put place .directory)

/-- The disk as it is if there is a directory at a path already, where it cannot be made because of
`e`. -/
def keepDirectory (disk : Disk) (path : Path) (e : Error) : Except Error Disk := do
  if e.cause = .zeroCharacter then .error e
  else if ← disk.isDirectory path then .ok disk
  else .error e

/-- The disk with a directory at the path with the reversed segments, and with every directory on
the way. A directory that is there already is kept. -/
def ensure (disk : Disk) (slashes : Nat) : (reversed : List String) → Except Error Disk
  | [] => .ok disk
  | part :: reversed =>
    let path : Path := ⟨slashes, (part :: reversed).reverse⟩
    match disk.makeDirectory path with
    | .ok disk => .ok disk
    | .error e =>
      if e.cause = .missing then do
        let disk ← disk.ensure slashes reversed
        match disk.makeDirectory path with
        | .ok disk => .ok disk
        | .error e => disk.keepDirectory path e
      else disk.keepDirectory path e

/-- The disk with a directory at a path and every directory on the way. -/
def ensureDirectory (disk : Disk) (path : Path) : Except Error Disk :=
  disk.ensure path.slashes path.parts.reverse

/-! ## Directories -/

/-- The names in a directory with what they stand for, in ascending order. -/
def children (disk : Disk) (place : Place) : List (String × Node) :=
  (disk.nodes.filterMap fun (p, node) =>
    match p.getLast? with
    | some name => if p.dropLast = place then some (name, node) else none
    | none => none).mergeSort fun a b => a.1 ≤ b.1

/-- The length of the longest place. -/
def depth (disk : Disk) : Nat := (disk.nodes.map (·.1.length)).foldr max 0

theorem length_le_foldr_max {n : Nat} {ns : List Nat} (h : n ∈ ns) : n ≤ ns.foldr max 0 := by
  induction ns with
  | nil => cases h
  | cons m ns ih =>
    rw [List.foldr_cons]
    rcases List.mem_cons.1 h with rfl | h
    · exact Nat.le_max_left _ _
    · exact Nat.le_trans (ih h) (Nat.le_max_right _ _)

/-- Every name in a directory has a longer place than the directory. -/
theorem length_lt_depth {disk : Disk} {place : Place} {name : String} {node : Node}
    (h : (name, node) ∈ disk.children place) : place.length < disk.depth := by
  unfold children at h
  obtain ⟨⟨p, found⟩, mem, eq⟩ := List.mem_filterMap.1 (List.mem_mergeSort.1 h)
  have bound : p.length ≤ disk.depth :=
    length_le_foldr_max (List.mem_map.2 ⟨(p, found), mem, rfl⟩)
  cases last : p.getLast? with
  | none => simp [last] at eq
  | some final =>
    simp only [last] at eq
    split at eq
    · rename_i same
      have length := congrArg List.length same
      have positive : p ≠ [] := fun empty => by simp [empty] at last
      have := List.length_pos_iff.2 positive
      simp only [List.length_dropLast] at length
      omega
    · cases eq

end Disk

end Deadwood

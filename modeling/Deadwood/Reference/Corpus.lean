import Deadwood.Walk

/-!
# Mentions of paths

Documents, tests and tools are not candidates, but a file whose path they mention is in use. Their
texts are read with a replacement for what is no text, and binary files are passed over.
-/

set_option autoImplicit false

namespace Deadwood.Reference

open Text

/-- The files in which paths may be mentioned, with their texts. -/
abbrev Corpus := List (String × List Char)

namespace Corpus

/-- The text of a file that holds no zero byte. -/
def textOf? (disk : Disk) (path : Path) : Option (List Char) :=
  match disk.read path with
  | .ok bytes => if bytes.contains 0 then none else some (Utf8.decodeLenient bytes)
  | .error _ => none

/-- The files below a directory with their texts. -/
def loadDirectory (disk : Disk) (root : Path) (excluder : Ignore.Excluder) (directory : String) :
    Except Failure Corpus := do
  let start := Relative.normalize directory
  if start.isEmpty then return []
  else if ← ofDisk (disk.isDirectory (root.child start)) then
    let walk : Walk := { root, excluder, extensions := [], start }
    return (← walk.paths disk).filterMap fun path =>
      (textOf? disk (root.child path)).map fun text => (path, text)
  else return []

/-- The files below some directories with their texts. -/
def load (disk : Disk) (root : Path) (excluder : Ignore.Excluder) (directories : List String) :
    Except Failure Corpus := do
  return Keyed.ofPairs (← directories.mapM (loadDirectory disk root excluder)).flatten

/-- The files that mention a path, in ascending order; a file does not mention itself. -/
def mentions (corpus : Corpus) (path : String) : List String :=
  ((corpus.filter fun (file, text) => file != path && occursIn path.toList text).map
    Prod.fst).mergeSort (· ≤ ·)

end Corpus

end Deadwood.Reference

/-!
# Project-relative paths

Inside a project a file is named by its path from the project's root: segments divided by slashes,
without empty segments and without `.`. The module normalises such paths, joins them and splits
them. Joining refuses a path that would leave the project.
-/

set_option autoImplicit false

namespace Deadwood.Relative

/-- The segments of a path, empty ones included. -/
def segments (path : String) : List String := (path.toList.splitOn '/').map String.ofList

/-- The path with the given segments. -/
def ofSegments (parts : List String) : String :=
  String.ofList (['/'].intercalate (parts.map String.toList))

/-- Take one more segment onto a stack of segments, the last one on top. Empty segments and `.` stay
out, and `..` takes off the segment before it. A `..` with nothing to take off stays, unless the
path is rooted. -/
def push (rooted : Bool) (stack : List String) (segment : String) : List String :=
  if segment = "" ∨ segment = "." then stack
  else if segment = ".." then
    match stack with
    | [] => if rooted then [] else [".."]
    | top :: rest => if top = ".." then ".." :: top :: rest else rest
  else segment :: stack

/-- The segments that remain of a list of segments. -/
def collapse (rooted : Bool) (parts : List String) : List String :=
  (parts.foldl (push rooted) []).reverse

/-- The slashes that a path keeps at its beginning: two if there are exactly two, else one if there
are any. -/
def leadingSlashes : List Char → Nat
  | '/' :: '/' :: '/' :: _ => 1
  | '/' :: '/' :: _ => 2
  | '/' :: _ => 1
  | _ => 0

/-- The text without any `./` at its beginning. -/
def dropHere : List Char → List Char
  | '.' :: '/' :: cs => dropHere cs
  | cs => cs

/-- The path in its normal form. A backslash is a slash, and the directory itself is the empty
path. -/
def normalize (path : String) : String :=
  let cs := dropHere (path.toList.map fun c => if c = '\\' then '/' else c)
  let slashes := leadingSlashes cs
  let parts := collapse (slashes != 0) (segments (String.ofList cs))
  String.ofList (List.replicate slashes '/' ++ (ofSegments parts).toList)

/-- The path leads out of the directory it starts from. -/
def escapes (path : String) : Bool := path == ".." || path.startsWith "../"

/-- `path` as seen from the directory `base`. -/
def append (base path : String) : String :=
  if path.startsWith "/" then path
  else if base.isEmpty || base.endsWith "/" then base ++ path
  else base ++ "/" ++ path

/-- `path` as seen from the directory `base`, in normal form, unless it leads out of the project. -/
def join? (base path : String) : Option String :=
  let joined := normalize (append base path)
  if escapes joined || joined.startsWith "/" then none else some joined

/-- The directory of a file. -/
def parent (path : String) : String :=
  let head := (path.toList.reverse.dropWhile (· != '/')).reverse
  let bare := (head.reverse.dropWhile (· == '/')).reverse
  String.ofList (if bare.isEmpty then head else bare)

/-- The last segment of a path. -/
def name (path : String) : String :=
  String.ofList (path.toList.reverse.takeWhile (· != '/')).reverse

/-- A file name up to its first dot. -/
def stemOf (name : String) : String := String.ofList (name.toList.takeWhile (· != '.'))

/-- The name of a file up to its first dot. -/
def stem (path : String) : String := stemOf (name path)

/-- The file gathers the exports of its directory. -/
def isBarrel (path : String) : Bool := stem path == "index"

/-- The path of `name` in a directory. -/
def child (directory name : String) : String :=
  if directory.isEmpty then name else directory ++ "/" ++ name

end Deadwood.Relative

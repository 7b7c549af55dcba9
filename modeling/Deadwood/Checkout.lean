import Deadwood.Disk

/-!
# The commit that is checked out

A repository keeps, in a file of its own, the name of the commit that is checked out, or the name of
a branch whose commit stands in another file: one for the branch, or one for all branches that have
been packed.
-/

set_option autoImplicit false

namespace Deadwood.Checkout

open Text

/-- The text of a file without the blanks around it. -/
def contentOf? (disk : Disk) (path : Path) : Option String :=
  match disk.readText path with
  | .ok text => some (String.ofList (trim text))
  | .error _ => none

/-- The commit of a branch among the packed ones. -/
def packed? (disk : Disk) (repository : Path) (branch : String) : Option String := do
  let content ← contentOf? disk (repository.child "packed-refs")
  (lines content.toList).findSome? fun line =>
    match words line with
    | [commit, name] => if String.ofList name = branch then some (String.ofList commit) else none
    | _ => none

/-- The commit that is checked out in a repository. -/
def head? (disk : Disk) (repository : Path) : Option String := do
  let head ← contentOf? disk (repository.child "HEAD")
  match words head.toList with
  | [mark, name] =>
    if mark = "ref:".toList then
      let branch := String.ofList name
      contentOf? disk (repository.child branch) <|> packed? disk repository branch
    else none
  | _ => some head

/-- The repository of a directory: its own, or that of the nearest directory above. -/
def repository? (disk : Disk) : (reversed : List String) → Option Path
  | [] => none
  | part :: reversed =>
    let path := (⟨1, (part :: reversed).reverse⟩ : Path).child ".git"
    match disk.isDirectory path with
    | .ok true => some path
    | _ => repository? disk reversed

/-- The commit that is checked out in a directory. -/
def commit? (disk : Disk) (directory : Path) : Option String :=
  (repository? disk (directory.resolve disk.here).parts.reverse).bind (head? disk)

end Deadwood.Checkout

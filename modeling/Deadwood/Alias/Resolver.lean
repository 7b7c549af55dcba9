import Deadwood.Alias.Table
import Deadwood.Failure
import Deadwood.Module.Basic

/-!
# Resolving specifiers

A specifier is resolved in two steps. First it is mapped to a path: a relative specifier from the
directory of the module that uses it, any other through the alias table, and failing that as a path
from the root. Then the path is tried as it is, with each extension, and as a directory with an
index file; the first known or existing file is the answer.

A resolver keeps every answer that it has given, and gives it again without looking at the disk.
-/

set_option autoImplicit false

namespace Deadwood.Alias

open Text

/-- What a resolver needs to know about a project. -/
structure Resolver where
  root : Path
  table : Table := {}
  extensions : List String := Module.extensions
  /-- Files that need not be looked for on the disk. -/
  known : List String := []
  /-- The answers so far, by directory and specifier. -/
  answers : List ((String × String) × Option String) := []
  deriving Repr, Inhabited

namespace Resolver

/-- The specifier leads from the module that uses it. -/
def isRelative (specifier : String) : Bool :=
  specifier == "." || specifier == ".." || specifier.startsWith "./" ||
    specifier.startsWith "../"

/-- The specifier without blanks around it and without a query or fragment, and with slashes for
backslashes. -/
def clean (specifier : String) : String :=
  let cs := (trim specifier.toList).map fun c => if c = '\\' then '/' else c
  String.ofList (before '#' (before '?' cs))

/-- The path that a specifier stands for in a module of the directory `directory`. -/
def base? (table : Table) (specifier directory : String) : Except Fault (Option String) := do
  let specifier := clean specifier
  if specifier.isEmpty then return none
  else if isRelative specifier then return Relative.join? directory specifier
  else
    match ← table.map? specifier with
    | some mapped => return some mapped
    | none =>
      match specifier.toList with
      | '@' :: '/' :: rest => return Relative.join? table.base (String.ofList rest)
      | _ => return some (Relative.normalize specifier)

/-- The files that a path may mean, in the order in which they are tried. -/
def candidates (extensions : List String) (base : String) : List String :=
  let base := String.ofList (base.toList.reverse.dropWhile (· == '/')).reverse
  let index := if base.isEmpty then "index" else base ++ "/index"
  (if base.isEmpty then [] else base :: extensions.map (base ++ ·)) ++
    extensions.map (index ++ ·)

/-- The first of some files that is known or exists. -/
def firstFile? (resolver : Resolver) (disk : Disk) :
    (files : List String) → Except Disk.Error (Option String)
  | [] => .ok none
  | file :: files => do
    if resolver.known.contains file then return some file
    else if ← disk.isFile (resolver.root.child file) then return some file
    else resolver.firstFile? disk files

/-- The first of the possible files that is known or exists. -/
def probe? (resolver : Resolver) (disk : Disk) (base : String) :
    Except Disk.Error (Option String) :=
  resolver.firstFile? disk (candidates resolver.extensions base)

/-- The file that a specifier stands for, looked up on the disk. -/
def lookUp? (resolver : Resolver) (disk : Disk) (specifier directory : String) :
    Except Failure (Option String) := do
  match ← ofFault (base? resolver.table specifier directory) with
  | some base => ofDisk (resolver.probe? disk base)
  | none => return none

/-- The answer that was given before. -/
def answer? (resolver : Resolver) (specifier directory : String) : Option (Option String) :=
  resolver.answers.lookup (directory, specifier)

/-- The file that a specifier stands for, and the resolver that remembers it. -/
def resolve (resolver : Resolver) (disk : Disk) (specifier directory : String) :
    Except Failure (Option String × Resolver) :=
  match resolver.answer? specifier directory with
  | some answer => .ok (answer, resolver)
  | none => do
    let answer ← resolver.lookUp? disk specifier directory
    return (answer, { resolver with
      answers := resolver.answers ++ [((directory, specifier), answer)] })

end Resolver

end Deadwood.Alias

import Deadwood.Module.Clause
import Deadwood.Module.Declaration
import Deadwood.Module.Lexeme

/-!
# Reading a module

`Module.parse` reads everything that this library knows about a module off its text. It fails only
where the text has no shape.
-/

set_option autoImplicit false

namespace Deadwood.Module

open Text

/-- The static imports of a module, in the order of their offsets. -/
def importsOf (source shape : List Char) : List Import :=
  let bound := (scan standsFree importForm? shape).map fun form =>
    (form.start, ({
      specifier := form.literal.specifier source
      clause := some (clauseOf form.clause)
      typeOnly := form.typeOnly } : Import))
  let effects := (scan standsFree effectImport? shape).map fun (start, literal) =>
    (start, ({ specifier := literal.specifier source, clause := none, typeOnly := false } : Import))
  ((bound ++ effects).mergeSort fun a b => a.1 ≤ b.1).map Prod.snd

/-- What a re-export passes on. -/
def PassageForm.passage : PassageForm → Passage
  | .everything => .everything
  | .whole name => .whole (String.ofList name)
  | .listed inside => .listed (entries inside)

/-- The re-exports of a module. -/
def reexportsOf (source shape : List Char) : List Reexport :=
  (scan standsFree reexportForm? shape).map fun form => {
    specifier := form.literal.specifier source
    start := form.start
    stop := form.stop
    passage := form.passage.passage
    quote := form.literal.quote
    typeOnly := form.typeOnly }

/-- The lists of local exports of a module. -/
def localExportsOf (shape : List Char) : List LocalExports :=
  (scan standsFree localList? shape).filterMap fun form => form.map fun form => {
    start := form.start
    stop := form.stop
    entries := entries form.inside
    typeOnly := form.typeOnly }

/-- The specifiers of the modules loaded at run time. They are looked for in the source itself, so
one that is commented out counts as well. -/
def dynamicImportsOf (source : List Char) : List String :=
  (scan standsFree dynamicImport? source).map fun literal => literal.specifier source

/-- What a module's text says. -/
def parse (source : List Char) : Except ParseError Module :=
  (shape source).map fun shape => {
    imports := importsOf source shape
    reexports := reexportsOf source shape
    localExports := localExportsOf shape
    declarations := declarationsOf source shape
    dynamicImports := dynamicImportsOf source }

end Deadwood.Module

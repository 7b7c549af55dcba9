/-!
# Modules

What a module's text says about other modules and about itself: the modules it imports, the names
it passes on, and the names it declares. Offsets count characters from the beginning of the text,
and a span runs from `start` up to, but not including, `stop`.
-/

set_option autoImplicit false

namespace Deadwood

namespace Module

/-- One entry of a list in braces. -/
structure Entry where
  /-- The name in the module itself, or in the module that the list draws from. -/
  name : String
  /-- The name that the outside sees; for an import, the local name. -/
  exportedAs : String
  /-- The entry as written, with single spaces. -/
  text : String
  deriving DecidableEq, Repr

/-- What an import binds. -/
structure Clause where
  /-- The local name of the default export. -/
  defaultName : Option String := none
  /-- The local name of the whole module. -/
  wholeName : Option String := none
  /-- Imported names, each with its local name. -/
  names : List (String × String) := []
  deriving DecidableEq, Repr

/-- A static import. -/
structure Import where
  /-- The module that is asked for, as written. -/
  specifier : String
  /-- What is bound; an import for its effects alone has no clause. -/
  clause : Option Clause
  typeOnly : Bool
  deriving DecidableEq, Repr

/-- What a re-export passes on. -/
inductive Passage where
  /-- Every name of the other module but its default. -/
  | everything
  /-- The other module itself, under a name. -/
  | whole (name : String)
  /-- The names of a list. -/
  | listed (entries : List Entry)
  deriving DecidableEq, Repr

/-- A statement that exports from another module. -/
structure Reexport where
  specifier : String
  start : Nat
  stop : Nat
  passage : Passage
  /-- The quote around the specifier. -/
  quote : Char
  typeOnly : Bool
  deriving DecidableEq, Repr

/-- A list that exports names of the module itself. -/
structure LocalExports where
  start : Nat
  stop : Nat
  entries : List Entry
  typeOnly : Bool
  deriving DecidableEq, Repr

/-- Kinds of exported declarations. -/
inductive DeclarationKind where
  | constant | blockVariable | functionVariable | function | classType | interface | type | enum
  | scope | default
  deriving DecidableEq, Repr

/-- An exported declaration. -/
structure Declaration where
  name : String
  kind : DeclarationKind
  start : Nat
  stop : Nat
  /-- The offset after the word `export` and the blanks that follow it. -/
  qualifierStop : Nat
  deriving DecidableEq, Repr

end Module

/-- Everything that is read off one module's text. -/
structure Module where
  imports : List Module.Import := []
  reexports : List Module.Reexport := []
  localExports : List Module.LocalExports := []
  declarations : List Module.Declaration := []
  /-- The specifiers of modules that are loaded at run time. -/
  dynamicImports : List String := []
  deriving DecidableEq, Repr

/-- The endings of a module's file name, in the order in which they are tried. -/
def Module.extensions : List String := [".ts", ".tsx", ".js", ".jsx"]

namespace Module

/-- The names that a clause asks for, the default export last. -/
def Clause.importedNames (clause : Clause) : List String :=
  clause.names.map Prod.fst ++ (if clause.defaultName.isSome then ["default"] else [])

/-- The names that an import asks for. -/
def Import.importedNames (statement : Import) : List String :=
  (statement.clause.map Clause.importedNames).getD []

/-- The entries of a re-export's list. -/
def Passage.entries : Passage → List Entry
  | .listed entries => entries
  | _ => []

/-- The names that a re-export gives out by itself; those of a whole module are known only once the
other module is. -/
def Passage.exportedNames : Passage → List String
  | .everything => []
  | .whole name => [name]
  | .listed entries => entries.map Entry.exportedAs

/-- The names that a module exports, without those that come in through a re-export of
everything. -/
def exportedNames (m : Module) : List String :=
  (m.declarations.map Declaration.name ++
    m.localExports.flatMap (·.entries.map Entry.exportedAs) ++
    m.reexports.flatMap (·.passage.exportedNames)).eraseDups

/-- The module exports something. -/
def hasExports (m : Module) : Bool :=
  !m.exportedNames.isEmpty || m.reexports.any (·.passage == .everything)

/-- The word that introduces a kind of declaration. -/
def DeclarationKind.word : DeclarationKind → String
  | .constant => "const"
  | .blockVariable => "let"
  | .functionVariable => "var"
  | .function => "function"
  | .classType => "class"
  | .interface => "interface"
  | .type => "type"
  | .enum => "enum"
  | .scope => "namespace"
  | .default => "default"

/-- All kinds of declarations. -/
def DeclarationKind.all : List DeclarationKind :=
  [.constant, .blockVariable, .functionVariable, .function, .classType, .interface, .type, .enum,
    .scope, .default]

/-- A declaration of this kind ends with a block in braces. -/
def DeclarationKind.hasBlock : DeclarationKind → Bool
  | .function | .classType | .interface | .enum | .scope => true
  | _ => false

/-- A declaration of this kind may declare several names. -/
def DeclarationKind.isVariable : DeclarationKind → Bool
  | .constant | .blockVariable | .functionVariable => true
  | _ => false

end Module

end Deadwood

import Deadwood.Outline.Label

/-!
# Outlines

An outline groups items under named branches. An item is put under the branches on its way one after
the other; a branch is made when it is first needed and shared by all items that come later, so no
branch has two children of one name, and children stand in the order in which they came.
-/

set_option autoImplicit false

namespace Deadwood

/-- Items under named branches. -/
inductive Outline (α : Type) where
  | branch (name : String) (children : List (Outline α))
  | leaf (item : α)
  deriving Repr

namespace Outline

variable {α : Type}

/-- Change what is under the branch with a name. The branch is added at the end if there is none. -/
def within (name : String) (change : List (Outline α) → List (Outline α)) :
    (nodes : List (Outline α)) → List (Outline α)
  | [] => [.branch name (change [])]
  | .branch other children :: nodes =>
    if other = name then .branch other (change children) :: nodes
    else .branch other children :: within name change nodes
  | .leaf item :: nodes => .leaf item :: within name change nodes

/-- Add an item at the end of the branch that a way leads to. -/
def insert (item : α) : (way : List String) → (nodes : List (Outline α)) → List (Outline α)
  | [], nodes => nodes ++ [.leaf item]
  | name :: way, nodes => within name (insert item way) nodes

/-- The outline of items, each under the way that belongs to it. -/
def ofItems (way : α → List String) (items : List α) : List (Outline α) :=
  items.foldl (fun nodes item => insert item (way item) nodes) []

/-! ## Display -/

/-- An outline as it is displayed: labels with the labels below them. -/
inductive Tree where
  | node (label : Label) (children : List Tree)
  deriving Repr, Inhabited

mutual

/-- An outline with its branches and items as labels. -/
def display (branch : String → Label) (leaf : α → Tree) : Outline α → Tree
  | .branch name children => .node (branch name) (displayAll branch leaf children)
  | .leaf item => leaf item

/-- Outlines with their branches and items as labels. -/
def displayAll (branch : String → Label) (leaf : α → Tree) : List (Outline α) → List Tree
  | [] => []
  | node :: nodes => display branch leaf node :: displayAll branch leaf nodes

end

/-- Trees under a title, which is a line of markup. -/
structure Titled where
  title : String
  children : List Tree
  deriving Repr, Inhabited

/-- Trees under a title in bold. -/
def titled (title : String) (children : List Tree) : Titled :=
  ⟨"[bold]" ++ title ++ "[/]", children⟩

end Outline

end Deadwood

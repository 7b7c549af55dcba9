import Deadwood.Alias.Rule
import Deadwood.Path.Relative

/-!
# Alias tables

A table holds alias rules, the longest pattern first, and the directory that their targets start
from. The first rule that matches decides.
-/

set_option autoImplicit false

namespace Deadwood.Alias

/-- Alias rules with the directory that their targets start from. -/
structure Table where
  base : String := ""
  rules : List Rule := []
  /-- The file that the rules come from. -/
  source : Option String := none
  deriving Repr, Inhabited

namespace Table

/-- The rules of patterns with their possible targets: the first target counts, and a longer pattern
comes before a shorter one. -/
def rulesOf (paths : List (String × List Value)) : List Rule :=
  (paths.filterMap fun (pattern, targets) => targets.head?.map (Rule.mk pattern)).mergeSort
    fun a b => b.pattern.length ≤ a.pattern.length

/-- The table of patterns with their possible targets. -/
def ofPaths (paths : List (String × List Value)) (base : String)
    (source : Option String := none) : Table :=
  ⟨Relative.normalize base, rulesOf paths, source⟩

/-- What the first matching rule gives for a specifier. -/
def target? (specifier : String) : (rules : List Rule) → Except Fault (Option Value)
  | [] => .ok none
  | rule :: rules => do
    match ← rule.map? specifier with
    | some target => return some target
    | none => target? specifier rules

/-- The path that a target stands for in the directory `base`, unless it leads out of the project.
Where there is a directory to start from, the target must be a text. -/
def place? (base : String) (target : Value) : Except Fault (Option String) := do
  return Relative.join? base (← if base.isEmpty then pure target.plain else target.asText)

/-- The path that the first matching rule gives for a specifier, unless it leads out of the
project. -/
def map? (table : Table) (specifier : String) : Except Fault (Option String) := do
  match ← target? specifier table.rules with
  | some target => place? table.base target
  | none => return none

end Table

end Deadwood.Alias

import Deadwood.Value.Fault

/-!
# Alias rules

An alias rule maps the specifiers that match its pattern to a path. The first star of a pattern
stands for any text, which takes the place of the first star of the target; a pattern without a star
matches itself alone. A target comes from a configuration and may be any value, but a star can only
be replaced in a text.
-/

set_option autoImplicit false

namespace Deadwood.Alias

open Text

/-- A pattern with the path that it stands for. -/
structure Rule where
  pattern : String
  target : Value
  deriving Repr

namespace Rule

/-- The pattern has a star. -/
def isWildcard (rule : Rule) : Bool := rule.pattern.toList.contains '*'

/-- The text that the star of a pattern stands for in a specifier. -/
def middle? (pattern specifier : List Char) : Option (List Char) := do
  let (start, finish) ← cutAt ['*'] pattern
  if start.length + finish.length ≤ specifier.length ∧ start.isPrefixOf specifier ∧
      finish.isSuffixOf specifier then
    some ((specifier.take (specifier.length - finish.length)).drop start.length)
  else none

/-- The text with `middle` in place of its first star. -/
def fill (target middle : List Char) : List Char :=
  match cutAt ['*'] target with
  | some (start, finish) => start ++ middle ++ finish
  | none => target

/-- The target of a rule, unless it is null, which stands for nothing. -/
def target? (rule : Rule) : Option Value :=
  match rule.target with
  | .null => none
  | target => some target

/-- The path that a specifier stands for, if the rule matches it. -/
def map? (rule : Rule) (specifier : String) : Except Fault (Option Value) :=
  if rule.isWildcard then
    match middle? rule.pattern.toList specifier.toList, rule.target with
    | none, _ => .ok none
    | some middle, .text target => .ok (some (.text (String.ofList (fill target.toList middle))))
    | some _, _ => .error .notText
  else .ok (if specifier = rule.pattern then rule.target? else none)

end Rule

end Deadwood.Alias

import Deadwood.Keyed
import Deadwood.Number.Double
import Deadwood.Text.Quoted

/-!
# Values

Configuration files, reports and results are trees of values. A value is kept as it was read: a
setting of an unexpected kind is looked at where it is used, not where it is loaded.
-/

set_option autoImplicit false

namespace Deadwood

/-- A value of a configuration file or a report. The members of a table have one place for each key
and stand in the order of their first appearance. -/
inductive Value where
  | null
  | bool (b : Bool)
  | int (n : Int)
  | real (x : Double)
  | text (s : String)
  | list (items : List Value)
  | table (members : List (String × Value))
  deriving Repr, Inhabited

namespace Value

/-- Counts are values. -/
def nat (n : Nat) : Value := .int n

/-- A list of texts. -/
def texts (names : List String) : Value := .list (names.map .text)

/-- A text, or nothing. -/
def textOrNull : Option String → Value
  | none => .null
  | some s => .text s

/-- The value is a table. -/
def isTable : Value → Bool
  | .table _ => true
  | _ => false

/-- The value has parts: it is a list or a table. -/
def hasParts : Value → Bool
  | .list _ | .table _ => true
  | _ => false

/-- The member of a table. -/
def member? (key : String) : Value → Option Value
  | .table members => members.lookup key
  | _ => none

/-- The value counts as set: it is neither null, false, zero nor empty. -/
def isSet : Value → Bool
  | .null => false
  | .bool b => b
  | .int n => n != 0
  | .real x => !x.isZero
  | .text s => !s.isEmpty
  | .list items => !items.isEmpty
  | .table members => !members.isEmpty

/-- The whole number that a number or a truth value equals. -/
def whole? : Value → Option Int
  | .bool b => some (if b then 1 else 0)
  | .int n => some n
  | .real x => x.whole?
  | _ => none

/-- Two values without parts are the same. Numbers are compared by what they stand for, and the
truth values stand for one and zero. -/
def same (a b : Value) : Bool :=
  match a, b with
  | .null, .null => true
  | .text s, .text t => s == t
  | .real x, .real y => x == y || (x.isZero && y.isZero)
  | a, b => a.whole?.isSome && a.whole? == b.whole?

/-- The values without the repetitions of earlier ones. -/
def distinct (values : List Value) : List Value :=
  values.foldl (fun kept v => if kept.any (same v) then kept else kept ++ [v]) []

/-! ## Display

Messages show a value the way it would be written down: texts in quotes, the words `None`, `True`
and `False`, lists in brackets and tables in braces. A text that is itself the subject of a message
stands without quotes. -/

mutual

/-- The value as messages show it. -/
def shown : Value → String
  | .null => "None"
  | .bool true => "True"
  | .bool false => "False"
  | .int n => String.ofList (Number.signedDigits n)
  | .real x => String.ofList x.text
  | .text s => Text.quoted s
  | .list items => "[" ++ ", ".intercalate (shownItems items) ++ "]"
  | .table members => "\x7b" ++ ", ".intercalate (shownMembers members) ++ "\x7d"

/-- The items of a list as messages show them. -/
def shownItems : List Value → List String
  | [] => []
  | v :: vs => shown v :: shownItems vs

/-- The members of a table as messages show them. -/
def shownMembers : List (String × Value) → List String
  | [] => []
  | (key, v) :: rest => (Text.quoted key ++ ": " ++ shown v) :: shownMembers rest

end

/-- The value as a part of a message: a text without quotes, anything else as it is shown. -/
def plain : Value → String
  | .text s => s
  | v => v.shown

end Value

end Deadwood

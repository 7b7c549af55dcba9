import Deadwood.Stamp
import Deadwood.Value.Basic

/-!
# Using values

Values are looked at where they are used, and there they may turn out to be of no use. `Fault` lists
the ways, and the functions below take a value apart or fail with one of them.
-/

set_option autoImplicit false

namespace Deadwood

/-- Why a value is of no use. -/
inductive Fault where
  /-- A table lacks a member. -/
  | missing (key : String)
  /-- Something other than a table was asked for a member that may be missing. -/
  | notTable
  /-- Something other than a text was used as one. -/
  | notText
  /-- A value of another kind was needed. -/
  | wrongKind
  /-- An infinite number stands for a count. -/
  | unbounded
  /-- A number that is none stands for a count. -/
  | undefined
  /-- A text stands for a count and has another form. -/
  | notCount (text : String)
  /-- A text stands for a count and has too many digits. -/
  | overlong (digits : Nat)
  /-- A value is not among the words of a family. -/
  | notAmong (family : String) (v : Value)
  /-- A text is no point in time. -/
  | stamp (fault : Stamp.Fault)
  /-- A record's status contradicts its reasons. -/
  | contradiction (path status reasons : Value)
  /-- A way of trimming is not known. -/
  | trimMode (v : Value)
  /-- A value stands for a table and has an item that is no pair. -/
  | notPair (position size : Nat)
  /-- No file could be read at a time. -/
  | noWorkers
  /-- A path does not begin with another. -/
  | outside (path base : String)
  /-- A path has no last segment that could be replaced. -/
  | nameless (path : String)
  deriving Repr

namespace Fault

/-- The wording of a fault. Faults of kind have none. -/
def message : Fault → String
  | .missing key => Text.quoted key
  | .notTable | .notText | .wrongKind | .unbounded => ""
  | .undefined => "cannot convert float NaN to integer"
  | .notCount text =>
    "invalid literal for int() with base 10: " ++ String.ofList ((Text.quoted text).toList.take 200)
  | .overlong digits => Number.overlongMessage digits
  | .notAmong family v => v.shown ++ " is not a valid " ++ family
  | .stamp fault => fault.message
  | .contradiction path status reasons =>
    "Inconsistent record for " ++ path.plain ++ ": status " ++ status.plain ++ " with reasons " ++
      reasons.plain
  | .trimMode v => "mode must be one of ('strip', 'delete'), got " ++ v.shown
  | .notPair position size =>
    "dictionary update sequence element #" ++ toString position ++ " has length " ++
      toString size ++ "; 2 is required"
  | .noWorkers => "max_workers must be greater than 0"
  | .outside path base =>
    Text.quoted path ++ " is not in the subpath of " ++ Text.quoted base ++
      " OR one path is relative and the other is absolute."
  | .nameless path => "PosixPath(" ++ Text.quoted path ++ ") has an empty name"

/-- The value has the right kind, and its content is wrong. -/
def isContent : Fault → Bool
  | .missing _ | .notTable | .notText | .wrongKind | .unbounded => false
  | _ => true

end Fault

namespace Value

/-- The member of a table, or `default` if it is missing. -/
def get (v : Value) (key : String) (default : Value) : Except Fault Value :=
  match v with
  | .table members => .ok ((members.lookup key).getD default)
  | _ => .error .notTable

/-- The member of a table, which must be there. -/
def need (v : Value) (key : String) : Except Fault Value :=
  match v with
  | .table members =>
    match members.lookup key with
    | some member => .ok member
    | none => .error (.missing key)
  | _ => .error .wrongKind

/-- The elements of a value: the items of a list, the characters of a text, the keys of a table. -/
def elements : Value → Except Fault (List Value)
  | .list items => .ok items
  | .text s => .ok (s.toList.map fun c => .text (String.singleton c))
  | .table members => .ok (members.map fun (key, _) => .text key)
  | _ => .error .wrongKind

/-- The text of a value that is one. -/
def asText : Value → Except Fault String
  | .text s => .ok s
  | _ => .error .wrongKind

/-- The count that a value stands for. The fraction of a number is dropped. -/
def count : Value → Except Fault Int
  | .int n => .ok n
  | .bool b => .ok (if b then 1 else 0)
  | .real x =>
    match x with
    | .nan => .error .undefined
    | .infinite _ => .error .unbounded
    | x => .ok (x.truncate?.getD 0)
  | .text s =>
    match Number.loose s.toList with
    | .ok n => .ok n
    | .error .form => .error (.notCount s)
    | .error (.overlong digits) => .error (.overlong digits)
  | _ => .error .wrongKind

/-- `word` is among the elements of a value: a part of a text, an item of a list, a key of a
table. -/
def includes (v : Value) (word : String) : Except Fault Bool :=
  match v with
  | .text s => .ok (Text.occursIn word.toList s.toList)
  | .list items => .ok (items.any fun
    | .text s => s == word
    | _ => false)
  | .table members => .ok (Keyed.has word members)
  | _ => .error .wrongKind

/-- The members that a value adds to a table: those of a table, or the pairs of a list. A pair whose
first part is no text adds nothing that is ever asked for. -/
def additions : Value → Except Fault (List (String × Value))
  | .table members => .ok members
  | v => do
    let items ← v.elements
    let pairs ← items.zipIdx.mapM fun (item, position) => do
      match ← item.elements with
      | [.list _, _] | [.table _, _] => .error .wrongKind
      | [.text key, value] => .ok [(key, value)]
      | [_, _] => .ok []
      | parts => .error (.notPair position parts.length)
    return Keyed.ofPairs pairs.flatten

end Value

end Deadwood

import Deadwood.Json.Token

/-!
# Reading JSON

The tokens of a document are read from left to right by a machine whose stack holds the lists and
tables that are still open. A finished value goes into the innermost of them, and the document is
complete when a value is finished and nothing is open.
-/

set_option autoImplicit false

namespace Deadwood.Json

/-- A list or a table that is still open. -/
inductive Frame where
  /-- The items so far, the last first. -/
  | items (reversed : List Value)
  /-- The members so far, and the key of the member that is being read. -/
  | members (done : List (String × Value)) (key : String)
  deriving Repr

/-- What may come next. -/
inductive Mode where
  /-- A value. -/
  | value
  /-- The first item of the list that was just opened, or its end. -/
  | firstItem
  /-- The first key of a table that was just opened, or its end. -/
  | firstKey
  /-- A further key of a table with these members. -/
  | nextKey (done : List (String × Value))
  /-- The colon after this key of a table with these members. -/
  | colon (done : List (String × Value)) (key : String)
  /-- A comma or an end, after this value. -/
  | done (v : Value)
  deriving Repr

/-- How deeply lists and tables may be nested. -/
def maxNesting : Nat := 985

/-- The machine, where a value may begin, after the first token of the value. -/
def beginValue (stack : List Frame) : Token → Except Error (List Frame × Mode)
  | .openTable =>
    if stack.length < maxNesting then .ok (stack, .firstKey)
    else .error (.excess .nesting)
  | .openList =>
    if stack.length < maxNesting then .ok (.items [] :: stack, .firstItem)
    else .error (.excess .nesting)
  | .text s => .ok (stack, .done (.text s))
  | .atom v => .ok (stack, .done v)
  | .excess e => .error (.excess e)
  | .broken e => .error e
  | _ => .error .misplaced

/-- The machine after a value that stands in a list, in a table or alone. -/
def afterValue (v : Value) : List Frame → Token → Except Error (List Frame × Mode)
  | .items reversed :: stack, .comma => .ok (.items (v :: reversed) :: stack, .value)
  | .items reversed :: stack, .closeList => .ok (stack, .done (.list (v :: reversed).reverse))
  | .members members key :: stack, .comma => .ok (stack, .nextKey (Keyed.put key v members))
  | .members members key :: stack, .closeTable =>
    .ok (stack, .done (.table (Keyed.put key v members)))
  | _, _ => .error .misplaced

/-- One step of the machine. -/
def step (stack : List Frame) : Mode → Token → Except Error (List Frame × Mode)
  | .value, token => beginValue stack token
  | .firstItem, .closeList => .ok (stack.drop 1, .done (.list []))
  | .firstItem, token => beginValue stack token
  | .firstKey, .closeTable => .ok (stack, .done (.table []))
  | .firstKey, .text key => .ok (stack, .colon [] key)
  | .nextKey members, .text key => .ok (stack, .colon members key)
  | .colon members key, .colon => .ok (.members members key :: stack, .value)
  | .done v, token => afterValue v stack token
  | _, _ => .error .misplaced

/-- Run the machine over all tokens. -/
def run (stack : List Frame) (mode : Mode) : List Token → Except Error Value
  | [] =>
    match stack, mode with
    | [], .done v => .ok v
    | _, _ => .error .unfinished
  | token :: tokens => do
    let (stack, mode) ← step stack mode token
    run stack mode tokens

/-- The value of a document. -/
def read (text : List Char) : Except Error Value := run [] .value (tokens text)

end Deadwood.Json

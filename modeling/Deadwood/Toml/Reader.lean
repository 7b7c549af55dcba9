import Deadwood.Toml.Lexical

/-!
# Reading TOML

A TOML document is a sequence of statements that build one table. A statement writes a value to a
key, opens a table, or appends a table to a list of tables. Some tables are closed to later
statements: one that was opened may not be opened again, one that was built by dotted keys may not
be opened once its section is over, and a list or table that was written as a value may not be
changed at all.
-/

set_option autoImplicit false

namespace Deadwood.Toml

/-- Why a text is no TOML document. -/
inductive Error where
  /-- A statement cannot be read or contradicts an earlier one. -/
  | statement (line : Nat)
  /-- The document goes beyond what can be read. -/
  | excess (e : Excess)
  deriving DecidableEq, Repr

/-- The wording of an error. -/
def Error.message : Error → String
  | .statement line => "Invalid statement in line " ++ toString line
  | .excess e => e.message

/-- The error of a statement with a flaw. -/
def Error.ofFlaw (line : Nat) : Flaw → Error
  | .invalid => .statement line
  | .excess e => .excess e

/-- A path to a table. -/
abbrev Key := List String

/-- What closes a table to later statements. -/
inductive Mark where
  /-- The table may not be opened. -/
  | opened
  /-- Nothing below the key may be changed. -/
  | frozen
  deriving DecidableEq, Repr

/-- The document so far. -/
structure Document where
  members : List (String × Value) := []
  marks : List (Key × Mark) := []
  /-- Tables of dotted keys, which are marked as opened when the section is over. -/
  pending : List Key := []
  /-- The key of the section. -/
  header : Key := []
  deriving Repr

namespace Document

/-- The key is marked as opened. -/
def isOpened (doc : Document) (key : Key) : Bool := doc.marks.contains (key, .opened)

/-- The key or one above it is frozen. -/
def isFrozen (doc : Document) (key : Key) : Bool :=
  doc.marks.any fun (marked, mark) => mark = .frozen && marked.isPrefixOf key

/-- The document with one more mark. -/
def mark (doc : Document) (key : Key) (mark : Mark) : Document :=
  { doc with marks := (key, mark) :: doc.marks }

end Document

/-- Change the table at a key, making tables on the way; `lists` allows to pass through the last
item of a list of tables. There is no such table if another value stands on the way. -/
def modify? (lists : Bool) (change : List (String × Value) → Option (List (String × Value))) :
    Key → List (String × Value) → Option (List (String × Value))
  | [], members => change members
  | part :: key, members =>
    match members.lookup part with
    | none => (modify? lists change key []).map fun inner => Keyed.put part (.table inner) members
    | some (.table inner) =>
      (modify? lists change key inner).map fun inner => Keyed.put part (.table inner) members
    | some (.list items) =>
      match items.getLast? with
      | some (.table inner) =>
        if lists then
          (modify? lists change key inner).map fun inner =>
            Keyed.put part (.list (items.dropLast ++ [.table inner])) members
        else none
      | _ => none
    | some _ => none

/-- Write a value to a key that is not there yet. -/
def insert? (lists : Bool) (key : Key) (v : Value) (members : List (String × Value)) :
    Option (List (String × Value)) :=
  match key.getLast? with
  | none => none
  | some name =>
    modify? lists (fun inner => if Keyed.has name inner then none else some (inner ++ [(name, v)]))
      key.dropLast members

/-- How deeply lists and tables in braces may be nested. -/
def maxNesting : Nat := 1000

mutual

/-- A value. Lists and tables may be nested `depth` deep, and there are at most `fuel` parts. -/
def value : (fuel depth : Nat) → List Char → Except Flaw (Value × List Char)
  | fuel + 1, depth + 1, '[' :: cs => do
    let (items, rest) ← items fuel depth (← need (gap? false cs))
    return (.list items, rest)
  | fuel + 1, depth + 1, '\x7b' :: cs => do
    let (members, rest) ← members fuel depth [] [] (← need (gap? false cs))
    return (.table members, rest)
  | _ + 1, 0, '[' :: _ | _ + 1, 0, '\x7b' :: _ => .error (.excess .nesting)
  | _ + 1, _, cs => simple cs
  | 0, _, _ => .error .invalid

/-- The items of a list up to its end; a comma may stand after the last one. -/
def items : (fuel depth : Nat) → List Char → Except Flaw (List Value × List Char)
  | 0, _, _ => .error .invalid
  | _ + 1, _, ']' :: rest => .ok ([], rest)
  | fuel + 1, depth, cs => do
    let (v, rest) ← value fuel depth cs
    match ← need (gap? false rest) with
    | ']' :: rest => return ([v], rest)
    | ',' :: rest =>
      let (vs, rest) ← items fuel depth (← need (gap? false rest))
      return (v :: vs, rest)
    | _ => .error .invalid

/-- The members of a table in braces up to its end, after those in `done`; below the keys in
`frozen` nothing may be written. -/
def members : (fuel depth : Nat) → (frozen : List Key) → (done : List (String × Value)) →
    List Char → Except Flaw (List (String × Value) × List Char)
  | 0, _, _, _, _ => .error .invalid
  | _ + 1, _, _, done, '\x7d' :: rest => .ok (done, rest)
  | fuel + 1, depth, frozen, done, cs => do
    let (key, rest) ← need (key? cs.length cs)
    let (v, rest) ← value fuel depth (skipSpace (← need (after? '=' rest)))
    if frozen.any (·.isPrefixOf key) then .error .invalid
    else
      let done ← need (insert? false key v done)
      match ← need (gap? false rest) with
      | '\x7d' :: rest => return (done, rest)
      | ',' :: rest =>
        members fuel depth (if v.hasParts then key :: frozen else frozen) done
          (← need (gap? false rest))
      | _ => .error .invalid

end

/-- A statement that writes a value to a key. -/
def pair (doc : Document) (cs : List Char) : Except Flaw (Document × List Char) := do
  let (key, rest) ← need (key? cs.length cs)
  let rest := skipSpace (← need (after? '=' rest))
  let (v, rest) ← value (rest.length + 1) maxNesting rest
  let above := (List.range (key.length - 1)).map fun n => doc.header ++ key.take (n + 1)
  if above.any doc.isOpened || doc.isFrozen (doc.header ++ key.dropLast) then .error .invalid
  else
    let members ← need (insert? true (doc.header ++ key) v doc.members)
    let doc := { doc with members, pending := doc.pending ++ above }
    return (if v.hasParts then doc.mark (doc.header ++ key) .frozen else doc, rest)

/-- The document after its section is over. -/
def closeSection (doc : Document) : Document :=
  { doc with marks := doc.pending.map (·, .opened) ++ doc.marks, pending := [] }

/-- A statement that opens a table, after its opening bracket. -/
def table? (doc : Document) (cs : List Char) : Option (Document × List Char) := do
  let cs := skipSpace cs
  let (key, rest) ← key? cs.length cs
  if doc.isOpened key || doc.isFrozen key then none
  else
    let members ← modify? true some key doc.members
    let rest ← after? ']' rest
    return ({ doc.mark key .opened with members, header := key }, rest)

/-- Append an empty table to the list at a name. -/
def appendTable? (name : String) (members : List (String × Value)) :
    Option (List (String × Value)) :=
  match members.lookup name with
  | none => some (members ++ [(name, .list [.table []])])
  | some (.list items) => some (Keyed.put name (.list (items ++ [.table []])) members)
  | some _ => none

/-- A statement that appends a table to a list of tables, after its opening brackets. What was said
about the last table of the list does not concern the new one. -/
def listedTable? (doc : Document) (cs : List Char) : Option (Document × List Char) := do
  let cs := skipSpace cs
  let (key, rest) ← key? cs.length cs
  if doc.isFrozen key then none
  else
    let name ← key.getLast?
    let members ← modify? true (appendTable? name) key.dropLast doc.members
    let rest ← after? ']' (← after? ']' rest)
    let marks := doc.marks.filter fun (marked, _) => !key.isPrefixOf marked
    return ({ doc with members, marks := (key, .opened) :: marks, header := key }, rest)

/-- One statement, which may be missing, with the comment after it. -/
def statement (doc : Document) (cs : List Char) : Except Flaw (Document × List Char) := do
  let (doc, rest) ← match cs with
    | [] => .ok (doc, [])
    | '[' :: '[' :: rest => need (listedTable? (closeSection doc) rest)
    | '[' :: rest => need (table? (closeSection doc) rest)
    | c :: _ => if c = '\n' ∨ c = '#' then .ok (doc, cs) else pair doc cs
  return (doc, ← need (comment? (skipSpace rest)))

/-- The members of the document after `doc`, where `line` lines have been read. -/
def statements (doc : Document) (line : Nat) (cs : List Char) :
    Except Error (List (String × Value)) :=
  match statement doc (skipSpace cs) with
  | .error flaw => .error (.ofFlaw (line + 1) flaw)
  | .ok (doc, []) => .ok doc.members
  | .ok (doc, c :: rest) =>
    if c = '\n' ∧ rest.length < cs.length then
      let read := (cs.take (cs.length - rest.length)).count '\n'
      statements doc (line + read) rest
    else .error (.statement (line + 1))
termination_by cs.length

/-- Every line end of two characters becomes a line feed. -/
def unifyLineEnds : List Char → List Char
  | [] => []
  | '\r' :: '\n' :: cs => '\n' :: unifyLineEnds cs
  | c :: cs => c :: unifyLineEnds cs

/-- The table of a document. -/
def read (text : List Char) : Except Error Value :=
  (statements {} 0 (unifyLineEnds text)).map .table

end Deadwood.Toml

/-!
# Keyed lists

Tables whose order matters are lists of pairs with one pair for each key. Writing to a key that is
there already keeps its place, and writing to a new key appends it, so a table is always in the
order in which its keys first came up.
-/

set_option autoImplicit false

namespace Deadwood.Keyed

variable {κ ν : Type} [BEq κ]

/-- Write `value` to `key`: in its place if the key is there, at the end otherwise. -/
def put (key : κ) (value : ν) : List (κ × ν) → List (κ × ν)
  | [] => [(key, value)]
  | (k, v) :: rest => if k == key then (k, value) :: rest else (k, v) :: put key value rest

/-- Write `value` to `key` unless the key is there. -/
def putNew (key : κ) (value : ν) (table : List (κ × ν)) : List (κ × ν) :=
  if (table.lookup key).isSome then table else table ++ [(key, value)]

/-- Write every pair of `changes` in turn. -/
def putAll (table changes : List (κ × ν)) : List (κ × ν) :=
  changes.foldl (fun table (key, value) => put key value table) table

/-- The table of pairs in which a repeated key counts at its first place with its last value. -/
def ofPairs (pairs : List (κ × ν)) : List (κ × ν) := putAll [] pairs

/-- The table without `key`. -/
def erase (key : κ) (table : List (κ × ν)) : List (κ × ν) := table.filter fun (k, _) => k != key

/-- The table has `key`. -/
def has (key : κ) (table : List (κ × ν)) : Bool := (table.lookup key).isSome

end Deadwood.Keyed

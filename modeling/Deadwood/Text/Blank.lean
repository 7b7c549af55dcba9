/-!
# Blank characters and the pieces of a text

A text is handled as its list of characters, so that every operation below is a recursion on the
text itself. The module holds the white space class that the readers of this library agree on, and
the few ways in which they cut a text: trimming, cutting at a mark, splitting into words, and
splitting into lines.
-/

set_option autoImplicit false

namespace Deadwood.Text

/-! ## White space -/

/-- White space of any script, the four information separators and the next-line control included;
the zero-width characters are not blank. -/
def isBlank (c : Char) : Bool :=
  let n := c.toNat
  (0x9 ≤ n && n ≤ 0xd) || (0x1c ≤ n && n ≤ 0x20) || n == 0x85 || n == 0xa0 || n == 0x1680 ||
    (0x2000 ≤ n && n ≤ 0x200a) || n == 0x2028 || n == 0x2029 || n == 0x202f || n == 0x205f ||
    n == 0x3000

/-- Blanks that do not leave the line. -/
def isLineBlank (c : Char) : Bool := c = ' ' || c = '\t'

/-- The text without its leading blanks. -/
def trimStart (cs : List Char) : List Char := cs.dropWhile isBlank

/-- The text without its trailing blanks. -/
def trimEnd (cs : List Char) : List Char := (cs.reverse.dropWhile isBlank).reverse

/-- The text without the blanks around it. -/
def trim (cs : List Char) : List Char := trimEnd (trimStart cs)

/-! ## Cutting -/

/-- The text before the first `sep`, or the whole text. -/
def before (sep : Char) (cs : List Char) : List Char := cs.takeWhile (· != sep)

/-- Cut at the first occurrence of `mark`: what stands before it and what stands after it. -/
def cutAt (mark : List Char) : List Char → Option (List Char × List Char)
  | [] => if mark.isEmpty then some ([], []) else none
  | c :: cs =>
    if mark.isPrefixOf (c :: cs) then some ([], (c :: cs).drop mark.length)
    else (cutAt mark cs).map fun (head, tail) => (c :: head, tail)

/-- Nothing is lost where a text is cut. -/
theorem eq_of_cutAt {mark cs head tail : List Char} (h : cutAt mark cs = some (head, tail)) :
    cs = head ++ mark ++ tail := by
  induction cs generalizing head with
  | nil =>
    unfold cutAt at h
    split at h <;> simp_all
  | cons c cs ih =>
    unfold cutAt at h
    split at h
    · rename_i found
      obtain ⟨rest, eq⟩ := List.isPrefixOf_iff_prefix.1 found
      simp only [Option.some.injEq, Prod.mk.injEq] at h
      obtain ⟨rfl, rfl⟩ := h
      simp [← eq]
    · obtain ⟨⟨before, after⟩, cut, eq⟩ := Option.map_eq_some_iff.1 h
      simp only [Prod.mk.injEq] at eq
      obtain ⟨rfl, rfl⟩ := eq
      rw [ih cut]
      simp

/-- `needle` stands somewhere in the text. -/
def occursIn (needle cs : List Char) : Bool := (cutAt needle cs).isSome

/-- The words of a text: its longest runs without blanks, in order. -/
def words : List Char → List (List Char)
  | [] => []
  | c :: cs =>
    if isBlank c then words cs
    else (c :: cs.takeWhile (!isBlank ·)) :: words (cs.dropWhile (!isBlank ·))
termination_by cs => cs.length
decreasing_by
  all_goals simp only [List.length_cons]
  · omega
  · exact Nat.lt_succ_of_le (List.dropWhile_suffix _).length_le

/-- The words of a text with one space between neighbours. -/
def squeeze (cs : List Char) : List Char := [' '].intercalate (words cs)

/-! ## Lines -/

/-- Every line end, be it a line feed, a carriage return or both in this order, becomes one line
feed. -/
def unifyLineEnds : List Char → List Char
  | [] => []
  | '\r' :: '\n' :: cs => '\n' :: unifyLineEnds cs
  | c :: cs => (if c = '\r' then '\n' else c) :: unifyLineEnds cs

/-- Characters that end a line in a list of patterns: the line feed, the carriage return, the
vertical tab, the form feed, three of the information separators, the next-line control and the
Unicode line and paragraph separators. -/
def isLineEnd (c : Char) : Bool :=
  let n := c.toNat
  (0xa ≤ n && n ≤ 0xd) || (0x1c ≤ n && n ≤ 0x1e) || n == 0x85 || n == 0x2028 || n == 0x2029

/-- The lines of a text without their ends. A carriage return and a line feed after it end one line
together, and a line end at the end of the text opens no further line. -/
def lines (cs : List Char) : List (List Char) := go [] cs
where
  /-- The lines of the text that follows the reversed beginning `line` of the current line. -/
  go (line : List Char) : List Char → List (List Char)
    | [] => if line.isEmpty then [] else [line.reverse]
    | '\r' :: '\n' :: cs => line.reverse :: go [] cs
    | c :: cs => if isLineEnd c then line.reverse :: go [] cs else go (c :: line) cs

end Deadwood.Text

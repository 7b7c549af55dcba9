import Deadwood.Proofs.Tokens
import Deadwood.Text.Cursor
import Mathlib.Data.List.TakeWhile

/-!
# What a cursor passes over

A recogniser moves a cursor over a piece of the text. `Cursor.Spans` says which piece lies between
two cursors and `Cursor.Runs` that the piece is a longest run, so that what a recogniser reads can
be said as a sequence of pieces; each step of a cursor is characterised by one of the two. What a
scan finds was recognised at some place of the text, after a character that admits it (`mem_scan`).
-/

set_option autoImplicit false

namespace Deadwood.Text

open List hiding Cursor

namespace Cursor

variable {here mid next : Cursor} {piece piece' : List Char} {p : Char → Bool}

/-- The text between two cursors is `piece`. -/
structure Spans (here : Cursor) (piece : List Char) (next : Cursor) : Prop where
  rest_eq : here.rest = piece ++ next.rest
  offset_eq : next.offset = here.offset + piece.length

/-- The text between two cursors is the longest run of characters with `p` after the first. -/
structure Runs (p : Char → Bool) (here : Cursor) (piece : List Char) (next : Cursor) : Prop extends
    here.Spans piece next where
  all : ∀ c ∈ piece, p c = true
  stops : next.rest.head?.any p = false

theorem Spans.refl (here : Cursor) : here.Spans [] here := ⟨rfl, rfl⟩

theorem Spans.trans (h : here.Spans piece mid) (h' : mid.Spans piece' next) :
    here.Spans (piece ++ piece') next where
  rest_eq := by rw [h.rest_eq, h'.rest_eq, append_assoc]
  offset_eq := by rw [h'.offset_eq, h.offset_eq, length_append, Nat.add_assoc]

/-- Where a piece begins and how long it is says where the cursor after it stands. -/
theorem Spans.eq_advance (h : here.Spans piece next) : next = here.advance piece.length := by
  cases next
  simp [advance, h.rest_eq, ← h.offset_eq]

theorem spans_advance {n : Nat} (h : n ≤ here.rest.length) :
    here.Spans (here.rest.take n) (here.advance n) := by
  refine ⟨(take_append_drop n here.rest).symm, ?_⟩
  rw [length_take, Nat.min_eq_left h]
  rfl

theorem drop_length_takeWhile (p : Char → Bool) (cs : List Char) :
    cs.drop (cs.takeWhile p).length = cs.dropWhile p := by
  induction cs with
  | nil => rfl
  | cons c cs ih => cases hc : p c <;> simp [hc, ih]

theorem skip_runs (p : Char → Bool) (here : Cursor) :
    here.Runs p (here.run p) (here.skip p) where
  rest_eq := by simp [skip, advance, run, drop_length_takeWhile]
  offset_eq := rfl
  all := fun c hc => mem_takeWhile_imp hc
  stops := by
    have hstop := head?_dropWhile_not p here.rest
    simp only [skip, advance, run, drop_length_takeWhile]
    rw [Option.any_eq_false]
    intro c hc
    rw [hc] at hstop
    simpa using hstop

/-- A longest run is what is skipped. -/
theorem Runs.eq (h : here.Runs p piece next) : here.run p = piece ∧ here.skip p = next := by
  have hrun : here.run p = piece := by
    rw [run, h.rest_eq, takeWhile_append_of_pos h.all]
    cases hrest : next.rest with
    | nil => simp
    | cons c rest =>
      have hc : p c = false := by simpa [hrest] using h.stops
      simp [hc]
  refine ⟨hrun, ?_⟩
  rw [skip, hrun]
  exact h.toSpans.eq_advance.symm

variable {expected : String}

theorem expect?_iff : here.expect? expected = some next ↔ here.Spans expected.toList next := by
  unfold expect?
  constructor
  · intro h
    split at h
    · rename_i hbegin
      obtain ⟨rest, hrest⟩ := isPrefixOf_iff_prefix.1 hbegin
      cases h
      refine ⟨?_, by simp [advance, String.length_toList]⟩
      rw [advance, ← hrest, ← String.length_toList, drop_left]
    · cases h
  · intro h
    have hbegin : expected.toList.isPrefixOf here.rest :=
      isPrefixOf_iff_prefix.2 ⟨next.rest, h.rest_eq.symm⟩
    rw [if_pos hbegin, h.eq_advance, String.length_toList]

theorem expect?_eq_none_iff : here.expect? expected = none ↔ ¬ expected.toList <+: here.rest := by
  simp [expect?, isPrefixOf_iff_prefix]

theorem skipSome?_iff :
    here.skipSome? p = some next ↔ ∃ piece, piece ≠ [] ∧ here.Runs p piece next := by
  unfold skipSome?
  constructor
  · intro h
    split at h
    · cases h
    · rename_i hne
      cases h
      exact ⟨here.run p, by simpa using hne, skip_runs p here⟩
  · rintro ⟨piece, hne, hruns⟩
    obtain ⟨hrun, hskip⟩ := hruns.eq
    rw [hrun, if_neg (by simpa using hne), hskip]

/-- Characters of words, blanks and stars. -/
def isWordText (c : Char) : Bool := isIdent c || isBlank c || c = '*'

/-- Nothing but words, blanks and stars lies between the two cursors. -/
def OverWords (here next : Cursor) : Prop :=
  ∃ piece, here.Spans piece next ∧ ∀ c ∈ piece, isWordText c = true

theorem OverWords.refl (here : Cursor) : here.OverWords here := ⟨[], .refl here, by simp⟩

theorem OverWords.trans (h : here.OverWords mid) (h' : mid.OverWords next) :
    here.OverWords next := by
  obtain ⟨piece, hspans, hpiece⟩ := h
  obtain ⟨piece', hspans', hpiece'⟩ := h'
  refine ⟨_, hspans.trans hspans', fun c hc => ?_⟩
  rcases mem_append.1 hc with hc | hc
  · exact hpiece c hc
  · exact hpiece' c hc

theorem overWords_skip (hp : ∀ c, p c → isWordText c) : here.OverWords (here.skip p) :=
  ⟨_, (skip_runs p here).toSpans, fun c hc => hp c ((skip_runs p here).all c hc)⟩

theorem overWords_skipBlanks : here.OverWords (here.skip isBlank) :=
  overWords_skip fun c hc => by simp [isWordText, hc]

theorem overWords_of_expect? (h : here.expect? expected = some next)
    (hword : expected.toList.all isWordText) : here.OverWords next :=
  ⟨_, expect?_iff.1 h, all_eq_true.1 hword⟩

end Cursor

/-! ## Scans -/

section Scan

variable {α : Type} {admits : Option Char → Bool} {recognise : Cursor → Option (α × Cursor)}

/-- The last character of a text that is cut off after its first `n` characters. -/
theorem getLast?_or_cons_take (c : Char) (cs head : List Char) (n : Nat) (previous : Option Char) :
    (c :: (cs.take n ++ head)).getLast?.or previous =
      head.getLast?.or ((c :: cs.take n).getLast?) := by
  rw [← cons_append, getLast?_append]
  cases head.getLast? with
  | none => simp [getLast?_cons]
  | some d => rfl

variable {text : List Char}

/-- What is found in the rest of a text was recognised at a place of it that admits it. -/
theorem mem_scanFrom {previous : Option Char} {offset : Nat} {a : α}
    (h : a ∈ scanFrom admits recognise previous offset text) :
    ∃ head rest next, text = head ++ rest ∧ rest ≠ [] ∧ admits (head.getLast?.or previous) ∧
      recognise ⟨offset + head.length, rest⟩ = some (a, next) := by
  fun_induction scanFrom admits recognise previous offset text with
  | case1 previous offset => cases h
  | case2 previous offset c cs hnone ih =>
    obtain ⟨head, rest, next, rfl, hne, hadmits, hfound⟩ := ih h
    refine ⟨c :: head, rest, next, rfl, hne, ?_, ?_⟩
    · rwa [Reference.getLast?_cons_or]
    · rw [length_cons, Nat.add_comm head.length, ← Nat.add_assoc]
      exact hfound
  | case3 previous offset c cs found next hfound more ih =>
    rcases mem_cons.1 h with rfl | h
    · split at hfound
      · rename_i hadmits
        exact ⟨[], c :: cs, next, rfl, by simp, hadmits, hfound⟩
      · cases hfound
    · obtain ⟨head, rest, next', hrest, hne, hadmits, hfound'⟩ := ih h
      -- something follows, so all characters that were read are there
      have hmore : more ≤ cs.length := by
        by_contra hlong
        rw [drop_eq_nil_of_le (by omega)] at hrest
        simp_all
      refine ⟨c :: (cs.take more ++ head), rest, next', ?_, hne, ?_, ?_⟩
      · rw [cons_append, append_assoc, ← hrest, take_append_drop]
      · rwa [getLast?_or_cons_take]
      · have hlength : (c :: (cs.take more ++ head)).length = 1 + more + head.length := by
          simp only [length_cons, length_append, length_take]
          omega
        rw [hlength, ← Nat.add_assoc, ← Nat.add_assoc]
        exact hfound'

/-- What is found in a text was recognised at a place of it that admits it. -/
theorem mem_scan {a : α} (h : a ∈ scan admits recognise text) :
    ∃ head rest next, text = head ++ rest ∧ admits head.getLast? ∧
      recognise ⟨head.length, rest⟩ = some (a, next) := by
  obtain ⟨head, rest, next, htext, -, hadmits, hfound⟩ := mem_scanFrom h
  exact ⟨head, rest, next, htext, by simpa using hadmits, by simpa using hfound⟩

end Scan

end Deadwood.Text

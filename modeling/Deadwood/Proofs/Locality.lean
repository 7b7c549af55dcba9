import Deadwood.Proofs.Seams
import Deadwood.Proofs.Shifting

/-!
# Settled texts are read by themselves

A recogniser that is tried in a settled text finds the same whatever follows it (`Settled.carrier`):
every word of an unfinished statement is followed by something, lists go on to a brace, and only
blanks and the word `from` are looked for beyond the last statement. So a scan of a text that goes
on after a settled one finds what there is in the first part and then what there is in the rest
(`scan_append`).
-/

set_option autoImplicit false

namespace Deadwood.Text.Cursor

open List hiding Cursor

/-- The cursor in a text that goes on with `more`. -/
def extend (more : List Char) (here : Cursor) : Cursor := ⟨here.offset, here.rest ++ more⟩

variable {here next : Cursor} {p : Char → Bool} {more : List Char}

theorem expect?_extend {word : String} (hline : '\n' ∈ here.rest) (hword : '\n' ∉ word.toList) :
    (here.extend more).expect? word = (here.expect? word).map (extend more) := by
  have hiff : word.toList <+: here.rest ++ more ↔ word.toList <+: here.rest := by
    constructor
    · intro h
      by_cases hlength : word.toList.length ≤ here.rest.length
      · exact prefix_of_prefix_length_le h (prefix_append _ _) hlength
      · -- the word would go on after the line break
        have hlong := prefix_of_prefix_length_le (prefix_append _ more) h (by omega)
        exact absurd (hlong.subset hline) hword
    · exact fun h => h.trans (prefix_append _ _)
  simp only [expect?, extend, isPrefixOf_iff_prefix, hiff]
  split
  · rename_i hbegin
    have hlength := hbegin.length_le
    rw [String.length_toList] at hlength
    simp [advance, extend, drop_append_of_le_length hlength]
  · rfl

theorem run_extend (hstop : ∃ c ∈ here.rest, p c = false) :
    (here.extend more).run p = here.run p := by
  simp only [run, extend]
  rw [takeWhile_append, if_neg]
  intro hall
  obtain ⟨c, hmem, hc⟩ := hstop
  have heq := (List.takeWhile_prefix p).eq_of_length hall
  rw [← heq] at hmem
  simp [mem_takeWhile_imp hmem] at hc

theorem skip_extend (hstop : ∃ c ∈ here.rest, p c = false) :
    (here.extend more).skip p = (here.skip p).extend more := by
  have hlength : (here.run p).length ≤ here.rest.length := (List.takeWhile_prefix p).length_le
  simp only [skip, run_extend hstop]
  simp [advance, extend, drop_append_of_le_length hlength]

theorem advance_extend {k : Nat} (hk : k ≤ here.rest.length) :
    (here.extend more).advance k = (here.advance k).extend more := by
  simp [advance, extend, drop_append_of_le_length hk]

end Deadwood.Text.Cursor

namespace Deadwood.Module

open Text Reference
open List hiding Cursor

variable {here next : Cursor} {masked more : List Char}

/-! ## Settled texts -/

/-- The shape of a text that leaves no statement open at its end: it ends its line, and not in a
word or a star after which a statement goes on; and a list of exports that is opened in it goes on
to a brace. -/
structure Settled (masked : List Char) : Prop where
  line : masked = [] ∨ masked.getLast? = some '\n'
  words : ∀ word ∈ openers, ¬ word.toList <:+ trimEnd masked
  lists : ∀ tail ∈ masked.tails, ∀ qualifier ∈ spacedWord? "export" ⟨0, tail⟩,
    ∀ inside ∈ (typeWord qualifier).2.expect? "\x7b", ∃ c ∈ inside.rest, c = '{' ∨ c = '}'

/-- A part of a settled text up to its end ends with its line break. -/
theorem Settled.getLast?_of_suffix (h : Settled masked) {rest : List Char} (hrest : rest <:+ masked)
    (hne : rest ≠ []) : rest.getLast? = some '\n' :=
  Module.getLast?_of_suffix h.line hrest hne

theorem isBlank_of_mem_openers : ∀ word ∈ openers, ∀ c ∈ word.toList, isBlank c = false := by
  have hall : ∀ word ∈ openers, word.toList.all (fun c => !isBlank c) = true := by decide
  intro word hword c hc
  simpa using all_eq_true.1 (hall word hword) c hc

theorem ne_nil_of_mem_openers : ∀ word ∈ openers, word.toList ≠ [] := by decide

/-- The cursor stands in a text, before its end. -/
structure Inside (masked : List Char) (here : Cursor) : Prop where
  suffix : here.rest <:+ masked
  ne : here.rest ≠ []

/-- The cursor stands in a text, and a run of characters from it on stops before the end. -/
structure StopsIn (masked : List Char) (p : Char → Bool) (here : Cursor) : Prop where
  suffix : here.rest <:+ masked
  mem : ∃ c ∈ here.rest, p c = false

theorem StopsIn.inside {p : Char → Bool} (h : StopsIn masked p here) : Inside masked here where
  suffix := h.suffix
  ne := by
    obtain ⟨c, hmem, -⟩ := h.mem
    exact ne_nil_of_mem hmem

theorem Inside.line (hsettled : Settled masked) (h : Inside masked here) : '\n' ∈ here.rest :=
  mem_of_getLast? (hsettled.getLast?_of_suffix h.suffix h.ne)

/-- A cursor that has not just passed a line break stands before the end of the text. -/
theorem Inside.of_spans (hsettled : Settled masked) (h : Inside masked here) {piece : List Char}
    (hspans : here.Spans piece next) (hpiece : piece.getLast? ≠ some '\n') :
    Inside masked next where
  suffix := (Cursor.Reaches.suffix ⟨piece, hspans⟩).trans h.suffix
  ne := by
    intro hnil
    have hlast := hsettled.getLast?_of_suffix h.suffix h.ne
    rw [hspans.rest_eq, hnil, append_nil] at hlast
    exact hpiece hlast

/-- A text without the blanks after its last word. -/
theorem trimEnd_append_word {front word rest : List Char} (hne : word ≠ [])
    (hword : ∀ c ∈ word, isBlank c = false) (hrest : ∀ c ∈ rest, isBlank c) :
    trimEnd (front ++ word ++ rest) = front ++ word := by
  obtain ⟨word, c, rfl⟩ : ∃ front c, word = front ++ [c] :=
    ⟨_, _, (dropLast_concat_getLast hne).symm⟩
  have hc : isBlank c = false := hword c (by simp)
  have hblank : ∀ d ∈ rest.reverse, isBlank d := fun d hd => hrest d (mem_reverse.1 hd)
  have hreverse : (front ++ (word ++ [c]) ++ rest).reverse =
      rest.reverse ++ c :: (front ++ word).reverse := by simp
  rw [trimEnd, hreverse, dropWhile_append_of_pos hblank,
    dropWhile_cons_of_neg (by simp [hc])]
  simp

variable {word : String}

/-- Something follows every word after which a statement goes on. -/
theorem stops_of_expect? (hsettled : Settled masked) (h : Inside masked here)
    (hword : word ∈ openers) (hexpect : here.expect? word = some next) :
    StopsIn masked isBlank next := by
  have hspans := Cursor.expect?_iff.1 hexpect
  refine ⟨(Cursor.reaches_of_expect? hexpect).suffix.trans h.suffix, ?_⟩
  by_contra hnone
  -- the text would end with the word
  obtain ⟨front, hfront⟩ := h.suffix
  refine hsettled.words word hword ⟨front, ?_⟩
  rw [← hfront, hspans.rest_eq, ← append_assoc, trimEnd_append_word
    (ne_nil_of_mem_openers word hword) (isBlank_of_mem_openers word hword)
    (forall_of_not_exists hnone)]

/-- What stops a run is not passed over by a piece of it. -/
theorem StopsIn.of_spans {p : Char → Bool} {piece : List Char} (h : StopsIn masked p here)
    (hspans : here.Spans piece next) (hpiece : ∀ c ∈ piece, p c) : StopsIn masked p next := by
  obtain ⟨hsuffix, c, hmem, hc⟩ := h
  refine ⟨(Cursor.Reaches.suffix ⟨piece, hspans⟩).trans hsuffix, c, ?_, hc⟩
  rw [hspans.rest_eq] at hmem
  rcases mem_append.1 hmem with hmem | hmem
  · simp [hpiece c hmem] at hc
  · exact hmem

theorem StopsIn.skip {p : Char → Bool} (h : StopsIn masked p here) :
    StopsIn masked p (here.skip p) :=
  h.of_spans (Cursor.skip_runs p here).toSpans (Cursor.skip_runs p here).all

/-- Something follows a name that ends with the word `from`. -/
theorem stops_of_from (hsettled : Settled masked) (hsuffix : here.rest <:+ masked)
    {shortened : List Char} (hname : here.run isIdent = shortened ++ "from".toList) :
    StopsIn masked isBlank (here.skip isIdent) := by
  have hruns := Cursor.skip_runs isIdent here
  refine ⟨Cursor.reaches_skip.suffix.trans hsuffix, ?_⟩
  by_contra hnone
  obtain ⟨front, hfront⟩ := hsuffix
  refine hsettled.words "from" (by decide) ⟨front ++ shortened, ?_⟩
  rw [← hfront, hruns.rest_eq, hname, ← append_assoc, ← append_assoc,
    trimEnd_append_word (by decide) (isBlank_of_mem_openers "from" (by decide))
      (forall_of_not_exists hnone)]

/-- A list of exports that is opened goes on to a brace. -/
theorem Settled.exists_brace (hsettled : Settled masked) (h : Inside masked here)
    {qualifier inside : Cursor} (hword : spacedWord? "export" here = some qualifier)
    (hopen : (typeWord qualifier).2.expect? "\x7b" = some inside) :
    ∃ c ∈ inside.rest, (c != '{' && c != '}') = false := by
  have hshift : here = Cursor.shift here.offset ⟨0, here.rest⟩ := by simp [Cursor.shift]
  have hmove : spacedWord? "export" (Cursor.shift here.offset ⟨0, here.rest⟩) = _ :=
    (Carrier.shift here.offset).spacedWord?_move trivial (by decide)
  obtain ⟨first, hfirst, rfl⟩ := Option.map_eq_some_iff.1 (hmove.symm.trans (hshift ▸ hword))
  rw [(Carrier.shift here.offset).typeWord_move trivial] at hopen
  obtain ⟨found, hfound, rfl⟩ := Option.map_eq_some_iff.1
    ((Cursor.expect?_shift "\x7b").symm.trans hopen)
  obtain ⟨c, hmem, hc⟩ := hsettled.lists _ ((mem_tails _ _).2 h.suffix) first hfirst found hfound
  refine ⟨c, hmem, ?_⟩
  rcases hc with rfl | rfl <;> rfl

/-- The word `from` is looked for beyond blanks, and does not begin a fresh text. -/
theorem expect?_from_extend (hsettled : Settled masked) (hfresh : Fresh more)
    (h : Inside masked here) : ((here.extend more).skip isBlank).expect? "from" =
      ((here.skip isBlank).expect? "from").map (Cursor.extend more) := by
  by_cases hbusy : ∃ c ∈ here.rest, isBlank c = false
  · rw [Cursor.skip_extend hbusy]
    exact Cursor.expect?_extend ((StopsIn.skip ⟨h.suffix, hbusy⟩).inside.line hsettled) (by decide)
  · -- nothing but blanks follows up to the end, and `from` does not come after it
    have hblank := forall_of_not_exists hbusy
    have hmore : ((here.extend more).skip isBlank).rest = trimStart more := by
      simp only [Cursor.skip, Cursor.advance, Cursor.run, Cursor.drop_length_takeWhile,
        Cursor.extend]
      exact dropWhile_append_of_pos hblank
    have hend : (here.skip isBlank).rest = [] := by
      simp only [Cursor.skip, Cursor.advance, Cursor.run, Cursor.drop_length_takeWhile]
      exact dropWhile_eq_nil_iff.2 hblank
    rw [Cursor.expect?_eq_none_iff.2 (by rw [hmore]; exact hfresh.word),
      Cursor.expect?_eq_none_iff.2 (by rw [hend]; decide)]
    rfl

/-- The carrier into a text that goes on after a settled one. -/
def Settled.carrier (hsettled : Settled masked) (hfresh : Fresh more) : Carrier where
  move := Cursor.extend more
  far := 0
  Inside := Inside masked
  Stops := StopsIn masked
  offset_move _ := rfl
  head_move {here} h := by
    obtain ⟨c, rest, hrest⟩ := exists_cons_of_ne_nil h.ne
    simp [Cursor.extend, hrest]
  nil_move h hnil := absurd hnil h.inside.ne
  advance_move hk := Cursor.advance_extend hk
  run_move h := Cursor.run_extend h.mem
  expect?_move h hword := Cursor.expect?_extend (h.line hsettled) hword
  from_move h := expect?_from_extend hsettled hfresh h
  inside_of_stops h := h.inside
  inside_of_reaches h hreach hne := ⟨hreach.suffix.trans h.suffix, hne⟩
  inside_of_spans h hspans hpiece := h.of_spans hsettled hspans hpiece
  stops_of_inside h hp := ⟨h.suffix, '\n', h.line hsettled, hp⟩
  stops_mono {p q here} h hq := by
    obtain ⟨c, hmem, hc⟩ := h.mem
    refine ⟨h.suffix, c, hmem, Bool.eq_false_iff.2 fun hqc => ?_⟩
    simp [hq c hqc] at hc
  stops_of_spans h hspans hpiece := h.of_spans hspans hpiece
  stops_of_expect? h hword hexpect := stops_of_expect? hsettled h hword hexpect
  stops_of_from h hname := stops_of_from hsettled h.suffix hname
  stops_of_brace h hword hopen := by
    have hreach := (reaches_of_spacedWord? hword).trans reaches_typeWord
    exact ⟨(hreach.trans (Cursor.reaches_of_expect? hopen)).suffix.trans h.suffix,
      hsettled.exists_brace h hword hopen⟩

/-! ## Scans of texts that are put together -/

section Scan

variable {α : Type} {admits : Option Char → Bool} {recognise : Cursor → Option (α × Cursor)}

/-- A scan goes on after a settled text as if nothing but its last character were known. -/
theorem scanFrom_append (hlocal : ∀ here, Inside masked here → recognise (here.extend more) =
      (recognise here).map fun (a, next) => (a, next.extend more))
    (hreach : ∀ {here a next}, recognise here = some (a, next) → here.Reaches next)
    {previous : Option Char} {offset : Nat} {rest : List Char} (hrest : rest <:+ masked) :
    scanFrom admits recognise previous offset (rest ++ more) =
      scanFrom admits recognise previous offset rest ++
        scanFrom admits recognise (rest.getLast?.or previous) (offset + rest.length) more := by
  have htry : ∀ previous offset c cs, c :: cs <:+ masked →
      (if admits previous then recognise ⟨offset, c :: (cs ++ more)⟩ else none) =
        (if admits previous then recognise ⟨offset, c :: cs⟩ else none).map
          fun (a, next) => (a, next.extend more) := by
    intro previous offset c cs hrest
    split
    · exact hlocal ⟨offset, c :: cs⟩ ⟨hrest, by simp⟩
    · rfl
  fun_induction scanFrom admits recognise previous offset rest with
  | case1 previous offset => simp
  | case2 previous offset c cs hnone ih =>
    rw [dite_eq_ite] at hnone
    rw [cons_append, scanFrom, htry _ _ _ _ hrest, hnone]
    simp only [Option.map_none]
    rw [ih ((suffix_cons c cs).trans hrest), getLast?_cons_or, length_cons]
    congr 2
    omega
  | case3 previous offset c cs found next hfound skipped ih =>
    rw [dite_eq_ite] at hfound
    have hle := (hreach (Option.ite_none_right_eq_some.1 hfound).2).le
    simp only [length_cons] at hle
    have hskipped : skipped ≤ cs.length := by omega
    rw [cons_append, scanFrom, htry _ _ _ _ hrest, hfound]
    simp only [Option.map_some, Cursor.extend]
    rw [take_append_of_le_length hskipped, drop_append_of_le_length hskipped, cons_append]
    congr 1
    rw [ih ((drop_suffix _ _).trans ((suffix_cons c cs).trans hrest)),
      ← getLast?_or_cons_take c cs (cs.drop skipped) skipped previous, take_append_drop,
      length_drop, length_cons]
    congr 2
    omega

/-- What is found in a text that goes on after a settled one is what is found in the first part and
what is found in the rest. -/
theorem scan_append (hsettled : Settled masked) {f : Nat → α → α} (hzero : ∀ a, f 0 a = a)
    (hmove : ∀ here, Inside masked here → recognise (here.extend more) =
      (recognise here).map fun (a, next) => (f 0 a, next.extend more))
    (hreach : ∀ {here a next}, recognise here = some (a, next) → here.Reaches next)
    (hshift : ∀ here, recognise (here.shift masked.length) =
      (recognise here).map fun (a, next) => (f masked.length a, next.shift masked.length)) :
    scan standsFree recognise (masked ++ more) =
      scan standsFree recognise masked ++
        (scan standsFree recognise more).map (f masked.length) := by
  have hfree : standsFree (masked.getLast?.or none) = standsFree none := by
    rcases hsettled.line with rfl | hlast
    · rfl
    · rw [hlast]
      decide
  simp only [hzero] at hmove
  rw [scan, scanFrom_append hmove hreach (suffix_refl masked), scanFrom_congr hfree, Nat.zero_add]
  congr 1
  rw [scan, ← scanFrom_shift hshift, Nat.zero_add]

end Scan

end Deadwood.Module

import Deadwood.Module.Edit
import Deadwood.Proofs.Statements

/-!
# Edits bring in no names

An edit that takes an export out of a text joins what stood before and after a span, or writes a
list anew. In both cases a name that stands in the edited text stood in the text before (`Within`):
statements are cut where no name can go on, and the entries that are written were there. This holds
for each kind of edit but the removal of a declaration.
-/

set_option autoImplicit false

namespace Deadwood.Module

open Text Reference List

/-- Every name that stands in `edited` stands in `text`. -/
def Within (edited text : List Char) : Prop :=
  ∀ name, isName name = true → Stands name edited → Stands name text

theorem Within.refl (text : List Char) : Within text text := fun _ _ h => h

theorem Within.trans {a b c : List Char} (h : Within a b) (h' : Within b c) : Within a c :=
  fun name hname hstands => h' name hname (h name hname hstands)

/-! ## Joining two parts of a text -/

theorem isEdge_of_any {c : Option Char} (h : c.any isIdent = false) : isEdge c :=
  isEdge_of_not_isIdent ((Option.any_eq_false _ _).1 h)

variable {text back front edited : List Char} {kept : List Entry}

/-- What stands in the end of a text stands in the text, if the end does not begin with a part of a
name. -/
theorem within_of_back {before : List Char} (hback : text = before ++ back)
    (hnext : back.head?.any isIdent = false ∨ before.getLast?.any isIdent = false) :
    Within back text := by
  intro name hname h
  rcases hnext with hnext | hlast
  · cases back with
    | nil => exact absurd h (not_stands_nil (isName_iff.1 hname).1)
    | cons c back =>
      have hc : isIdent c = false := by simpa using hnext
      have hcut : Stands name ([] ++ c :: back) := h
      rcases hcut.split (not_mem_of_isName hname hc) with h | h
      · exact absurd h (not_stands_nil (isName_iff.1 hname).1)
      · have hwide : Stands name (before ++ [c] ++ back ++ []) :=
          h.widen (isEdge_of_any (by simpa using hc)) rfl
        rw [hback]
        simpa using hwide
  · have hwide : Stands name (before ++ back ++ []) := h.widen (isEdge_of_any hlast) rfl
    rw [hback]
    simpa using hwide

/-- A beginning and an end of a text bring in no names when they are put together, if the beginning
does not end with a name and the end does not begin with a part of one. -/
theorem within_of_cut {after before : List Char} (hfront : text = front ++ after)
    (hback : text = before ++ back) (hlast : front.getLast?.any isIdent = false)
    (hnext : back.head?.any isIdent = false ∨ before.getLast?.any isIdent = false) :
    Within (front ++ back) text := by
  intro name hname h
  cases front using reverseRecOn with
  | nil => exact within_of_back hback hnext name hname h
  | append_singleton front c =>
    -- the last character of the beginning divides the two sides
    have hc : isIdent c = false := by simpa using hlast
    rw [append_assoc, singleton_append] at h
    rcases h.split (not_mem_of_isName hname hc) with h | h
    · have hwide : Stands name ([] ++ front ++ c :: after) :=
        h.widen rfl (isEdge_of_any (by simpa using hc))
      rw [hfront]
      simpa using hwide
    · exact within_of_back hback hnext name hname h

/-! ## Places of the source -/

variable {source masked : List Char} {start stop : Nat}

/-- A place of a statement in the shape is one in the source: no name ends where the statement
begins, and no name goes on where it ends. -/
theorem Placed.source_cut (h : Placed masked start stop) (hmasks : Masks source masked) :
    stop ≤ source.length ∧ (source.take start).getLast?.any isIdent = false ∧
      ((source.drop stop).head?.any isIdent = false ∨
        (source.take stop).getLast?.any isIdent = false) := by
  obtain ⟨front, piece, rest, rfl, rfl, rfl, hfree, hlast, hne, hend⟩ := h.exists_split
  have hlength := hmasks.length_eq
  have hle : (front ++ "export".toList ++ piece).length ≤ source.length := by
    rw [hlength]
    exact (prefix_append _ rest).length_le
  have hident : ∀ d, isIdent d → isIdent d := fun d hd => hd
  refine ⟨hle, ?_, ?_⟩
  · have hcut : Masks (source.take front.length ++ source.drop front.length)
        (front ++ ("export".toList ++ piece ++ rest)) := by
      simpa only [take_append_drop, append_assoc] using hmasks
    have hfree' : front.getLast?.any isIdent = false := by
      rw [Option.any_eq_false]
      intro c hc
      rw [standsFree, hc] at hfree
      simp only [Option.all_some, Bool.not_eq_true', Bool.or_eq_false_iff] at hfree
      exact hfree.1
    have htake : (source.take front.length).length = front.length := by
      rw [length_take]
      simp only [length_append] at hle
      omega
    exact hcut.any_before htake hident (c := 'e') (by simp) (by decide) hfree'
  · generalize hm : front ++ "export".toList ++ piece = shown at *
    have hcut : Masks (source.take shown.length ++ source.drop shown.length) (shown ++ rest) := by
      simpa only [take_append_drop] using hmasks
    have htake : (source.take shown.length).length = shown.length := by
      rw [length_take]
      omega
    obtain ⟨left, right, htext, hleft, hright, -⟩ := hcut.cut
    obtain ⟨rfl, rfl⟩ := append_inj htext (htake.trans hleft.length_eq.symm)
    have hshown : shown.getLast? = piece.getLast? := by
      obtain ⟨c, cs, rfl⟩ := exists_cons_of_ne_nil hne
      rw [← hm, getLast?_append_cons]
    rcases hend with hspace | hspace
    · -- the last character of the statement is the same in the source
      right
      rw [Option.any_eq_false]
      intro c hc
      obtain ⟨d, hd, hzip⟩ := hleft.getLast?_zip hc
      have hd' : piece.getLast? = some d := hshown ▸ hd
      rcases hleft.same_or_space _ (mem_of_getLast? hzip) with heq | heq
      · simp only at heq
        subst heq
        exact (Option.any_eq_false _ _).1 hlast d hd'
      · exact absurd (hd'.trans (congrArg some heq)) hspace
    · -- a name that begins after the statement is one in the shape
      by_cases hany : (source.drop shown.length).head?.any isIdent = false
      · exact .inl hany
      · right
        rw [Bool.not_eq_false, Option.any_eq_true] at hany
        obtain ⟨c, hc, hcident⟩ := hany
        obtain ⟨d, hd, hzip⟩ := hright.head?_zip hc
        rcases hright.same_or_space _ (mem_of_head? hzip) with heq | heq
        · simp only at heq
          subst heq
          exact hcut.any_before htake hident hd hcident (hshown ▸ hlast)
        · exact absurd (hd.trans (congrArg some heq)) hspace

/-! ## The edits -/

/-- Dropping the first word of a declaration brings in no names. -/
theorem within_stripExport {declaration : Declaration}
    (h : Placed masked declaration.start declaration.qualifierStop)
    (hmasks : Masks source masked) : Within (stripExport source declaration) source := by
  obtain ⟨-, hlast, hnext⟩ := h.source_cut hmasks
  exact within_of_cut (take_append_drop _ _).symm (take_append_drop _ _).symm hlast hnext

/-- What stands before a position in its line. -/
def lineBefore (text : List Char) (position : Nat) : List Char :=
  ((text.take position).reverse.takeWhile (· != '\n')).reverse

/-- What stands after a position in its line. -/
def lineAfter (text : List Char) (position : Nat) : List Char :=
  (text.drop position).takeWhile (· != '\n')

/-- What goes before a removed span: all that stands there in its line, if that is blank. -/
def indentBefore (text : List Char) (start : Nat) : List Char :=
  if (lineBefore text start).all isBlank then lineBefore text start else []

/-- What goes after a removed span: all that stands there in its line, if that is spaces and tabs,
and the line end. -/
def marginAfter (text : List Char) (stop : Nat) : List Char :=
  if (lineAfter text stop).all isLineBlank then
    (text.drop stop).take ((lineAfter text stop).length + 1)
  else []

/-- What is left before a removed span is a beginning of the text before it; what goes besides are
blanks after a line break. -/
theorem headBefore_spec (source : List Char) (start : Nat) :
    source.take start = headBefore source start ++ indentBefore source start ∧
      (∀ c ∈ indentBefore source start, isBlank c ∧ c ≠ '\n') ∧
      (indentBefore source start = [] ∨ ∀ c ∈ (headBefore source start).getLast?, c = '\n') := by
  unfold headBefore indentBefore lineBefore
  simp only [all_reverse]
  split
  · rename_i hblank
    have hsplit := takeWhile_append_dropWhile (p := (· != '\n'))
      (l := (source.take start).reverse)
    have hinside : ∀ c ∈ (source.take start).reverse.takeWhile (· != '\n'), c ≠ '\n' := by
      intro c hc
      simpa using mem_takeWhile_imp hc
    generalize hindent : (source.take start).reverse.takeWhile (· != '\n') = indent at *
    generalize hrest : (source.take start).reverse.dropWhile (· != '\n') = rest at *
    have htake : source.take start = rest.reverse ++ indent.reverse := by
      rw [← reverse_reverse (source.take start), ← hsplit, reverse_append]
    have hhead : (source.take start).take ((source.take start).length - indent.length) =
        rest.reverse := by
      rw [htake]
      simp
    refine ⟨by rw [hhead]; exact htake, fun c hc => ?_, .inr ?_⟩
    · rw [mem_reverse] at hc
      exact ⟨all_eq_true.1 hblank c hc, hinside c hc⟩
    rw [hhead, getLast?_reverse]
    intro c hc
    have hstop := head?_dropWhile_not (· != '\n') (source.take start).reverse
    rw [hrest, hc] at hstop
    simpa using hstop
  · exact ⟨by simp, by simp, .inl rfl⟩

/-- What goes after a removed span, and what is left. -/
theorem tailAfter_cases (source : List Char) (stop : Nat) :
    (marginAfter source stop = source.drop stop ∧ tailAfter (source.drop stop) = [] ∧
      ∀ c ∈ source.drop stop, isLineBlank c) ∨
    (∃ blanks, marginAfter source stop = blanks ++ ['\n'] ∧
      source.drop stop = blanks ++ '\n' :: tailAfter (source.drop stop) ∧
      ∀ c ∈ blanks, isLineBlank c) ∨
    marginAfter source stop = [] ∧ tailAfter (source.drop stop) = source.drop stop := by
  unfold marginAfter lineAfter
  generalize source.drop stop = tail
  have hsplit := takeWhile_append_dropWhile (p := isLineBlank) (l := tail)
  have hblanks : ∀ c ∈ tail.takeWhile isLineBlank, isLineBlank c :=
    fun c hc => mem_takeWhile_imp hc
  have hinline : ∀ c ∈ tail.takeWhile isLineBlank, (c != '\n') = true := by
    intro c hc
    rw [bne_iff_ne]
    rintro rfl
    exact absurd (hblanks _ hc) (by decide)
  have hstop := head?_dropWhile_not isLineBlank tail
  generalize tail.takeWhile isLineBlank = blanks at *
  rcases hrest : tail.dropWhile isLineBlank with _ | ⟨c, rest⟩
  · rw [hrest, append_nil] at hsplit
    subst hsplit
    rw [takeWhile_eq_self_iff.2 hinline, if_pos (all_eq_true.2 hblanks),
      take_of_length_le (Nat.le_succ _)]
    exact .inl ⟨rfl, by simp [tailAfter, hrest], hblanks⟩
  rw [hrest] at hsplit hstop
  by_cases hc : c = '\n'
  · subst hc
    have hline : tail.takeWhile (· != '\n') = blanks := by
      rw [← hsplit, takeWhile_append_of_pos hinline, takeWhile_cons_of_neg (by simp), append_nil]
    have htail : tailAfter tail = rest := by simp [tailAfter, hrest]
    rw [hline, if_pos (all_eq_true.2 hblanks), htail, ← hsplit, append_cons, take_left' (by simp)]
    exact .inr (.inl ⟨blanks, rfl, by simp, hblanks⟩)
  · -- the first character that is no blank stands in the line
    have htail : tailAfter tail = tail := by simp [tailAfter, hrest, hc]
    rw [if_neg, htail]
    · exact .inr (.inr ⟨rfl, rfl⟩)
    · rw [← hsplit, takeWhile_append_of_pos hinline, takeWhile_cons_of_pos (by simpa using hc)]
      simpa using fun _ h => absurd h (by simpa using hstop)

/-- What is left after a removed span is an end of the text after it; what goes besides are blanks
and a line break after them. -/
theorem tailAfter_spec (source : List Char) (stop : Nat) :
    source.drop stop = marginAfter source stop ++ tailAfter (source.drop stop) ∧
      (∀ c ∈ marginAfter source stop, isBlank c) ∧ '\n' ∉ (marginAfter source stop).dropLast ∧
      (marginAfter source stop = [] ∨ tailAfter (source.drop stop) = [] ∨
        (marginAfter source stop).getLast? = some '\n') := by
  rcases tailAfter_cases source stop with
    ⟨hmargin, htail, hall⟩ | ⟨blanks, hmargin, hdrop, hblanks⟩ | ⟨hmargin, htail⟩
  · refine ⟨by rw [hmargin, htail, append_nil], ?_, fun hc => ?_, .inr (.inl htail)⟩
    · exact fun c hc => isBlank_of_isLineBlank (hall c (hmargin ▸ hc))
    · exact absurd (hall _ (hmargin ▸ mem_of_mem_dropLast hc)) (by decide)
  · rw [hmargin]
    refine ⟨by rw [← append_cons, ← hdrop], fun c hc => ?_, ?_, .inr (.inr (by simp))⟩
    · rcases mem_append.1 hc with hc | hc
      · exact isBlank_of_isLineBlank (hblanks c hc)
      · rw [mem_singleton.1 hc]
        decide
    · rw [dropLast_concat]
      exact fun hc => absurd (hblanks _ hc) (by decide)
  · rw [hmargin, htail]
    exact ⟨rfl, by simp, by simp, .inl rfl⟩

/-- Removing a statement brings in no names. -/
theorem within_removeSpan (h : Placed masked start stop) (hmasks : Masks source masked) :
    Within (removeSpan source start stop) source := by
  obtain ⟨-, hlast, hnext⟩ := h.source_cut hmasks
  obtain ⟨hindent, -, hline⟩ := headBefore_spec source start
  obtain ⟨hfront, -, -, hbreak⟩ := tailAfter_spec source stop
  generalize indentBefore source start = indent at *
  generalize marginAfter source stop = front at *
  have hsource : source = headBefore source start ++ (indent ++ source.drop start) := by
    rw [← append_assoc, ← hindent, take_append_drop]
  have hsource' : source = (source.take stop ++ front) ++ tailAfter (source.drop stop) := by
    rw [append_assoc, ← hfront, take_append_drop]
  refine within_of_cut hsource hsource' ?_ ?_
  · rcases hline with rfl | hline
    · rwa [← append_nil (headBefore source start), ← hindent]
    · rw [Option.any_eq_false]
      intro c hc
      rw [hline c hc]
      decide
  · rcases hbreak with rfl | hnil | hbreak
    · rw [nil_append] at hfront
      rw [append_nil, ← hfront]
      exact hnext
    · left
      rw [hnil]
      rfl
    · right
      rw [getLast?_append, hbreak, Option.some_or, Option.any_some]
      decide

/-- The inside of a list that is written with the given entries. -/
def written (kept : List Entry) : List Char :=
  ' ' :: ([',', ' '].intercalate (kept.map (·.text.toList)) ++ [' '])

/-- A list is written between the first braces after `start`, if they are closed before `stop`. -/
theorem writeEntries?_iff : writeEntries? source start stop kept = some edited ↔
    ∃ before inside back, source.drop start = before ++ '{' :: (inside ++ '}' :: back) ∧
      '{' ∉ before ∧ '}' ∉ inside ∧ start + (before.length + (inside.length + 2)) ≤ stop ∧
      edited = source.take start ++ (before ++ '{' :: (written kept ++ '}' :: back)) := by
  simp only [writeEntries?, bind, Option.bind_eq_some_iff, Prod.exists, pure, Option.some.injEq,
    cutAt_char_iff, drop_take]
  constructor
  · rintro ⟨before, _, ⟨hopen, hbefore⟩, inside, after, ⟨rfl, hinside⟩, rfl⟩
    have hlength := congrArg length hopen
    simp only [length_take, length_append, length_cons] at hlength
    refine ⟨before, inside, after ++ source.drop stop, ?_, hbefore, hinside, by omega,
      by simp [written]⟩
    rw [← take_append_drop (stop - start) (source.drop start), hopen, drop_drop,
      Nat.add_sub_cancel' (by omega)]
    simp
  · rintro ⟨before, inside, back, hdrop, hbefore, hinside, hstop, rfl⟩
    obtain ⟨k, rfl⟩ := Nat.exists_eq_add_of_le hstop
    have hpiece : before ++ '{' :: (inside ++ '}' :: back) =
        (before ++ '{' :: (inside ++ ['}'])) ++ back := by simp
    have hlength : (before ++ '{' :: (inside ++ ['}'])).length =
        before.length + (inside.length + 2) := by simp
    refine ⟨before, inside ++ '}' :: back.take k, ⟨?_, hbefore⟩, inside, back.take k,
      ⟨rfl, hinside⟩, ?_⟩
    · rw [Nat.add_assoc, Nat.add_sub_cancel_left, hdrop, hpiece, ← hlength, take_length_add_append]
      simp
    · rw [Nat.add_assoc, ← drop_drop, hdrop, hpiece, ← hlength, drop_length_add_append]
      simp [written]

/-- Writing a list anew keeps what stands around the braces, which are those of the statement. -/
theorem writeEntries?_spec (h : writeEntries? source start stop kept = some edited) :
    ∃ front inside back, source = front ++ '{' :: (inside ++ '}' :: back) ∧
      edited = front ++ '{' :: (written kept ++ '}' :: back) ∧
      start ≤ front.length ∧ front.length + inside.length + 2 ≤ stop := by
  obtain ⟨before, inside, back, hdrop, -, -, hstop, rfl⟩ := writeEntries?_iff.1 h
  have hlength := congrArg length hdrop
  simp only [length_drop, length_append, length_cons] at hlength
  refine ⟨source.take start ++ before, inside, back, ?_, by simp, ?_⟩
  · rw [append_assoc, ← hdrop, take_append_drop]
  · rw [length_append, length_take]
    omega

/-- A name that stands in what is written stands in an entry. -/
theorem exists_of_stands_written {name : List Char} (hname : isName name)
    (h : Stands name (written kept)) : ∃ entry ∈ kept, Stands name entry.text.toList := by
  have hne := (isName_iff.1 hname).1
  have hskip : ∀ {c}, isIdent c = false → c ∉ name := fun hc => not_mem_of_isName hname hc
  have hlist :
      Stands name ([' '] ++ ([',', ' '].intercalate (kept.map (·.text.toList)) ++ [' '])) :=
    h
  rcases (hlist.of_append hne (by simpa using hskip (by decide))).split (hskip (by decide))
    with h | h
  · obtain ⟨text, htext, hstands⟩ := h.of_intercalate hne (by simp) (by
      intro c hc
      simp only [mem_cons, not_mem_nil, or_false] at hc
      rcases hc with rfl | rfl <;> exact hskip (by decide))
    obtain ⟨entry, hentry, rfl⟩ := mem_map.1 htext
    exact ⟨entry, hentry, hstands⟩
  · exact absurd h (not_stands_nil hne)

/-- A list with other entries brings in no names if the entries do not. -/
theorem within_written {inside : List Char}
    (hkept : ∀ entry ∈ kept, Within entry.text.toList (front ++ '{' :: (inside ++ '}' :: back))) :
    Within (front ++ '{' :: (written kept ++ '}' :: back))
      (front ++ '{' :: (inside ++ '}' :: back)) := by
  intro name hname h
  have hskip : ∀ {c}, isIdent c = false → c ∉ name := fun hc => not_mem_of_isName hname hc
  -- the braces divide the text
  rcases h.split (hskip (by decide)) with h | h
  · have hwide : Stands name ([] ++ front ++ '{' :: (inside ++ '}' :: back)) :=
      h.widen rfl rfl
    simpa using hwide
  rcases h.split (hskip (by decide)) with h | h
  · obtain ⟨entry, hentry, hstands⟩ := exists_of_stands_written hname h
    exact hkept entry hentry name hname hstands
  · have hplace :
        front ++ '{' :: (inside ++ '}' :: back) = (front ++ '{' :: inside ++ ['}']) ++ back :=
      by simp
    refine within_of_back hplace (.inr ?_) name hname h
    rw [getLast?_concat, Option.any_some]
    decide

/-- Writing a list anew brings in no names if its entries do not. -/
theorem within_writeEntries (hkept : ∀ entry ∈ kept, Within entry.text.toList source)
    (h : writeEntries? source start stop kept = some edited) : Within edited source := by
  obtain ⟨front, inside, back, rfl, rfl, -⟩ := writeEntries?_spec h
  exact within_written hkept

end Deadwood.Module

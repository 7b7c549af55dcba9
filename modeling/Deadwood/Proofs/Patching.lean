import Deadwood.Proofs.Archiving
import Deadwood.Proofs.Encoding
import Deadwood.Proofs.Keeping
import Deadwood.Proofs.Storing
import Deadwood.Proofs.Unexporting

/-!
# What a run leaves of a file

Every edit of a run changes a text at one place only (`Patch`): it drops the first word of a
declaration, writes the inside of a list anew, or removes a statement with the blanks around it
(`Edits`). So a file that a run has written is the file as it was read, changed at one such place
for each name that was taken out of it, and every line in which no such place lies is still there
(`run_patches_statements`). What is read is not always what the file holds: all line ends are turned
into line feeds, and that is how they are written back (`line_ends_are_replaced`).
-/

set_option autoImplicit false

namespace Deadwood

open Text List

/-! ## Patches -/

/-- A change of a text at one place: what stands from `start` up to `stop` makes way for `put`. -/
structure Patch where
  start : Nat
  stop : Nat
  put : List Char
  deriving DecidableEq, Repr

/-- What stands in a text from `start` up to `stop`. -/
def Text.between (text : List Char) (start stop : Nat) : List Char := (text.take stop).drop start

namespace Patch

variable {patch : Patch} {text front piece back : List Char} {start stop : Nat}

/-- The text with the change. -/
def apply (patch : Patch) (text : List Char) : List Char :=
  text.take patch.start ++ patch.put ++ text.drop patch.stop

/-- The place of the change lies in the text. -/
structure Fits (patch : Patch) (text : List Char) : Prop where
  start_le : patch.start ≤ patch.stop
  stop_le : patch.stop ≤ text.length

/-- Where a piece of a text that begins at `start` comes to stand, if the change does not touch
it. -/
def shift? (patch : Patch) (length start : Nat) : Option Nat :=
  if start + length ≤ patch.start then some start
  else if patch.stop ≤ start then some (patch.start + patch.put.length + (start - patch.stop))
  else none

/-- A piece that a change does not touch stands in the changed text. -/
theorem Fits.keeps (h : patch.Fits text) (htext : text = front ++ piece ++ back) {position : Nat}
    (hshift : patch.shift? piece.length front.length = some position) :
    ∃ front' back', patch.apply text = front' ++ piece ++ back' ∧ front'.length = position := by
  have hstart := h.start_le
  have hstop := h.stop_le
  rw [shift?] at hshift
  split at hshift
  · rename_i hbefore
    cases hshift
    refine ⟨front, back.take (patch.start - (front ++ piece).length) ++ patch.put ++
      text.drop patch.stop, ?_, rfl⟩
    rw [← length_append] at hbefore
    rw [apply, htext, take_append, take_of_length_le hbefore]
    simp only [append_assoc]
  · split at hshift
    · rename_i hafter
      cases hshift
      refine ⟨text.take patch.start ++ patch.put ++ front.drop patch.stop, back, ?_, ?_⟩
      · have hdrop : text.drop patch.stop = front.drop patch.stop ++ (piece ++ back) := by
          rw [htext, append_assoc, drop_append_of_le_length hafter]
        rw [apply, hdrop]
        simp only [append_assoc]
      · simp only [length_append, length_take, length_drop]
        omega
    · cases hshift

/-- Where a piece of a text comes to stand after changes one after the other, if none of them
touches it. -/
def landing? (patches : List Patch) (length start : Nat) : Option Nat :=
  patches.foldlM (fun position patch => patch.shift? length position) start

theorem landing?_concat (patches : List Patch) (patch : Patch) (length start : Nat) :
    landing? (patches ++ [patch]) length start =
      (landing? patches length start).bind (patch.shift? length) := by
  simp only [landing?, foldlM_append, foldlM_cons, foldlM_nil, bind_pure]
  rfl

/-- The change removes what stands from `start` up to `stop`, with blanks before it in its first
line and with blanks after it up to a line end. -/
structure Removes (patch : Patch) (text : List Char) (start stop : Nat) : Prop where
  put_eq : patch.put = []
  start_le : patch.start ≤ start
  le_stop : stop ≤ patch.stop
  before : ∀ c ∈ between text patch.start start, isBlank c = true ∧ c ≠ '\n'
  after : ∀ c ∈ between text stop patch.stop, isBlank c = true
  lineEnd : '\n' ∉ (between text stop patch.stop).dropLast

/-- The change writes anew what stands between two braces of the statement from `start` up to
`stop`. -/
structure Refills (patch : Patch) (text : List Char) (start stop : Nat) : Prop where
  start_lt : start < patch.start
  lt_stop : patch.stop < stop
  opened : text[patch.start - 1]? = some '{'
  closed : text[patch.stop]? = some '}'

end Patch

/-- The text of a file is that of its bytes, with other line ends. -/
theorem Disk.readText_eq_ok {disk : Disk} {path : Path} {read : List Char} (hpath : path.IsResolved)
    (h : disk.readText path = .ok read) :
    ∃ text, disk.at? path.parts = some (.file (Utf8.encode text)) ∧ unifyLineEnds text = read := by
  unfold readText at h
  split at h
  · cases h
  · rename_i bytes hbytes
    split at h
    · cases h
    · rename_i text htext
      obtain ⟨-, hat⟩ := Disk.read_eq_ok hpath hbytes
      rw [Utf8.decode_eq_ok_iff.1 htext] at hat
      exact ⟨text, hat, Except.ok.inj h⟩

namespace Module

variable {text edited : List Char} {start stop : Nat}

/-- A documentation comment stands from `first` up to `start`, with blanks after it. -/
def Documents (text : List Char) (first start : Nat) : Prop :=
  ∃ comment blanks, between text first start = comment ++ blanks ∧
    ['/', '*', '*'] <+: comment ∧ ['*', '/'] <:+ comment ∧ ∀ c ∈ blanks, isBlank c = true

/-! ## Edits are patches -/

/-- Removing a statement is a change at one place. -/
theorem exists_removes (hle : start ≤ stop) (h : removeStatement text start stop = .ok edited) :
    ∃ patch : Patch, patch.Removes text start stop ∧ patch.Fits text ∧
      edited = patch.apply text ∧ between text patch.start start = indentBefore text start ∧
      between text stop patch.stop = marginAfter text stop := by
  unfold removeStatement at h
  split at h
  · cases h
  rename_i hstop
  cases h
  obtain ⟨hhead, hindent, -⟩ := headBefore_spec text start
  obtain ⟨htail, hblanks, hline, -⟩ := tailAfter_spec text stop
  generalize indentBefore text start = indent at *
  generalize marginAfter text stop = blanks at *
  have hstart := congrArg length hhead
  have hend := congrArg length htail
  simp only [length_take, length_drop, length_append] at hstart hend
  have hbefore : between text (headBefore text start).length start = indent := by
    rw [between, hhead, drop_left]
  have hlast : text.drop (stop + blanks.length) = tailAfter (text.drop stop) := by
    rw [← drop_drop]
    nth_rewrite 1 [htail]
    rw [drop_left]
  have hafter : between text stop (stop + blanks.length) = blanks := by
    rw [between, drop_take, Nat.add_sub_cancel_left]
    nth_rewrite 1 [htail]
    rw [take_left]
  refine ⟨⟨(headBefore text start).length, stop + blanks.length, []⟩, ⟨rfl, ?_, ?_, ?_, ?_, ?_⟩,
    ⟨?_, ?_⟩, ?_, hbefore, hafter⟩
  · show (headBefore text start).length ≤ start
    omega
  · exact Nat.le_add_right stop blanks.length
  · rwa [hbefore]
  · rwa [hafter]
  · rwa [hafter]
  · show (headBefore text start).length ≤ stop + blanks.length
    omega
  · show stop + blanks.length ≤ text.length
    omega
  · have htake : text.take (headBefore text start).length = headBefore text start := by
      have hprefix : headBefore text start <+: text :=
        (prefix_append _ indent).trans (hhead ▸ take_prefix start text)
      exact (prefix_iff_eq_take.1 hprefix).symm
    rw [Patch.apply, htake, hlast, append_nil, removeSpan]

/-- Removing a span takes out one piece of the text around it. Besides the span only blanks go, with
one line end at most, which follows the span. Each side goes by its own line: what stands before the
span in its first line goes if it is blank, and what stands after it in its last line goes with the
line end if it is spaces and tabs. -/
theorem removeStatement_cuts (hle : start ≤ stop) (hstop : stop ≤ text.length) :
    ∃ patch : Patch, removeStatement text start stop = .ok (patch.apply text) ∧
      patch.Removes text start stop ∧ patch.Fits text ∧
      between text patch.start start = indentBefore text start ∧
      between text stop patch.stop = marginAfter text stop := by
  have hok : removeStatement text start stop = .ok (removeSpan text start stop) :=
    if_neg (Nat.not_lt.2 hstop)
  obtain ⟨patch, hremoves, hfits, heq, hbefore, hafter⟩ := exists_removes hle hok
  exact ⟨patch, heq ▸ hok, hremoves, hfits, hbefore, hafter⟩

theorem removeStatement_cuts_lines : ∃ patch : Patch,
    removeStatement "a;\n  x(\n); \nb".toList 5 10 = .ok (patch.apply "a;\n  x(\n); \nb".toList) ∧
      between "a;\n  x(\n); \nb".toList patch.start 5 = "  ".toList ∧
      between "a;\n  x(\n); \nb".toList 10 patch.stop = " \n".toList := by
  obtain ⟨patch, hremove, -, -, hbefore, hafter⟩ :=
    @removeStatement_cuts "a;\n  x(\n); \nb".toList 5 10 (by decide) (by decide)
  exact ⟨patch, hremove, hbefore.trans (by decide), hafter.trans (by decide)⟩

/-- A line end goes although other text stands before the span, and an indentation goes although
other text stands after it. -/
theorem shared_lines_are_cut : (removeStatement "a; x;\nb".toList 3 5 = .ok "a; b".toList ∧
      (lineBefore "a; x;\nb".toList 3).all isBlank = false) ∧
    removeStatement "  x; b".toList 2 4 = .ok " b".toList ∧
      (lineAfter "  x; b".toList 4).all isBlank = false := by
  decide

/-- Writing a list anew is a change at one place. -/
theorem exists_refills {kept : List Entry} (hstop : stop ≤ text.length)
    (h : writeEntries? text start stop kept = some edited) :
    ∃ patch : Patch, patch.Refills text start stop ∧ patch.put = written kept ∧
      patch.Fits text ∧ edited = patch.apply text := by
  obtain ⟨front, inside, back, htext, rfl, hfront, hinside⟩ := writeEntries?_spec h
  have hsplit : text = (front ++ ['{']) ++ (inside ++ '}' :: back) := by rw [htext]; simp
  have hsplit' : text = (front ++ ['{'] ++ inside) ++ '}' :: back := by rw [htext]; simp
  have hopen : (front ++ ['{']).length = front.length + 1 := by simp
  have hclose : (front ++ ['{'] ++ inside).length = front.length + 1 + inside.length := by
    rw [length_append, hopen]
  refine ⟨⟨front.length + 1, front.length + 1 + inside.length, written kept⟩,
    ⟨?_, ?_, ?_, ?_⟩, rfl, ⟨?_, ?_⟩, ?_⟩
  · show start < front.length + 1
    omega
  · show front.length + 1 + inside.length < stop
    omega
  · show text[front.length + 1 - 1]? = some '{'
    rw [Nat.add_sub_cancel, htext, getElem?_append_right (Nat.le_refl _), Nat.sub_self]
    rfl
  · show text[front.length + 1 + inside.length]? = some '}'
    rw [← hclose, hsplit', getElem?_append_right (Nat.le_refl _), Nat.sub_self]
    rfl
  · exact Nat.le_add_right _ inside.length
  · show front.length + 1 + inside.length ≤ text.length
    omega
  · have htake : text.take (front.length + 1) = front ++ ['{'] := by
      rw [← hopen, hsplit, take_left]
    have hdrop : text.drop (front.length + 1 + inside.length) = '}' :: back := by
      rw [← hclose, hsplit', drop_left]
    rw [Patch.apply, htake, hdrop]
    simp

theorem parse_nil : parse [] = .ok {} := parse_eq_ok_iff.2 ⟨[], shape_nil, by decide +kernel⟩

theorem lastAt?_le {mark cs : List Char} {n : Nat} (h : lastAt? mark cs = some n) :
    n ≤ cs.length := by
  induction cs generalizing n with
  | nil =>
    rw [lastAt?] at h
    split at h
    · rw [← Option.some.inj h]
      exact Nat.zero_le _
    · cases h
  | cons c cs ih =>
    rw [lastAt?] at h
    split at h
    · rename_i m hm
      rw [← Option.some.inj h]
      exact Nat.succ_le_succ (ih hm)
    · split at h
      · rw [← Option.some.inj h]
        exact Nat.zero_le _
      · cases h

/-- The documentation of a declaration is a comment that ends right before it. -/
theorem documents_of_documentationStart? {first : Nat} (hstart : start ≤ text.length)
    (h : documentationStart? text start = some first) :
    first ≤ start ∧ Documents text first start := by
  simp only [documentationStart?] at h
  split at h
  · rename_i hend
    obtain ⟨hfirst, hopen⟩ := Option.filter_eq_some_iff.1 h
    have hle := lastAt?_le hfirst
    obtain ⟨blanks, htake, hblanks⟩ : ∃ blanks,
        text.take start = trimEnd (text.take start) ++ blanks ∧ ∀ c ∈ blanks, isBlank c := by
      refine ⟨((text.take start).reverse.takeWhile isBlank).reverse, ?_, fun c hc => ?_⟩
      · rw [trimEnd, ← reverse_append, takeWhile_append_dropWhile, reverse_reverse]
      · exact mem_takeWhile_imp (mem_reverse.1 hc)
    have hlength := congrArg length htake
    rw [length_append, length_take] at hlength
    have hopened : ['/', '*', '*'] <+: (trimEnd (text.take start)).drop first :=
      isPrefixOf_iff_prefix.1 hopen
    refine ⟨by omega, (trimEnd (text.take start)).drop first, blanks, ?_, hopened, ?_, hblanks⟩
    · rw [between]
      nth_rewrite 1 [htake]
      rw [drop_append_of_le_length hle]
    · -- the mark that opens the comment is long enough to hold the one that ends it
      exact suffix_of_suffix_length_le (isSuffixOf_iff_suffix.1 hend)
        (drop_suffix _ _) (Nat.le_trans (by decide) hopened.length_le)
  · cases h

end Module

namespace Trim

open Deadwood.Module Relative

/-! ## The edits of a run -/

/-- The ways in which a name is taken out of the exports of a text, as changes at one place. -/
inductive Edits (text : List Char) (m : Module) (name : String) : Patch → Prop
  /-- The first word of a declaration goes. -/
  | strip {declaration : Declaration} (mem : declaration ∈ m.declarations)
      (name_eq : declaration.name = name) (inside : declaration.qualifierStop ≤ declaration.stop) :
      Edits text m name ⟨declaration.start, declaration.qualifierStop, []⟩
  /-- A declaration goes, with its documentation. -/
  | delete {declaration : Declaration} {first : Nat} {patch : Patch}
      (mem : declaration ∈ m.declarations) (name_eq : declaration.name = name)
      (documented : first = declaration.start ∨ Documents text first declaration.start)
      (removes : patch.Removes text first declaration.stop) : Edits text m name patch
  /-- An entry goes from a list that has others. -/
  | relist {start stop : Nat} {list : List Module.Entry} {patch : Patch}
      (hasList : HasList m start stop list) (listed : lists name list = true)
      (refills : patch.Refills text start stop)
      (put_eq : patch.put = written (without name list)) : Edits text m name patch
  /-- A list goes with its last entry. -/
  | unlist {start stop : Nat} {list : List Module.Entry} {patch : Patch}
      (hasList : HasList m start stop list) (listed : lists name list = true)
      (alone : without name list = []) (removes : patch.Removes text start stop) :
      Edits text m name patch

section Edits

variable {text edited : List Char} {m : Module} {name : String} {action : Action}

theorem exists_edits_of_keepEntries {start stop : Nat} {list : List Module.Entry}
    (hasList : HasList m start stop list) (hparse : parse text = .ok m) (hlisted : lists name list)
    (h : keepEntries text start stop (without name list) = .ok edited) :
    ∃ patch, Edits text m name patch ∧ patch.Fits text ∧ edited = patch.apply text := by
  obtain ⟨hle, hstop⟩ := hasList.bounds hparse
  unfold keepEntries at h
  split at h
  · rename_i halone
    obtain ⟨patch, hremoves, hfits, heq, -⟩ := exists_removes hle.le h
    exact ⟨patch, .unlist hasList hlisted (isEmpty_iff.1 halone) hremoves, hfits, heq⟩
  · split at h
    · rename_i kept hwrite
      cases h
      obtain ⟨patch, hrefills, hput, hfits, heq⟩ := exists_refills hstop hwrite
      exact ⟨patch, .relist hasList hlisted hrefills hput, hfits, heq⟩
    · cases h

/-- Every edit that succeeds is a change at one place. -/
theorem exists_edits {mode : Mode} (hparse : parse text = .ok m)
    (h : edit mode text m name = .ok (edited, action)) :
    ∃ patch, Edits text m name patch ∧ patch.Fits text ∧ edited = patch.apply text := by
  have hspan : ∀ {declaration : Declaration}, declaration ∈ m.declarations →
      declaration.start < declaration.qualifierStop ∧
        declaration.qualifierStop ≤ declaration.stop ∧ declaration.stop ≤ text.length := by
    intro declaration hmem
    obtain ⟨masked, hshape, rfl⟩ := parse_eq_ok_iff.1 hparse
    rw [(masks_of_shape hshape).length_eq]
    exact span_of_mem_declarationsOf hmem
  obtain ⟨span, -, htakes⟩ := edit_spec h
  cases htakes with
  | list hlist hname haction hkeep => exact exists_edits_of_keepEntries hlist hparse hname hkeep
  | @strip declaration hmem hname =>
    obtain ⟨hstart, hinside, hstop⟩ := hspan hmem
    refine ⟨_, .strip hmem hname hinside, ⟨hstart.le, hinside.trans hstop⟩, ?_⟩
    rw [Patch.apply, append_nil, stripExport]
  | @delete declaration edited hmem hname hdelete =>
    obtain ⟨hstart, hinside, hstop⟩ := hspan hmem
    have hle : declaration.start ≤ declaration.stop := hstart.le.trans hinside
    obtain ⟨hfirst, hdocumented⟩ :
        (documentationStart? text declaration.start).getD declaration.start ≤ declaration.start ∧
          ((documentationStart? text declaration.start).getD declaration.start =
            declaration.start ∨ Documents text
              ((documentationStart? text declaration.start).getD declaration.start)
              declaration.start) := by
      cases hdoc : documentationStart? text declaration.start with
      | none => exact ⟨Nat.le_refl _, .inl rfl⟩
      | some first =>
        obtain ⟨hfirst, hdocuments⟩ := documents_of_documentationStart? (hle.trans hstop) hdoc
        exact ⟨hfirst, .inr hdocuments⟩
    obtain ⟨patch, hremoves, hfits, heq, -⟩ := exists_removes (hfirst.trans hle) hdelete
    exact ⟨patch, .delete hmem hname hdocumented hremoves, hfits, heq⟩

end Edits

/-- The text becomes `revised` by one edit after the other, each of the text as it is then. -/
inductive Revises (text : List Char) :
    (names : List String) → (patches : List Patch) → (revised : List Char) → Prop
  | nil : Revises text [] [] text
  | snoc {names : List String} {patches : List Patch} {revised : List Char} {m : Module}
      {name : String} {patch : Patch} (done : Revises text names patches revised)
      (parse_eq : parse revised = .ok m) (edits : Edits revised m name patch)
      (fits : patch.Fits revised) :
      Revises text (names ++ [name]) (patches ++ [patch]) (patch.apply revised)

/-- What no edit touches is kept, and it stands where the edits have moved it. -/
theorem Revises.keeps {text revised front piece back : List Char} {names : List String}
    {patches : List Patch} {position : Nat} (h : Revises text names patches revised)
    (htext : text = front ++ piece ++ back)
    (hlanding : Patch.landing? patches piece.length front.length = some position) :
    ∃ front' back', revised = front' ++ piece ++ back' ∧ front'.length = position := by
  induction h generalizing position with
  | nil => exact ⟨front, back, htext, Option.some.inj hlanding⟩
  | snoc hdone hparse hedits hfits ih =>
    rw [Patch.landing?_concat] at hlanding
    obtain ⟨between, hbetween, hshift⟩ := Option.bind_eq_some_iff.1 hlanding
    obtain ⟨front', back', hrevised, rfl⟩ := ih hbetween
    exact hfits.keeps hrevised hshift

/-! ## The texts of a run -/

/-- The names that have been taken out of a file. -/
def takenOut (entries : List (Entry String)) (file : String) : List String :=
  (entries.filter fun entry => entry.file = file ∧ entry.outcome = .applied).map Entry.name

theorem takenOut_append (entries more : List (Entry String)) (file : String) :
    takenOut (entries ++ more) file = takenOut entries file ++ takenOut more file := by
  rw [takenOut, filter_append, map_append]
  rfl

theorem takenOut_skipped {entries : List (Entry String)} (file : String)
    (h : ∀ entry ∈ entries, entry.outcome = .skipped) : takenOut entries file = [] := by
  rw [takenOut, filter_eq_nil_iff.2, map_nil]
  intro entry hentry
  simp [h entry hentry]

/-- Every text that a session has worked on is the text of its file, revised by one edit for each
name that has been taken out of it. -/
def Session.Accounts (disk : Disk) (root : Path) (entries : List (Entry String))
    (session : Session) : Prop :=
  ∀ file, (session.working.lookup file = none ∧ session.initial.lookup file = none ∧
      takenOut entries file = []) ∨
    ∃ text patches revised, disk.readText (root.child file) = .ok text ∧
      session.initial.lookup file = some text ∧ session.working.lookup file = some revised ∧
      Revises text (takenOut entries file) patches revised

section Accounts

variable {project : Project} {options : Options} {paths : Except Failure (List String)}
  {session next final : Session} {disk : Disk} {entries : List (Entry String)} {file : String}

theorem Session.Accounts.append_skipped {root : Path} {more : List (Entry String)}
    (h : session.Accounts disk root entries) (hmore : ∀ entry ∈ more, entry.outcome = .skipped) :
    session.Accounts disk root (entries ++ more) := by
  intro file
  rw [takenOut_append, takenOut_skipped file hmore, append_nil]
  exact h file

/-- Nothing can be taken out of a file that cannot be read, since it counts as empty. -/
theorem readText_of_edit {mode : Mode} {text edited : List Char} {m : Module} {name : String}
    {action : Action} (hworking : session.working.lookup file = none)
    (hread : session.read disk project.root file = .ok text) (hparse : parse text = .ok m)
    (hedit : edit mode text m name = .ok (edited, action)) :
    disk.readText (project.root.child file) = .ok text := by
  rw [Session.read, hworking] at hread
  simp only at hread
  split at hread
  · rename_i found hfound
    rw [hfound, Except.ok.inj hread]
  · cases hread
  · cases hread
    obtain rfl := Except.ok.inj (parse_nil.symm.trans hparse)
    cases hedit

/-- One step: a name that is taken out is one more edit of its file. -/
theorem Session.Accounts.trimName {name : String} {entry : Entry String}
    (h : session.Accounts disk project.root entries) (hwrite : options.write)
    (hstep : trimName project disk options paths file session name = .ok (entry, next)) :
    next.Accounts disk project.root (entries ++ [entry]) := by
  rcases trimName_cases hstep with ⟨hskipped, rfl⟩ |
    ⟨hfile, hname, houtcome, -, -, text, m, edited, action, hread, hparse, hedit, rfl⟩
  · exact h.append_skipped (by simpa using hskipped)
  rw [if_pos hwrite] at houtcome
  obtain ⟨patch, hedits, hfits, rfl⟩ := exists_edits hparse hedit
  intro other
  rw [takenOut_append]
  simp only [Keyed.lookup_put, Keyed.lookup_putNew]
  by_cases hother : other = file
  · subst hother
    have htaken : takenOut [entry] other = [name] := by
      simp [takenOut, hfile, houtcome, hname]
    rw [htaken, beq_self_eq_true, if_pos rfl]
    right
    rcases h other with ⟨hworking, hinitial, hnames⟩ |
      ⟨first, patches, revised, hfirst, hinitial, hworking, hrevises⟩
    · refine ⟨text, [patch], patch.apply text, ?_, ?_, rfl, ?_⟩
      · exact readText_of_edit hworking hread hparse hedit
      · rw [hinitial]
        rfl
      · rw [hnames]
        exact .snoc .nil hparse hedits hfits
    · obtain rfl : revised = text := by
        rw [Session.read, hworking] at hread
        exact Except.ok.inj hread
      refine ⟨first, patches ++ [patch], patch.apply revised, hfirst, ?_, rfl, ?_⟩
      · rw [hinitial]
        rfl
      · exact .snoc hrevises hparse hedits hfits
  · have htaken : takenOut [entry] other = [] := by
      simp [takenOut, hfile, Ne.symm hother]
    simp only [htaken, append_nil, beq_false_of_ne hother, Bool.false_eq_true, if_false,
      Option.or_none]
    exact h other

/-- A whole plan, from a session that has not begun. -/
theorem accounts_of_plan {name : String} {targets : List (Record String)} (hwrite : options.write)
    (h : plan project disk options { name } targets = .ok (entries, final)) :
    final.Accounts disk project.root entries :=
  plan_induction (fun done s => s.Accounts disk project.root done)
    Session.Accounts.append_skipped (fun _ _ hdone hstep => hdone.trimName hwrite hstep)
    (fun _ => .inl ⟨rfl, rfl, rfl⟩) h

end Accounts

/-! ## What is written -/

section Writing

variable {root : Path} {run name : String} {disk later : Disk} {files : List (String × List Char)}
  {project : Project} {options : Options} {session final : Session} {results : Results String}

/-- Without snapshots, too, files that are written hold their texts at the end. -/
theorem holds_of_flushFiles {results' : Results String} (hroot : root.IsResolved)
    (hbackup : options.backup = false) (hnodup : (files.map Prod.fst).Nodup)
    (hspells : ∀ pair ∈ files, ∃ names, Spells names pair.1)
    (h : (flushFiles root options session results files).run disk = (.ok results', later)) :
    results'.written = results.written ++ (session.changed files).map Prod.fst ∧
      (∀ pair ∈ session.changed files,
        later.at? (placeOf root pair.1) = some (.file (Utf8.encode pair.2))) ∧
      ∀ place, (∀ pair ∈ files, place ≠ placeOf root pair.1) →
        later.at? place = disk.at? place := by
  induction files generalizing results disk with
  | nil =>
    obtain ⟨hresults, rfl⟩ := Prod.mk.inj h
    cases hresults
    exact ⟨by simp [Session.changed], by simp [Session.changed], fun _ _ => rfl⟩
  | cons pair files ih =>
    obtain ⟨file, text⟩ := pair
    obtain ⟨⟨names, hnames⟩, hothers⟩ := forall_mem_cons.1 hspells
    rw [map_cons, nodup_cons] at hnodup
    rw [flushFiles] at h
    rw [Session.changed_cons]
    split at h
    · rename_i hsame
      rw [if_pos hsame]
      obtain ⟨hwritten, hholds, hframe⟩ := ih hnodup.2 hothers h
      exact ⟨hwritten, hholds, fun place hplace => hframe place (forall_mem_cons.1 hplace).2⟩
    · rename_i hdiffers
      rw [if_neg hdiffers]
      simp only [hbackup, Bool.false_eq_true, if_false] at h
      obtain ⟨backups, _, hpure, h⟩ := run_bind_eq_ok_iff.1 h
      cases hpure
      obtain ⟨_, written, hwrite, h⟩ := run_bind_eq_ok_iff.1 h
      obtain ⟨place, hlocate, hfree, rfl⟩ := Disk.write_eq_ok (run_change_eq_ok_iff.1 hwrite)
      obtain rfl := Disk.eq_parts_of_locate (isResolved_child hroot hnames) hlocate
      obtain ⟨hwritten, hholds, hframe⟩ := ih hnodup.2 hothers h
      have hapart : ∀ pair ∈ files, placeOf root file ≠ placeOf root pair.1 := by
        intro pair hpair hsame
        obtain ⟨others, hother⟩ := hothers pair hpair
        exact hnodup.1 (mem_map.2
          ⟨pair, hpair, (eq_of_placeOf hnames hother hsame).symm⟩)
      refine ⟨?_, forall_mem_cons.2 ⟨?_, hholds⟩, fun place hplace => ?_⟩
      · rw [hwritten, map_cons, append_assoc, singleton_append]
      · rw [hframe _ hapart, Disk.at?_put_of_free hfree]
        exact if_pos rfl
      · obtain ⟨hne, hplace⟩ := forall_mem_cons.1 hplace
        rw [hframe place hplace, Disk.at?_put_of_free hfree]
        exact if_neg hne

/-- Every file that a run has written holds the text that the session has for it. -/
theorem holds_of_run {now : Stamp} {report : Report String} (hroot : project.root.IsResolved)
    (hname : IsSegment name) (hreport : PlainTargets report) (hwrite : options.write)
    (hrun : (Trim.run project options { name } now report).run disk = (.ok results, later)) :
    ∃ final, plan project disk options { name } report.partlyUsed = .ok (results.entries, final) ∧
      ∀ file ∈ results.written, ∃ names text, Spells names file ∧
        final.working.lookup file = some text ∧
        later.at? (placeOf project.root file) = some (.file (Utf8.encode text)) := by
  obtain ⟨⟨entries, final⟩, middle, hlook, hfinish⟩ := run_bind_eq_ok_iff.1 hrun
  obtain ⟨hplan, rfl⟩ := Prod.mk.inj hlook
  simp only [finish, hwrite, if_true] at hfinish
  obtain rfl : results.entries = entries := flushFiles_entries hfinish
  have hstart : Session.Ready name { name } := ⟨rfl, nodup_nil, by simp⟩
  have hready : final.Ready name := hstart.plan hreport hplan
  refine ⟨final, hplan, ?_⟩
  have hwritable : ∀ pair ∈ final.working.mergeSort (fun a b => a.1 ≤ b.1),
      ∃ names, Writable names pair.1 := fun pair hpair =>
    hready.writable pair.1 (mem_map_of_mem (mem_mergeSort.1 hpair))
  have hspells : ∀ pair ∈ final.working.mergeSort (fun a b => a.1 ≤ b.1),
      ∃ names, Spells names pair.1 := fun pair hpair =>
    (hwritable pair hpair).imp fun _ hnames => hnames.toSpells
  have hwrote : results.written = final.pending.map Prod.fst ∧ ∀ pair ∈ final.pending,
      later.at? (placeOf project.root pair.1) = some (.file (Utf8.encode pair.2)) := by
    cases hbackup : options.backup with
    | true =>
      obtain ⟨hwrites, hwritten, -⟩ :=
        writes_of_flushFiles hroot (hready.name_eq ▸ hname) hbackup hspells hfinish
      refine ⟨hwritten.trans (nil_append _), hwrites.holds (hready.name_eq ▸ hname)
        (nodup_pending hready.nodup) fun pair hpair => ?_⟩
      exact hready.writable pair.1 (mem_keys_of_pending hready.nodup hpair)
    | false =>
      have hnodup : ((final.working.mergeSort fun a b => a.1 ≤ b.1).map Prod.fst).Nodup :=
        ((mergeSort_perm _ _).map Prod.fst).nodup_iff.2 hready.nodup
      obtain ⟨hwritten, hholds, -⟩ := holds_of_flushFiles hroot hbackup hnodup hspells hfinish
      exact ⟨hwritten.trans (nil_append _), hholds⟩
  intro file hfile
  rw [hwrote.1] at hfile
  obtain ⟨⟨_, text⟩, hpair, rfl⟩ := mem_map.1 hfile
  obtain ⟨names, hnames⟩ := hready.writable _ (mem_keys_of_pending hready.nodup hpair)
  exact ⟨names, text, hnames.toSpells, ((mem_pending_iff hready.nodup _ text).1 hpair).1,
    hwrote.2 _ hpair⟩

/-- A text has line feeds for line ends exactly if it has no carriage return. -/
theorem unifyLineEnds_eq_self_iff {text : List Char} : unifyLineEnds text = text ↔ '\r' ∉ text := by
  refine ⟨fun h hmem => ?_, Disk.unifyLineEnds_eq_self⟩
  exact Disk.return_notMem_unifyLineEnds text (h.symm ▸ hmem)

/-- A file that a run has written holds the text that it held before, in UTF-8 and with a line feed
for every line end, revised by one edit for each name that was taken out of it: each edit changes
one statement and the blanks around it, and what no edit touches is kept. So what is kept is kept
byte for byte exactly if the file has no carriage returns. -/
theorem run_patches_statements {now : Stamp} {report : Report String}
    (hroot : project.root.IsResolved) (hname : IsSegment name) (hreport : PlainTargets report)
    (hwrite : options.write = true)
    (hrun : (Trim.run project options { name } now report).run disk = (.ok results, later)) :
    ∀ file ∈ results.written, ∃ text patches revised,
      disk.at? (placeOf project.root file) = some (.file (Utf8.encode text)) ∧
      later.at? (placeOf project.root file) = some (.file (Utf8.encode revised)) ∧
      Revises (unifyLineEnds text) (takenOut results.entries file) patches revised ∧
      (∀ front piece back position, unifyLineEnds text = front ++ piece ++ back →
        Patch.landing? patches piece.length front.length = some position →
        ∃ front' back', revised = front' ++ piece ++ back' ∧ front'.length = position) ∧
      (unifyLineEnds text = text ↔ '\r' ∉ text) := by
  obtain ⟨final, hplan, hholds⟩ := holds_of_run hroot hname hreport hwrite hrun
  have haccounts := accounts_of_plan hwrite hplan
  intro file hfile
  obtain ⟨names, revised, hspells, hworking, hlater⟩ := hholds file hfile
  rcases haccounts file with ⟨hnone, -⟩ | ⟨read, patches, last, hread, -, hlast, hrevises⟩
  · rw [hworking] at hnone
    cases hnone
  obtain rfl := Option.some.inj (hworking.symm.trans hlast)
  obtain ⟨text, hbefore, rfl⟩ := Disk.readText_eq_ok (isResolved_child hroot hspells) hread
  exact ⟨text, patches, revised, hbefore, hlater, hrevises,
    fun front piece back position htext hlanding => hrevises.keeps htext hlanding,
    unifyLineEnds_eq_self_iff⟩

end Writing

theorem run_patches_statements_pair : ∃ results later text patches revised,
    trimPair { name := "one" } pairReport pairDisk = (.ok results, later) ∧
    results.written = ["pair.ts"] ∧
    pairDisk.at? (placeOf pairProject.root "pair.ts") = some (.file (Utf8.encode text)) ∧
    later.at? (placeOf pairProject.root "pair.ts") = some (.file (Utf8.encode revised)) ∧
    Revises (unifyLineEnds text) ["idle"] patches revised := by
  obtain ⟨results, hresults, hcheck⟩ := exists_ok_of_any
    (x := (trimPair { name := "one" } pairReport pairDisk).1)
    (p := fun results => decide (results.written = ["pair.ts"] ∧
      takenOut results.entries "pair.ts" = ["idle"])) (by decide +kernel)
  obtain ⟨hwritten, htaken⟩ := of_decide_eq_true hcheck
  have hrun : (Trim.run pairProject { write := true } { name := "one" } Analysis.smallNow
      pairReport).run pairDisk =
      (.ok results, (trimPair { name := "one" } pairReport pairDisk).2) :=
    Prod.ext hresults rfl
  have hroot : pairProject.root.IsResolved := by
    show Analysis.smallRoot.IsResolved
    exact ⟨rfl, by simp [Analysis.smallRoot]⟩
  obtain ⟨text, patches, revised, hbefore, hlater, hrevises, -⟩ :=
    run_patches_statements hroot ⟨by decide, by decide⟩ (plainTargets_pair (by decide)) (by rfl)
      hrun "pair.ts" (by simp [hwritten])
  rw [htaken] at hrevises
  exact ⟨results, _, text, patches, revised, hrun, hwritten, hbefore, hlater, hrevises⟩

/-- The disk with the same module, but with line ends of two characters. -/
def returnsDisk : Disk where
  nodes := [(["pair.ts"], .file (Utf8.encode
    "export const used = 1;\r\nexport const idle = 2;\r\n".toList))]

/-- A run that takes a name out of the second line writes the first line with another line end. -/
theorem line_ends_are_replaced : ∃ results later,
    trimPair { name := "one" } pairReport returnsDisk = (.ok results, later) ∧
    later.at? ["pair.ts"] = some (.file (Utf8.encode
      "export const used = 1;\nconst idle = 2;\n".toList)) := by
  obtain ⟨results, hresults, hcheck⟩ := exists_ok_of_any
    (x := (trimPair { name := "one" } pairReport returnsDisk).1)
    (p := fun _ => decide ((trimPair { name := "one" } pairReport returnsDisk).2.at? ["pair.ts"] =
      some (.file (Utf8.encode "export const used = 1;\nconst idle = 2;\n".toList))))
    (by decide +kernel)
  exact ⟨results, _, Prod.ext hresults rfl, of_decide_eq_true hcheck⟩

end Trim

end Deadwood

import Deadwood.Proofs.Reading
import Mathlib.Data.List.Nodup

/-!
# Sequences of statements

A sequence of imports and exports, written one on a line, is read as what it was written from
(`parse_render`), whatever names and specifiers stand in it. Each recogniser scans the whole text,
so for each of them it is shown what it finds on one line (`ReadsLines`); the scan then goes line by
line, because the words that begin a statement stand at the beginning of a line and nowhere else
(`Statement.eq_nil_of_word`). The imports are read in two scans and come back into the order of the
statements because no two of them share an offset (`importsOf_render`).
-/

set_option autoImplicit false

namespace Deadwood.Module

open Text Reference
open List hiding Cursor

/-! ## Texts in which no statement begins -/

/-- The words that begin a statement. -/
def keywords : List String := ["import", "export"]

/-- No word that begins a statement stands in the text. -/
def Still (cs : List Char) : Prop := ∀ word ∈ keywords, ¬ Stands word.toList cs

variable {word : String} {start : Nat} {statement : Statement} {statements : List Statement}

theorem isName_of_mem_keywords (h : word ∈ keywords) : isName word.toList := by
  simp only [keywords, mem_cons, not_mem_nil, or_false] at h
  rcases h with rfl | rfl <;> decide

theorem not_mem_keyword (h : word ∈ keywords) {c : Char} (hc : isToken c = false) :
    c ∉ word.toList := by
  intro hmem
  simp only [keywords, mem_cons, not_mem_nil, or_false] at h
  have htoken : isToken c := by
    rcases h with rfl | rfl <;> exact all_eq_true.1 (by decide) c hmem
  rw [hc] at htoken
  cases htoken

namespace Still

variable {cs cs' : List Char}

/-- A text without one of the letters that all the words share is still. -/
theorem of_not_mem {c : Char} (hc : ∀ word ∈ keywords, c ∈ word.toList) (h : c ∉ cs) : Still cs :=
  fun word hword hstands => h (mem_of_stands hstands (hc word hword))

/-- Still texts are put together where no token goes on from one to the other. -/
theorem append (h : Still cs) (h' : Still cs')
    (hedge : isEdge cs.getLast? ∨ isEdge cs'.head?) : Still (cs ++ cs') := by
  intro word hword hstands
  rcases hedge with hedge | hedge
  · rcases eq_nil_or_concat cs with rfl | ⟨front, c, rfl⟩
    · exact h' word hword hstands
    · rw [concat_eq_append] at *
      rw [getLast?_concat, isEdge_some, Bool.not_eq_true'] at hedge
      rw [append_assoc, singleton_append] at hstands
      rcases hstands.split (not_mem_keyword hword hedge) with hstands | hstands
      · have hwide : Stands word.toList ([] ++ front ++ [c]) :=
          hstands.widen rfl (by simpa using hedge)
        exact h word hword hwide
      · exact h' word hword hstands
  · cases cs' with
    | nil => exact h word hword (by simpa using hstands)
    | cons c back =>
      rw [head?_cons, isEdge_some, Bool.not_eq_true'] at hedge
      rcases hstands.split (not_mem_keyword hword hedge) with hstands | hstands
      · exact h word hword hstands
      · have hwide : Stands word.toList ([c] ++ back ++ []) :=
          hstands.widen (by simpa using hedge) rfl
        exact h' word hword (by simpa using hwide)

theorem intercalate {separator : List Char} {parts : List (List Char)} (hne : separator ≠ [])
    (hseparator : ∀ c ∈ separator, isToken c = false) (h : ∀ part ∈ parts, Still part) :
    Still (separator.intercalate parts) := by
  intro word hword hstands
  obtain ⟨part, hpart, hstands⟩ := hstands.of_intercalate
    (isName_iff.1 (isName_of_mem_keywords hword)).1 hne
    fun c hc => not_mem_keyword hword (hseparator c hc)
  exact h part hpart word hword hstands

end Still

theorem still_from : Still " from ".toList := .of_not_mem (c := 'p') (by decide) (by decide)

theorem still_starAs : Still "* as ".toList := .of_not_mem (c := 'p') (by decide) (by decide)

theorem still_typeMark (typeOnly : Bool) : Still (typeMark typeOnly) := by
  refine .of_not_mem (c := 'o') (by decide) ?_
  cases typeOnly <;> decide

theorem Name.still (name : Name) : Still name.chars := by
  intro word hword hstands
  obtain ⟨head, tail, hsplit, hhead, htail⟩ := stands_iff.1 hstands
  -- the whole name is one token
  have htoken : ∀ c ∈ name.chars, isEdge (some c) = false := fun c hc => by
    rw [isEdge_some, name.tokens c hc]
    rfl
  obtain rfl : head = [] := by
    rcases eq_nil_or_concat head with h | ⟨front, c, rfl⟩
    · exact h
    · rw [concat_eq_append] at hsplit hhead
      rw [getLast?_concat, htoken c (by simp [hsplit])] at hhead
      cases hhead
  obtain rfl : tail = [] := by
    cases tail with
    | nil => rfl
    | cons c tail =>
      rw [head?_cons, htoken c (by simp [hsplit])] at htail
      cases htail
  have hreserved : word ∈ ["import", "export", "type"] := mem_of_mem_take (i := 2) hword
  exact name.chars_ne hreserved (by simpa using hsplit)

theorem Item.still (item : Item) : Still item.chars := by
  have has : Still "as".toList := .of_not_mem (c := 'p') (by decide) (by decide)
  have hnames : ∀ word ∈ item.names, Still word := by
    obtain ⟨typeOnly, name, outer⟩ := item
    cases outer with
    | none => simpa [names] using name.still
    | some outer =>
      intro word hword
      simp only [names, Option.elim_some, mem_cons, not_mem_nil, or_false] at hword
      rcases hword with rfl | rfl | rfl
      · exact name.still
      · exact has
      · exact outer.still
  refine .intercalate (by simp) (by simp; decide) fun word hword => ?_
  split at hword
  · rcases mem_cons.1 hword with rfl | hword
    · exact .of_not_mem (c := 'o') (by decide) (by decide)
    · exact hnames word hword
  · exact hnames word hword

theorem still_braced (items : List Item) : Still (braced items) := by
  have hmark : ∀ c, c = '{' ∨ c = '}' ∨ c = ' ' → Still [c] := by
    rintro c (rfl | rfl | rfl) <;> exact .of_not_mem (c := 'p') (by decide) (by decide)
  have hinner : Still ([',', ' '].intercalate ((items.map Item.entry).map (·.text.toList))) := by
    refine .intercalate (by simp) (by simp; decide) fun text htext => ?_
    simp only [map_map, mem_map, Function.comp_apply] at htext
    obtain ⟨item, -, rfl⟩ := htext
    simpa [Item.entry] using item.still
  have hlist :
      Still ([' '] ++ ([',', ' '].intercalate ((items.map Item.entry).map (·.text.toList)) ++
      [' '])) :=
    (hmark _ (by simp)).append (hinner.append (hmark _ (by simp)) (.inr rfl)) (.inl rfl)
  exact (hmark '{' (by simp)).append (hlist.append (hmark '}' (by simp)) (.inr rfl)) (.inl rfl)

theorem Selection.still : ∀ selection : Selection, Still selection.chars
  | .whole name => still_starAs.append name.still (.inl rfl)
  | .listed first others => still_braced (first :: others)

theorem Binding.still : ∀ binding : Binding, Still binding.chars
  | .default name => name.still
  | .selected selection => selection.still
  | .both name selection =>
    have hcomma : Still ", ".toList := .of_not_mem (c := 'p') (by decide) (by decide)
    name.still.append (hcomma.append selection.still (.inl rfl)) (.inr rfl)

theorem isEdge_typeMark : ∀ typeOnly, isEdge (typeMark typeOnly).getLast?
  | true => rfl
  | false => rfl

namespace Statement

variable (statement : Statement)

theorem still_body : Still statement.body := by
  cases statement with
  | effect origin => exact .of_not_mem (c := 'p') (by decide) (by simp)
  | bind typeOnly binding origin =>
    exact (still_typeMark typeOnly).append (binding.still.append still_from (.inr rfl))
      (.inl (isEdge_typeMark typeOnly))
  | passAll origin => exact .of_not_mem (c := 'p') (by decide) (by simp)
  | passWhole name origin =>
    exact still_starAs.append (name.still.append still_from (.inr rfl)) (.inl rfl)
  | passList typeOnly items origin =>
    exact (still_typeMark typeOnly).append ((still_braced items).append still_from (.inr rfl))
      (.inl (isEdge_typeMark typeOnly))
  | list typeOnly items =>
    exact (still_typeMark typeOnly).append (still_braced items) (.inl (isEdge_typeMark typeOnly))

/-- The line of a statement after its first word and the space. -/
def tail : List Char := statement.body ++ (statement.origin?.elim [] Origin.shown ++ [';', '\n'])

theorem shown_eq : statement.shown = statement.keyword.toList ++ ' ' :: statement.tail := by
  simp [shown, words, tail]

theorem still_tail : Still statement.tail := by
  have hend : Still [';', '\n'] := .of_not_mem (c := 'p') (by decide) (by decide)
  cases horigin : statement.origin? with
  | none =>
    rw [tail, horigin]
    exact statement.still_body.append hend (.inr rfl)
  | some origin =>
    have hquote : origin.quote ≠ 'p' ∧ isToken origin.quote = false := by
      rcases origin.isQuote with h | h <;> rw [h] <;> decide
    have hshown : Still origin.shown := by
      refine .of_not_mem (c := 'p') (by decide) ?_
      simp only [Origin.shown, mem_cons, mem_append, mem_map, not_mem_nil,
        or_false, not_or, not_exists, not_and]
      refine ⟨hquote.1.symm, fun c _ => ?_, hquote.1.symm⟩
      rw [blanked]
      split <;> decide
    have hedge : isEdge (origin.shown ++ [';', '\n']).head? := by
      rw [Origin.shown, cons_append, head?_cons, isEdge_some, hquote.2]
      rfl
    rw [tail, horigin]
    exact statement.still_body.append (hshown.append hend (.inr rfl)) (.inr hedge)

theorem keyword_mem : statement.keyword ∈ keywords := by
  rcases statement.keyword_eq with h | h <;> rw [h] <;> decide

theorem getLast?_shown : statement.shown.getLast? = some '\n' := by
  rw [shown, getLast?_append, getLast?_append]
  rfl

theorem length_shown : statement.shown.length = statement.line.length := by
  cases horigin : statement.origin? with
  | none => simp [shown, line, chars, horigin]
  | some origin => simp [shown, line, chars, horigin, Origin.shown, Origin.chars]

/-- The first word of a line is the only one that begins a statement. -/
theorem eq_nil_of_word {word : String} (hword : word ∈ keywords) {front after : List Char}
    (h : statement.shown = front ++ (word.toList ++ after)) (hfront : standsFree front.getLast?)
    (hafter : isEdge after.head?) : front = [] := by
  by_contra hne
  rw [shown_eq] at h
  have hname := isName_of_mem_keywords statement.keyword_mem
  rcases append_eq_append_iff.1 h with ⟨piece, rfl, hpiece⟩ | ⟨piece, hpiece, -⟩
  · cases piece with
    | nil =>
      -- the word would begin with a space
      have hspace : ' ' ∈ word.toList := by
        obtain ⟨c, cs, hcs⟩ :=
          exists_cons_of_ne_nil (isName_iff.1 (isName_of_mem_keywords hword)).1
        rw [hcs] at hpiece
        rw [hcs, (cons.inj hpiece).1]
        exact mem_cons_self
      exact not_mem_keyword hword (by decide) hspace
    | cons c piece =>
      obtain ⟨rfl, htail⟩ := cons.inj hpiece
      refine statement.still_tail word hword
        (stands_iff.2 ⟨piece, after, by simp [htail], ?_, hafter⟩)
      cases hlast : piece.getLast? with
      | none => rfl
      | some d =>
        rw [getLast?_append_cons, getLast?_cons, hlast] at hfront
        exact isEdge_of_standsFree hfront
  · -- the first word would be cut
    obtain ⟨c, hc⟩ := Option.ne_none_iff_exists'.1 (mt getLast?_eq_none_iff.1 hne)
    have hident := (isName_iff.1 hname).2 c (by simp [hpiece, mem_of_getLast? hc])
    rw [hc] at hfront
    simp [standsFree, hident] at hfront

end Statement

/-! ## Scans line by line -/

section Scan

variable {α : Type} {recognise : Cursor → Option (α × Cursor)} {word : String}
  {previous : Option Char} {n : Nat} {rest : List Char}

section

variable (hbegins : BeginsWith word.toList recognise) (hword : word ∈ keywords)
include hbegins hword

/-- Nothing is recognised in a line after its beginning. -/
theorem recognise_eq_none (statement : Statement) {front back : List Char}
    (h : statement.shown = front ++ back) (hfront : front ≠ []) (hback : back ≠ [])
    (hfree : standsFree front.getLast?) : recognise ⟨n, back ++ rest⟩ = none := by
  rw [Option.eq_none_iff_forall_ne_some]
  rintro ⟨a, next⟩ hread
  have hlast : ∀ c ∈ back.getLast?, isIdent c = false := by
    intro c hc
    have hline := statement.getLast?_shown
    rw [h, getLast?_append, hc, Option.some_or, Option.some.injEq] at hline
    rw [hline]
    decide
  obtain ⟨after, rfl, hafter⟩ :=
    hbegins.exists_word (isName_of_mem_keywords hword) hlast hback hread
  exact hfront (statement.eq_nil_of_word hword h hfree hafter)

/-- A scan passes over a line that begins with another word. -/
theorem scanFrom_other {statement : Statement} (h : statement.keyword ≠ word) :
    scanFrom standsFree recognise previous n (statement.shown ++ rest) =
      scanFrom standsFree recognise (some '\n') (n + statement.shown.length) rest := by
  have hlast : ∀ c ∈ statement.shown.getLast?, isIdent c = false := by
    intro c hc
    obtain rfl := Option.some.inj (statement.getLast?_shown.symm.trans hc)
    decide
  have hkeyword : ∀ word ∈ keywords, ∀ other ∈ keywords, other ≠ word →
      ¬ Stands word.toList other.toList := by
    intro word hword other hother hne hstands
    simp only [keywords, mem_cons, not_mem_nil, or_false] at hword hother
    rcases hword with rfl | rfl <;> rcases hother with rfl | rfl
    · exact hne rfl
    · exact absurd (mem_of_stands (c := 'm') hstands (by decide)) (by decide)
    · exact absurd (mem_of_stands (c := 'x') hstands (by decide)) (by decide)
    · exact hne rfl
  have hquiet : ¬ Stands word.toList statement.shown := by
    intro hstands
    rw [Statement.shown_eq] at hstands
    rcases hstands.split (not_mem_keyword hword (by decide)) with hstands | hstands
    · exact hkeyword word hword _ statement.keyword_mem h hstands
    · exact statement.still_tail word hword hstands
  rw [hbegins.scanFrom_skip (isName_of_mem_keywords hword) hlast hquiet, statement.getLast?_shown,
    Option.some_or]

/-- A scan reads the beginning of a line and passes over the rest of it. -/
theorem scanFrom_line (statement : Statement) (hfree : standsFree previous)
    {found : Option α} {piece after : List Char} (hpiece : piece ≠ [])
    (hline : statement.shown = piece ++ after)
    (h : recognise ⟨n, statement.shown ++ rest⟩ =
      found.map fun a => (a, ⟨n + piece.length, after ++ rest⟩)) :
    scanFrom standsFree recognise previous n (statement.shown ++ rest) =
      found.toList ++
        scanFrom standsFree recognise (some '\n') (n + statement.shown.length) rest := by
  cases found with
  | none =>
    rw [Option.toList_none, nil_append, Module.scanFrom_skip, statement.getLast?_shown,
      Option.some_or]
    intro front back hsplit hback hadmits
    cases front with
    | nil => rwa [← nil_append back, ← hsplit]
    | cons c front =>
      rw [getLast?_cons, Option.some_or, ← getLast?_cons] at hadmits
      exact recognise_eq_none hbegins hword statement hsplit (cons_ne_nil c front) hback hadmits
  | some a =>
    rw [hline, append_assoc] at h ⊢
    rw [scanFrom_found hpiece hfree h, Module.scanFrom_skip, ← getLast?_append, ← hline,
      statement.getLast?_shown, hline, length_append, Nat.add_assoc]
    · rfl
    intro front back hsplit hback hadmits
    rw [← getLast?_append] at hadmits
    exact recognise_eq_none hbegins hword statement (by rw [hline, hsplit, append_assoc])
      (by simp [hpiece]) hback hadmits

end

end Scan

/-- A form that is found on lines that begin with `word`: what it reads there. -/
structure ReadsLines {α : Type} (word : String) (recognise : Cursor → Option (α × Cursor))
    (found : Nat → Statement → Option α) : Prop where
  begins : BeginsWith word.toList recognise
  keyword : word ∈ keywords
  other : ∀ n statement, statement.keyword ≠ word → found n statement = none
  reads : ∀ n statement rest, statement.keyword = word →
    ∃ piece after, piece ≠ [] ∧ statement.shown = piece ++ after ∧
      recognise ⟨n, statement.shown ++ rest⟩ =
        (found n statement).map fun a => (a, ⟨n + piece.length, after ++ rest⟩)

namespace ReadsLines

variable {α : Type} {word : String} {recognise : Cursor → Option (α × Cursor)}
  {found : Nat → Statement → Option α}

/-- The form is found line by line. -/
theorem scanFrom_eq (h : ReadsLines word recognise found) {previous : Option Char}
    (hfree : standsFree previous) (n : Nat) (statements : List Statement) :
    scanFrom standsFree recognise previous n (renderShape statements) =
      (placed n statements).filterMap fun pair => found pair.1 pair.2 := by
  induction statements generalizing previous n with
  | nil => simp [renderShape, placed, scanFrom]
  | cons statement statements ih =>
    have hstep : scanFrom standsFree recognise previous n (renderShape (statement :: statements)) =
        (found n statement).toList ++ scanFrom standsFree recognise (some '\n')
          (n + statement.shown.length) (renderShape statements) := by
      rw [renderShape, flatMap_cons]
      by_cases hword : statement.keyword = word
      · obtain ⟨piece, after, hpiece, hline, hread⟩ := h.reads n statement _ hword
        exact scanFrom_line h.begins h.keyword statement hfree hpiece hline hread
      · rw [scanFrom_other h.begins h.keyword hword, h.other n statement hword]
        rfl
    rw [hstep, ih (by decide), statement.length_shown, placed, filterMap_cons]
    cases found n statement <;> rfl

theorem scan_eq (h : ReadsLines word recognise found) (statements : List Statement) :
    scan standsFree recognise (renderShape statements) =
      (placed 0 statements).filterMap fun pair => found pair.1 pair.2 :=
  h.scanFrom_eq rfl 0 statements

end ReadsLines

/-! ## What is found on a line -/

namespace Statement

/-- The import with a clause that is read off a line. -/
def importForm? (n : Nat) (statement : Statement) : Option ImportForm :=
  match statement with
  | bind typeOnly binding origin =>
    some ⟨n, typeOnly, binding.chars, origin.literal (n + statement.words.length)⟩
  | _ => none

/-- The import for its effects that is read off a line. -/
def effectImport? (n : Nat) (statement : Statement) : Option (Nat × Literal) :=
  match statement with
  | effect origin => some (n, origin.literal (n + statement.words.length))
  | _ => none

/-- What a re-export passes on, as it shows. -/
def passage? : Statement → Option PassageForm
  | passAll _ => some .everything
  | passWhole name _ => some (.whole name.chars)
  | passList _ items _ => some (.listed (listed items))
  | _ => none

def typeOnly : Statement → Bool
  | bind typeOnly .. | passList typeOnly .. | list typeOnly _ => typeOnly
  | _ => false

/-- The re-export that is read off a line. -/
def reexportForm? (n : Nat) (statement : Statement) : Option ReexportForm := do
  return ⟨n, n + statement.chars.length, statement.typeOnly, ← statement.passage?,
    (← statement.origin?).literal (n + statement.words.length)⟩

/-- The list that is read off a line, which is nothing if it draws from another module. -/
def localList? (n : Nat) (statement : Statement) : Option (Option ListForm) :=
  match statement with
  | passList .. => some none
  | list typeOnly items => some (some ⟨n, n + statement.chars.length, typeOnly, listed items⟩)
  | _ => none

/-- The head of a declaration that is read off a line. It has no name. -/
def head? (n : Nat) (statement : Statement) : Option Head :=
  if statement.keyword = "export" then
    some ⟨n, n + 7, false, if statement.typeOnly then some (.type, n + 11) else none, [],
      if statement.typeOnly then n + 12 else n + 7⟩
  else none

end Statement

theorem readsLines_importForm? : ReadsLines "import" importForm? Statement.importForm? where
  begins := beginsWith_importForm?
  keyword := by decide
  other n statement h := by
    cases statement <;> first | rfl | exact absurd rfl h
  reads n statement rest h := by
    cases statement with
    | effect origin =>
      exact ⟨_, [], by simp [Statement.shown, Statement.words], (append_nil _).symm,
        importForm?_effect origin n rest⟩
    | bind typeOnly binding origin =>
      refine ⟨(Statement.bind typeOnly binding origin).words ++ origin.shown, [';', '\n'],
        by simp [Origin.shown], by simp [Statement.shown, Statement.origin?], ?_⟩
      rw [importForm?_bind, length_append, ← Nat.add_assoc]
      rfl
    | _ => simp [Statement.keyword] at h

theorem readsLines_effectImport? : ReadsLines "import" effectImport? Statement.effectImport? where
  begins := beginsWith_effectImport?
  keyword := by decide
  other n statement h := by
    cases statement <;> first | rfl | exact absurd rfl h
  reads n statement rest h := by
    cases statement with
    | effect origin =>
      refine ⟨(Statement.effect origin).words ++ origin.shown, [';', '\n'],
        by simp [Origin.shown], by simp [Statement.shown, Statement.origin?], ?_⟩
      rw [effectImport?_effect, length_append, ← Nat.add_assoc]
      rfl
    | bind typeOnly binding origin =>
      exact ⟨_, [], by simp [Statement.shown, Statement.words], (append_nil _).symm,
        effectImport?_bind typeOnly binding origin n rest⟩
    | _ => simp [Statement.keyword] at h

theorem shown_passAll (origin : Origin) (rest : List Char) :
    (Statement.passAll origin).shown ++ rest =
      "export".toList ++
        ' ' :: '*' :: (" from ".toList ++ (origin.shown ++ ';' :: '\n' :: rest)) := by
  simp [Statement.shown, Statement.words, Statement.keyword, Statement.origin?]

theorem shown_passWhole (name : Name) (origin : Origin) (rest : List Char) :
    (Statement.passWhole name origin).shown ++ rest =
      "export".toList ++ ' ' :: '*' :: (" as ".toList ++ (name.chars ++ (" from ".toList ++
        (origin.shown ++ ';' :: '\n' :: rest)))) := by
  simp [Statement.shown, Statement.words, Statement.keyword, Statement.origin?]

theorem shown_passList (typeOnly : Bool) (items : List Item) (origin : Origin) (rest : List Char) :
    (Statement.passList typeOnly items origin).shown ++ rest =
      listWords typeOnly ++ '{' :: (listed items ++ '}' :: (" from ".toList ++
        (origin.shown ++ ';' :: '\n' :: rest))) := by
  simp [Statement.shown, Statement.words, Statement.keyword, Statement.origin?,
    listWords_eq, braced]

theorem shown_list (typeOnly : Bool) (items : List Item) (rest : List Char) :
    (Statement.list typeOnly items).shown ++ rest =
      listWords typeOnly ++ '{' :: (listed items ++ '}' :: ';' :: '\n' :: rest) := by
  simp [Statement.shown, Statement.words, Statement.keyword, Statement.origin?,
    listWords_eq, braced]

/-- A line without its break is as long as the statement on it. -/
theorem Statement.exists_shown_eq (statement : Statement) :
    ∃ piece, piece ≠ [] ∧ statement.shown = piece ++ ['\n'] ∧
      piece.length = statement.chars.length := by
  refine ⟨statement.words ++ (statement.origin?.elim [] Origin.shown ++ [';']), by simp,
    by simp [shown], ?_⟩
  have hlength := statement.length_shown
  simp only [shown, line, length_append, length_cons, length_nil] at hlength ⊢
  omega

theorem readsLines_reexportForm? : ReadsLines "export" reexportForm? Statement.reexportForm? where
  begins := beginsWith_reexportForm?
  keyword := by decide
  other n statement h := by
    cases statement <;> first | rfl | exact absurd rfl h
  reads n statement rest h := by
    obtain ⟨piece, hpiece, hline, hlength⟩ := statement.exists_shown_eq
    refine ⟨piece, ['\n'], hpiece, hline, ?_⟩
    rw [hlength]
    cases statement with
    | passAll origin =>
      have hwords : (Statement.passAll origin).words.length = 14 := by
        simp [Statement.words, Statement.keyword]
      have hstop :
          n + 7 + 7 + origin.shown.length + 1 = n + (Statement.passAll origin).chars.length := by
        simp [Statement.chars, Statement.origin?, hwords, Origin.chars, Origin.length_shown]
        omega
      have hliteral : n + 7 + 7 = n + (Statement.passAll origin).words.length := by rw [hwords]
      rw [shown_passAll, reexportForm?_star n (passage?_everything origin (n + 7) _),
        afterLiteral_semicolon, hstop, hliteral]
      rfl
    | passWhole name origin =>
      have hwords : (Statement.passWhole name origin).words.length = 18 + name.chars.length := by
        simp [Statement.words, Statement.keyword]
        omega
      have hstop : n + 7 + 5 + name.chars.length + 6 + origin.shown.length + 1 =
          n + (Statement.passWhole name origin).chars.length := by
        simp [Statement.chars, Statement.origin?, hwords, Origin.chars, Origin.length_shown]
        omega
      have hliteral : n + 7 + 5 + name.chars.length + 6 =
          n + (Statement.passWhole name origin).words.length := by omega
      rw [shown_passWhole, reexportForm?_star n (passage?_whole name origin (n + 7) _),
        afterLiteral_semicolon, hstop, hliteral]
      rfl
    | passList typeOnly items origin =>
      have hwords : (Statement.passList typeOnly items origin).words.length =
          (listWords typeOnly).length + ((listed items).length + 2) + 6 := by
        simp [Statement.words, Statement.keyword, listWords_eq, braced]
        omega
      have hstop : n + (listWords typeOnly).length + ((listed items).length + 2) + 6 +
          origin.shown.length + 1 =
            n + (Statement.passList typeOnly items origin).chars.length := by
        simp [Statement.chars, Statement.origin?, hwords, Origin.chars, Origin.length_shown]
        omega
      have hliteral : n + (listWords typeOnly).length + ((listed items).length + 2) + 6 =
          n + (Statement.passList typeOnly items origin).words.length := by omega
      rw [shown_passList, (read_passList typeOnly items n _ origin rfl).2, hstop, hliteral]
      rfl
    | list typeOnly items =>
      rw [shown_list, (read_localList typeOnly items n _ rfl).2]
      rfl
    | _ => simp [Statement.keyword] at h

theorem readsLines_localList? : ReadsLines "export" localList? Statement.localList? where
  begins := beginsWith_localList?
  keyword := by decide
  other n statement h := by
    cases statement <;> first | rfl | exact absurd rfl h
  reads n statement rest h := by
    -- what follows the star or the closing brace is left to the scan
    have hlist : ∀ (typeOnly : Bool) (items : List Item), n + (listWords typeOnly).length +
        ((listed items).length + 2) =
          n + (listWords typeOnly ++ '{' :: (listed items ++ ['}'])).length := by
      intro typeOnly items
      simp
      omega
    cases statement with
    | passAll origin =>
      refine ⟨_, [], by simp [Statement.shown, Statement.words], (append_nil _).symm, ?_⟩
      rw [shown_passAll]
      rfl
    | passWhole name origin =>
      refine ⟨_, [], by simp [Statement.shown, Statement.words], (append_nil _).symm, ?_⟩
      rw [shown_passWhole]
      rfl
    | passList typeOnly items origin =>
      refine ⟨listWords typeOnly ++ '{' :: (listed items ++ ['}']), _, by simp,
        by simpa using shown_passList typeOnly items origin [], ?_⟩
      rw [shown_passList, (read_passList typeOnly items n _ origin (hlist typeOnly items).symm).1]
      simp [Statement.localList?]
    | list typeOnly items =>
      refine ⟨listWords typeOnly ++ '{' :: (listed items ++ ['}']), _, by simp,
        by simpa using shown_list typeOnly items [], ?_⟩
      have hstop : n + (listWords typeOnly ++ '{' :: (listed items ++ ['}'])).length + 1 =
          n + (Statement.list typeOnly items).chars.length := by
        simp [Statement.chars, Statement.words, Statement.keyword, Statement.origin?,
          listWords_eq, braced]
        omega
      rw [shown_list, (read_localList typeOnly items n _ (hlist typeOnly items).symm).1, hstop]
      simp [Statement.localList?]
    | _ => simp [Statement.keyword] at h

/-- The head that is read off the word `export` and what stands after it. -/
theorem head?_of_kindAndName {tail : List Char} (hspace : tail.head?.any isBlank = false) (n : Nat)
    (hdefault : spacedWord? "default" ⟨n + 7, tail⟩ = none)
    {kind : Option (DeclarationKind × Nat)} {name : List Char} {next : Cursor}
    (h : kindAndName (afterModifiers ⟨n + 7, tail⟩) = (kind, name, next)) :
    head? ⟨n, "export".toList ++ ' ' :: tail⟩ =
      some (⟨n, n + 7, false, kind, name, next.offset⟩, next) := by
  rw [head?_eq, spacedWord?_space "export" hspace n]
  simp only [Option.map_some, show "export".toList.length = 6 from rfl, h, hdefault]
  rfl

theorem head?_mark {c : Char} (hc : c = '*' ∨ c = '{') (n : Nat) (tail : List Char) :
    head? ⟨n, "export".toList ++ ' ' :: c :: tail⟩ =
      some (⟨n, n + 7, false, none, [], n + 7⟩, ⟨n + 7, c :: tail⟩) := by
  rcases hc with rfl | rfl <;> exact head?_of_kindAndName rfl n rfl rfl

theorem head?_listWords (typeOnly : Bool) (n : Nat) (tail : List Char) :
    head? ⟨n, listWords typeOnly ++ '{' :: tail⟩ =
      some (⟨n, n + 7, false, if typeOnly then some (.type, n + 11) else none, [],
        n + (listWords typeOnly).length⟩, ⟨n + (listWords typeOnly).length, '{' :: tail⟩) := by
  cases typeOnly with
  | true => exact head?_of_kindAndName rfl n rfl rfl
  | false => exact head?_mark (.inr rfl) n tail

theorem readsLines_head? : ReadsLines "export" head? Statement.head? where
  begins := beginsWith_head?
  keyword := by decide
  other n statement h := if_neg h
  reads n statement rest h := by
    rw [Statement.head?, if_pos h]
    cases statement with
    | passAll origin =>
      refine ⟨"export ".toList, _, by simp, by simpa using shown_passAll origin [], ?_⟩
      rw [shown_passAll, head?_mark (.inl rfl)]
      simp [Statement.typeOnly]
    | passWhole name origin =>
      refine ⟨"export ".toList, _, by simp, by simpa using shown_passWhole name origin [], ?_⟩
      rw [shown_passWhole, head?_mark (.inl rfl)]
      simp [Statement.typeOnly]
    | passList typeOnly items origin =>
      refine ⟨listWords typeOnly, _, by simp [listWords_eq],
        by simpa using shown_passList typeOnly items origin [], ?_⟩
      rw [shown_passList, head?_listWords]
      cases typeOnly <;> simp [Statement.typeOnly, listWords_eq, typeMark]
    | list typeOnly items =>
      refine ⟨listWords typeOnly, _, by simp [listWords_eq],
        by simpa using shown_list typeOnly items [], ?_⟩
      rw [shown_list, head?_listWords]
      cases typeOnly <;> simp [Statement.typeOnly, listWords_eq, typeMark]
    | _ => simp [Statement.keyword] at h

/-! ## Statements at their places -/

/-- A placed statement stands in the text at its offset. -/
theorem exists_render_of_mem_placed {n : Nat} (h : (start, statement) ∈ placed n statements) :
    ∃ front back, render statements = front ++ (statement.chars ++ '\n' :: back) ∧
      start = n + front.length := by
  induction statements generalizing n with
  | nil => cases h
  | cons first statements ih =>
    have hrender : render (first :: statements) = first.line ++ render statements := rfl
    rw [placed, mem_cons] at h
    rcases h with h | h
    · cases h
      exact ⟨[], render statements, by simp [hrender, Statement.line], rfl⟩
    · obtain ⟨front, back, hsplit, hstart⟩ := ih h
      refine ⟨first.line ++ front, back, by rw [hrender, hsplit, append_assoc], ?_⟩
      rw [hstart, length_append, Nat.add_assoc]

/-- The specifier of a placed statement is found at its place in the text. -/
theorem specifier_of_mem_placed (h : (start, statement) ∈ placed 0 statements) {origin : Origin}
    (horigin : statement.origin? = some origin) :
    (origin.literal (start + statement.words.length)).specifier (render statements) =
      origin.specifier := by
  obtain ⟨front, back, hsplit, rfl⟩ := exists_render_of_mem_placed h
  have htext : render statements =
      (front ++ statement.words) ++ (origin.chars ++ (';' :: '\n' :: back)) := by
    simp [hsplit, Statement.chars, horigin]
  rw [htext, Nat.zero_add, ← length_append]
  exact origin.specifier_literal _ _

/-- Statements are placed one after the other. -/
theorem pairwise_placed (n : Nat) (statements : List Statement) :
    (placed n statements).Pairwise fun a b => a.1 < b.1 := by
  have hle :
      ∀ {n : Nat} {statements : List Statement}, ∀ pair ∈ placed n statements, n ≤ pair.1 := by
    rintro n statements ⟨start, statement⟩ h
    obtain ⟨front, -, -, rfl⟩ := exists_render_of_mem_placed h
    exact Nat.le_add_right n _
  induction statements generalizing n with
  | nil => exact .nil
  | cons statement statements ih =>
    refine pairwise_cons.2 ⟨fun pair hpair => ?_, ih _⟩
    have hline : 0 < statement.line.length := by simp [Statement.line]
    have := hle pair hpair
    simp only
    omega

/-! ## Imports in the order of the statements -/

/-- What is taken from a list in two turns, and each element in one of them at most. -/
theorem perm_filterMap {α β : Type} {f g h : α → Option β}
    (hcases : ∀ a, f a = h a ∧ g a = none ∨ f a = none ∧ g a = h a) (list : List α) :
    (list.filterMap f ++ list.filterMap g).Perm (list.filterMap h) := by
  induction list with
  | nil => exact .nil
  | cons a list ih =>
    rcases hcases a with ⟨hf, hg⟩ | ⟨hf, hg⟩
    · cases hh : h a with
      | none => simpa [hf, hg, hh] using ih
      | some b => simpa [hf, hg, hh] using ih
    · cases hh : h a with
      | none => simpa [hf, hg, hh] using ih
      | some b => simpa [hf, hg, hh] using perm_middle.trans (ih.cons b)

/-- A placed statement as an import with its offset. -/
def placedImport? (pair : Nat × Statement) : Option (Nat × Import) :=
  pair.2.import?.map (pair.1, ·)

theorem boundImports_render (statements : List Statement) :
    boundImports (render statements) (renderShape statements) =
      (placed 0 statements).filterMap fun pair =>
        (placedImport? pair).filter fun found => found.2.clause.isSome := by
  rw [boundImports, readsLines_importForm?.scan_eq, map_filterMap]
  apply filterMap_congr
  rintro ⟨start, statement⟩ hmem
  cases statement with
  | bind typeOnly binding origin =>
    simp [Statement.importForm?, placedImport?, Statement.import?, binding.clauseOf_chars,
      specifier_of_mem_placed hmem rfl, Option.filter]
  | _ => simp [Statement.importForm?, placedImport?, Statement.import?, Option.filter]

theorem effectImports_render (statements : List Statement) :
    effectImports (render statements) (renderShape statements) =
      (placed 0 statements).filterMap fun pair =>
        (placedImport? pair).filter fun found => found.2.clause.isNone := by
  rw [effectImports, readsLines_effectImport?.scan_eq, map_filterMap]
  apply filterMap_congr
  rintro ⟨start, statement⟩ hmem
  cases statement with
  | effect origin =>
    simp [Statement.effectImport?, placedImport?, Statement.import?,
      specifier_of_mem_placed hmem rfl, Option.filter]
  | _ => simp [Statement.effectImport?, placedImport?, Statement.import?, Option.filter]

theorem map_snd_placed (n : Nat) (statements : List Statement) :
    (placed n statements).map Prod.snd = statements := by
  induction statements generalizing n with
  | nil => rfl
  | cons statement statements ih => rw [placed, map_cons, ih]

/-- The imports with a clause and those without one come together in the order of the
statements. -/
theorem importsOf_render (statements : List Statement) :
    importsOf (render statements) (renderShape statements) =
      statements.filterMap Statement.import? := by
  have hperm : (boundImports (render statements) (renderShape statements) ++
      effectImports (render statements) (renderShape statements)).Perm
        ((placed 0 statements).filterMap placedImport?) := by
    rw [boundImports_render, effectImports_render]
    refine perm_filterMap (fun pair => ?_) _
    cases hfound : placedImport? pair with
    | none => simp
    | some found => cases hclause : found.2.clause <;> simp [hclause]
  have hsorted : ((placed 0 statements).filterMap placedImport?).Pairwise fun a b => a.1 < b.1 := by
    refine (pairwise_placed 0 statements).filterMap _ fun a b hab found hfound found' hfound' => ?_
    obtain ⟨_, -, rfl⟩ := Option.map_eq_some_iff.1 hfound
    obtain ⟨_, -, rfl⟩ := Option.map_eq_some_iff.1 hfound'
    exact hab
  -- no two statements share an offset, so the sorted list is the list in the statements' order
  have hmerge : (boundImports (render statements) (renderShape statements) ++
      effectImports (render statements) (renderShape statements)).mergeSort (fun a b => a.1 ≤ b.1) =
        (placed 0 statements).filterMap placedImport? := by
    have hperm' := (mergeSort_perm _ fun a b => decide (a.1 ≤ b.1)).trans hperm
    refine List.Perm.eq_of_pairwise (fun a b ha hb (hab : a.1 ≤ b.1) (hba : b.1 ≤ a.1) => ?_) ?_
      (hsorted.imp Nat.le_of_lt) hperm'
    · have hnodup : (((placed 0 statements).filterMap placedImport?).map Prod.fst).Nodup :=
        pairwise_map.2 (hsorted.imp Nat.ne_of_lt)
      exact inj_on_of_nodup_map hnodup (hperm'.mem_iff.1 ha) hb (Nat.le_antisymm hab hba)
    · refine (pairwise_mergeSort ?_ ?_ _).imp fun h => of_decide_eq_true h
      · simp only [decide_eq_true_eq]
        exact fun _ _ _ => Nat.le_trans
      · simpa using fun a b : Nat × Import => Nat.le_total a.1 b.1
  have hvalues : ((placed 0 statements).filterMap placedImport?).map Prod.snd =
      (placed 0 statements).filterMap fun pair => pair.2.import? := by
    rw [map_filterMap]
    refine filterMap_congr fun pair _ => ?_
    simp [placedImport?, Function.comp_def]
  rw [importsOf_eq, hmerge, hvalues, ← map_snd_placed 0 statements, filterMap_map,
    map_snd_placed]
  rfl

/-! ## Exports in the order of the statements -/

theorem reexportsOf_render (statements : List Statement) :
    reexportsOf (render statements) (renderShape statements) =
      (placed 0 statements).filterMap fun pair => pair.2.reexport? pair.1 := by
  rw [reexportsOf, readsLines_reexportForm?.scan_eq, map_filterMap]
  apply filterMap_congr
  rintro ⟨start, statement⟩ hmem
  cases statement with
  | passAll origin | passWhole _ origin | passList _ _ origin =>
    simp [Statement.reexportForm?, Statement.reexport?, Statement.passage?, Statement.origin?,
      Statement.typeOnly, PassageForm.passage, entries_listed, specifier_of_mem_placed hmem rfl]
  | _ => rfl

theorem localExportsOf_render (statements : List Statement) :
    localExportsOf (renderShape statements) =
      (placed 0 statements).filterMap fun pair => pair.2.localExports? pair.1 := by
  rw [localExportsOf, readsLines_localList?.scan_eq, filterMap_filterMap]
  apply filterMap_congr
  rintro ⟨start, statement⟩ -
  cases statement <;> simp [Statement.localList?, Statement.localExports?, entries_listed]

/-- A head without a name declares nothing. -/
theorem declarationsOf_render (source : List Char) (statements : List Statement) :
    declarationsOf source (renderShape statements) = [] := by
  rw [declarationsOf, flatMap_eq_nil_iff, readsLines_head?.scan_eq]
  intro head hhead
  obtain ⟨⟨start, statement⟩, -, hfound⟩ := mem_filterMap.1 hhead
  rw [Statement.head?] at hfound
  split at hfound
  · cases hfound
    cases statement.typeOnly <;> simp [Head.declarations, DeclarationKind.isVariable]
  · cases hfound

/-- A sequence of statements, written one on a line, is read as what it was written from, with no
declaration, and each statement stands at its place with its semicolon. -/
theorem parse_render (statements : List Statement) : ∃ m, parse (render statements) = .ok m ∧
      m.imports = statements.filterMap Statement.import? ∧
      m.reexports = (placed 0 statements).filterMap (fun pair => pair.2.reexport? pair.1) ∧
      m.localExports = (placed 0 statements).filterMap (fun pair => pair.2.localExports? pair.1) ∧
      m.declarations = [] ∧ ∀ pair ∈ placed 0 statements,
        ((render statements).take (pair.1 + pair.2.chars.length)).drop pair.1 = pair.2.chars := by
  refine ⟨_, parse_eq_ok_iff.2 ⟨_, shape_render statements, rfl⟩, importsOf_render statements,
    reexportsOf_render statements, localExportsOf_render statements,
    declarationsOf_render _ statements, ?_⟩
  rintro ⟨start, statement⟩ hmem
  obtain ⟨front, back, hsplit, rfl⟩ := exists_render_of_mem_placed hmem
  simp [hsplit, take_append]

end Deadwood.Module

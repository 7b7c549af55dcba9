import Deadwood.Proofs.Listing

/-!
# Statements as they are written

The imports and exports of a module as a syntax of their own, the text in which each of them is
written on a line, and what it says about the module. The proofs that a name is a name and that a
specifier fits between its quotes belong to the syntax, so every value of it can be written.

An entry, a list and a clause are read as what they were written from (`Item.entry?_chars`,
`entries_listed`, `Binding.clauseOf_chars`). The text of a sequence of statements has a shape, which
shows everything but the specifiers (`shape_render`).
-/

set_option autoImplicit false

namespace Deadwood.Module

open Text Reference List

/-! ## Syntax -/

/-- A name, which is none of the words that begin a statement or mark a type. -/
structure Name where
  text : String
  ne_nil : text.toList ≠ []
  tokens : ∀ c ∈ text.toList, isToken c = true
  other : text ∉ ["import", "export", "type"]
  deriving DecidableEq, Repr

/-- An entry of a list: `a`, `a as b`, `type a` or `type a as b`. -/
structure Item where
  typeOnly : Bool
  name : Name
  outer : Option Name
  deriving DecidableEq, Repr

/-- The module that a statement draws from, between quotes. -/
structure Origin where
  quote : Char
  specifier : String
  isQuote : quote = '\'' ∨ quote = '"'
  plain : ∀ c ∈ specifier.toList, c ∉ ['\'', '"', '\\', '\n', '\x00']
  trimmed : trim specifier.toList = specifier.toList
  deriving DecidableEq, Repr

/-- What an import binds beside the default export: the whole module, or a list that is not
empty. -/
inductive Selection where
  | whole (name : Name)
  | listed (first : Item) (others : List Item)
  deriving DecidableEq, Repr

/-- What an import binds. -/
inductive Binding where
  | default (name : Name)
  | selected (selection : Selection)
  | both (name : Name) (selection : Selection)
  deriving DecidableEq, Repr

/-- A statement that names another module or lists exports. -/
inductive Statement where
  | effect (origin : Origin)
  | bind (typeOnly : Bool) (binding : Binding) (origin : Origin)
  | passAll (origin : Origin)
  | passWhole (name : Name) (origin : Origin)
  | passList (typeOnly : Bool) (items : List Item) (origin : Origin)
  | list (typeOnly : Bool) (items : List Item)
  deriving DecidableEq, Repr

/-! ## Text -/

def Name.chars (name : Name) : List Char := name.text.toList

/-- The words of an entry after the word `type`. -/
def Item.names (item : Item) : List (List Char) :=
  item.name.chars :: item.outer.elim [] fun outer => ["as".toList, outer.chars]

def Item.chars (item : Item) : List Char :=
  [' '].intercalate (if item.typeOnly then "type".toList :: item.names else item.names)

/-- What an entry says. -/
def Item.entry (item : Item) : Entry where
  name := item.name.text
  exportedAs := (item.outer.getD item.name).text
  text := String.ofList item.chars

/-- The inside of a list in braces. -/
def listed (items : List Item) : List Char := written (items.map Item.entry)

/-- A list in braces. -/
def braced (items : List Item) : List Char := '{' :: (listed items ++ ['}'])

def Selection.chars : Selection → List Char
  | .whole name => "* as ".toList ++ name.chars
  | .listed first others => braced (first :: others)

def Binding.chars : Binding → List Char
  | .default name => name.chars
  | .selected selection => selection.chars
  | .both name selection => name.chars ++ (", ".toList ++ selection.chars)

-- Equations by `rfl`: those that are made for a definition with texts in it take long.
theorem Selection.chars_whole (name : Name) :
    (Selection.whole name).chars = "* as ".toList ++ name.chars := rfl

theorem Selection.chars_listed (first : Item) (others : List Item) :
    (Selection.listed first others).chars = braced (first :: others) := rfl

theorem Binding.chars_both (name : Name) (selection : Selection) :
    (Binding.both name selection).chars = name.chars ++ (", ".toList ++ selection.chars) := rfl

def Origin.chars (origin : Origin) : List Char :=
  origin.quote :: (origin.specifier.toList ++ [origin.quote])

/-- How a literal shows: the specifier is blanked. -/
def Origin.shown (origin : Origin) : List Char :=
  origin.quote :: (origin.specifier.toList.map blanked ++ [origin.quote])

/-- The mark of a statement about types. -/
def typeMark (typeOnly : Bool) : List Char := if typeOnly then "type ".toList else []

/-- What the selected part of an import binds. -/
def Selection.clause : Selection → Clause
  | .whole name => { wholeName := some name.text }
  | .listed first others =>
    { names := (first :: others).map fun item => (item.entry.name, item.entry.exportedAs) }

/-- What an import binds. -/
def Binding.clause : Binding → Clause
  | .default name => { defaultName := some name.text }
  | .selected selection => selection.clause
  | .both name selection => { selection.clause with defaultName := some name.text }

namespace Statement

/-- The word that a statement begins with. -/
def keyword : Statement → String
  | effect _ | bind .. => "import"
  | passAll _ | passWhole .. | passList .. | list .. => "export"

/-- What stands between the first word and the literal or, without one, the semicolon. -/
def body : Statement → List Char
  | effect _ => []
  | bind typeOnly binding _ => typeMark typeOnly ++ (binding.chars ++ " from ".toList)
  | passAll _ => "* from ".toList
  | passWhole name _ => "* as ".toList ++ (name.chars ++ " from ".toList)
  | passList typeOnly items _ => typeMark typeOnly ++ (braced items ++ " from ".toList)
  | list typeOnly items => typeMark typeOnly ++ braced items

section Body

variable (typeOnly : Bool) (items : List Item) (origin : Origin)

@[simp] theorem body_effect : (effect origin).body = [] := rfl

@[simp] theorem body_bind (binding : Binding) : (bind typeOnly binding origin).body =
    typeMark typeOnly ++ (binding.chars ++ " from ".toList) := rfl

@[simp] theorem body_passAll : (passAll origin).body = "* from ".toList := rfl

@[simp] theorem body_passWhole (name : Name) : (passWhole name origin).body =
    "* as ".toList ++ (name.chars ++ " from ".toList) := rfl

@[simp] theorem body_passList : (passList typeOnly items origin).body =
    typeMark typeOnly ++ (braced items ++ " from ".toList) := rfl

@[simp] theorem body_list : (list typeOnly items).body = typeMark typeOnly ++ braced items := rfl

end Body

/-- The module that a statement draws from. -/
def origin? : Statement → Option Origin
  | effect origin | bind _ _ origin | passAll origin | passWhole _ origin | passList _ _ origin =>
    some origin
  | list .. => none

/-- The text of a statement in front of its literal. -/
def words (statement : Statement) : List Char :=
  statement.keyword.toList ++ ' ' :: statement.body

/-- The text of a statement, the semicolon included. -/
def chars (statement : Statement) : List Char :=
  statement.words ++ (statement.origin?.elim [] Origin.chars ++ [';'])

/-- A statement on a line of its own. -/
def line (statement : Statement) : List Char := statement.chars ++ ['\n']

/-- How the line of a statement shows. -/
def shown (statement : Statement) : List Char :=
  statement.words ++ (statement.origin?.elim [] Origin.shown ++ [';', '\n'])

/-- The import that a statement is. -/
def import? : Statement → Option Import
  | effect origin => some ⟨origin.specifier, none, false⟩
  | bind typeOnly binding origin => some ⟨origin.specifier, some binding.clause, typeOnly⟩
  | _ => none

/-- The re-export that a statement is, if it begins after `start` characters. -/
def reexport? (start : Nat) (statement : Statement) : Option Reexport :=
  let stop := start + statement.chars.length
  match statement with
  | passAll origin => some ⟨origin.specifier, start, stop, .everything, origin.quote, false⟩
  | passWhole name origin =>
    some ⟨origin.specifier, start, stop, .whole name.text, origin.quote, false⟩
  | passList typeOnly items origin =>
    some ⟨origin.specifier, start, stop, .listed (items.map Item.entry), origin.quote, typeOnly⟩
  | _ => none

/-- The list of local exports that a statement is, if it begins after `start` characters. -/
def localExports? (start : Nat) (statement : Statement) : Option LocalExports :=
  match statement with
  | list typeOnly items =>
    some ⟨start, start + statement.chars.length, items.map Item.entry, typeOnly⟩
  | _ => none

end Statement

/-- Statements, one on a line. -/
def render (statements : List Statement) : List Char := statements.flatMap Statement.line

/-- How statements show, one on a line. -/
def renderShape (statements : List Statement) : List Char := statements.flatMap Statement.shown

/-- Statements with the offsets at which they are written, the first of them after `n`
characters. -/
def placed (n : Nat) : List Statement → List (Nat × Statement)
  | [] => []
  | statement :: statements =>
    (n, statement) :: placed (n + statement.line.length) statements

/-! ## Entries -/

variable {word cs : List Char} {items : List Item} {c : Char}

/-- A name is a word. -/
theorem word_of_isName (h : isName word) : word ≠ [] ∧ ∀ c ∈ word, isBlank c = false :=
  ⟨(isName_iff.1 h).1, fun c hc => isBlank_of_isIdent ((isName_iff.1 h).2 c hc)⟩

theorem dropWhile_isBlank (h : ∀ c ∈ cs, isBlank c = false) : cs.dropWhile isBlank = cs := by
  cases cs with
  | nil => rfl
  | cons c cs => rw [dropWhile_cons_of_neg (by simp [h c mem_cons_self])]

theorem trim_of_isName (h : isName word) : trim word = word := by
  have hword := (word_of_isName h).2
  rw [trim, trimStart, dropWhile_isBlank hword, trimEnd, dropWhile_isBlank, reverse_reverse]
  exact fun c hc => hword c (mem_reverse.1 hc)

/-- Words with single spaces between them are squeezed already. -/
theorem squeeze_intercalate {list : List (List Char)}
    (h : ∀ word ∈ list, word ≠ [] ∧ ∀ c ∈ word, isBlank c = false) :
    squeeze ([' '].intercalate list) = [' '].intercalate list := by
  have hwords : words ([' '].intercalate list ++ []) = list ++ words [] :=
    words_intercalate_append h (by simp)
  rw [append_nil, words, append_nil] at hwords
  rw [squeeze, hwords]

/-- A text is cut at the first mark that begins with a space. -/
theorem cutAt_space {front : List Char} (mark tail : List Char) (h : ' ' ∉ front) :
    cutAt (' ' :: mark) (front ++ (' ' :: mark ++ tail)) = some (front, tail) := by
  induction front with
  | nil =>
    have hbegin : (' ' :: mark).isPrefixOf (' ' :: (mark ++ tail)) :=
      isPrefixOf_iff_prefix.2 ⟨tail, rfl⟩
    rw [nil_append, cons_append, cutAt, if_pos hbegin]
    simp
  | cons c front ih =>
    rw [mem_cons, not_or] at h
    have hbegin : (' ' :: mark).isPrefixOf (c :: (front ++ (' ' :: mark ++ tail))) = false := by
      simp [isPrefixOf_cons_cons, h.1]
    rw [cons_append, cutAt, hbegin, if_neg Bool.false_ne_true, ih h.2]
    rfl

/-- The words of an entry. -/
def entryWords (typeOnly : Bool) (name : List Char) (outer : Option (List Char)) :
    List (List Char) :=
  (if typeOnly then ["type".toList] else []) ++
    name :: outer.elim [] fun outer => ["as".toList, outer]

theorem takeWhile_isIdent_of_isName {tail : List Char} (hword : isName word)
    (htail : tail.head?.any isIdent = false) : (word ++ tail).takeWhile isIdent = word := by
  rw [takeWhile_append_of_pos (isName_iff.1 hword).2]
  cases tail with
  | nil => simp
  | cons c tail => simp_all

/-- An entry is read off its words, unless the word `type` is its name and another name follows. -/
theorem entry?_of_words {piece name : List Char} {typeOnly : Bool} {outer : Option (List Char)}
    (hname : isName name) (houter : ∀ word ∈ outer, isName word)
    (hplain : typeOnly = false → name = "type".toList → outer = none)
    (hwords : words piece = entryWords typeOnly name outer) :
    entry? piece = some ⟨String.ofList name, String.ofList (outer.getD name),
      String.ofList ([' '].intercalate (entryWords typeOnly name outer))⟩ := by
  have hspace : ' ' ∉ name := not_mem_of_isName hname (by decide)
  have hempty : name.isEmpty = false := by simpa using (isName_iff.1 hname).1
  have hjoin : [' '].intercalate (name :: outer.elim [] fun outer => ["as".toList, outer]) =
      name ++ outer.elim [] (" as ".toList ++ ·) := by
    cases outer <;> simp [intercalate_cons_cons]
  have hbody : (if "type ".toList.isPrefixOf ([' '].intercalate (entryWords typeOnly name outer))
      then ([' '].intercalate (entryWords typeOnly name outer)).drop 5
      else [' '].intercalate (entryWords typeOnly name outer)) =
      name ++ outer.elim [] (" as ".toList ++ ·) := by
    cases typeOnly with
    | true => cases outer <;> simp [entryWords, intercalate_cons_cons]
    | false =>
      simp only [entryWords, Bool.false_eq_true, if_false, nil_append, hjoin]
      rw [if_neg]
      rw [List.isPrefixOf_iff_prefix]
      rintro ⟨rest, hrest⟩
      -- both begin with their longest runs of characters of names
      have hrun := congrArg (takeWhile isIdent) hrest
      rw [takeWhile_isIdent_of_isName hname (by cases outer <;> rfl),
        show "type ".toList ++ rest = "type".toList ++ ' ' :: rest from rfl,
        takeWhile_isIdent_of_isName (by decide) (by rw [head?_cons]; decide)] at hrun
      rw [hplain rfl hrun.symm, ← hrun] at hrest
      simp at hrest
  unfold entry?
  simp only [squeeze, hwords, hbody]
  cases outer with
  | none =>
    have hcut : cutAt " as ".toList name = none := by
      rw [Option.eq_none_iff_forall_ne_some]
      intro parts hparts
      exact hspace (by rw [eq_of_cutAt hparts]; simp)
    simp only [Option.elim_none, append_nil, hcut, Option.getD_none, trim_of_isName hname,
      hempty, Bool.false_eq_true, if_false]
    simp [trim, trimStart, trimEnd]
  | some outer =>
    have hcut : cutAt " as ".toList (name ++ (" as ".toList ++ outer)) = some (name, outer) :=
      cutAt_space _ _ hspace
    have hother : outer.isEmpty = false := by simpa using (isName_iff.1 (houter outer rfl)).1
    simp only [Option.elim_some, hcut, Option.getD_some, trim_of_isName hname,
      trim_of_isName (houter outer rfl), hempty, hother, Bool.false_eq_true, if_false]

namespace Name

variable (name : Name)

theorem isName_chars : isName name.chars :=
  isName_iff.2 ⟨name.ne_nil, fun c hc => isIdent_of_isToken (name.tokens c hc)⟩

theorem not_mem {c : Char} (hc : isIdent c = false) : c ∉ name.chars :=
  not_mem_of_isName name.isName_chars hc

theorem chars_ne {word : String} (hword : word ∈ ["import", "export", "type"]) :
    name.chars ≠ word.toList := by
  intro h
  rw [chars, String.toList_inj] at h
  exact name.other (h ▸ hword)

@[simp] theorem ofList_chars : String.ofList name.chars = name.text := String.ofList_toList

@[simp] theorem isEmpty_chars : name.chars.isEmpty = false := by simpa [chars] using name.ne_nil

/-- A text that begins with a name and with the word `type` has a name that goes on after the
word. -/
theorem goes_on {tail rest : List Char} (htail : tail.head?.any isIdent = false)
    (h : name.chars ++ tail = "type".toList ++ rest) : rest.head?.any isIdent := by
  by_contra hrest
  rw [Bool.not_eq_true] at hrest
  -- both are the longest run of characters of names
  have hrun := congrArg (takeWhile isIdent) h
  rw [takeWhile_isIdent_of_isName name.isName_chars htail,
    takeWhile_isIdent_of_isName (by decide) hrest] at hrun
  exact name.chars_ne (by decide) hrun

end Name

namespace Item

variable (item : Item)

theorem isName_of_mem_names {word : List Char} (h : word ∈ item.names) : isName word := by
  obtain ⟨typeOnly, name, outer⟩ := item
  cases outer with
  | none =>
    obtain rfl := mem_singleton.1 h
    exact name.isName_chars
  | some outer =>
    simp only [names, Option.elim_some, mem_cons, not_mem_nil, or_false] at h
    rcases h with rfl | rfl | rfl
    · exact name.isName_chars
    · decide
    · exact outer.isName_chars

theorem chars_eq : item.chars = [' '].intercalate
    (entryWords item.typeOnly item.name.chars (item.outer.map Name.chars)) := by
  obtain ⟨typeOnly, name, outer⟩ := item
  cases typeOnly <;> cases outer <;> rfl

/-- An entry is read as what it was written from. -/
theorem entry?_chars : entry? item.chars = some item.entry := by
  have hwords : ∀ word ∈ entryWords item.typeOnly item.name.chars (item.outer.map Name.chars),
      isName word := by
    obtain ⟨typeOnly, name, outer⟩ := item
    cases typeOnly <;> cases outer <;> simp [entryWords, Name.isName_chars] <;> decide
  have hread := @words_intercalate_append _ []
    (fun word hmem => word_of_isName (hwords word hmem)) (by simp)
  rw [append_nil, words, append_nil, ← chars_eq] at hread
  rw [entry?_of_words item.name.isName_chars (by simp [Name.isName_chars])
    (fun _ htype => absurd htype (item.name.chars_ne (by decide))) hread, ← chars_eq]
  cases houter : item.outer <;> simp [entry, houter]

/-- An entry holds names and spaces. -/
theorem isListChar_of_mem_chars {c : Char} (h : c ∈ item.chars) : isListChar c ∧ c ≠ ',' := by
  have hname : ∀ word, isName word → c ∈ word → isListChar c ∧ c ≠ ',' := by
    intro word hword hc
    refine ⟨by simp [isListChar, (isName_iff.1 hword).2 c hc], ?_⟩
    rintro rfl
    exact not_mem_of_isName hword (by decide) hc
  rcases mem_of_mem_intercalate h with hc | ⟨word, hword, hc⟩
  · obtain rfl := mem_singleton.1 hc
    decide
  · split at hword
    · rcases mem_cons.1 hword with rfl | hword
      · exact hname _ (by decide) hc
      · exact hname word (item.isName_of_mem_names hword) hc
    · exact hname word (item.isName_of_mem_names hword) hc

end Item

/-! ## Lists and clauses -/

/-- A list is read as what it was written from. -/
theorem entries_listed (items : List Item) : entries (listed items) = items.map Item.entry := by
  refine entries_written_of_read fun entry hentry => ?_
  obtain ⟨item, -, rfl⟩ := mem_map.1 hentry
  exact ⟨item.chars, fun hmem => (item.isListChar_of_mem_chars hmem).2 rfl, item.entry?_chars⟩

theorem isListChar_of_mem_listed (h : c ∈ listed items) : isListChar c := by
  simp only [listed, written, mem_cons, mem_append, not_mem_nil, or_false] at h
  rcases h with rfl | h | rfl
  · decide
  · rcases mem_of_mem_intercalate h with hc | ⟨text, htext, hc⟩
    · simp only [mem_cons, not_mem_nil, or_false] at hc
      rcases hc with rfl | rfl <;> decide
    · simp only [map_map, mem_map, Function.comp_apply] at htext
      obtain ⟨item, -, rfl⟩ := htext
      exact (item.isListChar_of_mem_chars (by simpa [Item.entry] using hc)).1
  · decide

theorem not_mem_listed (hc : isListChar c = false) : c ∉ listed items := by
  intro hmem
  rw [isListChar_of_mem_listed hmem] at hc
  cases hc

namespace Clause

variable (clause : Clause)

/-- Blanks add nothing to a clause. -/
theorem add_of_isBlank {part : List Char} (h : ∀ c ∈ part, isBlank c) :
    clause.add part = clause := by
  simp [add, squeeze, words_of_isBlank h, wholeName?, isName]

theorem add_name (name : Name) :
    clause.add name.chars = { clause with defaultName := some name.text } := by
  have hsqueeze : squeeze name.chars = name.chars := by
    have hsingle : squeeze ([' '].intercalate [name.chars]) = [' '].intercalate [name.chars] :=
      squeeze_intercalate fun word hword => by
        obtain rfl := mem_singleton.1 hword
        exact word_of_isName name.isName_chars
    rwa [intercalate_singleton] at hsingle
  have hwhole : wholeName? name.chars = none := by
    unfold wholeName?
    split
    · rename_i tail htail
      exact absurd (htail ▸ mem_cons_self) (name.not_mem (show isIdent '*' = false by decide))
    · rfl
  simp only [add, hsqueeze, hwhole, name.isName_chars, if_true, Name.ofList_chars]

/-- A blank in front of a part does not matter. -/
theorem add_cons_of_isBlank {c : Char} (h : isBlank c) (part : List Char) :
    clause.add (c :: part) = clause.add part := by
  have hsqueeze : squeeze (c :: part) = squeeze part := by
    rw [squeeze, words_cons_of_isBlank h, squeeze]
  unfold add
  rw [hsqueeze]

theorem add_whole (name : Name) :
    clause.add ("* as ".toList ++ name.chars) = { clause with wholeName := some name.text } := by
  have hsqueeze : squeeze ("* as ".toList ++ name.chars) = "* as ".toList ++ name.chars := by
    have hwords : squeeze ([' '].intercalate ["*".toList, "as".toList, name.chars]) =
        [' '].intercalate ["*".toList, "as".toList, name.chars] := by
      refine squeeze_intercalate fun word hword => ?_
      simp only [mem_cons, not_mem_nil, or_false] at hword
      rcases hword with rfl | rfl | rfl
      · exact ⟨by decide, by simp; decide⟩
      · exact word_of_isName (by decide)
      · exact word_of_isName name.isName_chars
    simpa [intercalate_cons_cons] using hwords
  have htrim : trimStart (' ' :: name.chars) = name.chars := by
    rw [trimStart, dropWhile_cons_of_pos rfl,
      dropWhile_isBlank (word_of_isName name.isName_chars).2]
  have hwhole : wholeName? ("* as ".toList ++ name.chars) = some name.chars := by
    have hstar : wholeName? ("* as ".toList ++ name.chars) =
        if (' ' :: name.chars).head?.any isBlank && isName (trimStart (' ' :: name.chars)) then
          some (trimStart (' ' :: name.chars)) else none := rfl
    rw [hstar, htrim, name.isName_chars]
    rfl
  simp only [add, hsqueeze, hwhole, Name.ofList_chars]

end Clause

theorem cutBraces_eq_none {text : List Char} (h : '{' ∉ text) : cutBraces text = none := by
  rw [Option.eq_none_iff_forall_ne_some]
  rintro ⟨head, inside, rest⟩ hcut
  exact h (by rw [(cutBraces_iff.1 hcut).1]; simp)

/-- A clause without a list is read off its parts. -/
theorem clauseOf_of_not_mem {text : List Char} (h : '{' ∉ text) :
    clauseOf text = (text.splitOn ',').foldl Clause.add {} := by
  have hnil : entries [] = [] := by
    rw [entries, splitOn_nil, filterMap_cons_none (entry?_of_isBlank (by simp)),
      filterMap_nil]
  simp only [clauseOf, cutBraces_eq_none h, hnil, map_nil]

/-- A clause with a list at its end. -/
theorem clauseOf_braced {front : List Char} (h : '{' ∉ front) (items : List Item) :
    clauseOf (front ++ braced items) = (front.splitOn ',').foldl Clause.add
      { names := items.map fun item => (item.entry.name, item.entry.exportedAs) } := by
  have hcut : cutBraces (front ++ braced items) = some (front, listed items, []) :=
    cutBraces_iff.2 ⟨rfl, h, not_mem_listed (by decide)⟩
  simp only [clauseOf, hcut, entries_listed, map_map, append_nil]
  rfl

namespace Selection

/-- What is selected is read as the rest of a clause after a blank or at its beginning. -/
theorem clauseOf_chars (selection : Selection) : clauseOf selection.chars = selection.clause := by
  cases selection with
  | whole name =>
    have hcomma : ',' ∉ "* as ".toList ++ name.chars := by
      simp [name.not_mem (c := ',') (by decide)]
    have hbrace : '{' ∉ "* as ".toList ++ name.chars := by
      simp [name.not_mem (c := '{') (by decide)]
    rw [chars_whole, clauseOf_of_not_mem hbrace, splitOn_eq_singleton hcomma, foldl_cons,
      Clause.add_whole]
    rfl
  | listed first others =>
    rw [chars_listed, ← nil_append (braced _), clauseOf_braced (by simp), splitOn_nil,
      foldl_cons, Clause.add_of_isBlank _ (by simp)]
    rfl

end Selection

namespace Binding

/-- A clause is read as what it was written from. -/
theorem clauseOf_chars (binding : Binding) : clauseOf binding.chars = binding.clause := by
  cases binding with
  | default name =>
    change clauseOf name.chars = _
    rw [clauseOf_of_not_mem (name.not_mem (by decide)),
      splitOn_eq_singleton (name.not_mem (by decide)), foldl_cons, Clause.add_name]
    rfl
  | selected selection => exact selection.clauseOf_chars
  | both name selection =>
    have hcomma : ',' ∉ name.chars := name.not_mem (by decide)
    have hbrace : '{' ∉ name.chars := name.not_mem (by decide)
    cases selection with
    | whole other =>
      have hcomma' : ',' ∉ ' ' :: ("* as ".toList ++ other.chars) := by
        simp [other.not_mem (c := ',') (by decide)]
      have hbrace' : '{' ∉ name.chars ++ ',' :: ' ' :: ("* as ".toList ++ other.chars) := by
        simp [hbrace, other.not_mem (c := '{') (by decide)]
      have hsplit : (Binding.both name (.whole other)).chars =
          name.chars ++ ',' :: ' ' :: ("* as ".toList ++ other.chars) := by
        simp [chars_both, Selection.chars_whole]
      rw [hsplit, clauseOf_of_not_mem hbrace', splitOn_append_cons_self,
        splitOn_eq_singleton hcomma, splitOn_eq_singleton hcomma']
      simp only [singleton_append, foldl_cons, foldl_nil, Clause.add_name,
        Clause.add_cons_of_isBlank _ (show isBlank ' ' by decide), Clause.add_whole]
      rfl
    | listed first others =>
      have hsplit : (Binding.both name (.listed first others)).chars =
          (name.chars ++ ',' :: [' ']) ++ braced (first :: others) := by
        simp [chars_both, Selection.chars_listed]
      have hblank : ∀ c ∈ [' '], isBlank c := by simp; decide
      rw [hsplit, clauseOf_braced (by simp [hbrace]), splitOn_append_cons_self,
        splitOn_eq_singleton hcomma, splitOn_eq_singleton (by simp)]
      simp only [singleton_append, foldl_cons, foldl_nil, Clause.add_name,
        Clause.add_of_isBlank _ hblank]
      rfl

end Binding

/-! ## Shapes -/

/-- Every character may stand in the clause of an import. -/
abbrev IsClause (cs : List Char) : Prop := ∀ c ∈ cs, isClauseChar c = true

theorem isClause_append {cs' : List Char} (h : IsClause cs) (h' : IsClause cs') :
    IsClause (cs ++ cs') :=
  forall_mem_append.2 ⟨h, h'⟩

theorem isClause_from : IsClause " from ".toList := all_eq_true.1 (by decide)

theorem Name.isClause (name : Name) : IsClause name.chars := fun c hc => by
  simp [isClauseChar, isIdent_of_isToken (name.tokens c hc)]

theorem isClause_braced (items : List Item) : IsClause (braced items) := by
  intro c hc
  simp only [braced, mem_cons, mem_append, not_mem_nil, or_false] at hc
  rcases hc with rfl | hc | rfl
  · decide
  · exact isClauseChar_of_isListChar (isListChar_of_mem_listed hc)
  · decide

theorem Selection.isClause : ∀ selection : Selection, IsClause selection.chars
  | .whole name => isClause_append (all_eq_true.1 (by decide)) name.isClause
  | .listed first others => isClause_braced (first :: others)

theorem Binding.isClause : ∀ binding : Binding, IsClause binding.chars
  | .default name => name.isClause
  | .selected selection => selection.isClause
  | .both name selection =>
    isClause_append name.isClause
      (isClause_append (all_eq_true.1 (by decide)) selection.isClause)

theorem isClause_typeMark : ∀ typeOnly, IsClause (typeMark typeOnly)
  | true => all_eq_true.1 (by decide)
  | false => by simp [IsClause, typeMark]

namespace Statement

variable (statement : Statement)

theorem keyword_eq : statement.keyword = "import" ∨ statement.keyword = "export" := by
  cases statement <;> simp [keyword]

theorem isClause_body : IsClause statement.body := by
  cases statement with
  | effect origin => exact forall_mem_nil _
  | bind typeOnly binding origin =>
    exact isClause_append (isClause_typeMark typeOnly)
      (isClause_append binding.isClause isClause_from)
  | passAll origin =>
    have hstar : "* from ".toList.all isClauseChar := by decide
    exact all_eq_true.1 hstar
  | passWhole name origin =>
    exact isClause_append (all_eq_true.1 (by decide))
      (isClause_append name.isClause isClause_from)
  | passList typeOnly items origin =>
    exact isClause_append (isClause_typeMark typeOnly)
      (isClause_append (isClause_braced items) isClause_from)
  | list typeOnly items =>
    exact isClause_append (isClause_typeMark typeOnly) (isClause_braced items)

theorem isClause_words : IsClause statement.words := by
  refine isClause_append ?_ (forall_mem_cons.2 ⟨by decide, statement.isClause_body⟩)
  rcases statement.keyword_eq with h | h <;> rw [h] <;> exact all_eq_true.1 (by decide)

end Statement

namespace Origin

variable (origin : Origin)

theorem ne_of_mem {c : Char} (h : c ∈ origin.specifier.toList) :
    c ≠ '\'' ∧ c ≠ '"' ∧ c ≠ '\\' ∧ c ≠ '\n' ∧ c ≠ '\x00' := by
  simpa using origin.plain c h

/-- A specifier is the body of a literal. -/
theorem quotedBody_specifier (tail : List Char) :
    quotedBody origin.quote (origin.specifier.toList ++ origin.quote :: tail) =
      (origin.specifier.toList, true) := by
  have hplain : ∀ body : List Char, (∀ c ∈ body, c ∈ origin.specifier.toList) →
      quotedBody origin.quote (body ++ origin.quote :: tail) = (body, true) := by
    intro body hbody
    induction body with
    | nil => exact quotedBody_quote _ _
    | cons c body ih =>
      obtain ⟨hsingle, hdouble, hescape, hline, -⟩ := origin.ne_of_mem (hbody c mem_cons_self)
      have hquote : c ≠ origin.quote := by
        rcases origin.isQuote with h | h <;> rw [h] <;> assumption
      rw [cons_append, quotedBody_plain hquote hline hescape,
        ih fun d hd => hbody d (mem_cons_of_mem _ hd)]
  exact hplain _ fun c hc => hc

end Origin

/-- A text shows as `masked`, whatever comes before it. -/
def ShowsAs (text masked : List Char) : Prop :=
  ∀ before, ∃ lexemes, Lexes before text lexemes ∧ lexemes.flatMap Lexeme.shape = masked

namespace ShowsAs

variable {text masked : List Char}

theorem append_plain {piece : List Char} (h : ShowsAs text masked)
    (hpiece : ∀ c ∈ piece, isMark c = false) : ShowsAs (piece ++ text) (piece ++ masked) := by
  intro before
  obtain ⟨lexemes, hlexes, rfl⟩ := h (piece.reverse ++ before)
  refine ⟨_, Lexes.append_plain hpiece hlexes, ?_⟩
  simp [flatMap_map, Lexeme.shape]

theorem append_origin (h : ShowsAs text masked) (origin : Origin) :
    ShowsAs (origin.chars ++ text) (origin.shown ++ masked) := by
  intro before
  have hread :
      Reads before (.literal origin.quote origin.specifier.toList (some origin.quote)) text :=
    .quoted origin.isQuote origin.quotedBody_specifier
  obtain ⟨lexemes, hlexes, rfl⟩ := h (origin.shown.reverse ++ before)
  refine ⟨_, Lexes.cons hread hlexes, ?_⟩
  simp [Lexeme.shape, Origin.shown]

end ShowsAs

/-- A sequence of statements shows line by line. -/
theorem showsAs_render (statements : List Statement) :
    ShowsAs (render statements) (renderShape statements) := by
  induction statements with
  | nil => exact fun _ => ⟨[], .nil, rfl⟩
  | cons statement statements ih =>
    have hend :
        ShowsAs ([';', '\n'] ++ render statements) ([';', '\n'] ++ renderShape statements) :=
      ih.append_plain (by simp; decide)
    have horigin :
        ShowsAs (statement.origin?.elim [] Origin.chars ++ ([';', '\n'] ++ render statements))
        (statement.origin?.elim [] Origin.shown ++ ([';', '\n'] ++ renderShape statements)) := by
      cases statement.origin? with
      | none => exact hend
      | some origin => exact hend.append_origin origin
    have hwords := horigin.append_plain fun c hc =>
      (isMark_of_isClauseChar (statement.isClause_words c hc)).1
    simpa [render, renderShape, Statement.line, Statement.chars, Statement.shown] using hwords

/-- A sequence of statements has a shape. -/
theorem shape_render (statements : List Statement) :
    shape (render statements) = .ok (renderShape statements) := by
  obtain ⟨lexemes, hlexes, hshape⟩ := showsAs_render statements []
  refine shape_eq_ok_iff.2 ⟨fun hmem => ?_, lexemes, hlexes, hshape⟩
  obtain ⟨statement, -, hline⟩ := mem_flatMap.1 hmem
  simp only [Statement.line, Statement.chars, mem_append, mem_singleton, Char.reduceEq,
    or_false] at hline
  rcases hline with hwords | horigin
  · exact (isMark_of_isClauseChar (statement.isClause_words _ hwords)).2 rfl
  · cases horigin? : statement.origin? with
    | none => simp [horigin?] at horigin
    | some origin =>
      simp only [horigin?, Option.elim_some, Origin.chars, mem_cons, mem_append,
        not_mem_nil, or_false] at horigin
      have hquote : '\x00' ≠ origin.quote := by
        rcases origin.isQuote with h | h <;> rw [h] <;> decide
      rcases horigin with h | h | h
      · exact hquote h
      · exact (origin.ne_of_mem h).2.2.2.2 rfl
      · exact hquote h

end Deadwood.Module

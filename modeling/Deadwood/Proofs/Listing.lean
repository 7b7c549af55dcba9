import Deadwood.Proofs.Relisting
import Deadwood.Proofs.Importing

/-!
# What is read around a list

A list of exports is read as the words before its braces, its inside and what follows. What follows
is read in the same way whatever stands in the braces, as long as no statement begins there
(`Quiet`): the statement that the list belongs to changes its entries and the place of its end, and
all other statements move (`exists_exportsOf_list`).
-/

set_option autoImplicit false

namespace Deadwood.Module

open Text Reference
open List hiding Cursor Cursor.mk

/-! ## Scans -/

section Scan

variable {α : Type} {admits : Option Char → Bool} {recognise : Cursor → Option (α × Cursor)}
  {piece rest : List Char} {previous : Option Char} {offset : Nat}

/-- A scan passes over a piece in which nothing is recognised. -/
theorem scanFrom_skip (h : ∀ front back, piece = front ++ back → back ≠ [] →
      admits (front.getLast?.or previous) →
        recognise ⟨offset + front.length, back ++ rest⟩ = none) :
    scanFrom admits recognise previous offset (piece ++ rest) =
      scanFrom admits recognise (piece.getLast?.or previous) (offset + piece.length) rest := by
  induction piece generalizing previous offset with
  | nil => simp
  | cons c piece ih =>
    have hnone : (if admits previous then recognise ⟨offset, c :: (piece ++ rest)⟩ else none) =
        none := by
      split
      · rename_i hadmits
        exact h [] (c :: piece) rfl (by simp) hadmits
      · rfl
    rw [cons_append, scanFrom, hnone]
    simp only
    rw [ih, getLast?_cons_or, length_cons, Nat.add_assoc, Nat.add_comm 1]
    intro front back hsplit hne hadmits
    have hskip := h (c :: front) back (by rw [hsplit]; rfl) hne (by rwa [getLast?_cons_or])
    rwa [length_cons, Nat.add_comm front.length, ← Nat.add_assoc] at hskip

/-- A scan goes on after what is recognised. -/
theorem scanFrom_found {a : α} (hne : piece ≠ []) (hadmits : admits previous)
    (h : recognise ⟨offset, piece ++ rest⟩ = some (a, ⟨offset + piece.length, rest⟩)) :
    scanFrom admits recognise previous offset (piece ++ rest) =
      a :: scanFrom admits recognise piece.getLast? (offset + piece.length) rest := by
  obtain ⟨c, piece, rfl⟩ := exists_cons_of_ne_nil hne
  rw [cons_append] at h ⊢
  rw [scanFrom, if_pos hadmits, h]
  have hmore : offset + (c :: piece).length - offset - 1 = piece.length := by
    rw [length_cons]
    omega
  simp only
  rw [hmore, take_left, drop_left, length_cons, Nat.add_right_comm, Nat.add_assoc]

/-- A form begins with a word, and no name goes on after it. -/
def BeginsWith (word : List Char) (recognise : Cursor → Option (α × Cursor)) : Prop :=
  ∀ {here a next}, recognise here = some (a, next) →
    ∃ c rest, here.rest = word ++ c :: rest ∧ isIdent c = false

variable {word : List Char}

/-- What begins in a piece that does not end in a name begins with a word of the piece. -/
theorem BeginsWith.exists_word {back : List Char} (h : BeginsWith word recognise)
    (hword : isName word) (hlast : ∀ c ∈ back.getLast?, isIdent c = false) (hne : back ≠ [])
    {a : α} {next : Cursor} (hread : recognise ⟨offset, back ++ rest⟩ = some (a, next)) :
    ∃ after, back = word ++ after ∧ isEdge after.head? := by
  obtain ⟨c, tail, hrest, hc⟩ := h hread
  have hback : back ≠ [] ∧ back.getLast hne ∉ word := by
    refine ⟨hne, fun hmem => ?_⟩
    have hident := (isName_iff.1 hword).2 _ hmem
    rw [hlast _ (getLast?_eq_some_getLast hne)] at hident
    cases hident
  rcases append_eq_append_iff.1 hrest with ⟨more, hmore, -⟩ | ⟨more, rfl, hmore⟩
  · exact absurd (hmore ▸ mem_append_left _ (getLast_mem hne)) hback.2
  · refine ⟨more, rfl, ?_⟩
    cases more with
    | nil => rfl
    | cons d more =>
      obtain ⟨rfl, -⟩ := cons.inj hmore
      exact isEdge_of_not_isIdent fun d hd => by
        obtain rfl : c = d := by simpa using hd
        exact hc

/-- No form is found in a piece in which its word does not stand. -/
theorem BeginsWith.scanFrom_skip (h : BeginsWith word recognise) (hword : isName word)
    (hlast : ∀ c ∈ piece.getLast?, isIdent c = false) (hquiet : ¬ Stands word piece) :
    scanFrom standsFree recognise previous offset (piece ++ rest) =
      scanFrom standsFree recognise (piece.getLast?.or previous) (offset + piece.length) rest := by
  refine Module.scanFrom_skip fun front back hsplit hne hadmits => ?_
  rw [Option.eq_none_iff_forall_ne_some]
  rintro ⟨a, next⟩ hread
  have hlast' : ∀ c ∈ back.getLast?, isIdent c = false := by
    intro c hc
    apply hlast
    rw [hsplit, getLast?_append, hc]
    rfl
  obtain ⟨after, rfl, hafter⟩ := h.exists_word hword hlast' hne hread
  refine hquiet (stands_iff.2 ⟨front, after, by rw [hsplit, append_assoc], ?_, hafter⟩)
  cases hfront : front.getLast? with
  | none => rfl
  | some c =>
    rw [hfront, Option.some_or] at hadmits
    exact isEdge_of_standsFree hadmits

/-- No form is found where its word does not stand. -/
theorem BeginsWith.scan_eq_nil {text : List Char} (h : BeginsWith word recognise)
    (hquiet : ¬ Stands word text) : scan standsFree recognise text = [] := by
  rw [eq_nil_iff_forall_not_mem]
  intro a ha
  obtain ⟨front, rest, next, hsplit, hfree, hread⟩ := mem_scan ha
  obtain ⟨c, tail, hrest, hc⟩ := h hread
  refine hquiet (stands_iff.2 ⟨front, c :: tail, ?_, isEdge_of_standsFree hfree, ?_⟩)
  · rw [hsplit, append_assoc]
    exact congrArg _ hrest
  · rw [head?_cons, isEdge_some, isToken_of_not_isIdent hc]
    rfl

end Scan

/-! ## Words that begin a statement -/

theorem beginsWith_export {α : Type} {recognise : Cursor → Option (α × Cursor)}
    (h : ∀ {here a next}, recognise here = some (a, next) →
      ∃ qualifier, spacedWord? "export" here = some qualifier) :
    BeginsWith "export".toList recognise := by
  intro here a next hread
  obtain ⟨qualifier, hword⟩ := h hread
  obtain ⟨mid, blanks, hexport, hne, hruns⟩ := spacedWord?_iff.1 hword
  obtain ⟨c, blanks, rfl⟩ := exists_cons_of_ne_nil hne
  refine ⟨c, blanks ++ qualifier.rest, ?_, isIdent_of_isBlank (hruns.all c mem_cons_self)⟩
  rw [hexport.rest_eq, hruns.rest_eq]
  rfl

theorem beginsWith_head? : BeginsWith "export".toList head? :=
  beginsWith_export exists_word_of_head?

theorem beginsWith_localList? : BeginsWith "export".toList localList? :=
  beginsWith_export exists_word_of_localList?

theorem beginsWith_reexportForm? : BeginsWith "export".toList reexportForm? :=
  beginsWith_export exists_word_of_reexportForm?

/-- A character of blanks that are not empty. -/
theorem exists_cons_of_run {here : Cursor} (h : (here.run isBlank).isEmpty = false) :
    ∃ c rest, here.rest = c :: rest ∧ isIdent c = false := by
  obtain ⟨c, blanks, hrun⟩ := exists_cons_of_ne_nil (by simpa using h)
  have hruns := Cursor.skip_runs isBlank here
  refine ⟨c, blanks ++ (here.skip isBlank).rest, ?_,
    isIdent_of_isBlank (hruns.all c (by simp [hrun]))⟩
  rw [hruns.rest_eq, hrun]
  rfl

theorem beginsWith_import {α : Type} {recognise : Cursor → Option (α × Cursor)}
    (h : ∀ {here a next}, recognise here = some (a, next) → ∃ mid,
      here.expect? "import" = some mid ∧ ∃ c rest, mid.rest = c :: rest ∧ isIdent c = false) :
    BeginsWith "import".toList recognise := by
  intro here a next hread
  obtain ⟨mid, hword, c, rest, hrest, hc⟩ := h hread
  exact ⟨c, rest, by rw [(Cursor.expect?_iff.1 hword).rest_eq, hrest], hc⟩

theorem beginsWith_importForm? : BeginsWith "import".toList importForm? := by
  refine beginsWith_import fun {here form next} hread => ?_
  simp only [importForm?, bind, Option.bind_eq_some_iff] at hread
  obtain ⟨mid, hword, hread⟩ := hread
  refine ⟨mid, hword, exists_cons_of_run ?_⟩
  -- blanks have to follow the word in either case
  by_contra hrun
  rw [Bool.not_eq_false] at hrun
  have hskip : mid.skipSome? isBlank = none := by rw [Cursor.skipSome?, if_pos hrun]
  have hclause : clauseAfterBlanks? mid = none := by
    rw [clauseAfterBlanks?, isEmpty_iff.1 hrun]
    rfl
  simp [hskip, hclause] at hread

theorem beginsWith_effectImport? : BeginsWith "import".toList effectImport? := by
  refine beginsWith_import fun {here found next} hread => ?_
  simp only [effectImport?, bind, Option.bind_eq_some_iff] at hread
  obtain ⟨mid, hword, ⟨literal, last⟩, hliteral, -⟩ := hread
  refine ⟨mid, hword, ?_⟩
  cases hrun : (mid.run isBlank).isEmpty with
  | false => exact exists_cons_of_run hrun
  | true =>
    have hskip : mid.skip isBlank = mid := by
      rw [Cursor.skip, isEmpty_iff.1 hrun]
      simp [Cursor.advance]
    rw [hskip] at hliteral
    obtain ⟨body, hspans, hquote, -⟩ := literalOf?_spec hliteral
    refine ⟨literal.quote, body ++ [literal.quote] ++ last.rest, by simp [hspans.rest_eq], ?_⟩
    have hmarks : literal.quote = '\'' ∨ literal.quote = '"' := by simpa using hquote
    rcases hmarks with hmark | hmark <;> rw [hmark] <;> decide

/-! ## Lists without statements -/

/-- No statement begins in the inside of a list, and no braces show in it. -/
structure Quiet (inside : List Char) : Prop where
  opens : '{' ∉ inside
  closes : '}' ∉ inside
  exports : ¬ Stands "export".toList inside
  imports : ¬ Stands "import".toList inside

instance (inside : List Char) : Decidable (Quiet inside) :=
  decidable_of_iff ('{' ∉ inside ∧ '}' ∉ inside ∧ countTokens "export" inside = 0 ∧
      countTokens "import" inside = 0) (by
    rw [countTokens_eq_zero_iff (by decide), countTokens_eq_zero_iff (by decide)]
    exact ⟨fun ⟨hopens, hcloses, hexports, himports⟩ => ⟨hopens, hcloses, hexports, himports⟩,
      fun h => ⟨h.opens, h.closes, h.exports, h.imports⟩⟩)

theorem mem_of_stands {name text : List Char} (h : Stands name text) {c : Char} (hc : c ∈ name) :
    c ∈ text := by
  obtain ⟨head, tail, rfl, -, -⟩ := stands_iff.1 h
  simp [hc]

section Quiet

variable {lead head inside : List Char}

/-- A word that begins a statement stands before the braces. -/
theorem Quiet.of_stands (h : Quiet inside) {word front : List Char}
    (hword : word = "export".toList ∨ word = "import".toList)
    (hstands : Stands word (front ++ '{' :: (inside ++ ['}']))) : Stands word front := by
  have hname : isName word := by rcases hword with rfl | rfl <;> decide
  rcases hstands.split (not_mem_of_isName hname (by decide)) with hstands | hstands
  · exact hstands
  rcases hstands.split (not_mem_of_isName hname (by decide)) with hstands | hstands
  · rcases hword with rfl | rfl
    · exact absurd hstands h.exports
    · exact absurd hstands h.imports
  · exact absurd hstands (not_stands_nil (isName_iff.1 hname).1)

theorem Quiet.not_stands_import (h : Quiet inside) (hhead : ListHead head)
    (hlead : ∀ c ∈ lead, isBlank c) :
    ¬ Stands "import".toList (lead ++ (head ++ '{' :: (inside ++ ['}']))) := by
  obtain ⟨tail, rfl, htail⟩ := hhead.exists_tail
  intro hstands
  have hwords := h.of_stands (.inr rfl) (hstands.of_append (by decide) fun c hc =>
    not_mem_of_isName (by decide) (isIdent_of_isBlank (hlead c hc)))
  -- the words before the list do not have all the letters
  have hmem : 'm' ∈ "export".toList ++ tail := mem_of_stands hwords (by decide)
  rcases mem_append.1 hmem with hmem | hmem
  · exact absurd hmem (by decide)
  · rcases htail 'm' hmem with hblank | htype
    · exact absurd hblank (by decide)
    · exact absurd htype (by decide)

/-- The word stands once in the words before a list, the braces and what stands in them. -/
theorem Quiet.eq_zero_of_wordAt (h : Quiet inside) (hhead : ListHead head) {n : Nat}
    (hword : WordAt (head ++ '{' :: (inside ++ ['}'])) n) : n = 0 := by
  obtain ⟨tail, rfl, htail⟩ := hhead.exists_tail
  have hsplit : "export".toList ++ tail ++ '{' :: (inside ++ ['}']) =
      [] ++ "export".toList ++ (tail ++ '{' :: (inside ++ ['}'])) := by simp
  rw [hsplit] at hword
  refine hword.eq_length (by simp) fun hstands => ?_
  have hmem : 'x' ∈ tail := mem_of_stands (h.of_stands (.inl rfl) hstands) (by decide)
  rcases htail 'x' hmem with hblank | htype
  · exact absurd hblank (by decide)
  · exact absurd htype (by decide)

end Quiet

/-! ## What follows a list -/

/-- The text up to the closing brace of a list. -/
def upTo (lead head inside : List Char) : List Char := lead ++ (head ++ '{' :: (inside ++ ['}']))

section UpTo

variable {lead head inside : List Char} {α : Type} {recognise : Cursor → Option (α × Cursor)}

theorem length_upTo : (upTo lead head inside).length =
    lead.length + head.length + (inside.length + 2) := by
  simp only [upTo, length_append, length_cons, length_nil]
  omega

theorem upTo_append (rest : List Char) : upTo lead head inside ++ rest =
    lead ++ (head ++ '{' :: (inside ++ '}' :: rest)) := by
  simp [upTo]

theorem standsFree_of_isBlank {c : Option Char} (h : ∀ d ∈ c, isBlank d) : standsFree c := by
  cases c with
  | none => rfl
  | some d =>
    have hblank := h d rfl
    have hdot : d ≠ '.' := by
      rintro rfl
      exact absurd hblank (by decide)
    simp [standsFree, isIdent_of_isBlank hblank, hdot]

/-- A form that begins with the word is not found in blanks. -/
theorem scan_lead (hbegins : BeginsWith "export".toList recognise)
    (hlead : ∀ c ∈ lead, isBlank c) (rest : List Char) : scan standsFree recognise (lead ++ rest) =
      scanFrom standsFree recognise none lead.length rest := by
  have hlast : ∀ c ∈ lead.getLast?, isBlank c := fun c hc => hlead c (mem_of_getLast? hc)
  have hquiet : ¬ Stands "export".toList lead := fun hstands =>
    absurd (hlead 'e' (mem_of_stands hstands (by decide))) (by decide)
  rw [scan, hbegins.scanFrom_skip (by decide) (fun c hc => isIdent_of_isBlank (hlast c hc)) hquiet,
    Nat.zero_add]
  apply scanFrom_congr
  rw [Option.or_none, standsFree_of_isBlank hlast]
  rfl

variable {n : Nat} {here : Cursor}

/-- After the closing brace, a scan begins anew. -/
theorem scanFrom_brace {f : α → α} (hshift : ∀ here, recognise (here.shift n) =
      (recognise here).map fun (a, next) => (f a, next.shift n)) (rest : List Char) :
    scanFrom standsFree recognise (some '}') n rest = (scan standsFree recognise rest).map f := by
  have hfree : standsFree (some '}') = standsFree none := by decide
  rw [scanFrom_congr hfree, scan, ← scanFrom_shift hshift, Nat.zero_add]

theorem getLast?_braces : ('{' :: (inside ++ ['}'])).getLast? = some '}' := by
  rw [← cons_append, getLast?_concat]

theorem getLast?_upTo : (upTo lead head inside).getLast? = some '}' := by
  rw [upTo, getLast?_append, getLast?_append, getLast?_braces]
  rfl

/-- The imports of a text with a list are those that follow it. -/
theorem scan_upTo_import (hbegins : BeginsWith "import".toList recognise) (hhead : ListHead head)
    (hlead : ∀ c ∈ lead, isBlank c) (hquiet : Quiet inside) {f : α → α}
    (hshift : ∀ here, recognise (here.shift (upTo lead head inside).length) =
      (recognise here).map fun (a, next) => (f a, next.shift (upTo lead head inside).length))
    (rest : List Char) : scan standsFree recognise (upTo lead head inside ++ rest) =
      (scan standsFree recognise rest).map f := by
  have hlast : ∀ c ∈ (upTo lead head inside).getLast?, isIdent c = false := by
    intro c hc
    obtain rfl := Option.some.inj (getLast?_upTo.symm.trans hc)
    rfl
  rw [scan, hbegins.scanFrom_skip (by decide) hlast (hquiet.not_stands_import hhead hlead),
    getLast?_upTo, Nat.zero_add]
  exact scanFrom_brace hshift rest

/-- The heads of declarations in a text with a list: the words of the list, which declare nothing,
and those that follow it. -/
theorem exists_scan_head (hhead : ListHead head) (hlead : ∀ c ∈ lead, isBlank c)
    (hquiet : Quiet inside) (rest : List Char) :
    ∃ found, (∀ source masked, Head.declarations source masked found = []) ∧
      scan standsFree head? (upTo lead head inside ++ rest) =
        found :: (scan standsFree head? rest).map (Head.shift (upTo lead head inside).length) := by
  obtain ⟨found, hread, hnil⟩ := hhead.exists_head lead.length (inside ++ '}' :: rest)
  refine ⟨found, hnil, ?_⟩
  have hlast : ∀ c ∈ ('{' :: (inside ++ ['}'])).getLast?, isIdent c = false := by
    intro c hc
    obtain rfl := Option.some.inj (getLast?_braces.symm.trans hc)
    rfl
  have hbraces : ¬ Stands "export".toList ('{' :: (inside ++ ['}'])) := fun hstands =>
    not_stands_nil (by decide) (hquiet.of_stands (.inl rfl) (nil_append _ ▸ hstands))
  obtain ⟨tail, htail, -⟩ := hhead.exists_tail
  rw [upTo_append, scan_lead beginsWith_head? hlead,
    scanFrom_found (by rw [htail]; simp) rfl hread]
  congr 1
  have hsplit : '{' :: (inside ++ '}' :: rest) = ('{' :: (inside ++ ['}'])) ++ rest := by simp
  rw [hsplit, beginsWith_head?.scanFrom_skip (by decide) hlast hbraces, getLast?_braces,
    Option.some_or]
  have hplace : lead.length + head.length + ('{' :: (inside ++ ['}'])).length =
      (upTo lead head inside).length := by
    rw [length_upTo]
    simp
  rw [hplace]
  exact scanFrom_brace (fun _ => head?_shift) rest

/-- The list that a form stands for. -/
def ListForm.statement (form : ListForm) : LocalExports :=
  ⟨form.start, form.stop, entries form.inside, form.typeOnly⟩

theorem localExportsOf_eq (masked : List Char) : localExportsOf masked =
    (scan standsFree localList? masked).filterMap (Option.map ListForm.statement) := rfl

/-- The re-export that a form stands for. -/
def ReexportForm.statement (source : List Char) (form : ReexportForm) : Reexport :=
  ⟨form.literal.specifier source, form.start, form.stop, form.passage.passage, form.literal.quote,
    form.typeOnly⟩

theorem reexportsOf_eq (source masked : List Char) : reexportsOf source masked =
    (scan standsFree reexportForm? masked).map (ReexportForm.statement source) := rfl

theorem ReexportForm.statement_shift (text source : List Char) (form : ReexportForm) :
    (form.shift text.length).statement (text ++ source) =
      (form.statement source).shift text.length := by
  simp only [ReexportForm.statement, ReexportForm.shift, Reexport.shift, specifier_shift]
  rfl

theorem braces_append (rest : List Char) : head ++ '{' :: (inside ++ '}' :: rest) =
    (head ++ '{' :: (inside ++ ['}'])) ++ rest := by
  simp

theorem shift_upTo (rest : List Char) : (Cursor.mk 0 rest).shift (upTo lead head inside).length =
      ⟨lead.length + head.length + (inside.length + 2), rest⟩ := by
  rw [length_upTo, Cursor.shift, Nat.zero_add]

/-- The lists of exports in a text with a list: the one that it is, if it is none of another module,
and those that follow it. -/
theorem scan_upTo_localList {form : Option ListForm} (hlead : ∀ c ∈ lead, isBlank c)
    (rest : List Char) (hread : localList? ⟨lead.length, head ++ '{' :: (inside ++ '}' :: rest)⟩ =
      some (form, (Cursor.mk 0 rest).shift (upTo lead head inside).length)) :
    scan standsFree localList? (upTo lead head inside ++ rest) =
      form :: (scan standsFree localList? rest).map
        (Option.map (ListForm.shift (upTo lead head inside).length)) := by
  have hplace : (upTo lead head inside).length =
      lead.length + (head ++ '{' :: (inside ++ ['}'])).length := length_append
  rw [braces_append, Cursor.shift, Nat.zero_add, hplace] at hread
  rw [upTo_append, scan_lead beginsWith_localList? hlead, braces_append,
    scanFrom_found (by simp) rfl hread, ← hplace, getLast?_append, getLast?_braces,
    Option.some_or, scanFrom_brace fun _ => localList?_shift]

/-- The list of exports that a list belongs to, if it is one, and those that follow it. -/
theorem exists_localExportsOf (hhead : ListHead head) (hlead : ∀ c ∈ lead, isBlank c)
    (rest : List Char) :
    ∃ found : List LocalExports, ∀ {inside}, Quiet inside →
      localExportsOf (upTo lead head inside ++ rest) =
        found.map (fun statement => { statement with
          start := lead.length, stop := statement.stop + (upTo lead head inside).length
          entries := entries inside }) ++
        (localExportsOf rest).map (LocalExports.shift (upTo lead head inside).length) := by
  obtain ⟨typeOnly, hlist⟩ := hhead.exists_read
  refine ⟨if fromFollows ⟨0, rest⟩ then [] else [⟨0, afterSemicolon ⟨0, rest⟩, [], typeOnly⟩],
    fun {inside} hquiet => ?_⟩
  obtain ⟨last, hlast, hread, -⟩ := hlist hquiet.opens hquiet.closes lead.length rest
  rw [hlast, ← shift_upTo] at hread
  simp only [localExportsOf_eq, scan_upTo_localList hlead rest hread, fromFollows_shift,
    afterSemicolon_shift, filterMap_cons]
  have hothers : ((scan standsFree localList? rest).map
      (Option.map (ListForm.shift (upTo lead head inside).length))).filterMap
        (Option.map ListForm.statement) =
      (localExportsOf rest).map (LocalExports.shift (upTo lead head inside).length) := by
    simp only [localExportsOf_eq, filterMap_map, map_filterMap]
    refine filterMap_congr fun form _ => ?_
    cases form <;> rfl
  rw [hothers]
  cases fromFollows ⟨0, rest⟩ <;> rfl

theorem afterLiteral_shift : afterLiteral (here.shift n) = (afterLiteral here).shift n := by
  simp only [afterLiteral, Cursor.skip_shift, Cursor.expect?_shift]
  exact (Carrier.shift n).getD_map_move _ _

theorem reaches_afterLiteral : here.Reaches (afterLiteral here) := by
  unfold afterLiteral
  cases hsemicolon : (here.skip isLineBlank).expect? ";" with
  | none => exact Cursor.reaches_skip
  | some next => exact Cursor.reaches_skip.trans (Cursor.reaches_of_expect? hsemicolon)

/-- A list that no literal follows is no re-export, and none begins in it. -/
theorem scan_upTo_reexport_none (hhead : ListHead head) (hlead : ∀ c ∈ lead, isBlank c)
    (hquiet : Quiet inside) (rest : List Char)
    (hread : reexportForm? ⟨lead.length, head ++ '{' :: (inside ++ '}' :: rest)⟩ = none) :
    scan standsFree reexportForm? (upTo lead head inside ++ rest) =
      (scan standsFree reexportForm? rest).map
        (ReexportForm.shift (upTo lead head inside).length) := by
  have hplace : (upTo lead head inside).length =
      lead.length + (head ++ '{' :: (inside ++ ['}'])).length := length_append
  rw [upTo_append, scan_lead beginsWith_reexportForm? hlead, braces_append, scanFrom_skip, ← hplace,
    getLast?_append, getLast?_braces, Option.some_or, Option.some_or,
    scanFrom_brace fun _ => reexportForm?_shift]
  intro front back hsplit hne hfree
  rw [Option.eq_none_iff_forall_ne_some]
  rintro ⟨form, next⟩ hform
  have hlast : ∀ c ∈ back.getLast?, isIdent c = false := by
    intro c hc
    have hbraces := congrArg getLast? hsplit
    rw [getLast?_append, getLast?_braces, getLast?_append, hc] at hbraces
    obtain rfl : '}' = c := Option.some.inj hbraces
    decide
  obtain ⟨after, rfl, hafter⟩ :=
    beginsWith_reexportForm?.exists_word (by decide) hlast hne hform
  -- the word stands only at the beginning of the list
  rw [Option.or_none] at hfree
  have hword : WordAt (head ++ '{' :: (inside ++ ['}'])) front.length :=
    ⟨front, after, by rw [hsplit, append_assoc], rfl, isEdge_of_standsFree hfree, hafter⟩
  obtain rfl := length_eq_zero_iff.1 (hquiet.eq_zero_of_wordAt hhead hword)
  rw [braces_append, hsplit] at hread
  exact absurd (hread.symm.trans hform) (by simp)

/-- After a re-export, a scan goes on behind its literal. -/
theorem scan_upTo_reexport_some (hlead : ∀ c ∈ lead, isBlank c) {piece after : List Char}
    (hne : piece ≠ []) {form : ReexportForm}
    (hread : reexportForm? ⟨lead.length, head ++ '{' :: (inside ++ '}' :: (piece ++ after))⟩ =
      some (form, ⟨piece.length + (upTo lead head inside).length, after⟩)) :
    scan standsFree reexportForm? (upTo lead head inside ++ (piece ++ after)) =
      form :: (scanFrom standsFree reexportForm? piece.getLast? piece.length after).map
        (ReexportForm.shift (upTo lead head inside).length) := by
  have hplace : piece.length + (upTo lead head inside).length =
      lead.length + (head ++ '{' :: (inside ++ ['}']) ++ piece).length := by
    rw [length_upTo]
    simp only [length_append, length_cons, length_nil]
    omega
  have hlast : (head ++ '{' :: (inside ++ ['}']) ++ piece).getLast? = piece.getLast? := by
    obtain ⟨c, piece, rfl⟩ := exists_cons_of_ne_nil hne
    rw [getLast?_append_cons]
  rw [braces_append, ← append_assoc, hplace] at hread
  rw [upTo_append, scan_lead beginsWith_reexportForm? hlead, braces_append, ← append_assoc,
    scanFrom_found (by simp) rfl hread, hlast, ← hplace,
    scanFrom_shift fun _ => reexportForm?_shift]

section

variable (hhead : ListHead head) (hlead : ∀ c ∈ lead, isBlank c = true) (rest source : List Char)
include hhead hlead rest source

/-- The re-export that a list belongs to, if it is one, and those that follow it. -/
theorem exists_reexportsOf :
    ∃ found others : List Reexport, ∀ {inside}, Quiet inside →
      ∀ {text : List Char}, text.length = (upTo lead head inside).length →
        reexportsOf (text ++ source) (upTo lead head inside ++ rest) =
          found.map (fun statement => { statement with
            start := lead.length, stop := statement.stop + (upTo lead head inside).length
            passage := .listed (entries inside) }) ++
          others.map (Reexport.shift (upTo lead head inside).length) := by
  obtain ⟨typeOnly, hlist⟩ := hhead.exists_read
  -- what follows the list tells whether it is a re-export, and a scan goes on after its literal
  cases hliteral : fromLiteral? ⟨0, rest⟩ with
  | none =>
    refine ⟨[], reexportsOf source rest, fun {inside} hquiet {text} hlength => ?_⟩
    obtain ⟨last, hlast, -, hread⟩ := hlist hquiet.opens hquiet.closes lead.length rest
    rw [hlast, ← shift_upTo, fromLiteral?_shift, hliteral] at hread
    rw [reexportsOf_eq, reexportsOf_eq, scan_upTo_reexport_none hhead hlead hquiet rest hread,
      map_nil, nil_append, map_map, map_map, ← hlength]
    exact map_congr_left fun form _ => form.statement_shift text source
  | some found =>
    obtain ⟨literal, next⟩ := found
    obtain ⟨first, hfirst, -⟩ := (drawsFrom_of_fromLiteral? hliteral).endsWith
    obtain ⟨second, hsecond⟩ : next.Reaches (afterLiteral next) := reaches_afterLiteral
    have hspans := hfirst.trans hsecond
    generalize hpiece : first ++ [literal.quote] ++ second = piece at hspans
    have hne : piece ≠ [] := by
      rw [← hpiece]
      simp
    have hoffset : (afterLiteral next).offset = piece.length := by
      rw [hspans.offset_eq, Nat.zero_add]
    refine ⟨[⟨literal.specifier source, 0, piece.length, .everything, literal.quote, typeOnly⟩],
      (scanFrom standsFree reexportForm? piece.getLast? piece.length (afterLiteral next).rest).map
        (ReexportForm.statement source), fun {inside} hquiet {text} hlength => ?_⟩
    obtain ⟨last, hlast, -, hread⟩ := hlist hquiet.opens hquiet.closes lead.length rest
    rw [hlast, ← shift_upTo, fromLiteral?_shift, hliteral] at hread
    simp only [Option.map_some, afterLiteral_shift, Cursor.offset_shift, hoffset] at hread
    have hnext : (afterLiteral next).shift (upTo lead head inside).length =
        ⟨piece.length + (upTo lead head inside).length, (afterLiteral next).rest⟩ := by
      rw [Cursor.shift, hoffset]
    have hrest : rest = piece ++ (afterLiteral next).rest := hspans.rest_eq
    rw [hnext, hrest] at hread
    rw [hrest, reexportsOf_eq, scan_upTo_reexport_some hlead hne hread, map_cons, map_map,
      map_map, ← hlength]
    refine cons_eq_cons.2 ⟨?_, map_congr_left fun form _ => form.statement_shift text source⟩
    simp only [ReexportForm.statement, specifier_shift]
    rfl

/-- The statements with the entries `list`, which begin at `start` and whose ends are counted from
the place `l`. -/
def withList (start l : Nat) (list : List Entry) (template : Module) : Module where
  reexports := template.reexports.map fun statement =>
    { statement with start := start, stop := statement.stop + l, passage := .listed list }
  localExports := template.localExports.map fun statement =>
    { statement with start := start, stop := statement.stop + l, entries := list }

/-- What a text with a list exports: the list, and what follows it, which is the same for all lists
in which no statement begins. -/
theorem exists_exportsOf_list : ∃ template base : Module, ∀ {inside}, Quiet inside →
      ∀ {text : List Char}, text.length = (upTo lead head inside).length →
        exportsOf (text ++ source) (upTo lead head inside ++ rest) =
          (template.withList lead.length (upTo lead head inside).length (entries inside)).join
            (upTo lead head inside).length base := by
  obtain ⟨found, others, hreexports⟩ := exists_reexportsOf hhead hlead rest source
  obtain ⟨lists, hlists⟩ := exists_localExportsOf hhead hlead rest
  refine ⟨{ reexports := found, localExports := lists },
    { reexports := others, localExports := localExportsOf rest
      declarations := declarationsOf source rest }, fun {inside} hquiet {text} hlength => ?_⟩
  obtain ⟨words, hnil, hheads⟩ := exists_scan_head hhead hlead hquiet rest
  have hdeclarations : declarationsOf (text ++ source) (upTo lead head inside ++ rest) =
      (declarationsOf source rest).map (Declaration.shift (upTo lead head inside).length) := by
    rw [declarationsOf, hheads, flatMap_cons, hnil, nil_append,
      flatMap_declarations_shift hlength]
  simp only [exportsOf, join, withList, hreexports hquiet hlength, hlists hquiet, hdeclarations]
  rfl

/-- The imports of a text with a list are those that follow it. -/
theorem imports_list (hquiet : Quiet inside) {text : List Char}
    (hlength : text.length = (upTo lead head inside).length) :
    boundImports (text ++ source) (upTo lead head inside ++ rest) =
      (boundImports source rest).map (Prod.map (· + (upTo lead head inside).length) id) ∧
    effectImports (text ++ source) (upTo lead head inside ++ rest) =
      (effectImports source rest).map (Prod.map (· + (upTo lead head inside).length) id) := by
  constructor
  · rw [boundImports, scan_upTo_import beginsWith_importForm? hhead hlead hquiet
      (fun _ => importForm?_shift) rest, boundImports, map_map, map_map, ← hlength]
    refine map_congr_left fun form _ => ?_
    simp only [Function.comp_apply, ImportForm.shift, specifier_shift]
    rfl
  · have hscan : scan standsFree effectImport? (upTo lead head inside ++ rest) =
        (scan standsFree effectImport? rest).map fun found =>
          (found.1 + (upTo lead head inside).length,
            found.2.shift (upTo lead head inside).length) :=
      scan_upTo_import beginsWith_effectImport? hhead hlead hquiet (fun _ => effectImport?_shift)
        rest
    rw [effectImports, hscan, effectImports, map_map, map_map, ← hlength]
    refine map_congr_left fun found _ => ?_
    simp only [Function.comp_apply, specifier_shift]
    rfl

end

end UpTo

end Deadwood.Module

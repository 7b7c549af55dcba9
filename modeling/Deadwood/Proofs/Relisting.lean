import Deadwood.Proofs.Edits
import Deadwood.Proofs.Stripping

/-!
# Lists that are written anew

A list of exports is written anew with some of its entries. What is written is read as just these
entries (`entries_written`), and the text around it has the shape that it had (`shape_rewrite`): the
word before the list is read as before whatever stands between its braces (`ListHead.exists_read`).
-/

set_option autoImplicit false

namespace Deadwood.Module

open Text Reference
open List hiding Cursor

/-! ## Words of a squeezed text -/

variable {c : Char}
  {piece inside head after edited ahead list inside' after' source masked : List Char}
  {entry : Entry} {kept : List Entry} {stop : Nat} {first others : List Lexeme}
  {statement : Reexport}

theorem words_cons_of_isBlank (h : isBlank c) (cs : List Char) : words (c :: cs) = words cs := by
  rw [words, if_pos h]

/-- A word is read up to the blank that follows it. -/
theorem words_append {word rest : List Char} (hne : word ≠ [])
    (hword : ∀ c ∈ word, isBlank c = false) (hrest : ∀ c ∈ rest.head?, isBlank c) :
    words (word ++ rest) = word :: words rest := by
  obtain ⟨c, cs, rfl⟩ := exists_cons_of_ne_nil hne
  have hc : isBlank c = false := hword c mem_cons_self
  have hcs : ∀ d ∈ cs, (!isBlank d) = true := fun d hd => by
    simp [hword d (mem_cons_of_mem c hd)]
  have hstop : rest.takeWhile (!isBlank ·) = [] ∧ rest.dropWhile (!isBlank ·) = rest := by
    cases rest with
    | nil => exact ⟨rfl, rfl⟩
    | cons d rest => simp [hrest d rfl]
  rw [cons_append, words, if_neg (by simp [hc]), takeWhile_append_of_pos hcs,
    dropWhile_append_of_pos hcs, hstop.1, hstop.2, append_nil]

/-- Words with single spaces between them are read as these words. -/
theorem words_intercalate_append {list : List (List Char)} {rest : List Char}
    (hlist : ∀ word ∈ list, word ≠ [] ∧ ∀ c ∈ word, isBlank c = false)
    (hrest : ∀ c ∈ rest.head?, isBlank c) :
    words ([' '].intercalate list ++ rest) = list ++ words rest := by
  induction list with
  | nil => rfl
  | cons word list ih =>
    obtain ⟨hne, hword⟩ := hlist word mem_cons_self
    have hothers := ih fun word hmem => hlist word (mem_cons_of_mem _ hmem)
    cases list with
    | nil =>
      rw [intercalate_singleton, words_append hne hword hrest]
      rfl
    | cons next list =>
      rw [intercalate_cons_cons, append_assoc, append_assoc, singleton_append,
        words_append hne hword (by rintro c ⟨⟩; rfl), words_cons_of_isBlank rfl, hothers]
      rfl

/-- There are no words in blanks. -/
theorem words_of_isBlank {cs : List Char} (h : ∀ c ∈ cs, isBlank c) : words cs = [] := by
  induction cs with
  | nil => rw [words]
  | cons c cs ih =>
    rw [words_cons_of_isBlank (h c mem_cons_self),
      ih fun d hd => h d (mem_cons_of_mem _ hd)]

/-- Blanks around a squeezed text do not matter. -/
theorem squeeze_pad (piece : List Char) {rest : List Char} (hrest : ∀ c ∈ rest, isBlank c) :
    squeeze (' ' :: (squeeze piece ++ rest)) = squeeze piece := by
  have hwords : ∀ word ∈ words piece, word ≠ [] ∧ ∀ c ∈ word, isBlank c = false := fun word hmem =>
    ⟨(exists_of_mem_words hmem).1, (exists_of_mem_words hmem).2.1⟩
  rw [squeeze, words_cons_of_isBlank rfl, squeeze,
    words_intercalate_append hwords fun c hc => hrest c (mem_of_head? hc),
    words_of_isBlank hrest, append_nil]

/-! ## Entries that are written -/

theorem entry?_congr {piece' : List Char} (h : squeeze piece = squeeze piece') :
    entry? piece = entry? piece' := by
  unfold entry?
  rw [h]

/-- Blanks are no entry. -/
theorem entry?_of_isBlank (h : ∀ c ∈ piece, isBlank c) : entry? piece = none := by
  unfold entry?
  rw [squeeze, words_of_isBlank h]
  rfl

theorem mem_of_mem_intercalate {separator : List Char} {parts : List (List Char)}
    (h : c ∈ separator.intercalate parts) : c ∈ separator ∨ ∃ part ∈ parts, c ∈ part := by
  induction parts with
  | nil => cases h
  | cons part parts ih =>
    cases parts with
    | nil =>
      rw [intercalate_singleton] at h
      exact .inr ⟨part, mem_cons_self, h⟩
    | cons next parts =>
      rw [intercalate_cons_cons, mem_append, mem_append] at h
      rcases h with (h | h) | h
      · exact .inr ⟨part, mem_cons_self, h⟩
      · exact .inl h
      · exact (ih h).imp id fun ⟨part, hpart, hc⟩ => ⟨part, mem_cons_of_mem _ hpart, hc⟩

/-- A squeezed text holds spaces and characters of the text. -/
theorem mem_of_mem_squeeze (hc : c ∈ squeeze piece) : c = ' ' ∨ c ∈ piece ∧ isBlank c = false := by
  rcases mem_of_mem_intercalate hc with hspace | ⟨word, hword, hmem⟩
  · exact .inl (mem_singleton.1 hspace)
  · obtain ⟨-, hblank, before, after, rfl, -⟩ := exists_of_mem_words hword
    exact .inr ⟨by simp [hmem], hblank c hmem⟩

/-- The text of an entry holds spaces and characters of the list, but no comma. -/
theorem mem_of_mem_text (h : entry ∈ entries inside) (hc : c ∈ entry.text.toList) :
    c = ' ' ∨ c ∈ inside ∧ c ≠ ',' ∧ isBlank c = false := by
  obtain ⟨piece, hpiece, hread⟩ := mem_filterMap.1 h
  rw [(entry?_spec hread).1] at hc
  refine (mem_of_mem_squeeze hc).imp id fun ⟨hmem, hblank⟩ => ?_
  obtain ⟨hinside, hcomma⟩ := mem_of_mem_splitOn hpiece hmem
  exact ⟨hinside, hcomma, hblank⟩

/-- What is written holds spaces, commas and characters of the list. -/
theorem mem_of_mem_written (hkept : ∀ entry ∈ kept, entry ∈ entries inside)
    (hc : c ∈ written kept) :
    c = ' ' ∨ c = ',' ∨ c ∈ inside := by
  simp only [written, mem_cons, mem_append, not_mem_nil, or_false] at hc
  rcases hc with hspace | hc | hspace
  · exact .inl hspace
  · rcases mem_of_mem_intercalate hc with hc | ⟨text, htext, hc⟩
    · simp only [mem_cons, not_mem_nil, or_false] at hc
      exact hc.elim (fun h => .inr (.inl h)) .inl
    · obtain ⟨entry, hentry, rfl⟩ := mem_map.1 htext
      rcases mem_of_mem_text (hkept entry hentry) hc with hspace | ⟨hmem, -⟩
      · exact .inl hspace
      · exact .inr (.inr hmem)
  · exact .inl hspace

/-- An entry is read again from its text with blanks around it. -/
theorem entry?_pad (h : entry? piece = some entry) {rest : List Char}
    (hrest : ∀ c ∈ rest, isBlank c) : entry? (' ' :: (entry.text.toList ++ rest)) = some entry := by
  rw [← h]
  apply entry?_congr
  rw [(entry?_spec h).1, squeeze_pad piece hrest]

/-- Entries that are read from pieces between commas are read again from what is written. -/
theorem entries_written_of_read
    (hkept : ∀ entry ∈ kept, ∃ piece, ',' ∉ piece ∧ entry? piece = some entry) :
    entries (written kept) = kept := by
  induction kept with
  | nil =>
    have hblank : ∀ c ∈ written [], isBlank c := by simp [written]; decide
    rw [entries, splitOn_eq_singleton (by simp [written]),
      filterMap_cons_none (entry?_of_isBlank hblank), filterMap_nil]
  | cons entry kept ih =>
    obtain ⟨piece, hpiece, hentry⟩ := hkept entry mem_cons_self
    have hcomma : ',' ∉ entry.text.toList := by
      intro hmem
      rw [(entry?_spec hentry).1] at hmem
      rcases mem_of_mem_squeeze hmem with h | ⟨h, -⟩
      · exact absurd h (by decide)
      · exact hpiece h
    cases kept with
    | nil =>
      have hwritten : written [entry] = ' ' :: (entry.text.toList ++ [' ']) := by
        rw [written, map_singleton, intercalate_singleton]
      have hspace : ∀ c ∈ [' '], isBlank c := by simp; decide
      have hlast := entry?_pad hentry hspace
      rw [entries, hwritten, splitOn_eq_singleton (by simp [hcomma]),
        filterMap_cons_some hlast, filterMap_nil]
    | cons next kept =>
      have hsplit : written (entry :: next :: kept) =
          ' ' :: entry.text.toList ++ ',' :: written (next :: kept) := by
        simp [written, intercalate_cons_cons]
      have hnil : ∀ c ∈ [], isBlank c := by simp
      have hfirst := entry?_pad hentry hnil
      rw [append_nil] at hfirst
      have hothers : entries (written (next :: kept)) = next :: kept :=
        ih fun entry hmem => hkept entry (mem_cons_of_mem _ hmem)
      rw [entries, hsplit, splitOn_append_cons_self,
        splitOn_eq_singleton (by simp [hcomma]), filterMap_append, ← entries, hothers,
        filterMap_cons_some hfirst, filterMap_nil, singleton_append]

/-- What is written is read as the entries that were kept. -/
theorem entries_written (hkept : ∀ entry ∈ kept, entry ∈ entries inside) :
    entries (written kept) = kept := by
  refine entries_written_of_read fun entry hentry => ?_
  obtain ⟨piece, hpiece, hread⟩ := mem_filterMap.1 (hkept entry hentry)
  exact ⟨piece, fun hmem => (mem_of_mem_splitOn hpiece hmem).2 rfl, hread⟩

/-! ## What a list of exports is read as -/

/-- The words before the braces of a list of exports. -/
inductive ListHead : List Char → Prop
  | bare {blanks : List Char} (hne : blanks ≠ []) (hblanks : ∀ c ∈ blanks, isBlank c = true) :
      ListHead ("export".toList ++ blanks)
  | typed {blanks blanks' : List Char} (hne : blanks ≠ [])
      (hblanks : ∀ c ∈ blanks, isBlank c = true)
      (hne' : blanks' ≠ []) (hblanks' : ∀ c ∈ blanks', isBlank c = true) :
      ListHead ("export".toList ++ blanks ++ ("type".toList ++ blanks'))

/-- Such words are read before a list. -/
theorem exists_listHead {start qualifier : Cursor}
    (hword : spacedWord? "export" start = some qualifier) :
    ∃ head, ListHead head ∧ start.Spans head (typeWord qualifier).2 := by
  obtain ⟨mid, blanks, hexport, hne, hruns⟩ := spacedWord?_iff.1 hword
  have hqualifier := hexport.trans hruns.toSpans
  unfold typeWord
  split
  · rename_i last hlast
    obtain ⟨mid', blanks', htype, hne', hruns'⟩ := spacedWord?_iff.1 hlast
    exact ⟨_, .typed hne hruns.all hne' hruns'.all, hqualifier.trans (htype.trans hruns'.toSpans)⟩
  · exact ⟨_, .bare hne hruns.all, hqualifier⟩

/-- The words before a list, after the first one. -/
theorem ListHead.exists_tail (h : ListHead head) : ∃ tail, head = "export".toList ++ tail ∧
      ∀ c ∈ tail, isBlank c ∨ c ∈ "type".toList := by
  cases h with
  | bare hne hblanks => exact ⟨_, rfl, fun c hc => .inl (hblanks c hc)⟩
  | @typed blanks blanks' hne hblanks hne' hblanks' =>
    refine ⟨blanks ++ ("type".toList ++ blanks'), append_assoc _ _ _, fun c hc => ?_⟩
    rcases mem_append.1 hc with hc | hc
    · exact .inl (hblanks c hc)
    · rcases mem_append.1 hc with hc | hc
      · exact .inr hc
      · exact .inl (hblanks' c hc)

theorem spacedWord?_append {word : String} {blanks rest : List Char} (hne : blanks ≠ [])
    (hblanks : ∀ c ∈ blanks, isBlank c) (hrest : rest.head?.any isBlank = false) (n : Nat) :
    spacedWord? word ⟨n, word.toList ++ blanks ++ rest⟩ =
      some ⟨n + (word.toList ++ blanks).length, rest⟩ := by
  refine spacedWord?_iff.2 ⟨⟨n + word.toList.length, blanks ++ rest⟩, blanks, ⟨by simp, rfl⟩, hne,
    ⟨rfl, ?_⟩, hblanks, hrest⟩
  simp only [length_append, Nat.add_assoc]

/-- After these words, the braces follow. -/
theorem ListHead.exists_qualifier (h : ListHead head) :
    ∃ typeOnly, ∀ (n : Nat) (rest : List Char), ∃ qualifier,
      spacedWord? "export" ⟨n, head ++ '{' :: rest⟩ = some qualifier ∧
      typeWord qualifier = (typeOnly, ⟨n + head.length, '{' :: rest⟩) ∧
      (qualifier = ⟨n + head.length, '{' :: rest⟩ ∨
        ∃ blanks, qualifier.rest = "type".toList ++ blanks ++ '{' :: rest ∧
          qualifier.offset + 4 + blanks.length = n + head.length ∧ blanks ≠ [] ∧
          ∀ c ∈ blanks, isBlank c) := by
  cases h with
  | @bare blanks hne hblanks =>
    refine ⟨false, fun n rest => ⟨_, spacedWord?_append hne hblanks rfl n, ?_, .inl rfl⟩⟩
    have hnone :
        spacedWord? "type" ⟨n + ("export".toList ++ blanks).length, '{' :: rest⟩ = none := by
      rw [Option.eq_none_iff_forall_ne_some]
      intro next hnext
      have hbegin := isPrefix_of_spacedWord? hnext
      simp at hbegin
    simp only [typeWord, hnone]
  | @typed blanks blanks' hne hblanks hne' hblanks' =>
    refine ⟨true, fun n rest => ?_⟩
    rw [append_assoc ("export".toList ++ blanks)]
    have htype : spacedWord? "type" ⟨n + ("export".toList ++ blanks).length,
        "type".toList ++ blanks' ++ '{' :: rest⟩ = some ⟨_, '{' :: rest⟩ :=
      spacedWord?_append hne' hblanks' rfl _
    refine ⟨_, spacedWord?_append hne hblanks (by simp; decide) n, ?_,
      .inr ⟨blanks', rfl, ?_, hne', hblanks'⟩⟩
    · simp only [typeWord, htype]
      simp only [length_append, Nat.add_assoc]
    · have htypeWord : "type".toList.length = 4 := rfl
      simp only [length_append, htypeWord]
      omega

/-- The cursor after a re-export whose literal ends at the given one. -/
def afterLiteral (here : Cursor) : Cursor :=
  ((here.skip isLineBlank).expect? ";").getD (here.skip isLineBlank)

section ListHead

variable {head inside after : List Char} {n : Nat} {next : Cursor}

theorem braceList?_append (hopen : '{' ∉ inside) (hclose : '}' ∉ inside) (n : Nat) :
    braceList? ⟨n, '{' :: (inside ++ '}' :: after)⟩ =
      some (inside, ⟨n + (inside.length + 2), after⟩) :=
  braceList?_iff.2 ⟨⟨by simp, by simp⟩, hopen, hclose⟩

variable {qualifier : Cursor}

/-- How a list after the words `head` is read: what stands in its braces is its inside, and what
follows them tells whether it is a re-export. -/
structure ReadsList (head : List Char) (typeOnly : Bool) (inside after : List Char) (n : Nat)
    (last : Cursor) : Prop where
  last_eq : last = ⟨n + head.length + (inside.length + 2), after⟩
  localList?_eq : localList? ⟨n, head ++ '{' :: (inside ++ '}' :: after)⟩ =
    some (if fromFollows last then none else some ⟨n, afterSemicolon last, typeOnly, inside⟩, last)
  reexportForm?_eq : reexportForm? ⟨n, head ++ '{' :: (inside ++ '}' :: after)⟩ =
    (fromLiteral? last).map fun (literal, next) =>
      (⟨n, (afterLiteral next).offset, typeOnly, .listed inside, literal⟩, afterLiteral next)

theorem read_list {typeOnly : Bool}
    (hword : spacedWord? "export" ⟨n, head ++ '{' :: (inside ++ '}' :: after)⟩ = some qualifier)
    (htype : typeWord qualifier = (typeOnly, ⟨n + head.length, '{' :: (inside ++ '}' :: after)⟩))
    (hopen : '{' ∉ inside) (hclose : '}' ∉ inside) :
    ∃ last, ReadsList head typeOnly inside after n last := by
  refine ⟨_, rfl, ?_, ?_⟩
  · simp only [localList?, hword, bind, Option.bind_some, htype, braceList?_append hopen hclose]
    split <;> rfl
  · have hstar : Cursor.expect? "*" ⟨n + head.length, '{' :: (inside ++ '}' :: after)⟩ = none := by
      rw [Cursor.expect?_eq_none_iff]
      simp
    simp only [reexportForm?, hword, bind, Option.bind_some, htype, passage?, hstar,
      braceList?_append hopen hclose]
    cases fromLiteral? ⟨n + head.length + (inside.length + 2), after⟩ <;> rfl

/-- How a list with such words is read. -/
theorem ListHead.exists_read (h : ListHead head) : ∃ typeOnly, ∀ {inside}, '{' ∉ inside →
    '}' ∉ inside → ∀ n after, ∃ last, ReadsList head typeOnly inside after n last := by
  obtain ⟨typeOnly, hqualifier⟩ := h.exists_qualifier
  refine ⟨typeOnly, fun {inside} hopen hclose n after => ?_⟩
  obtain ⟨qualifier, hword, htype, -⟩ := hqualifier n (inside ++ '}' :: after)
  exact read_list hword htype hopen hclose

/-- No modifier stands where none of them begins. -/
theorem afterModifiers_eq_self {here : Cursor}
    (h : ∀ word ∈ ["default", "declare", "abstract", "async"], ¬ word.toList <+: here.rest) :
    spacedWord? "default" here = none ∧ afterModifiers here = here := by
  have hstay :
      ∀ word ∈ ["default", "declare", "abstract", "async"], afterModifier word here = here :=
    fun word hword => (afterModifier_eq_or word here).resolve_right (h word hword)
  constructor
  · rw [Option.eq_none_iff_forall_ne_some]
    intro next hnext
    exact h "default" (by decide) (isPrefix_of_spacedWord? hnext)
  · rw [afterModifiers, hstay "default" (by decide), hstay "declare" (by decide),
      hstay "abstract" (by decide), hstay "async" (by decide)]

/-- After the word `type` and the blanks that follow it, braces are no name. -/
theorem kind?_type {here : Cursor} {blanks rest : List Char} (hne : blanks ≠ [])
    (hblanks : ∀ c ∈ blanks, isBlank c)
    (hrest : here.rest = "type".toList ++ blanks ++ '{' :: rest) :
    ∃ last, kind? here = some (.type, last) ∧
      last.skip isBlank = ⟨here.offset + 4 + blanks.length, '{' :: rest⟩ := by
  have hnone : ∀ word ∈ ["const", "function", "let", "var", "class", "interface"],
      here.expect? word = none := by
    simp only [Cursor.expect?_eq_none_iff, hrest]
    simp
  have htype : here.expect? "type" = some ⟨here.offset + 4, blanks ++ '{' :: rest⟩ :=
    Cursor.expect?_iff.2 ⟨by rw [hrest]; simp, rfl⟩
  have hends : wordEnds ⟨here.offset + 4, blanks ++ '{' :: rest⟩ := by
    obtain ⟨c, blanks, rfl⟩ := exists_cons_of_ne_nil hne
    simp [wordEnds, Cursor.nextIs, isIdent_of_isBlank (hblanks c mem_cons_self)]
  refine ⟨⟨here.offset + 4, blanks ++ '{' :: rest⟩, ?_, ?_⟩
  · simp only [mem_cons, not_mem_nil, or_false, forall_eq_or_imp, forall_eq] at hnone
    obtain ⟨h₁, h₂, h₃, h₄, h₅, h₆⟩ := hnone
    simp only [kind?, spacedWord?, functionWord?, kindWords, wholeWord?, findSome?_cons, h₁, h₂,
      h₃, h₄, h₅, h₆, htype, hends, bind, Option.bind_none, Option.map_none, Option.filter_none,
      Option.filter_some, if_true, Option.map_some]
    rfl
  · have hruns : Cursor.Runs isBlank ⟨here.offset + 4, blanks ++ '{' :: rest⟩ blanks
        ⟨here.offset + 4 + blanks.length, '{' :: rest⟩ := ⟨⟨rfl, rfl⟩, hblanks, rfl⟩
    exact hruns.eq.2

/-- Nothing is declared where no word follows the first one. -/
theorem exists_head_of_not_isIdent {start : Cursor} {c : Char} {rest : List Char}
    (hword : spacedWord? "export" start = some qualifier) (hrest : qualifier.rest = c :: rest)
    (hc : isIdent c = false) : ∃ found, head? start = some (found, qualifier) ∧
      ∀ source masked, found.declarations source masked = [] := by
  have hnone : ∀ word ∈ headWords, ¬ word.toList <+: qualifier.rest := by
    intro word hmem hbegin
    obtain ⟨-, d, tail, hcons, hident⟩ := fresh_of_headWord hmem hbegin
    obtain ⟨rfl, -⟩ := cons.inj (hrest.symm.trans hcons)
    rw [hc] at hident
    cases hident
  have hmodifiers : ["default", "declare", "abstract", "async"] ⊆ headWords := by decide
  obtain ⟨hdefault, hstay⟩ := afterModifiers_eq_self fun word hmem => hnone word (hmodifiers hmem)
  have hkind : kind? qualifier = none := by
    rw [Option.eq_none_iff_forall_ne_some]
    intro pair hpair
    obtain ⟨word, hmem, hbegin⟩ := exists_headWord_of_kind? hpair
    exact hnone word hmem hbegin
  rw [head?_eq, hword]
  simp [Head.declarations, hdefault, hstay, kindAndName, hkind]

/-- How the words of a list are read as the head of a declaration: up to the braces, and without
anything declared. -/
theorem ListHead.exists_head (h : ListHead head) (n : Nat) (rest : List Char) :
    ∃ found, head? ⟨n, head ++ '{' :: rest⟩ = some (found, ⟨n + head.length, '{' :: rest⟩) ∧
      ∀ source masked, found.declarations source masked = [] := by
  obtain ⟨typeOnly, hqualifier⟩ := h.exists_qualifier
  obtain ⟨qualifier, hword, -, hrest⟩ := hqualifier n rest
  rcases hrest with rfl | ⟨blanks, hrest, hoffset, hne, hblanks⟩
  · exact exists_head_of_not_isIdent hword rfl (by decide)
  · rw [head?_eq, hword]
    have hbare : ∀ word ∈ ["default", "declare", "abstract", "async"],
        ¬ word.toList <+: qualifier.rest := by
      rw [hrest]
      simp
    obtain ⟨hdefault, hstay⟩ := afterModifiers_eq_self hbare
    obtain ⟨last, hkind, hlast⟩ := kind?_type hne hblanks hrest
    rw [hoffset] at hlast
    have hrun : (last.skip isBlank).run isIdent = [] := by
      rw [hlast]
      rfl
    have hskip : (last.skip isBlank).skip isIdent = ⟨n + head.length, '{' :: rest⟩ := by
      rw [Cursor.skip, hrun, hlast]
      rfl
    simp [Head.declarations, hdefault, hstay, kindAndName, hkind, DeclarationKind.isVariable, hrun,
      hskip]

/-- A list is no declaration. -/
theorem ListHead.declarations_eq_nil
    (h : ListHead head) {found : Head} {source masked rest : List Char}
    (hread : head? ⟨n, head ++ '{' :: rest⟩ = some (found, next)) :
    found.declarations source masked = [] := by
  obtain ⟨found', hread', hnil⟩ := h.exists_head n rest
  rw [hread'] at hread
  rw [← (Prod.mk.inj (Option.some.inj hread)).1]
  exact hnil source masked

end ListHead

/-! ## Lexing what is written -/

/-- Characters that are no marks are read as code. -/
theorem Lexes.append_plain {before text : List Char} {lexemes : List Lexeme}
    (hpiece : ∀ c ∈ piece, isMark c = false) (h : Lexes (piece.reverse ++ before) text lexemes) :
    Lexes before (piece ++ text) (piece.map .code ++ lexemes) := by
  induction piece generalizing before with
  | nil => exact h
  | cons c piece ih =>
    have hmark := hpiece c mem_cons_self
    have hread : Reads before (.code c) (piece ++ text) := by
      refine .plain ?_ ?_ ?_ ?_ <;> rintro rfl <;> cases hmark
    refine Lexes.cons hread (ih (fun d hd => hpiece d (mem_cons_of_mem c hd)) ?_)
    simpa [Lexeme.shape] using h

/-- Lexemes with a character of code between them, of which the first ones are as long as a part of
the text, cut the text at this part. -/
theorem eq_of_flatMap_shape {rest : List Char}
    (hlength : ahead.length = (first.flatMap Lexeme.shape).length)
    (h : (first ++ .code c :: others).flatMap Lexeme.text = ahead ++ c :: rest) :
    first.flatMap Lexeme.text = ahead ∧ others.flatMap Lexeme.text = rest := by
  rw [flatMap_append, flatMap_cons] at h
  have htext : (first.flatMap Lexeme.text).length = ahead.length := by
    rw [hlength]
    simp only [length_flatMap, Lexeme.length_shape]
  obtain ⟨hfirst, hothers⟩ := append_inj h htext
  exact ⟨hfirst, (cons.inj hothers).2⟩

/-- A list that is written in a text with a shape shows in it, if it does so on its own. -/
theorem shape_rewrite {ahead aheadShape inside insideShape rest restShape list : List Char}
    (h : shape (ahead ++ '{' :: (inside ++ '}' :: rest)) =
      .ok (aheadShape ++ '{' :: (insideShape ++ '}' :: restShape)))
    (hahead : ahead.length = aheadShape.length) (hinside : inside.length = insideShape.length)
    (hslash : '/' ∉ aheadShape) (hlist : shape (list ++ ['}']) = .ok (list ++ ['}']))
    (hslash' : '/' ∉ list) : shape (ahead ++ '{' :: (list ++ '}' :: rest)) =
      .ok (aheadShape ++ '{' :: (list ++ '}' :: restShape)) := by
  obtain ⟨hzero, lexemes, hlexes, hshape⟩ := shape_eq_ok_iff.1 h
  obtain ⟨hzero', lexemes', hlexes', hshape'⟩ := shape_eq_ok_iff.1 hlist
  -- the text is cut at its braces, and the list at its closing brace
  obtain ⟨first, others, rfl, rfl, hothers, hopened⟩ := hlexes.split (by decide) (by decide) hshape
  obtain ⟨second, third, rfl, rfl, rfl, hclosed⟩ := hopened.split (by decide) (by decide) hothers
  obtain ⟨listed, final, rfl, hlisted, hfinal, hend⟩ :=
    hlexes'.split (by decide) (by decide) hshape'
  obtain ⟨rfl, hinner⟩ := eq_of_flatMap_shape hahead hlexes.text_eq
  obtain ⟨rfl, rfl⟩ := eq_of_flatMap_shape hinside hinner
  have hlength : list.length = (listed.flatMap Lexeme.shape).length := by rw [hlisted]
  obtain ⟨htext, -⟩ := eq_of_flatMap_shape hlength hlexes'.text_eq
  have hwritten : Lexes ('{' :: ((first.flatMap Lexeme.shape).reverse ++ []))
      (list ++ '}' :: third.flatMap Lexeme.text) (listed ++ .code '}' :: third) := by
    have hlist' : Lexes ('{' :: ((first.flatMap Lexeme.shape).reverse ++ [])) (list ++ ['}'])
        (listed ++ .code '}' :: final) :=
      hlexes'.congr fun read => admitsPattern_congr read rfl rfl rfl
    nth_rewrite 1 [← htext]
    refine hlist'.retail (by decide) (by decide) (hlisted ▸ hslash') ?_
    exact hclosed.congr fun read => admitsPattern_congr read rfl rfl rfl
  refine shape_eq_ok_iff.2 ⟨?_, _, hlexes.retail (by decide) (by decide) hslash hwritten, ?_⟩
  · intro hmem
    grind
  · simp [Lexeme.shape, hlisted]

/-! ## Characters of lists -/

/-- Characters of a list of names. -/
def isListChar (c : Char) : Bool := isIdent c || isBlank c || c = ','

theorem isClauseChar_of_isListChar (h : isListChar c) : isClauseChar c := by
  simp only [isListChar, Bool.or_eq_true] at h
  simp only [isClauseChar, Bool.or_eq_true]
  tauto

/-- No character of a clause is a mark. -/
theorem isMark_of_isClauseChar (h : isClauseChar c) : isMark c = false ∧ c ≠ '\x00' := by
  have hne : ∀ d, isClauseChar d = false → c ≠ d := by
    rintro d hd rfl
    rw [hd] at h
    cases h
  refine ⟨?_, hne '\x00' (by decide)⟩
  simp [isMark, hne '/' (by decide), hne '\'' (by decide), hne '"' (by decide),
    hne '`' (by decide)]

theorem ListHead.isListChar (h : ListHead head) : ∀ c ∈ head, isListChar c := by
  obtain ⟨tail, rfl, htail⟩ := h.exists_tail
  have hwords : ("export".toList ++ "type".toList).all Module.isListChar := by decide
  intro c hc
  rcases mem_append.1 hc with hc | hc
  · exact all_eq_true.1 hwords c (mem_append_left _ hc)
  · rcases htail c hc with hblank | htype
    · simp [Module.isListChar, hblank]
    · exact all_eq_true.1 hwords c (mem_append_right _ htype)

/-! ## A list on lines of its own -/

/-- The shape begins with a list of exports in braces. -/
structure ShowsList (masked inside : List Char) : Prop where
  exists_split : ∃ head after, ListHead head ∧ masked = head ++ '{' :: (inside ++ '}' :: after) ∧
    '{' ∉ inside ∧ '}' ∉ inside

theorem showsList_of_braceList? {start qualifier next : Cursor}
    (hword : spacedWord? "export" start = some qualifier)
    (hlist : braceList? (typeWord qualifier).2 = some (inside, next)) :
    ShowsList start.rest inside := by
  obtain ⟨head, hhead, hspans⟩ := exists_listHead hword
  obtain ⟨hbraces, hopen, hclose⟩ := braceList?_iff.1 hlist
  refine ⟨head, next.rest, hhead, ?_, hopen, hclose⟩
  rw [(hspans.trans hbraces).rest_eq]
  simp

/-- What stands in a list stands in the text around it. -/
theorem ShowsList.stands {front rest name : List Char} (h : ShowsList rest inside)
    (hmasked : masked = front ++ rest) (hname : Stands name inside) : Stands name masked := by
  obtain ⟨head, after, -, rfl, -⟩ := h.exists_split
  have hplace : masked = front ++ head ++ '{' :: inside ++ '}' :: after := by simp [hmasked]
  exact stands_of_braces hname hplace

/-! ## Statements with a list -/

/-- The module has a list of exports at a span: as a part of a re-export, or on its own. -/
inductive HasList (m : Module) : Nat → Nat → List Entry → Prop
  | reexport {statement : Reexport} (hmem : statement ∈ m.reexports) {list : List Entry}
      (hlist : statement.passage = .listed list) : HasList m statement.start statement.stop list
  | localExports {statement : LocalExports} (hmem : statement ∈ m.localExports) :
      HasList m statement.start statement.stop statement.entries

section HasList

variable {m : Module} {list : List Entry} {start : Nat}

section

variable (h : HasList m start stop list) (hreexports : m.reexports = reexportsOf source masked)
  (hlists : m.localExports = localExportsOf masked)
include h hreexports hlists

theorem HasList.placed : Placed masked start stop := by
  cases h with
  | reexport hmem hlist => exact placed_of_mem_reexportsOf (hreexports ▸ hmem)
  | localExports hmem => exact placed_of_mem_localExportsOf (hlists ▸ hmem)

/-- A list shows where its statement begins. -/
theorem HasList.exists_showsList : ∃ front rest inside, masked = front ++ rest ∧
    start = front.length ∧ ShowsList rest inside ∧ list = entries inside := by
  cases h with
  | @reexport statement hmem list hlist =>
    rw [hreexports] at hmem
    obtain ⟨form, hform, rfl⟩ := mem_map.1 hmem
    obtain ⟨front, rest, next, hsplit, -, hread⟩ := mem_scan hform
    obtain ⟨qualifier, last, hqualifier, hpassage, hstart, -⟩ := reexportForm?_cases hread
    cases hform' : form.passage with
    | everything | whole => simp [PassageForm.passage, hform'] at hlist
    | listed inside =>
      obtain ⟨mid, hbraces, -⟩ := passage?_listed (hform' ▸ hpassage)
      exact ⟨front, rest, inside, hsplit, hstart, showsList_of_braceList? hqualifier hbraces,
        by simpa [PassageForm.passage, hform'] using hlist.symm⟩
  | @localExports statement hmem =>
    rw [hlists] at hmem
    obtain ⟨form?, hform, hlist⟩ := mem_filterMap.1 hmem
    obtain ⟨form, rfl, rfl⟩ := Option.map_eq_some_iff.1 hlist
    obtain ⟨front, rest, next, hsplit, -, hread⟩ := mem_scan hform
    obtain ⟨qualifier, inside, hqualifier, hbraces, hread⟩ := localList?_cases hread
    obtain rfl := hread form rfl
    exact ⟨front, rest, inside, hsplit, rfl, showsList_of_braceList? hqualifier hbraces, rfl⟩

end

/-- A list in the middle of a text in three parts is one of the middle part. -/
theorem HasList.of_join {lines base : Module} {front frontShape : List Char} {k l : Nat}
    (h : HasList m (k + frontShape.length) stop list) (hk : k < l) (hreexports : m.reexports =
      ((exportsOf front frontShape).join frontShape.length (lines.join l base)).reexports)
    (hlists : m.localExports =
      ((exportsOf front frontShape).join frontShape.length (lines.join l base)).localExports) :
    ∃ stop', HasList lines k stop' list ∧ stop = stop' + frontShape.length := by
  generalize hstart : k + frontShape.length = start at h
  cases h with
  | @reexport statement hmem list hlist =>
    rw [hreexports] at hmem
    obtain ⟨found, hfound, rfl⟩ : ∃ found ∈ lines.reexports,
        statement = found.shift frontShape.length :=
      mem_middle (fun _ _ => rfl) (fun _ h => (placed_of_mem_reexportsOf h).lt) hk hstart.symm hmem
    obtain rfl : k = found.start := Nat.add_right_cancel hstart
    exact ⟨found.stop, .reexport hfound hlist, rfl⟩
  | @localExports statement hmem =>
    rw [hlists] at hmem
    obtain ⟨found, hfound, rfl⟩ : ∃ found ∈ lines.localExports,
        statement = found.shift frontShape.length :=
      mem_middle (fun _ _ => rfl) (fun _ h => (placed_of_mem_localExportsOf h).lt) hk hstart.symm
        hmem
    obtain rfl : k = found.start := Nat.add_right_cancel hstart
    exact ⟨found.stop, .localExports hfound, rfl⟩

end HasList

end Deadwood.Module

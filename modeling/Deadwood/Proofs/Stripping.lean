import Deadwood.Module.Edit
import Deadwood.Proofs.Exporters

/-!
# Declarations that are no longer exported

What is left of an exported declaration without the word `export` is read as it was: it begins with
a word of code, and where code is shown, the lexer can begin anew (`Lexes.split`). On lines of its
own the declaration then exports nothing.
-/

set_option autoImplicit false

namespace Deadwood.Module

open Text Reference
open List hiding Cursor

/-! ## Beginning anew at a character of code -/

variable {left right source masked : List Char} {c : Char} {word : String} {here next : Cursor}
  {declaration : Declaration}

/-- Where the shape shows a character that is neither blank nor a mark, a lexeme begins. -/
theorem Lexes.split {before text : List Char} {lexemes : List Lexeme}
    (h : Lexes before text lexemes) (hblank : isBlank c = false) (hmark : isMark c = false)
    (hshape : lexemes.flatMap Lexeme.shape = left ++ c :: right) :
    ∃ first others, lexemes = first ++ .code c :: others ∧ first.flatMap Lexeme.shape = left ∧
      others.flatMap Lexeme.shape = right ∧
      Lexes (c :: (left.reverse ++ before)) (others.flatMap Lexeme.text) others := by
  induction h generalizing left with
  | nil => simp at hshape
  | @cons before rest lexeme lexemes hread hothers ih =>
    rw [flatMap_cons, append_eq_append_iff] at hshape
    rcases hshape with ⟨tail, rfl, hrest⟩ | ⟨tail, hlexeme, htail⟩
    · obtain ⟨first, others, rfl, rfl, rfl, hafter⟩ := ih hrest
      exact ⟨lexeme :: first, others, rfl, rfl, rfl, by simpa using hafter⟩
    · cases tail with
      | nil =>
        -- the lexeme ends right before the character
        rw [append_nil] at hlexeme
        have hnext : lexemes.flatMap Lexeme.shape = [] ++ c :: right := by simpa using htail.symm
        obtain ⟨first, others, rfl, hfirst, rfl, hafter⟩ := ih hnext
        refine ⟨lexeme :: first, others, rfl, by simp [hfirst, hlexeme], rfl, ?_⟩
        rw [← hlexeme]
        simpa using hafter
      | cons d tail =>
        obtain ⟨rfl, htail⟩ := cons.inj htail
        rcases hread.blank_or_mark with ⟨e, rfl⟩ | hshows
        · have hsingle : [e] = left ++ c :: tail := hlexeme
          obtain rfl : left = [] := by
            have := congrArg length hsingle
            simp only [length_append, length_cons, length_nil] at this
            exact length_eq_zero_iff.1 (by omega)
          obtain ⟨rfl, rfl⟩ : e = c ∧ tail = [] := by simpa using hsingle
          refine ⟨[], lexemes, rfl, rfl, by simpa using htail.symm, ?_⟩
          rw [hothers.text_eq]
          exact hothers
        · rcases hshows c (by rw [hlexeme]; simp) with h | h
          · rw [hblank] at h
            cases h
          · rw [hmark] at h
            cases h

/-- What comes before a character of code is read in the same way whatever takes its place, line
breaks and marks apart. -/
theorem Lexes.retail {d : Char} {before text tail : List Char} {first others others' : List Lexeme}
    (h : Lexes before text (first ++ .code c :: others)) (hc : c ≠ '\n') (hmark : isMark d = false)
    (hslash : '/' ∉ first.flatMap Lexeme.shape)
    (htail : Lexes (d :: ((first.flatMap Lexeme.shape).reverse ++ before)) tail others') :
    Lexes before (first.flatMap Lexeme.text ++ d :: tail) (first ++ .code d :: others') := by
  induction first generalizing before text with
  | nil =>
    have hread : Reads before (.code d) tail := by
      refine .plain ?_ ?_ ?_ ?_ <;> rintro rfl <;> cases hmark
    exact .cons hread htail
  | cons lexeme first ih =>
    cases h with
    | cons hread hothers =>
      rw [flatMap_cons, mem_append, not_or] at hslash
      rw [flatMap_cons, append_assoc, cons_append]
      refine .cons (hread.retail (fun hbreak => ?_) fun hcode => ?_) (ih hothers hslash.2 ?_)
      · rw [← hothers.text_eq, append_eq, flatMap_append, flatMap_cons] at hbreak ⊢
        cases htext : first.flatMap Lexeme.text with
        | nil => exact absurd (hbreak c (by simp [htext, Lexeme.text])) hc
        | cons e rest => rfl
      · exact absurd (by rw [hcode]; simp [Lexeme.shape]) hslash.1
      · simpa using htail

/-- The words with which a declaration begins. -/
def headWords : List String :=
  ["default", "declare", "abstract", "async", "function"] ++ kindWords.map Prod.fst

theorem isPrefix_of_expect? (h : here.expect? word = some next) : word.toList <+: here.rest :=
  ⟨next.rest, (Cursor.expect?_iff.1 h).rest_eq.symm⟩

theorem isPrefix_of_spacedWord? (h : spacedWord? word here = some next) :
    word.toList <+: here.rest := by
  obtain ⟨mid, -, hword, -⟩ := spacedWord?_iff.1 h
  exact ⟨mid.rest, hword.rest_eq.symm⟩

theorem exists_headWord_of_kind? {kind : DeclarationKind} (h : kind? here = some (kind, next)) :
    ∃ word ∈ headWords, word.toList <+: here.rest := by
  simp only [kind?, Option.orElse_eq_orElse, Option.orElse_eq_or, Option.or_eq_some_iff] at h
  rcases h with h | ⟨-, h | ⟨-, h⟩⟩
  · obtain ⟨last, hlast, -⟩ := Option.map_eq_some_iff.1 h
    simp only [bind, Option.bind_eq_some_iff] at hlast
    obtain ⟨mid, hconst, -⟩ := hlast
    exact ⟨"const", by decide, isPrefix_of_spacedWord? hconst⟩
  · obtain ⟨last, hlast, -⟩ := Option.map_eq_some_iff.1 h
    simp only [functionWord?, bind, Option.bind_eq_some_iff] at hlast
    obtain ⟨mid, hfunction, -⟩ := hlast
    exact ⟨"function", by decide, isPrefix_of_expect? hfunction⟩
  · obtain ⟨pair, hpair, hword⟩ := exists_of_findSome?_eq_some h
    obtain ⟨last, hlast, -⟩ := Option.map_eq_some_iff.1 hword
    exact ⟨pair.1, mem_append_right _ (mem_map_of_mem hpair),
      isPrefix_of_expect? (Option.filter_eq_some_iff.1 hlast).1⟩

/-- A modifier is passed over where it stands. -/
theorem afterModifier_eq_or (word : String) (here : Cursor) :
    afterModifier word here = here ∨ word.toList <+: here.rest := by
  unfold afterModifier
  cases h : spacedWord? word here with
  | none => exact .inl rfl
  | some next => exact .inr (isPrefix_of_spacedWord? h)

theorem not_mem_carriesOn (h : isIdent c) : c ∉ carriesOn := by
  have hnone : carriesOn.all (!isIdent ·) = true := by decide
  intro hmem
  have hc := all_eq_true.1 hnone c hmem
  simp [h] at hc

/-- A shape that begins with one of the words begins anew, with a character of code. -/
theorem fresh_of_headWord (hword : word ∈ headWords) (h : word.toList <+: masked) :
    Fresh masked ∧ ∃ c rest, masked = c :: rest ∧ isIdent c := by
  have hwords : headWords.all (fun word => word.toList.head?.any isIdent) = true := by decide
  have hfrom : ∀ word ∈ headWords,
      ¬ word.toList <+: "from".toList ∧ ¬ "from".toList <+: word.toList := by decide
  obtain ⟨c, hc, hident⟩ := (Option.any_eq_true _ _).1 (all_eq_true.1 hwords word hword)
  obtain ⟨hshort, hlong⟩ := hfrom word hword
  obtain ⟨tail, htail⟩ := head?_eq_some_iff.1 hc
  obtain ⟨rest, rfl⟩ := h
  have hcons : word.toList ++ rest = c :: (tail ++ rest) := by rw [htail]; rfl
  have htrim : trimStart (word.toList ++ rest) = word.toList ++ rest := by
    rw [hcons, trimStart, dropWhile_cons_of_neg (by simp [isBlank_of_isIdent hident])]
  refine ⟨⟨?_, ?_⟩, c, _, hcons, hident⟩
  · intro d hd
    rw [htrim, hcons] at hd
    obtain rfl : c = d := by simpa using hd
    exact not_mem_carriesOn hident
  · intro hfrom
    rw [htrim] at hfrom
    rcases prefix_or_prefix_of_prefix hfrom (prefix_append _ _) with h | h
    · exact hlong h
    · exact hshort h

/-! ## Without the word `export` -/

/-- Whether a text ends its line is seen after its last character that is shown. -/
theorem EndsLine.append {back : List Char} (h : EndsLine (c :: back)) (hc : c ≠ '\n')
    (front : List Char) : EndsLine (front ++ c :: back) := by
  obtain ⟨last, hlast, hescape⟩ := h.exists_concat (by simp)
  cases last with
  | nil => exact absurd (cons.inj hlast).1 hc
  | cons d last =>
    rw [hlast]
    rw [← append_assoc]
    refine .inr ⟨getLast?_concat, ?_⟩
    rw [dropLast_concat, getLast?_append_cons]
    exact hescape

/-- Blanks at the end of a text are cut off after the last character that is none. -/
theorem trimEnd_append (hc : isBlank c = false) (front : List Char) :
    trimEnd (front ++ c :: right) = front ++ trimEnd (c :: right) ∧ trimEnd (c :: right) ≠ [] := by
  have hne : (c :: right).reverse.dropWhile isBlank ≠ [] := by
    rw [Ne, dropWhile_eq_nil_iff]
    intro hall
    simp [hall c (by simp)] at hc
  rw [trimEnd, trimEnd, reverse_append, dropWhile_append, if_neg (by simpa using hne),
    reverse_append, reverse_reverse]
  exact ⟨rfl, by simpa using hne⟩

/-- A settled text stays settled if something is left out before a character that is not blank and
after blanks. -/
theorem Settled.without {piece : List Char} (h : Settled (left ++ piece ++ c :: right))
    (hleft : ∀ d ∈ left, isBlank d) (hc : isBlank c = false) : Settled (left ++ c :: right) := by
  have hback : ∀ rest, rest <:+ c :: right → rest <:+ left ++ piece ++ c :: right :=
    fun rest hrest => hrest.trans (suffix_append _ _)
  -- a text without blanks at its beginning does not reach into the blanks
  have hinside : ∀ {rest tail : List Char}, rest <:+ left ++ tail →
      (∀ d ∈ rest.head?, isBlank d = false) → tail ≠ [] → rest <:+ tail := by
    intro rest tail hrest hhead hne
    rcases suffix_or_suffix_of_suffix hrest (suffix_append _ _) with hshort | ⟨front, rfl⟩
    · exact hshort
    · obtain rfl : front = [] := by
        obtain ⟨rest, hrest⟩ := hrest
        rw [← append_assoc] at hrest
        have hsplit := append_cancel_right hrest
        cases front with
        | nil => rfl
        | cons d front => exact absurd (hhead d rfl) (by simp [hleft d (by simp [← hsplit])])
      exact suffix_rfl
  refine ⟨.inr ?_, fun word hword hsuffix => ?_, fun tail htail qualifier hqualifier => ?_⟩
  · have hlast := h.line.resolve_left (by simp)
    rw [getLast?_append_cons] at hlast ⊢
    exact hlast
  · rw [(trimEnd_append hc left).1] at hsuffix
    refine h.words word hword ?_
    rw [(trimEnd_append hc _).1]
    refine (hinside hsuffix (fun d hd => ?_) (trimEnd_append hc []).2).trans (suffix_append _ _)
    exact isBlank_of_mem_openers word hword d (mem_of_head? hd)
  · refine h.lists tail ((mem_tails _ _).2 (hback tail ?_)) qualifier hqualifier
    refine hinside ((mem_tails _ _).1 htail) (fun d hd => ?_) (cons_ne_nil _ _)
    obtain ⟨rest, hrest⟩ := isPrefix_of_spacedWord? hqualifier
    obtain rfl : 'e' = d := by
      rw [show tail = _ from hrest.symm] at hd
      simpa using hd
    decide

end Deadwood.Module

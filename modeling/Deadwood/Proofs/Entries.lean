import Deadwood.Module.Clause
import Deadwood.Proofs.Tokens
import Mathlib.Data.List.TakeWhile

/-!
# Names in lists

An entry of a list is read off the words of a piece between commas. Reading it loses blanks and the
word `type`, and keeps the words themselves: what stands in the text of an entry stands in the list
(`stands_of_mem_entries`), and so does the name that the entry refers to
(`name_stands_of_mem_entries`).
-/

set_option autoImplicit false

namespace Deadwood.Module

open Text Reference List

/-! ## Names -/

variable {text cs word name piece inside : List Char} {entry : Entry}

theorem isName_iff : isName text ↔ text ≠ [] ∧ ∀ c ∈ text, isIdent c := by
  simp [isName]

/-- A character that no name holds is not in a name. -/
theorem not_mem_of_isName (h : isName text) {c : Char} (hc : isIdent c = false) : c ∉ text := by
  intro hmem
  rw [(isName_iff.1 h).2 c hmem] at hc
  cases hc

/-! ## Words -/

/-- A word of a text stands between blanks or the ends of the text, and holds no blank. -/
theorem exists_of_mem_words (h : word ∈ words cs) : word ≠ [] ∧ (∀ c ∈ word, isBlank c = false) ∧
      ∃ before after, cs = before ++ word ++ after ∧ (∀ c ∈ before.getLast?, isBlank c) ∧
        ∀ c ∈ after.head?, isBlank c := by
  fun_induction words cs with
  | case1 => cases h
  | case2 c cs hc ih =>
    obtain ⟨hne, hword, before, after, rfl, hbefore, hafter⟩ := ih h
    refine ⟨hne, hword, c :: before, after, by simp, ?_, hafter⟩
    intro d hd
    rw [getLast?_cons] at hd
    cases hlast : before.getLast? with
    | none =>
      obtain rfl : c = d := by simpa [hlast] using hd
      exact hc
    | some e =>
      obtain rfl : e = d := by simpa [hlast] using hd
      exact hbefore e hlast
  | case3 c cs hc ih =>
    have hafter : ∀ d ∈ (cs.dropWhile (!isBlank ·)).head?, isBlank d = true := by
      intro d hd
      have hstop := head?_dropWhile_not (!isBlank ·) cs
      rw [hd] at hstop
      simpa using hstop
    rcases mem_cons.1 h with rfl | h
    · refine ⟨by simp, ?_, [], cs.dropWhile (!isBlank ·), by simp, by simp, hafter⟩
      intro d hd
      rcases mem_cons.1 hd with rfl | hd
      · simpa using hc
      · simpa using mem_takeWhile_imp hd
    · obtain ⟨hne, hword, before, after, hdrop, hbefore, hafter'⟩ := ih h
      refine ⟨hne, hword, c :: cs.takeWhile (!isBlank ·) ++ before, after, ?_, ?_, hafter'⟩
      · rw [cons_append, cons_append, cons_append, append_assoc,
          append_assoc, ← append_assoc before, ← hdrop, takeWhile_append_dropWhile]
      · intro d hd
        rw [getLast?_append] at hd
        cases hlast : before.getLast? with
        | some e =>
          obtain rfl : e = d := by simpa [hlast] using hd
          exact hbefore e hlast
        | none =>
          -- the next word would begin where the run without blanks ends
          obtain rfl := getLast?_eq_none_iff.1 hlast
          obtain ⟨e, word, rfl⟩ := exists_cons_of_ne_nil hne
          have hblank := hafter e (by simp [hdrop])
          rw [hword e (by simp)] at hblank
          cases hblank

/-- What stands in a word of a text stands in the text. -/
theorem stands_of_mem_words (hword : word ∈ words cs) (h : Stands name word) : Stands name cs := by
  obtain ⟨-, -, before, after, rfl, hbefore, hafter⟩ := exists_of_mem_words hword
  exact h.widen (isEdge_of_isBlank hbefore) (isEdge_of_isBlank hafter)

/-- What stands in a text with its blanks squeezed stands in the text. -/
theorem stands_of_squeeze (hname : isName name) (h : Stands name (squeeze cs)) :
    Stands name cs := by
  have hspace : ∀ c ∈ [' '], c ∉ name := by
    intro c hc
    obtain rfl := mem_singleton.1 hc
    exact not_mem_of_isName hname (by decide)
  obtain ⟨word, hword, hstands⟩ := h.of_intercalate (isName_iff.1 hname).1 (by simp) hspace
  exact stands_of_mem_words hword hstands

/-! ## Trimming -/

theorem exists_trim (cs : List Char) :
    ∃ before after, cs = before ++ trim cs ++ after ∧ (∀ c ∈ before, isBlank c) ∧
      ∀ c ∈ after, isBlank c := by
  have hend := takeWhile_append_dropWhile (p := isBlank) (l := (trimStart cs).reverse)
  refine ⟨cs.takeWhile isBlank, ((trimStart cs).reverse.takeWhile isBlank).reverse, ?_, ?_, ?_⟩
  · rw [append_assoc, trim, trimEnd, ← reverse_append, hend, reverse_reverse,
      trimStart, takeWhile_append_dropWhile]
  · intro c hc
    exact mem_takeWhile_imp hc
  · intro c hc
    exact mem_takeWhile_imp (mem_reverse.1 hc)

/-- A text without the blanks around it stands in the text. -/
theorem stands_trim (cs : List Char) : Stands (trim cs) cs := by
  obtain ⟨before, after, hcs, hbefore, hafter⟩ := exists_trim cs
  refine stands_iff.2 ⟨before, after, hcs, ?_, ?_⟩
  · exact isEdge_of_isBlank fun c hc => hbefore c (mem_of_getLast? hc)
  · exact isEdge_of_isBlank fun c hc => hafter c (mem_of_head? hc)

/-! ## Entries -/

/-- What a piece of a list gives: its squeezed text, and a name that stands at the beginning of it,
the word `type` apart. -/
theorem entry?_spec (h : entry? piece = some entry) :
    entry.text.toList = squeeze piece ∧ Stands entry.name.toList (squeeze piece) := by
  -- the words that are read as an entry, after the word `type` if it is there
  obtain ⟨front, body, htext, hfront, hbody⟩ : ∃ front body, squeeze piece = front ++ body ∧
      isEdge front.getLast? ∧
      (if "type ".toList.isPrefixOf (squeeze piece) then (squeeze piece).drop 5
        else squeeze piece) = body := by
    split
    · rename_i htype
      obtain ⟨body, htext⟩ := isPrefixOf_iff_prefix.1 htype
      exact ⟨"type ".toList, body, htext.symm, by decide, by rw [← htext]; rfl⟩
    · exact ⟨[], squeeze piece, rfl, rfl, rfl⟩
  -- the name stands at the beginning of these words
  have hstands : Stands (trim ((cutAt " as ".toList body).getD (body, [])).1) body := by
    cases hcut : cutAt " as ".toList body with
    | none => exact stands_trim body
    | some parts =>
      obtain ⟨name, outer⟩ := parts
      have hwide : Stands (trim name) ([] ++ name ++ (" as ".toList ++ outer)) :=
        (stands_trim name).widen rfl rfl
      rw [eq_of_cutAt hcut]
      simpa using hwide
  have hwide : Stands _ (front ++ body ++ []) := hstands.widen hfront rfl
  rw [append_nil, ← htext] at hwide
  unfold entry? at h
  simp only [hbody] at h
  split at h
  · cases h
  · cases h
    simpa using hwide

/-- What stands in a piece between commas stands in the list. -/
theorem stands_of_mem_splitOn (hpiece : piece ∈ text.splitOn ',') (h : Stands name piece) :
    Stands name text := by
  have hwhole := h.intercalate (c := ',') (by decide) hpiece
  rwa [intercalate_splitOn] at hwhole

/-- What stands in the text of an entry stands in the list. -/
theorem stands_of_mem_entries (hentry : entry ∈ entries inside) (hname : isName name)
    (h : Stands name entry.text.toList) : Stands name inside := by
  obtain ⟨piece, hpiece, hread⟩ := mem_filterMap.1 hentry
  rw [(entry?_spec hread).1] at h
  exact stands_of_mem_splitOn hpiece (stands_of_squeeze hname h)

/-- The name that an entry refers to stands in the list. -/
theorem name_stands_of_mem_entries (hentry : entry ∈ entries inside)
    (hname : isName entry.name.toList) : Stands entry.name.toList inside := by
  obtain ⟨piece, hpiece, hread⟩ := mem_filterMap.1 hentry
  exact stands_of_mem_splitOn hpiece (stands_of_squeeze hname (entry?_spec hread).2)

end Deadwood.Module

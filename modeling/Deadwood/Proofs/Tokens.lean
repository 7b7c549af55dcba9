import Deadwood.Reference.Token
import Mathlib.Data.List.Infix

/-!
# Tokens in a text

A name *stands* in a text where it occurs with no token character on either side. A name is counted
in a text exactly if it stands there (`countTokens_pos_iff`), so whether a count is zero can be
argued about occurrences. The remaining lemmas carry occurrences over between a text and its parts:
a text is cut at a character that the name does not hold, and an occurrence in a part is one in the
text if the neighbours of the part are no token characters.
-/

set_option autoImplicit false

namespace Deadwood.Text

open List

/-- A piece of a text that is cut at every `mark` holds characters of the text, and no mark. -/
theorem mem_of_mem_splitOn {mark : Char} {text piece : List Char} (h : piece ∈ text.splitOn mark)
    {c : Char} (hc : c ∈ piece) : c ∈ text ∧ c ≠ mark := by
  induction text generalizing piece with
  | nil =>
    obtain rfl : piece = [] := by simpa using h
    cases hc
  | cons d text ih =>
    rw [splitOn_cons_eq_if_modifyHead] at h
    split at h
    · rcases mem_cons.1 h with rfl | h
      · cases hc
      · exact ⟨mem_cons_of_mem _ (ih h hc).1, (ih h hc).2⟩
    · rename_i hd
      obtain ⟨first, others, hcons⟩ := exists_cons_of_ne_nil (splitOn_ne_nil mark text)
      rw [hcons] at h ih
      rcases mem_cons.1 h with rfl | h
      · rcases mem_cons.1 hc with rfl | hc
        · exact ⟨mem_cons_self, by simpa using hd⟩
        · exact (ih mem_cons_self hc).imp (mem_cons_of_mem _) id
      · exact (ih (mem_cons_of_mem _ h) hc).imp (mem_cons_of_mem _) id

end Deadwood.Text

namespace Deadwood.Reference

open Text List

/-! ## Character classes

A token character belongs to names, and white space belongs to none. -/

variable {c : Char} {text part after : List Char} {parts : List (List Char)}

theorem toNat_lt_of_isAsciiWord (h : isAsciiWord c) : c.toNat < 0x80 := by
  delta isAsciiWord Char.isAlphanum Char.isAlpha Char.isUpper Char.isLower Char.isDigit at h
  simp only [Bool.or_eq_true, beq_iff_eq, decide_eq_true_eq, Bool.and_eq_true,
    UInt32.le_iff_toNat_le, ge_iff_le] at h
  have hc : c.toNat = c.val.toNat := rfl
  have hZ : 'Z'.val.toNat = 90 := rfl
  have hz : 'z'.val.toNat = 122 := rfl
  have h9 : '9'.val.toNat = 57 := rfl
  rcases h with h | rfl
  · omega
  · decide

theorem isIdent_of_isToken (h : isToken c) : isIdent c := by
  simp only [isToken, Bool.or_eq_true, beq_iff_eq] at h
  simp only [isIdent, Bool.or_eq_true, beq_iff_eq]
  rcases h with h | h
  · left
    rw [isWord, if_pos (toNat_lt_of_isAsciiWord h)]
    exact h
  · exact .inr h

theorem isIdent_of_isBlank (h : isBlank c) : isIdent c = false := by
  -- white space is a short list of code points, so the table of names is looked at only there
  have blanks : ∀ n ∈ [9, 10, 11, 12, 13, 28, 29, 30, 31, 32, 0x85, 0xa0, 0x1680, 0x2000, 0x2001,
      0x2002, 0x2003, 0x2004, 0x2005, 0x2006, 0x2007, 0x2008, 0x2009, 0x200a, 0x2028, 0x2029,
      0x202f, 0x205f, 0x3000], isIdent (Char.ofNat n) = false := by
    decide +kernel
  have hmem := blanks c.toNat (by
    simp only [isBlank, Bool.or_eq_true, Bool.and_eq_true, decide_eq_true_eq, beq_iff_eq] at h
    simp only [mem_cons, not_mem_nil, or_false]
    omega)
  rwa [Char.ofNat_toNat] at hmem

theorem isBlank_of_isIdent (h : isIdent c) : isBlank c = false := by
  by_contra hc
  rw [isIdent_of_isBlank (by simpa using hc)] at h
  exact Bool.noConfusion h

theorem isToken_of_not_isIdent (h : isIdent c = false) : isToken c = false := by
  by_contra hc
  rw [isIdent_of_isToken (by simpa using hc)] at h
  exact Bool.noConfusion h

theorem isBlank_of_isLineBlank (h : isLineBlank c) : isBlank c := by
  simp only [isLineBlank, Bool.or_eq_true, decide_eq_true_eq] at h
  rcases h with rfl | rfl <;> decide

/-! ## Edges -/

@[simp] theorem isEdge_some (c : Char) : isEdge (some c) = !isToken c := rfl

/-- No token goes on over a character that no name holds. -/
theorem isEdge_of_not_isIdent {c : Option Char} (h : ∀ d ∈ c, isIdent d = false) : isEdge c := by
  cases c with
  | none => rfl
  | some d => simp [isToken_of_not_isIdent (h d rfl)]

theorem isEdge_of_isBlank {c : Option Char} (h : ∀ d ∈ c, isBlank d) : isEdge c :=
  isEdge_of_not_isIdent fun d hd => isIdent_of_isBlank (h d hd)

/-! ## Occurrences -/

/-- `name` occurs in the text that follows the character `previous`, with no token character on
either side. -/
def StandsAfter (previous : Option Char) (name text : List Char) : Prop :=
  ∃ head tail, text = head ++ name ++ tail ∧ isEdge (head.getLast?.or previous) = true ∧
    isEdge tail.head? = true

/-- `name` occurs in the text with no token character on either side. -/
def Stands (name text : List Char) : Prop := StandsAfter none name text

theorem getLast?_cons_or (c : Char) (head : List Char) (previous : Option Char) :
    (c :: head).getLast?.or previous = head.getLast?.or (some c) := by
  rw [getLast?_cons]
  cases head.getLast? <;> rfl

theorem countFrom_pos_iff {name : List Char} (hname : name ≠ []) (previous : Option Char)
    (text : List Char) : 0 < countFrom name previous text ↔ StandsAfter previous name text := by
  fun_induction countFrom name previous text with
  | case1 previous hcond =>
    simp only [Bool.and_eq_true, List.isEmpty_iff] at hcond
    exact absurd hcond.1 hname
  | case2 previous hcond =>
    simp only [Nat.lt_irrefl, false_iff]
    rintro ⟨head, tail, htext, -, -⟩
    simp_all
  | case3 previous c cs hmatch more ih =>
    simp only [Bool.and_eq_true] at hmatch
    obtain ⟨⟨hprev, hbegin⟩, hnext⟩ := hmatch
    obtain ⟨tail, htail⟩ := isPrefixOf_iff_prefix.1 hbegin
    refine iff_of_true (by omega) ⟨[], tail, by simp [htail], by simpa using hprev, ?_⟩
    rwa [← htail, drop_left] at hnext
  | case4 previous c cs hmatch ih =>
    rw [ih]
    constructor
    · rintro ⟨head, tail, rfl, hedge, hnext⟩
      exact ⟨c :: head, tail, by simp, by rwa [getLast?_cons_or], hnext⟩
    · rintro ⟨head, tail, htext, hedge, hnext⟩
      cases head with
      | nil =>
        -- an occurrence at the beginning would have been counted
        rw [nil_append] at htext
        refine absurd ?_ hmatch
        rw [htext, drop_left]
        simpa [hnext] using hedge
      | cons d head =>
        simp only [cons_append, cons.injEq] at htext
        obtain ⟨rfl, rfl⟩ := htext
        exact ⟨head, tail, rfl, by rwa [getLast?_cons_or] at hedge, hnext⟩

theorem countFrom_eq_zero {name : List Char} (h : cutAt name text = none)
    (previous : Option Char) : countFrom name previous text = 0 := by
  induction text generalizing previous with
  | nil =>
    rw [cutAt] at h
    rw [countFrom]
    split at h <;> simp_all
  | cons c cs ih =>
    rw [cutAt] at h
    rw [countFrom]
    split at h
    · cases h
    · rename_i hbegin
      simp only [hbegin, Bool.and_false, Bool.false_and, Bool.false_eq_true, if_false]
      exact ih (Option.map_eq_none_iff.1 h) _

/-- Looking for the name first does not change what is counted. -/
theorem countTokens_eq (name : String) (text : List Char) :
    countTokens name text = countFrom name.toList none text := by
  unfold countTokens occursIn
  split
  · rfl
  · rename_i habsent
    exact (countFrom_eq_zero (by simpa using habsent) none).symm

/-- A name is counted in a text exactly if it stands there. -/
theorem countTokens_pos_iff {name : String} (hname : name.toList ≠ []) (text : List Char) :
    0 < countTokens name text ↔ Stands name.toList text := by
  rw [countTokens_eq]
  exact countFrom_pos_iff hname none text

theorem countTokens_eq_zero_iff {name : String} (hname : name.toList ≠ []) (text : List Char) :
    countTokens name text = 0 ↔ ¬ Stands name.toList text := by
  rw [← countTokens_pos_iff hname, Nat.pos_iff_ne_zero, not_not]

/-! ## Parts of a text -/

variable {name : List Char}

theorem stands_iff : Stands name text ↔
    ∃ head tail, text = head ++ name ++ tail ∧ isEdge head.getLast? ∧ isEdge tail.head? := by
  simp [Stands, StandsAfter]

/-- A part of a text whose neighbours are no token characters hands its occurrences on. -/
theorem Stands.widen (h : Stands name part) {before : List Char}
    (hbefore : isEdge before.getLast?) (hafter : isEdge after.head?) :
    Stands name (before ++ part ++ after) := by
  obtain ⟨head, tail, rfl, hhead, htail⟩ := stands_iff.1 h
  refine stands_iff.2 ⟨before ++ head, tail ++ after, by simp, ?_, ?_⟩
  · rw [getLast?_append]
    cases hlast : head.getLast? with
    | none => simpa using hbefore
    | some c => simpa [hlast] using hhead
  · rw [head?_append]
    cases hfirst : tail.head? with
    | none => simpa using hafter
    | some c => simpa [hfirst] using htail

/-- A name occurs in the part before or in the part after a character that it does not hold. -/
theorem Stands.split {before : List Char} (hc : c ∉ name) (h : Stands name (before ++ c :: after)) :
    Stands name before ∨ Stands name after := by
  obtain ⟨head, tail, htext, hhead, htail⟩ := stands_iff.1 h
  rcases append_eq_append_iff.1 htext with ⟨rest, hleft, hright⟩ | ⟨rest, rfl, rfl⟩
  · cases rest with
    | nil =>
      rw [append_nil] at hleft
      exact .inl (stands_iff.2 ⟨head, [], by simp [hleft], hhead, rfl⟩)
    | cons d rest =>
      simp only [cons_append, cons.injEq] at hright
      obtain ⟨rfl, rfl⟩ := hright
      rcases append_eq_append_iff.1 hleft with ⟨mid, -, rfl⟩ | ⟨mid, rfl, hmid⟩
      · exact absurd (by simp) hc
      · cases mid with
        | nil =>
          rw [nil_append] at hmid
          exact absurd (hmid ▸ mem_cons_self) hc
        | cons d mid =>
          simp only [cons_append, cons.injEq] at hmid
          obtain ⟨rfl, rfl⟩ := hmid
          refine .inr (stands_iff.2 ⟨mid, tail, rfl, ?_, htail⟩)
          cases hlast : mid.getLast? with
          | none => rfl
          | some e => simpa [getLast?_cons, hlast] using hhead
  · refine .inl (stands_iff.2 ⟨head, rest, rfl, hhead, ?_⟩)
    cases rest with
    | nil => rfl
    | cons d rest => simpa using htail

theorem not_stands_nil (hname : name ≠ []) : ¬ Stands name [] := by
  intro h
  obtain ⟨head, tail, htext, -, -⟩ := stands_iff.1 h
  simp_all

/-- Characters in front of a text that the name does not hold add no occurrence. -/
theorem Stands.of_append {front : List Char} (hname : name ≠ []) (hfront : ∀ c ∈ front, c ∉ name)
    (h : Stands name (front ++ text)) : Stands name text := by
  induction front with
  | nil => exact h
  | cons c front ih =>
    have hcut : Stands name ([] ++ c :: (front ++ text)) := h
    rcases hcut.split (hfront c (by simp)) with h | h
    · exact absurd h (not_stands_nil hname)
    · exact ih (fun d hd => hfront d (by simp [hd])) h

/-! ## Texts put together from parts -/

/-- A name that shares no character with the separator occurs in one of the parts. -/
theorem Stands.of_intercalate {separator : List Char} (hname : name ≠ []) (hnil : separator ≠ [])
    (hsep : ∀ c ∈ separator, c ∉ name) (h : Stands name (separator.intercalate parts)) :
    ∃ part ∈ parts, Stands name part := by
  induction parts with
  | nil => exact absurd h (not_stands_nil hname)
  | cons part parts ih =>
    cases parts with
    | nil => exact ⟨part, by simp, by simpa using h⟩
    | cons next parts =>
      obtain ⟨c, rest, rfl⟩ := exists_cons_of_ne_nil hnil
      rw [intercalate_cons_cons, append_assoc, cons_append] at h
      rcases h.split (hsep c (by simp)) with h | h
      · exact ⟨part, by simp, h⟩
      · obtain ⟨found, hmem, hfound⟩ := ih (h.of_append hname fun d hd => hsep d (by simp [hd]))
        exact ⟨found, mem_cons_of_mem _ hmem, hfound⟩

/-- Parts divided by a character that no token holds hand their occurrences on. -/
theorem Stands.intercalate (hc : isToken c = false) (h : Stands name part) (hmem : part ∈ parts) :
    Stands name ([c].intercalate parts) := by
  induction parts with
  | nil => cases hmem
  | cons first parts ih =>
    cases parts with
    | nil =>
      obtain rfl := mem_singleton.1 hmem
      simpa using h
    | cons next parts =>
      rw [intercalate_cons_cons]
      rcases mem_cons.1 hmem with rfl | hmem
      · have hwide : Stands name ([] ++ part ++ ([c] ++ [c].intercalate (next :: parts))) :=
          h.widen rfl (by simpa using hc)
        simpa using hwide
      · have hwide : Stands name (first ++ [c] ++ [c].intercalate (next :: parts) ++ []) :=
          (ih hmem).widen (by simpa using hc) rfl
        simpa using hwide

end Deadwood.Reference

import Deadwood.Proofs.Rendering

/-!
# Lists in any layout

A list may be written with any blanks and line breaks between the words of its entries and around
its commas, and with a comma after its last entry (`Listing`). Its names may be any words, those
that have a meaning in a list included. It is read as one entry for each item, and each entry is
read again from its text.

The word `type` at the beginning of an item is always taken for the mark of a type. So an item that
gives another name to something called `type` is misread, and no other item is
(`entries_of_listing`).
-/

set_option autoImplicit false

namespace Deadwood.Module

open Text Reference List

/-! ## Layout -/

/-- The text consists of words with blanks between them, and perhaps around them. -/
inductive Spaced : List (List Char) → List Char → Prop
  | nil {blanks : List Char} (hblanks : ∀ c ∈ blanks, isBlank c = true) : Spaced [] blanks
  | cons {blanks word rest : List Char} {list : List (List Char)}
      (hblanks : ∀ c ∈ blanks, isBlank c = true) (hrest : ∀ c ∈ rest.head?, isBlank c = true)
      (h : Spaced list rest) : Spaced (word :: list) (blanks ++ (word ++ rest))

theorem Spaced.cons_of_all {blanks word rest : List Char} {list : List (List Char)}
    (hblanks : blanks.all isBlank) (hrest : rest.head?.all isBlank)
    (h : Spaced list rest) : Spaced (word :: list) (blanks ++ (word ++ rest)) :=
  .cons (all_eq_true.1 hblanks) ((Option.all_eq_true _ _).1 hrest) h

theorem words_blanks_append {blanks rest : List Char} (h : ∀ c ∈ blanks, isBlank c) :
    words (blanks ++ rest) = words rest := by
  induction blanks with
  | nil => rfl
  | cons c blanks ih =>
    rw [cons_append, words_cons_of_isBlank (h c mem_cons_self),
      ih fun d hd => h d (mem_cons_of_mem _ hd)]

section

variable {list : List (List Char)} {text : List Char} (h : Spaced list text)
  (hlist : ∀ word ∈ list, isName word = true)
include h hlist

theorem Spaced.words_eq : words text = list := by
  induction h with
  | nil hblanks => exact words_of_isBlank hblanks
  | cons hblanks hrest _ ih =>
    obtain ⟨hne, hword⟩ := word_of_isName (hlist _ mem_cons_self)
    rw [words_blanks_append hblanks, words_append hne hword hrest,
      ih fun word hmem => hlist word (mem_cons_of_mem _ hmem)]

theorem Spaced.not_mem {c : Char} (hident : isIdent c = false) (hblank : isBlank c = false) :
    c ∉ text := by
  have hblanks : ∀ {cs : List Char}, (∀ d ∈ cs, isBlank d) → c ∉ cs := fun h hc => by
    simp [h c hc] at hblank
  induction h with
  | nil h => exact hblanks h
  | cons h _ _ ih =>
    rw [mem_append, mem_append, not_or, not_or]
    exact ⟨hblanks h, not_mem_of_isName (hlist _ mem_cons_self) hident,
      ih fun word hmem => hlist word (mem_cons_of_mem _ hmem)⟩

end

/-! ## Items -/

/-- An item of a list: `a`, `a as b`, `type a` or `type a as b`, where the names are any words. -/
structure Wording where
  typeOnly : Bool
  name : List Char
  outer : Option (List Char)
  isName_name : isName name = true
  isName_outer : ∀ word ∈ outer, isName word = true

namespace Wording

variable (item : Wording)

def words : List (List Char) := entryWords item.typeOnly item.name item.outer

/-- What an item says. -/
def entry : Entry where
  name := String.ofList item.name
  exportedAs := String.ofList (item.outer.getD item.name)
  text := String.ofList ([' '].intercalate item.words)

/-- The item gives another name to something called `type`: `type as b`. -/
def RenamesType : Prop :=
  item.typeOnly = false ∧ item.name = "type".toList ∧ item.outer.isSome = true

instance : Decidable item.RenamesType := inferInstanceAs (Decidable (_ ∧ _ ∧ _))

variable {item} {piece : List Char}

theorem isName_of_mem_words {word : List Char} (h : word ∈ item.words) : isName word := by
  obtain ⟨typeOnly, name, outer, hname, houter⟩ := item
  simp only [words, entryWords, mem_append, mem_cons] at h
  rcases h with h | rfl | h
  · cases typeOnly with
    | true => exact mem_singleton.1 h ▸ by decide
    | false => cases h
  · exact hname
  · cases outer with
    | none => cases h
    | some outer =>
      rcases mem_cons.1 h with rfl | h
      · decide
      · exact mem_singleton.1 h ▸ houter outer rfl

/-- The first word is taken for a mark, and the other two words for one name. -/
theorem entry?_of_renamesType (hrenames : item.RenamesType) (h : Spaced item.words piece) :
    ∃ entry, entry? piece = some entry ∧ entry.text = item.entry.text ∧ entry ≠ item.entry := by
  obtain ⟨typeOnly, name, outer, hname, houter⟩ := item
  obtain ⟨rfl, rfl, hsome⟩ := hrenames
  obtain ⟨outer, rfl⟩ := Option.isSome_iff_exists.1 hsome
  obtain ⟨hne, hblank⟩ := word_of_isName (houter outer rfl)
  have hspace : ' ' ∉ outer := not_mem_of_isName (houter outer rfl) (by decide)
  have htext : squeeze piece = "type ".toList ++ ("as ".toList ++ outer) := by
    rw [squeeze, h.words_eq fun _ => isName_of_mem_words]
    simp [words, entryWords, intercalate_cons_cons]
  have hbody : (if "type ".toList.isPrefixOf (squeeze piece) then (squeeze piece).drop 5
      else squeeze piece) = "as ".toList ++ outer := by
    rw [htext, if_pos (List.isPrefixOf_iff_prefix.2 (prefix_append _ _))]
    rfl
  have hcut : cutAt " as ".toList ("as ".toList ++ outer) = none := by
    rw [Option.eq_none_iff_forall_ne_some]
    rintro ⟨front, back⟩ hparts
    -- there is one space in the text, and two in the mark
    have hcount := congrArg (count ' ') (eq_of_cutAt hparts)
    simp [count_append, count_eq_zero.2 hspace] at hcount
    omega
  have htrim : trim ("as ".toList ++ outer) = "as ".toList ++ outer := by
    have hend := @trimEnd_append_word "as ".toList outer [] hne hblank (by simp)
    rwa [append_nil] at hend
  refine ⟨⟨String.ofList ("as ".toList ++ outer), String.ofList ("as ".toList ++ outer),
    String.ofList (squeeze piece)⟩, ?_, ?_, fun heq => ?_⟩
  · unfold entry?
    simp only [hbody, hcut, Option.getD_none, htrim]
    rfl
  · rw [htext]
    simp [entry, words, entryWords, intercalate_cons_cons]
  · have hname := congrArg String.toList (Entry.mk.inj heq).1
    simp at hname

/-- An item is read as an entry with its words, which says what the item says unless it is
misread. -/
theorem exists_entry (h : Spaced item.words piece) : ∃ entry, entry? piece = some entry ∧
    entry.text = item.entry.text ∧ (entry = item.entry ↔ ¬ item.RenamesType) := by
  by_cases hrenames : item.RenamesType
  · obtain ⟨entry, hentry, htext, hne⟩ := entry?_of_renamesType hrenames h
    exact ⟨entry, hentry, htext, iff_of_false hne (not_not.2 hrenames)⟩
  · refine ⟨item.entry, ?_, rfl, iff_of_true rfl hrenames⟩
    refine entry?_of_words item.isName_name item.isName_outer (fun htype hname => ?_)
      (h.words_eq fun _ => isName_of_mem_words)
    by_contra houter
    exact hrenames ⟨htype, hname, Option.isSome_iff_ne_none.2 houter⟩

end Wording

/-! ## Lists -/

/-- The text is the inside of a list with the given items. What follows the last comma may be
blank. -/
inductive Listing : List Wording → List Char → Prop
  | nil {blanks : List Char} (hblanks : ∀ c ∈ blanks, isBlank c = true) : Listing [] blanks
  | last {item : Wording} {piece : List Char} (h : Spaced item.words piece) : Listing [item] piece
  | cons {item : Wording} {items : List Wording} {piece rest : List Char}
      (h : Spaced item.words piece) (hrest : Listing items rest) :
      Listing (item :: items) (piece ++ ',' :: rest)

variable {items : List Wording} {text : List Char}

/-- There is one entry for each item, as the item alone is read. -/
theorem Listing.forall₂ (h : Listing items text) : List.Forall₂ (fun item entry =>
    entry.text = item.entry.text ∧ (entry = item.entry ↔ ¬ item.RenamesType))
    items (entries text) := by
  have hcomma : ∀ {item : Wording} {piece : List Char}, Spaced item.words piece → ',' ∉ piece :=
    fun h => h.not_mem (fun _ => Wording.isName_of_mem_words) (by decide) (by decide)
  induction h with
  | @nil blanks hblanks =>
    have hnone : ',' ∉ blanks := fun hc => absurd (hblanks _ hc) (by decide)
    rw [entries, splitOn_eq_singleton hnone,
      filterMap_cons_none (entry?_of_isBlank hblanks)]
    exact .nil
  | last h =>
    obtain ⟨entry, hentry, hsays⟩ := Wording.exists_entry h
    rw [entries, splitOn_eq_singleton (hcomma h), filterMap_cons_some hentry]
    exact .cons hsays .nil
  | cons h _ ih =>
    obtain ⟨entry, hentry, hsays⟩ := Wording.exists_entry h
    rw [entries, splitOn_append_cons_self_of_not_mem (hcomma h),
      filterMap_cons_some hentry]
    exact .cons hsays ih

/-- An entry is read again from its text. -/
theorem entries_text {entry : Entry} (h : entry ∈ entries text) :
    entries entry.text.toList = [entry] := by
  obtain ⟨piece, hpiece, hread⟩ := mem_filterMap.1 h
  have hcomma : ',' ∉ entry.text.toList := fun hc => by
    rcases mem_of_mem_text h hc with hspace | ⟨-, hne, -⟩
    · exact absurd hspace (by decide)
    · exact hne rfl
  have hagain : entry? entry.text.toList = some entry := by
    have hpad := @entry?_pad piece entry hread [] (by simp)
    rw [← hpad]
    exact entry?_congr (by simp [squeeze, words_cons_of_isBlank (show isBlank ' ' from rfl)])
  rw [entries, splitOn_eq_singleton hcomma, filterMap_cons_some hagain,
    filterMap_nil]

/-- A list in any layout is read as one entry for each of its items, with the words of the item as
its text, and each entry is read again from its text. The entries say what the items say exactly if
no item gives another name to something called `type`. -/
theorem entries_of_listing (h : Listing items text) :
    (entries text).map Entry.text = items.map (·.entry.text) ∧
      (∀ entry ∈ entries text, entries entry.text.toList = [entry]) ∧
      (entries text = items.map Wording.entry ↔ ∀ item ∈ items, ¬ item.RenamesType) := by
  refine ⟨?_, fun entry => entries_text, ?_⟩
  · have hall := h.forall₂
    generalize entries text = found at hall
    clear h
    induction hall with
    | nil => rfl
    | cons hentry _ ih => rw [map_cons, map_cons, hentry.1, ih]
  · have hall := h.forall₂
    generalize entries text = found at hall
    clear h
    induction hall with
    | nil => simp
    | cons hentry _ ih =>
      rw [map_cons, cons.injEq, forall_mem_cons]
      exact and_congr hentry.2 ih

/-- Words that have a meaning elsewhere, on several lines, with a comma at the end. -/
theorem entries_of_listing_words :
    Listing [⟨true, "as".toList, some "type".toList, by decide, by decide⟩]
      "type\tas as\n type ,\n".toList ∧
    entries "type\tas as\n type ,\n".toList = [⟨"as", "type", "type as as type"⟩] := by
  have hlisting : Listing [⟨true, "as".toList, some "type".toList, by decide, by decide⟩]
      "type\tas as\n type ,\n".toList := by
    refine @Listing.cons _ _ "type\tas as\n type ".toList _ ?_ (.nil (all_eq_true.1 rfl))
    exact @Spaced.cons_of_all [] _ "\tas as\n type ".toList _ rfl rfl
      (@Spaced.cons_of_all ['\t'] _ " as\n type ".toList _ rfl rfl
        (@Spaced.cons_of_all [' '] _ "\n type ".toList _ rfl rfl
          (@Spaced.cons_of_all "\n ".toList _ [' '] _ rfl rfl (.nil (all_eq_true.1 rfl)))))
  exact ⟨hlisting, ((entries_of_listing hlisting).2.2.2 (by decide)).trans (by decide)⟩

/-- A new name for something called `type` is read as part of a name. -/
theorem type_renamed : Listing [⟨false, "type".toList, some ['b'], by decide, by decide⟩]
      "type as b".toList ∧ entries "type as b".toList = [⟨"as b", "as b", "type as b"⟩] := by
  refine ⟨.last (@Spaced.cons_of_all [] _ " as b".toList _ rfl rfl
    (@Spaced.cons_of_all [' '] _ " b".toList _ rfl rfl
      (@Spaced.cons_of_all [' '] _ [] _ rfl rfl (.nil (by simp))))), ?_⟩
  decide +kernel

end Deadwood.Module

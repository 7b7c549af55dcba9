import Deadwood.Proofs.Lexing
import Deadwood.Proofs.Tokens

/-!
# The shape beside its source

A shape has the length of its source, and in each place the character of the source or a space. A
name that can be read in the shape is code, so it stands in the source as well, and what touches it
in the source touches it in the shape: a comment or a literal never continues a name. `Masks` states
this for neighbouring places, and `Masks.stands` is what the counting of references relies on: a
name that stands in the shape stands in the source.
-/

set_option autoImplicit false

namespace Deadwood.Module

open Text Reference List

/-- Two neighbouring places, each with its character in the source and in the shape. Where one of
them holds a character of a name in the shape, the other shows such a character if it has one. -/
def Beside (a b : Char × Char) : Prop :=
  (isIdent b.2 = true → isIdent a.1 = true → a.2 = a.1) ∧
    (isIdent a.2 = true → isIdent b.1 = true → b.2 = b.1)

/-- `masked` is `source` with some characters replaced by spaces, none of which touches a name that
is left. -/
structure Masks (source masked : List Char) : Prop where
  length_eq : source.length = masked.length
  same_or_space : ∀ p ∈ source.zip masked, p.2 = p.1 ∨ p.2 = ' '
  chain : (source.zip masked).IsChain Beside

/-! ## Lexemes -/

theorem blanked_eq (c : Char) : blanked c = c ∨ blanked c = ' ' := by
  unfold blanked
  split
  · rename_i h
    exact .inl h.symm
  · exact .inr rfl

theorem isBlank_blanked (c : Char) : isBlank (blanked c) := by
  unfold blanked
  split <;> decide

/-- The character opens a literal or a comment, or closes one. -/
def isMark (c : Char) : Bool := ['/', '\'', '"', '`'].contains c

variable {rest source masked masked' : List Char} {lexeme : Lexeme} {c : Char}

/-- A lexeme other than a character of code shows blanks and marks. -/
theorem Reads.blank_or_mark {before : List Char} (h : Reads before lexeme rest) :
    (∃ c, lexeme = .code c) ∨ ∀ c ∈ lexeme.shape, isBlank c ∨ isMark c := by
  have hbody : ∀ body : List Char, ∀ c ∈ body.map blanked, isBlank c := by
    intro body c hc
    obtain ⟨d, -, rfl⟩ := mem_map.1 hc
    exact isBlank_blanked d
  have hliteral : ∀ (mark : Char) (body : List Char) (close : Option Char), isMark mark →
      (∀ d ∈ close, d = mark) →
      ∀ c ∈ (Lexeme.literal mark body close).shape, isBlank c ∨ isMark c := by
    intro mark body close hmark hclose c hc
    simp only [Lexeme.shape, mem_cons, mem_append, Option.mem_toList] at hc
    rcases hc with rfl | hc | hc
    · exact .inr hmark
    · exact .inl (hbody body c hc)
    · exact .inr (hclose c hc ▸ hmark)
  have hquotes : ∀ quote : Char, quote = '\'' ∨ quote = '"' → isMark quote := by
    rintro quote (rfl | rfl) <;> rfl
  cases h with
  | lineComment | blockComment => exact .inr fun c hc => .inl (hbody _ c hc)
  | slash | plain => exact .inl ⟨_, rfl⟩
  | pattern => exact .inr (hliteral _ _ _ rfl (by rintro d ⟨⟩; rfl))
  | quoted hquote => exact .inr (hliteral _ _ _ (hquotes _ hquote) (by rintro d ⟨⟩; rfl))
  | unclosed hquote => exact .inr (hliteral _ _ _ (hquotes _ hquote) (by rintro d ⟨⟩))
  | template => exact .inr (hliteral _ _ _ rfl (by rintro d ⟨⟩; rfl))

theorem not_isIdent_of_isMark (h : isMark c) : isIdent c = false := by
  simp only [isMark, contains_iff_mem, mem_cons, not_mem_nil, or_false] at h
  rcases h with rfl | rfl | rfl | rfl <;> decide

section

variable {before : List Char} (h : Reads before lexeme rest)
include h

/-- A lexeme other than a character of code shows no character of a name. -/
theorem Reads.not_isIdent_shape :
    (∃ c, lexeme = .code c) ∨ ∀ c ∈ lexeme.shape, isIdent c = false := by
  refine h.blank_or_mark.imp id fun hshows c hc => ?_
  rcases hshows c hc with hblank | hmark
  · exact isIdent_of_isBlank hblank
  · exact not_isIdent_of_isMark hmark

/-- The first character of a lexeme is kept, unless it is the slash that opens a comment. -/
theorem Reads.exists_first :
    ∃ c d text shape, lexeme.text = c :: text ∧ lexeme.shape = d :: shape ∧ (d = c ∨ c = '/') := by
  cases h with
  | lineComment | blockComment => exact ⟨_, _, _, _, rfl, rfl, .inr rfl⟩
  | pattern | slash | quoted | unclosed | template | plain =>
    exact ⟨_, _, _, _, rfl, rfl, .inl rfl⟩

/-- The last character of a lexeme is kept, or no name holds it, or a line break follows. -/
theorem Reads.exists_last :
    ∃ text c shape d, lexeme.text = text ++ [c] ∧ lexeme.shape = shape ++ [d] ∧
      (d = c ∨ isIdent c = false ∨ ∀ e ∈ rest.head?, e = '\n') := by
  -- the lexemes that a line break ends have a last character like any other
  have hsome : ∃ text c shape d, lexeme.text = text ++ [c] ∧ lexeme.shape = shape ++ [d] := by
    have hne := Lexeme.text_ne_nil_of_reads h
    have hne' : lexeme.shape ≠ [] := by
      rw [← length_pos_iff, Lexeme.length_shape]
      exact length_pos_iff.2 hne
    obtain ⟨text, c, htext⟩ := (eq_nil_or_concat' lexeme.text).resolve_left hne
    obtain ⟨shape, d, hshape⟩ := (eq_nil_or_concat' lexeme.shape).resolve_left hne'
    exact ⟨text, c, shape, d, htext, hshape⟩
  cases h with
  | lineComment hbody hrest =>
    obtain ⟨text, c, shape, d, htext, hshape⟩ := hsome
    exact ⟨text, c, shape, d, htext, hshape, .inr (.inr hrest)⟩
  | @blockComment body =>
    exact ⟨'/' :: '*' :: body ++ ['*'], '/', (('/' :: '*' :: body ++ ['*']).map blanked), ' ',
      by simp [Lexeme.text], by simp [Lexeme.shape, blanked], .inr (.inl (by decide))⟩
  | @pattern c body =>
    exact ⟨'/' :: c :: body, '/', '/' :: (c :: body).map blanked, '/', by simp [Lexeme.text],
      by simp [Lexeme.shape], .inl rfl⟩
  | slash => exact ⟨[], '/', [], '/', rfl, rfl, .inl rfl⟩
  | @quoted quote body =>
    exact ⟨quote :: body, quote, quote :: body.map blanked, quote, by simp [Lexeme.text],
      by simp [Lexeme.shape], .inl rfl⟩
  | unclosed hquote hbody hrest =>
    obtain ⟨text, c, shape, d, htext, hshape⟩ := hsome
    exact ⟨text, c, shape, d, htext, hshape, .inr (.inr hrest)⟩
  | @template body =>
    exact ⟨'`' :: body, '`', '`' :: body.map blanked, '`', by simp [Lexeme.text],
      by simp [Lexeme.shape], .inl rfl⟩
  | @plain c => exact ⟨[], c, [], c, rfl, rfl, .inl rfl⟩

end

/-! ## From lexemes to texts -/

/-- Neighbours of which neither shows a character of a name are beside each other. -/
theorem isChain_beside {pairs : List (Char × Char)} (h : ∀ p ∈ pairs, isIdent p.2 = false) :
    pairs.IsChain Beside := by
  refine (pairwise_of_forall_mem_list fun a ha b hb => ?_).isChain
  exact ⟨fun hident => absurd hident (by simp [h b hb]),
    fun hident => absurd hident (by simp [h a ha])⟩

theorem Reads.masks {before : List Char} (h : Reads before lexeme rest) :
    Masks lexeme.text lexeme.shape where
  length_eq := lexeme.length_shape.symm
  same_or_space := by
    have hblank : ∀ body : List Char, ∀ p ∈ body.zip (body.map blanked),
        p.2 = p.1 ∨ p.2 = ' ' := by
      intro body p hp
      rw [zip_map_right, mem_map] at hp
      obtain ⟨q, hq, rfl⟩ := hp
      obtain ⟨c, -, rfl⟩ : ∃ c, c ∈ body ∧ (c, c) = q := by
        simpa [zip_eq_zipWith, zipWith_self] using hq
      exact blanked_eq c
    intro p hp
    cases lexeme with
    | code c =>
      obtain rfl : p = (c, c) := by simpa [Lexeme.text, Lexeme.shape] using hp
      exact .inl rfl
    | comment text => exact hblank text p hp
    | literal mark body close =>
      have hzip : (Lexeme.literal mark body close).text.zip (Lexeme.literal mark body close).shape =
          (mark, mark) :: (body.zip (body.map blanked) ++ close.toList.zip close.toList) := by
        simp [Lexeme.text, Lexeme.shape, zip_append]
      rw [hzip, mem_cons, mem_append] at hp
      rcases hp with rfl | hp | hp
      · exact .inl rfl
      · exact hblank body p hp
      · cases close with
        | none => cases hp
        | some c =>
          obtain rfl : p = (c, c) := by simpa using hp
          exact .inl rfl
  chain := by
    rcases h.not_isIdent_shape with ⟨c, rfl⟩ | hshape
    · simp [Lexeme.text, Lexeme.shape]
    · exact isChain_beside fun p hp => hshape p.2 (of_mem_zip hp).2

/-- Two texts are masked one after the other if their neighbouring ends are beside each other. -/
theorem Masks.append {source' : List Char} (h : Masks source masked) (h' : Masks source' masked')
    (hborder : ∀ a ∈ (source.zip masked).getLast?, ∀ b ∈ (source'.zip masked').head?, Beside a b) :
    Masks (source ++ source') (masked ++ masked') where
  length_eq := by simp [h.length_eq, h'.length_eq]
  same_or_space := by
    rw [zip_append h.length_eq]
    intro p hp
    rcases mem_append.1 hp with hp | hp
    · exact h.same_or_space p hp
    · exact h'.same_or_space p hp
  chain := by
    rw [zip_append h.length_eq, isChain_append]
    exact ⟨h.chain, h'.chain, hborder⟩

/-- The shape of a text masks it. -/
theorem Lexes.masks {before text : List Char} {lexemes : List Lexeme}
    (h : Lexes before text lexemes) : Masks text (lexemes.flatMap Lexeme.shape) := by
  induction h with
  | nil => exact ⟨rfl, by simp, by simp⟩
  | @cons before rest lexeme lexemes first others ih =>
    rw [flatMap_cons]
    refine first.masks.append ih ?_
    intro a ha b hb
    obtain ⟨text, c, shape, d, htext, hshape, hlast⟩ := first.exists_last
    have hlength : text.length = shape.length := by
      have := lexeme.length_shape
      simp only [htext, hshape, length_append, length_cons, length_nil] at this
      omega
    obtain rfl : (c, d) = a := by
      simpa [htext, hshape, zip_append hlength] using ha
    -- what follows is the first character of the next lexeme
    cases others with
    | nil => simp at hb
    | @cons _ rest lexeme' lexemes next others =>
      obtain ⟨e, f, text', shape', htext', hshape', hfirst⟩ := next.exists_first
      obtain rfl : (e, f) = b := by simpa [htext', hshape'] using hb
      have hline : (∀ x ∈ (lexeme'.text ++ rest).head?, x = '\n') → e = '\n' := by
        intro hx
        exact hx e (by simp [htext'])
      constructor
      · -- a name in the shape follows: a last character of a name is shown
        intro hf hc
        rcases hlast with hd | hd | hx
        · exact hd
        · simp [hd] at hc
        · obtain rfl := hline hx
          rcases hfirst with rfl | hslash
          · exact absurd hf (by decide)
          · exact absurd hslash (by decide)
      · intro hd he
        rcases hfirst with hf | rfl
        · exact hf
        · have hslash : isIdent '/' := he
          exact absurd hslash (by decide)

/-- A text with a shape is masked by it. -/
theorem masks_of_shape (h : shape source = .ok masked) : Masks source masked := by
  obtain ⟨-, lexemes, hlexes, rfl⟩ := shape_eq_ok_iff.1 h
  exact hlexes.masks

/-! ## Names in the shape -/

/-- Where the shape is cut, the source is cut at the same place. -/
theorem Masks.cut (h : Masks source (masked ++ masked')) :
    ∃ text text', source = text ++ text' ∧ Masks text masked ∧ Masks text' masked' ∧
      ∀ a ∈ (text.zip masked).getLast?, ∀ b ∈ (text'.zip masked').head?, Beside a b := by
  have hlength := h.length_eq
  rw [length_append] at hlength
  have hleft : (source.take masked.length).length = masked.length := by
    rw [length_take]
    omega
  have hzip : source.zip (masked ++ masked') =
      (source.take masked.length).zip masked ++ (source.drop masked.length).zip masked' := by
    rw [← zip_append hleft, take_append_drop]
  have hchain := h.chain
  rw [hzip, isChain_append] at hchain
  refine ⟨source.take masked.length, source.drop masked.length,
    (take_append_drop _ _).symm, ⟨hleft, ?_, hchain.1⟩, ⟨?_, ?_, hchain.2.1⟩, hchain.2.2⟩
  · intro p hp
    exact h.same_or_space p (hzip ▸ mem_append_left _ hp)
  · rw [length_drop]
    omega
  · intro p hp
    exact h.same_or_space p (hzip ▸ mem_append_right _ hp)

/-- A part of the shape without a space is the source itself. -/
theorem Masks.eq_of_no_space (h : Masks source masked) (hspace : ' ' ∉ masked) :
    source = masked := by
  refine ext_getElem h.length_eq fun i hi hi' => ?_
  have hmem : (source[i], masked[i]) ∈ source.zip masked :=
    mem_iff_getElem.2 ⟨i, by rw [length_zip]; omega, by simp⟩
  rcases h.same_or_space _ hmem with heq | heq
  · exact heq.symm
  · exact absurd (heq ▸ getElem_mem hi') hspace

theorem Masks.getLast?_zip (h : Masks source masked) (hc : c ∈ source.getLast?) :
    ∃ d ∈ masked.getLast?, (c, d) ∈ (source.zip masked).getLast? := by
  obtain ⟨text, rfl⟩ := getLast?_eq_some_iff.1 hc
  have hne : masked ≠ [] := by
    rw [← length_pos_iff, ← h.length_eq]
    simp
  obtain ⟨shape, d, rfl⟩ := (eq_nil_or_concat' masked).resolve_left hne
  have hlength : text.length = shape.length := by
    have := h.length_eq
    simp only [length_append, length_cons, length_nil] at this
    omega
  exact ⟨d, by simp, by simp [zip_append hlength]⟩

theorem Masks.head?_zip (h : Masks source masked) (hc : c ∈ source.head?) :
    ∃ d ∈ masked.head?, (c, d) ∈ (source.zip masked).head? := by
  obtain ⟨text, rfl⟩ := head?_eq_some_iff.1 hc
  cases masked with
  | nil => simpa using h.length_eq
  | cons d masked => exact ⟨d, rfl, rfl⟩

section Neighbours

variable {text text' masked masked' : List Char} {c : Char} {p : Char → Bool}

section

variable (h : Masks (text ++ text') (masked ++ masked')) (hlength : text.length = masked.length)
  (hp : ∀ d, p d = true → isIdent d = true)
include h hlength hp

/-- Before a name in the shape, no character of a class of name characters is hidden. -/
theorem Masks.any_before (hnext : c ∈ masked'.head?) (hc : isIdent c)
    (hfree : masked.getLast?.any p = false) : text.getLast?.any p = false := by
  obtain ⟨left, right, htext, hleft, hright, hborder⟩ := h.cut
  obtain ⟨rfl, rfl⟩ := append_inj htext (hlength.trans hleft.length_eq.symm)
  rw [Option.any_eq_false] at hfree ⊢
  intro d hd
  by_contra hpd
  rw [Bool.not_eq_false] at hpd
  obtain ⟨e, he, hlast⟩ := hleft.getLast?_zip hd
  cases text' with
  | nil =>
    have := hright.length_eq
    simp only [length_nil, eq_comm, length_eq_zero_iff] at this
    simp [this] at hnext
  | cons f text' =>
    obtain ⟨g, hg, hfirst⟩ := hright.head?_zip (c := f) rfl
    obtain rfl : g = c := Option.some.inj (hg.symm.trans hnext)
    have heq : e = d := (hborder _ hlast _ hfirst).1 hc (hp d hpd)
    rw [← heq, hfree e he] at hpd
    cases hpd

/-- After a name in the shape, no character of a class of name characters is hidden. -/
theorem Masks.any_after (hlast : c ∈ masked.getLast?) (hc : isIdent c)
    (hfree : masked'.head?.any p = false) : text'.head?.any p = false := by
  obtain ⟨left, right, htext, hleft, hright, hborder⟩ := h.cut
  obtain ⟨rfl, rfl⟩ := append_inj htext (hlength.trans hleft.length_eq.symm)
  rw [Option.any_eq_false] at hfree ⊢
  intro d hd
  by_contra hpd
  rw [Bool.not_eq_false] at hpd
  obtain ⟨e, he, hfirst⟩ := hright.head?_zip hd
  have hne : text ≠ [] := by
    rintro rfl
    have := hleft.length_eq
    simp only [length_nil, eq_comm, length_eq_zero_iff] at this
    simp [this] at hlast
  obtain ⟨left, f, rfl⟩ := (eq_nil_or_concat' text).resolve_left hne
  obtain ⟨g, hg, hzip⟩ := hleft.getLast?_zip (c := f) (by simp)
  obtain rfl : g = c := Option.some.inj (hg.symm.trans hlast)
  have heq : e = d := (hborder _ hzip _ hfirst).2 hc (hp d hpd)
  rw [← heq, hfree e he] at hpd
  cases hpd

end

end Neighbours

/-- A name that stands in the shape stands in the source. -/
theorem Masks.stands {name : List Char} (h : Masks source masked) (hne : name ≠ [])
    (hname : ∀ c ∈ name, isIdent c) (hstands : Stands name masked) : Stands name source := by
  obtain ⟨head, tail, rfl, hhead, htail⟩ := stands_iff.1 hstands
  obtain ⟨left, text', rfl, hleft, htail', -⟩ := h.cut
  obtain ⟨text, mid, rfl, hhead', hmid, -⟩ := hleft.cut
  obtain rfl : mid = name := hmid.eq_of_no_space fun hspace => absurd (hname ' ' hspace) (by decide)
  have hlast : mid.getLast hne ∈ (head ++ mid).getLast? := by
    simp [getLast?_append, getLast?_eq_some_getLast hne]
  have hfirst : mid.head hne ∈ (mid ++ tail).head? := by
    simp [head?_append, head?_eq_some_head hne]
  refine stands_iff.2 ⟨text, text', rfl, ?_, ?_⟩
  · rw [isEdge, Bool.not_eq_true'] at hhead ⊢
    rw [append_assoc, append_assoc] at h
    exact h.any_before hhead'.length_eq (fun d => isIdent_of_isToken) hfirst
      (hname _ (head_mem hne)) hhead
  · rw [isEdge, Bool.not_eq_true'] at htail ⊢
    exact h.any_after hleft.length_eq (fun d => isIdent_of_isToken) hlast
      (hname _ (getLast_mem hne)) htail

end Deadwood.Module

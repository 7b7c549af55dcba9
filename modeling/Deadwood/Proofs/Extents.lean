import Deadwood.Proofs.Locality

/-!
# Where declarations end

The extent of an exported declaration is found by counting brackets from its head on. It moves with
the text (`extentFrom_shift`), and an extent that ends inside a settled text ends there whatever
follows (`extentFrom_extend`).
-/

set_option autoImplicit false

namespace Deadwood.Module

open Text Reference
open List hiding Cursor Cursor.mk

variable {here : Cursor} {n : Nat} {masked more : List Char}

/-! ## Shifts -/

theorem blockEnd_shift (here : Cursor) : blockEnd (here.shift n) = blockEnd here + n := by
  simp only [blockEnd, Cursor.rest_shift, Cursor.offset_shift]
  cases matching? '{' '}' 0 here.rest with
  | none => simp [Nat.add_right_comm]
  | some inside => simp

/-- Only the last two characters of the text before a line break matter. -/
theorem mayEndBetween_append {before : List Char} (h : 2 ≤ (before.dropWhile isBlank).length)
    (before' after : List Char) :
    mayEndBetween (before ++ before') after = mayEndBetween before after := by
  match hdrop : before.dropWhile isBlank with
  | [] | [_] => simp [hdrop] at h
  | c :: d :: tail =>
    have hlong : (before ++ before').dropWhile isBlank = c :: d :: (tail ++ before') := by
      rw [dropWhile_append, hdrop]
      rfl
    simp only [mayEndBetween, hdrop, hlong]
    by_cases harrow : c = '>' ∧ d = '='
    · obtain ⟨rfl, rfl⟩ := harrow
      rfl
    · split
      · rename_i heq
        cases heq
      · rename_i heq
        simp only [cons.injEq] at heq
        exact absurd ⟨heq.1, heq.2.1⟩ harrow
      · rename_i heq
        split
        · rename_i heq'
          cases heq'
        · rename_i heq'
          simp only [cons.injEq] at heq'
          exact absurd ⟨heq'.1, heq'.2.1⟩ harrow
        · rename_i heq'
          simp only [cons.injEq] at heq heq'
          rw [← heq.1, ← heq'.1]

variable {kind : DeclarationKind} {o c : Char} {depth offset position : Nat}
  {cs source source' front front' part : List Char}

/-- The extent of a declaration moves with the text. -/
theorem extentFrom_shift {before : List Char} (before' : List Char)
    (hanchor : 2 ≤ (before.dropWhile isBlank).length) (depth offset : Nat) (cs : List Char) :
    extentFrom kind (before ++ before') depth (offset + n) cs =
      extentFrom kind before depth offset cs + n := by
  have hgrow : ∀ {before : List Char} (c : Char), 2 ≤ (before.dropWhile isBlank).length →
      2 ≤ ((c :: before).dropWhile isBlank).length := by
    intro before c h
    rw [dropWhile_cons]
    split
    · exact h
    · have := (dropWhile_suffix (l := before) isBlank).length_le
      simp only [length_cons]
      omega
  induction cs generalizing before depth offset with
  | nil => simp [extentFrom]
  | cons c cs ih =>
    have hblock : blockEnd ⟨offset + n, c :: cs⟩ = blockEnd ⟨offset, c :: cs⟩ + n :=
      blockEnd_shift ⟨offset, c :: cs⟩
    have hnext : ∀ depth, extentFrom kind (c :: (before ++ before')) depth (offset + n + 1) cs =
        extentFrom kind (c :: before) depth (offset + 1) cs + n := by
      intro depth
      rw [← cons_append, Nat.add_right_comm]
      exact ih (hgrow c hanchor) depth (offset + 1)
    simp only [extentFrom, mayEndBetween_append hanchor, hblock, hnext]
    split_ifs <;> omega

/-! ## Extensions -/

theorem afterSemicolon_le (here : Cursor) :
    afterSemicolon here ≤ here.offset + here.rest.length := by
  unfold afterSemicolon
  cases hsemi : (here.skip isLineBlank).expect? ";" with
  | none => simp
  | some next =>
    exact (Cursor.reaches_skip.trans (Cursor.reaches_of_expect? hsemi)).le.2

theorem le_afterSemicolon (here : Cursor) : here.offset ≤ afterSemicolon here := by
  unfold afterSemicolon
  cases hsemi : (here.skip isLineBlank).expect? ";" with
  | none => simp
  | some next =>
    exact (Cursor.reaches_skip.trans (Cursor.reaches_of_expect? hsemi)).le.1

/-- The bracket that is found stays where it is, whatever follows. -/
theorem matching?_append (h : matching? o c depth cs = some n) (more : List Char) :
    matching? o c depth (cs ++ more) = some n := by
  fun_induction matching? o c depth cs generalizing n with
  | case1 => cases h
  | case2 depth cs ih =>
    obtain ⟨k, hk, rfl⟩ := Option.map_eq_some_iff.1 h
    simp [matching?, ih hk]
  | case3 depth cs hdepth hne =>
    cases h
    simp [matching?, hne, hdepth]
  | case4 depth cs hdepth hne ih =>
    obtain ⟨k, hk, rfl⟩ := Option.map_eq_some_iff.1 h
    simp [matching?, hne, hdepth, ih hk]
  | case5 depth d cs hne hne' ih =>
    obtain ⟨k, hk, rfl⟩ := Option.map_eq_some_iff.1 h
    simp [matching?, hne, hne', ih hk]

theorem lt_length_of_matching? (h : matching? o c depth cs = some n) : n < cs.length := by
  obtain ⟨rest, hdrop⟩ := exists_drop_of_matching? h
  by_contra hle
  rw [drop_eq_nil_of_le (by omega)] at hdrop
  cases hdrop

/-- A block that ends inside a settled text ends there whatever follows. -/
theorem blockEnd_extend (hsettled : Settled masked) (hfresh : Fresh more)
    (hsuffix : here.rest <:+ masked) (hlt : blockEnd here < here.offset + here.rest.length) :
    blockEnd (here.extend more) = blockEnd here := by
  unfold blockEnd at hlt ⊢
  cases hmatch : matching? '{' '}' 0 here.rest with
  | none =>
    rw [hmatch] at hlt
    exact absurd hlt (lt_irrefl _)
  | some inside =>
    have hinside := lt_length_of_matching? hmatch
    simp only [hmatch] at hlt
    have hge := le_afterSemicolon (here.advance (inside + 1))
    simp only [Cursor.advance] at hge
    have hnext : Inside masked (here.advance (inside + 1)) := by
      refine ⟨(drop_suffix _ _).trans hsuffix, fun hnil => ?_⟩
      have hlength := congrArg length hnil
      simp only [Cursor.advance, length_drop, length_nil] at hlength hlt
      omega
    have hmore : matching? '{' '}' 0 (here.extend more).rest = some inside :=
      matching?_append hmatch more
    simp only [hmore]
    rw [Cursor.advance_extend (by omega)]
    exact (hsettled.carrier hfresh).afterSemicolon_move hnext

theorem isOpening_of_isBlank (h : isBlank c) : isOpening c = false := by
  cases hopen : isOpening c with
  | false => rfl
  | true =>
    simp only [isOpening, Bool.or_eq_true, decide_eq_true_eq] at hopen
    rcases hopen with (rfl | rfl) | rfl <;> exact absurd h (by decide)

theorem isClosing_of_isBlank (h : isBlank c) : isClosing c = false := by
  cases hclose : isClosing c with
  | false => rfl
  | true =>
    simp only [isClosing, Bool.or_eq_true, decide_eq_true_eq] at hclose
    rcases hclose with (rfl | rfl) | rfl <;> exact absurd h (by decide)

theorem exists_dropWhile_cons (h : ∃ c ∈ cs, isBlank c = false) :
    ∃ c rest, cs.dropWhile isBlank = c :: rest := by
  refine exists_cons_of_ne_nil fun hnil => ?_
  obtain ⟨c, hmem, hc⟩ := h
  simp [dropWhile_eq_nil_iff.1 hnil c hmem] at hc

/-- Whether a statement ends at a line break does not depend on a text after it that begins anew. -/
theorem mayEndBetween_extend (hfresh : Fresh more) (before after : List Char) :
    mayEndBetween before (after ++ more) = mayEndBetween before after := by
  by_cases hbusy : ∃ c ∈ after, isBlank c = false
  · obtain ⟨c, rest, hdrop⟩ := exists_dropWhile_cons hbusy
    have hlong : (after ++ more).dropWhile isBlank = c :: (rest ++ more) := by
      rw [dropWhile_append, hdrop]
      rfl
    simp [mayEndBetween, hdrop, hlong]
  · have hblank := forall_of_not_exists hbusy
    have hnone : after.dropWhile isBlank = [] := dropWhile_eq_nil_iff.2 hblank
    have hmore : (after ++ more).dropWhile isBlank = trimStart more :=
      dropWhile_append_of_pos hblank
    have hcarries : (trimStart more).head?.any carriesOn.contains = false := by
      rw [Option.any_eq_false]
      intro d hd
      simpa using hfresh.head d hd
    simp only [mayEndBetween, hnone, hmore, hcarries]
    rfl

theorem blockEnd_bounds (here : Cursor) (hopen : here.rest.head? = some '{') :
    here.offset < blockEnd here ∧ blockEnd here ≤ here.offset + here.rest.length := by
  obtain ⟨rest, hrest⟩ := head?_eq_some_iff.1 hopen
  unfold blockEnd
  cases hmatch : matching? '{' '}' 0 here.rest with
  | none => simp [hrest]
  | some inside =>
    have hlt := lt_length_of_matching? hmatch
    have hge := le_afterSemicolon (here.advance (inside + 1))
    have hle := afterSemicolon_le (here.advance (inside + 1))
    simp only [Cursor.advance, length_drop] at hge hle ⊢
    omega

/-- An extent ends in the text, not before the place from which it is followed. -/
theorem extentFrom_bounds (kind : DeclarationKind) (before : List Char) (depth offset : Nat)
    (cs : List Char) : offset ≤ extentFrom kind before depth offset cs ∧
      extentFrom kind before depth offset cs ≤ offset + cs.length := by
  induction cs generalizing before depth offset with
  | nil => simp [extentFrom]
  | cons c cs ih =>
    have hnext : ∀ before depth, offset ≤ extentFrom kind before depth (offset + 1) cs ∧
        extentFrom kind before depth (offset + 1) cs ≤ offset + (c :: cs).length := by
      intro before depth
      have := ih before depth (offset + 1)
      rw [length_cons]
      omega
    rw [extentFrom]
    split
    · rename_i hbrace
      obtain rfl : c = '{' := by
        simp only [Bool.and_eq_true, decide_eq_true_eq] at hbrace
        exact hbrace.1.1
      have hblock := blockEnd_bounds ⟨offset, '{' :: cs⟩ rfl
      exact ⟨hblock.1.le, hblock.2⟩
    split
    · exact hnext _ _
    split
    · split
      · simp
      · exact hnext _ _
    split
    · rw [length_cons]
      omega
    split
    · simp
    · exact hnext _ _

/-- An extent that ends inside a settled text ends there whatever follows. -/
theorem extentFrom_extend (hsettled : Settled masked) (hfresh : Fresh more) {before : List Char}
    (hsuffix : cs <:+ masked) (hlt : extentFrom kind before depth offset cs < offset + cs.length) :
    extentFrom kind before depth offset (cs ++ more) = extentFrom kind before depth offset cs := by
  induction cs generalizing before depth offset with
  | nil => exact absurd hlt (lt_irrefl _)
  | cons c cs ih =>
    have hnext : ∀ {before depth}, extentFrom kind before depth (offset + 1) cs <
        offset + (c :: cs).length → extentFrom kind before depth (offset + 1) (cs ++ more) =
          extentFrom kind before depth (offset + 1) cs := by
      intro before depth hlt
      refine ih ((suffix_cons c cs).trans hsuffix) ?_
      rw [length_cons] at hlt
      omega
    have hmay : mayEndBetween before (c :: (cs ++ more)) = mayEndBetween before (c :: cs) :=
      mayEndBetween_extend hfresh before (c :: cs)
    simp only [cons_append, extentFrom, hmay] at hlt ⊢
    -- the cases of the count, in its own order
    split
    · rename_i hbrace
      rw [if_pos hbrace] at hlt
      have hblock : blockEnd ((Cursor.mk offset (c :: cs)).extend more) = _ :=
        blockEnd_extend hsettled hfresh hsuffix hlt
      exact hblock
    rename_i hbrace
    rw [if_neg hbrace] at hlt
    split
    · rename_i hopen
      rw [if_pos hopen] at hlt
      exact hnext hlt
    rename_i hopen
    rw [if_neg hopen] at hlt
    split
    · rename_i hclose
      rw [if_pos hclose] at hlt
      split
      · rfl
      · rename_i hdepth
        rw [if_neg hdepth] at hlt
        exact hnext hlt
    rename_i hclose
    rw [if_neg hclose] at hlt
    split
    · rfl
    rename_i hsemi
    rw [if_neg hsemi] at hlt
    split
    · rfl
    rename_i hline
    rw [if_neg hline] at hlt
    exact hnext hlt

theorem declarationEnd_bounds (hle : position ≤ masked.length) :
    position ≤ declarationEnd masked position kind ∧
      declarationEnd masked position kind ≤ masked.length := by
  have hbounds := extentFrom_bounds kind (masked.take position).reverse 0
    (min position masked.length) (masked.drop position)
  rw [length_drop] at hbounds
  unfold declarationEnd
  omega

/-- The end of a declaration that ends inside a settled text does not depend on what follows. -/
theorem declarationEnd_extend (hsettled : Settled masked) (hfresh : Fresh more)
    (hle : position ≤ masked.length) (hlt : declarationEnd masked position kind < masked.length) :
    declarationEnd (masked ++ more) position kind = declarationEnd masked position kind := by
  have hmin : min position (masked ++ more).length = min position masked.length := by
    rw [length_append]
    omega
  rw [declarationEnd, declarationEnd, hmin, take_append_of_le_length hle,
    drop_append_of_le_length hle]
  refine extentFrom_extend hsettled hfresh (drop_suffix _ _) ?_
  rw [declarationEnd] at hlt
  rw [length_drop]
  omega

/-! ## Places of declarations -/

/-- The end of a declaration moves with the text. -/
theorem declarationEnd_shift (front : List Char) (hle : position ≤ masked.length)
    (hanchor : 2 ≤ ((masked.take position).reverse.dropWhile isBlank).length) :
    declarationEnd (front ++ masked) (position + front.length) kind =
      declarationEnd masked position kind + front.length := by
  have htake :
      (front ++ masked).take (position + front.length) = front ++ masked.take position := by
    rw [Nat.add_comm, take_length_add_append]
  have hdrop : (front ++ masked).drop (position + front.length) = masked.drop position := by
    rw [Nat.add_comm, drop_length_add_append]
  have hmin : min (position + front.length) (front ++ masked).length =
      min position masked.length + front.length := by
    rw [length_append]
    omega
  rw [declarationEnd, declarationEnd, htake, hdrop, hmin, reverse_append]
  exact extentFrom_shift _ hanchor 0 _ _

/-! ## Declarators -/

/-- Every part of a variable statement stands at its offset; the first stands at the beginning. -/
theorem declarators_spec (depth : Int) (offset : Nat) (cs : List Char) :
    ∃ part parts, declarators depth offset cs = (offset, part) :: parts ∧ part <+: cs ∧
      ∀ pair ∈ parts, ∃ pre post, cs = pre ++ pair.2 ++ post ∧ pair.1 = offset + pre.length := by
  induction cs generalizing depth offset with
  | nil => exact ⟨[], [], rfl, prefix_refl _, by simp⟩
  | cons c cs ih =>
    have hlater : ∀ {parts : List (Nat × List Char)}, (∀ pair ∈ parts, ∃ pre post,
        cs = pre ++ pair.2 ++ post ∧ pair.1 = offset + 1 + pre.length) →
        ∀ pair ∈ parts, ∃ pre post, c :: cs = pre ++ pair.2 ++ post ∧
          pair.1 = offset + pre.length := by
      intro parts hparts pair hpair
      obtain ⟨pre, post, hcs, hoffset⟩ := hparts pair hpair
      refine ⟨c :: pre, post, by simp [hcs], ?_⟩
      rw [hoffset, length_cons]
      omega
    rw [declarators]
    split
    · obtain ⟨part, parts, heq, hpart, hparts⟩ := ih depth (offset + 1)
      refine ⟨[], _, rfl, nil_prefix, ?_⟩
      rw [heq]
      refine hlater fun pair hpair => ?_
      rcases mem_cons.1 hpair with rfl | hpair
      · obtain ⟨post, hpost⟩ := hpart
        exact ⟨[], post, by simp [hpost], rfl⟩
      · exact hparts pair hpair
    · simp only
      obtain ⟨part, parts, heq, hpart, hparts⟩ := ih
        (if isOpening c then depth + 1 else if isClosing c then depth - 1 else depth) (offset + 1)
      rw [heq]
      refine ⟨c :: part, parts, rfl, ?_, hlater hparts⟩
      exact cons_prefix_cons.2 ⟨rfl, hpart⟩

theorem declarators_shift (depth : Int) (offset : Nat) (cs : List Char) :
    declarators depth (offset + n) cs =
      (declarators depth offset cs).map fun (offset, part) => (offset + n, part) := by
  induction cs generalizing depth offset with
  | nil => rfl
  | cons c cs ih =>
    rw [declarators, declarators]
    split
    · rw [Nat.add_right_comm, ih, map_cons]
    · simp only
      rw [Nat.add_right_comm, ih]
      cases declarators _ (offset + 1) cs <;> rfl

/-- The inside of the pattern that begins at `start`, up to the bracket that closes it. -/
def patternInside (source masked : List Char) (opener close : Char) (start : Nat) : List Char :=
  let stop :=
    match matching? opener close 0 (masked.drop start) with
    | some inside => start + inside
    | none => masked.length - 1
  (source.take stop).drop (start + 1)

theorem declaratorNames_eq (source masked : List Char) (offset : Nat) (part : List Char) :
    declaratorNames source masked offset part =
      match trimStart part with
      | '{' :: _ => patternNames
        (patternInside source masked '{' '}' (offset + part.length - (trimStart part).length))
      | '[' :: _ => patternNames
        (patternInside source masked '[' ']' (offset + part.length - (trimStart part).length))
      | _ => (declaratorName? (trimStart part)).toList := rfl

/-- A pattern that is closed in a text is closed there whatever follows. -/
theorem patternInside_extend {opener close : Char} {start : Nat}
    (hlength : source.length = masked.length)
    (hcloses : (matching? opener close 0 (masked.drop start)).isSome) :
    patternInside (source ++ source') (masked ++ more) opener close start =
      patternInside source masked opener close start := by
  obtain ⟨n, hmatch⟩ := Option.isSome_iff_exists.1 hcloses
  have hn := lt_length_of_matching? hmatch
  rw [length_drop] at hn
  have hmatch' : matching? opener close 0 ((masked ++ more).drop start) = some n := by
    rw [drop_append_of_le_length (by omega)]
    exact matching?_append hmatch more
  have hstop : start + n ≤ source.length := by omega
  simp only [patternInside, hmatch, hmatch']
  rw [take_append_of_le_length hstop]

/-- The inside of a pattern moves with the text. -/
theorem patternInside_shift (hfront : front.length = front'.length) (hne : masked ≠ [])
    (opener close : Char) (start : Nat) :
    patternInside (front ++ source) (front' ++ masked) opener close (start + front.length) =
      patternInside source masked opener close start := by
  have hdrop : (front' ++ masked).drop (start + front.length) = masked.drop start := by
    rw [hfront, Nat.add_comm, drop_length_add_append]
  have hcut : ∀ stop, ((front ++ source).take (stop + front.length)).drop
      (start + front.length + 1) = (source.take stop).drop (start + 1) := by
    intro stop
    rw [Nat.add_comm stop, take_length_add_append, Nat.add_right_comm, Nat.add_comm,
      drop_length_add_append]
  have hpos := length_pos_iff.2 hne
  simp only [patternInside, hdrop]
  cases matching? opener close 0 (masked.drop start) with
  | some inside =>
    have hstop : start + front.length + inside = start + inside + front.length := by omega
    simp only [hstop]
    exact hcut _
  | none =>
    simp only [length_append]
    have hlast : front'.length + masked.length - 1 = masked.length - 1 + front.length := by omega
    rw [hlast]
    exact hcut _

/-- The pattern that a declarator begins with is closed in the text. -/
def patternCloses (masked : List Char) (offset : Nat) (part : List Char) : Bool :=
  let start := offset + part.length - (trimStart part).length
  match trimStart part with
  | '{' :: _ => (matching? '{' '}' 0 (masked.drop start)).isSome
  | '[' :: _ => (matching? '[' ']' 0 (masked.drop start)).isSome
  | _ => true

/-- What a declarator binds is read off its own part of the text and, for a pattern, up to the
bracket that closes it. -/
theorem declaratorNames_extend (hlength : source.length = masked.length)
    (hcloses : patternCloses masked offset part) :
    declaratorNames (source ++ source') (masked ++ more) offset part =
      declaratorNames source masked offset part := by
  simp only [declaratorNames_eq]
  unfold patternCloses at hcloses
  split
  · rename_i tail htail
    simp only [htail] at hcloses ⊢
    rw [patternInside_extend hlength hcloses]
  · rename_i tail htail
    simp only [htail] at hcloses ⊢
    rw [patternInside_extend hlength hcloses]
  · rfl
theorem declaratorNames_shift (hfront : front.length = front'.length) (hne : masked ≠ []) :
    declaratorNames (front ++ source) (front' ++ masked) (offset + front.length) part =
      declaratorNames source masked offset part := by
  have hle : (trimStart part).length ≤ part.length := (dropWhile_suffix isBlank).length_le
  have hstart : offset + front.length + part.length - (trimStart part).length =
      offset + part.length - (trimStart part).length + front.length := by omega
  simp only [declaratorNames_eq, hstart, patternInside_shift hfront hne]

end Deadwood.Module

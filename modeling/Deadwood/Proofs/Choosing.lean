import Deadwood.Proofs.Confining

/-!
# Which alias rule decides

A table tries its rules by the length of their patterns, the longest first, and patterns of one
length in the order in which they were given. For two patterns with a star this is the order of what
they match: whoever matches strictly more has the shorter pattern (`length_lt_of_broader`). A
pattern without a star is different, since the star of another one counts as a character but may
stand for none. So it comes before the shorter patterns with a star only
(`deciding_rule_not_broader`).
-/

set_option autoImplicit false

namespace Deadwood.Alias

open List
open Deadwood.Module (cutAt_char_iff)

namespace Rule

variable {rule other : Rule} {specifier : String} {start finish : List Char}

/-! ## What a rule matches -/

/-- The rule matches its own pattern, or with a star whatever has a text in place of the star. -/
def Matches (rule : Rule) (specifier : String) : Prop :=
  (rule.isWildcard = false ∧ specifier = rule.pattern) ∨
    ∃ start middle finish, rule.pattern.toList = start ++ '*' :: finish ∧ '*' ∉ start ∧
      specifier.toList = start ++ middle ++ finish

/-- The first rule matches all that the second one matches, and more. -/
def Broader (rule other : Rule) : Prop :=
  (∀ specifier, other.Matches specifier → rule.Matches specifier) ∧
    ∃ specifier, rule.Matches specifier ∧ ¬ other.Matches specifier

theorem exists_star (h : rule.isWildcard) :
    ∃ start finish, rule.pattern.toList = start ++ '*' :: finish ∧ '*' ∉ start := by
  obtain ⟨start, finish, heq, hstart⟩ := eq_append_cons_of_mem (contains_iff_mem.1 h)
  exact ⟨start, finish, heq, hstart⟩

theorem isWildcard_of_star (hstar : rule.pattern.toList = start ++ '*' :: finish) :
    rule.isWildcard := by
  simp [isWildcard, hstar]

theorem matches_star_iff (hstar : rule.pattern.toList = start ++ '*' :: finish)
    (hstart : '*' ∉ start) :
    rule.Matches specifier ↔ ∃ middle, specifier.toList = start ++ middle ++ finish := by
  constructor
  · rintro (⟨hexact, -⟩ | ⟨start', middle, finish', hstar', hstart', hspecifier⟩)
    · rw [isWildcard_of_star hstar] at hexact
      cases hexact
    · -- a pattern has one first star
      have hcut := cutAt_char_iff.2 ⟨hstar, hstart⟩
      rw [cutAt_char_iff.2 ⟨hstar', hstart'⟩] at hcut
      cases hcut
      exact ⟨middle, hspecifier⟩
  · rintro ⟨middle, hspecifier⟩
    exact .inr ⟨start, middle, finish, hstar, hstart, hspecifier⟩

theorem matches_exact_iff (hexact : rule.isWildcard = false) :
    rule.Matches specifier ↔ specifier = rule.pattern := by
  constructor
  · rintro (⟨-, heq⟩ | ⟨start, -, finish, hstar, -, -⟩)
    · exact heq
    · rw [isWildcard_of_star hstar] at hexact
      cases hexact
  · intro heq
    exact .inl ⟨hexact, heq⟩

/-- The star of a pattern stands for what is between the two ends. -/
theorem middle?_eq_some_iff {pattern text middle : List Char}
    (hstar : pattern = start ++ '*' :: finish) (hstart : '*' ∉ start) :
    middle? pattern text = some middle ↔ text = start ++ middle ++ finish := by
  simp only [middle?, cutAt_char_iff.2 ⟨hstar, hstart⟩, Option.bind_eq_bind, Option.bind_some,
    isPrefixOf_iff_prefix, isSuffixOf_iff_suffix]
  have hinner : ∀ inner : List Char, ((start ++ inner ++ finish).take
      ((start ++ inner ++ finish).length - finish.length)).drop start.length = inner := by
    intro inner
    rw [length_append, Nat.add_sub_cancel, take_left, drop_left]
  constructor
  · intro h
    split at h
    · rename_i hends
      obtain ⟨hlength, hfront, back, rfl⟩ := hends
      rw [length_append, Nat.add_le_add_iff_right] at hlength
      obtain ⟨inner, rfl⟩ := prefix_of_prefix_length_le hfront (prefix_append _ _) hlength
      rw [hinner] at h
      rw [Option.some.inj h]
    · cases h
  · rintro rfl
    rw [if_pos]
    · rw [hinner]
    · refine ⟨by simp only [length_append]; omega, ?_, suffix_append _ _⟩
      exact ⟨middle ++ finish, by simp⟩

/-- A rule with a text as target gives a text for what it matches, and nothing for the rest. -/
theorem map?_spec {target : String} (htarget : rule.target = .text target) (specifier : String) :
    (rule.Matches specifier ∧ ∃ text, rule.map? specifier = .ok (some (.text text))) ∨
      (¬ rule.Matches specifier ∧ rule.map? specifier = .ok none) := by
  unfold map? target?
  cases hwild : rule.isWildcard with
  | true =>
    obtain ⟨start, finish, hstar, hstart⟩ := exists_star hwild
    rw [matches_star_iff hstar hstart, htarget, if_pos rfl]
    cases hmiddle : middle? rule.pattern.toList specifier.toList with
    | some middle => exact .inl ⟨⟨middle, (middle?_eq_some_iff hstar hstart).1 hmiddle⟩, _, rfl⟩
    | none =>
      refine .inr ⟨?_, rfl⟩
      rintro ⟨middle, hspecifier⟩
      rw [(middle?_eq_some_iff hstar hstart).2 hspecifier] at hmiddle
      cases hmiddle
  | false =>
    rw [matches_exact_iff hwild, htarget, if_neg Bool.false_ne_true]
    by_cases heq : specifier = rule.pattern
    · exact .inl ⟨heq, target, by rw [if_pos heq]⟩
    · exact .inr ⟨heq, by rw [if_neg heq]⟩

/-! ## Breadth and length -/

/-- A text that every text with some beginning has in front is no longer than this beginning. -/
theorem prefix_of_forall {front back text : List Char}
    (h : ∀ c : Char, text <+: front ++ c :: back) : text <+: front := by
  have hshort : text.length ≤ front.length := by
    by_contra hlong
    -- the character after the beginning would be two characters at once
    have hnext : ∀ c : Char, front ++ [c] <+: text := by
      intro c
      refine prefix_of_prefix_length_le ⟨back, ?_⟩ (h c) ?_
      · simp
      · simp only [length_append, length_singleton]
        omega
    have hsame := prefix_of_prefix_length_le (hnext 'a') (hnext 'b') (by simp)
    exact absurd (prefix_append_right_inj front |>.1 hsame) (by decide)
  exact prefix_of_prefix_length_le (h 'a') (prefix_append _ _) hshort

/-- Of two patterns with a star, the one that matches strictly more is shorter. -/
theorem length_lt_of_broader (hrule : rule.isWildcard) (hother : other.isWildcard)
    (h : rule.Broader other) : rule.pattern.length < other.pattern.length := by
  obtain ⟨start, finish, hstar, hstart⟩ := exists_star hrule
  obtain ⟨start', finish', hstar', hstart'⟩ := exists_star hother
  obtain ⟨hsubset, specifier, hrule, hnot⟩ := h
  have hends : ∀ middle, ∃ inner, start' ++ middle ++ finish' = start ++ inner ++ finish := by
    intro middle
    have hmatch : other.Matches (String.ofList (start' ++ middle ++ finish')) :=
      (matches_star_iff hstar' hstart').2 ⟨middle, String.toList_ofList⟩
    obtain ⟨inner, hinner⟩ := (matches_star_iff hstar hstart).1 (hsubset _ hmatch)
    exact ⟨inner, String.toList_ofList.symm.trans hinner⟩
  have hfront : ∀ c, start <+: start' ++ c :: finish' := by
    intro c
    obtain ⟨inner, hinner⟩ := hends [c]
    exact ⟨inner ++ finish, by simpa using hinner.symm⟩
  have hback : ∀ c, finish.reverse <+: finish'.reverse ++ c :: start'.reverse := by
    intro c
    obtain ⟨inner, hinner⟩ := hends [c]
    exact ⟨inner.reverse ++ start.reverse, by simpa using (congrArg reverse hinner).symm⟩
  replace hfront := prefix_of_forall hfront
  replace hback := prefix_of_forall hback
  have hlength : ∀ {rule : Rule} {start finish : List Char},
      rule.pattern.toList = start ++ '*' :: finish →
      rule.pattern.length = start.length + finish.length + 1 := by
    intro rule start finish heq
    rw [← String.length_toList, heq, length_append, length_cons, Nat.add_assoc]
  rw [hlength hstar, hlength hstar']
  by_contra hlong
  have hle := hfront.length_le
  have hle' := hback.length_le
  rw [length_reverse, length_reverse] at hle'
  -- the ends are the same, so the two patterns match the same
  obtain rfl := hfront.eq_of_length (by omega)
  obtain rfl := reverse_inj.1 (hback.eq_of_length (by simp only [length_reverse]; omega))
  exact hnot ((matches_star_iff hstar' hstart').2 ((matches_star_iff hstar hstart).1 hrule))

/-- A rule without a star is not broader than another rule that matches its pattern. -/
theorem isWildcard_of_broader (hrule : rule.Matches specifier) (hother : other.Matches specifier)
    (h : rule.Broader other) : rule.isWildcard := by
  by_contra hexact
  rw [Bool.not_eq_true] at hexact
  obtain ⟨-, found, hfound, hnot⟩ := h
  rw [matches_exact_iff hexact] at hfound hrule
  exact hnot (hfound ▸ hrule ▸ hother)

end Rule

/-! ## Order -/

/-- In a list without repetitions, what comes before an item stands in front of it. -/
theorem mem_front_of_sublist {α : Type} {front back : List α} {a b : α}
    (hnodup : (front ++ a :: back).Nodup) (h : [b, a].Sublist (front ++ a :: back)) :
    b ∈ front := by
  obtain ⟨-, hback, hfront⟩ := nodup_append.1 hnodup
  obtain ⟨first, second, heq, hfirst, hsecond⟩ := sublist_append_iff.1 h
  cases first with
  | cons c first =>
    obtain ⟨rfl, -⟩ := cons.inj heq
    exact hfirst.subset mem_cons_self
  | nil =>
    obtain rfl : [b, a] = second := heq
    have hmem : a ∈ back := by
      cases hsecond with
      | cons _ hrest => exact hrest.subset (by simp)
      | cons_cons _ hrest => exact hrest.subset (by simp)
    exact absurd hmem (nodup_cons.1 hback).1

theorem sublist_pair_or {α : Type} {items : List α} {a b : α} (ha : a ∈ items) (hb : b ∈ items)
    (hne : a ≠ b) : [a, b].Sublist items ∨ [b, a].Sublist items := by
  obtain ⟨front, back, rfl⟩ := append_of_mem ha
  rcases mem_append.1 hb with hfront | hback
  · exact .inr ((singleton_sublist.2 hfront).append
      (singleton_sublist.2 mem_cons_self))
  · refine .inl (List.Sublist.trans ?_ (sublist_append_right front _))
    exact (singleton_sublist.2 ((mem_cons.1 hback).resolve_left hne.symm)).cons_cons a

namespace Table

variable {paths : List (String × List Value)} {rule other : Rule} {specifier : String}

/-- The rules in the order in which their patterns are given. -/
def given (paths : List (String × List Value)) : List Rule :=
  paths.filterMap fun (pattern, targets) => targets.head?.map (Rule.mk pattern)

theorem mem_rulesOf : rule ∈ rulesOf paths ↔ rule ∈ given paths := mem_mergeSort

/-- Rules are tried by length, and those of one length as they are given. -/
theorem pair_sublist_rulesOf (h : [rule, other].Sublist (given paths))
    (hlength : other.pattern.length ≤ rule.pattern.length) :
    [rule, other].Sublist (rulesOf paths) := by
  refine pair_sublist_mergeSort ?_ ?_ (by simpa using hlength) h
  · simp only [decide_eq_true_eq]
    omega
  · simp only [Bool.or_eq_true, decide_eq_true_eq]
    omega

theorem pairwise_rulesOf (paths : List (String × List Value)) :
    (rulesOf paths).Pairwise fun rule other => other.pattern.length ≤ rule.pattern.length := by
  refine (pairwise_mergeSort ?_ ?_ (given paths)).imp (by simp)
  · simp only [decide_eq_true_eq]
    omega
  · simp only [Bool.or_eq_true, decide_eq_true_eq]
    omega

/-- No two rules have the same pattern, if no pattern is given twice. -/
theorem nodup_patterns (h : (paths.map Prod.fst).Nodup) :
    ((given paths).map Rule.pattern).Nodup := by
  have hsublist : ((given paths).map Rule.pattern).Sublist (paths.map Prod.fst) := by
    induction paths with
    | nil => exact List.Sublist.slnil
    | cons entry paths ih =>
      have htail := ih (nodup_cons.1 h).2
      obtain ⟨pattern, targets⟩ := entry
      cases targets with
      | nil => exact htail.cons pattern
      | cons target targets => exact htail.cons_cons pattern
  exact h.sublist hsublist

/-- The rule is the first one that matches the specifier. -/
def Decides (rules : List Rule) (specifier : String) (rule : Rule) : Prop :=
  ∃ front back, rules = front ++ rule :: back ∧ rule.Matches specifier ∧
    ∀ other ∈ front, ¬ other.Matches specifier

/-- What other matching rules there are come after the deciding one. -/
theorem Decides.cases (h : Decides (rulesOf paths) specifier rule) (hother : other ∈ rulesOf paths)
    (hmatch : other.Matches specifier) :
    other = rule ∨ other.pattern.length ≤ rule.pattern.length := by
  obtain ⟨front, back, heq, -, hfront⟩ := h
  rw [heq] at hother
  rcases mem_append.1 hother with hmem | hmem
  · exact absurd hmatch (hfront other hmem)
  · rcases mem_cons.1 hmem with rfl | hback
    · exact .inl rfl
    · have hsorted := pairwise_rulesOf paths
      rw [heq] at hsorted
      exact .inr ((pairwise_cons.1 (pairwise_append.1 hsorted).2.1).1 other hback)

/-- No matching rule stands before the deciding one. -/
theorem Decides.not_sublist (h : Decides (rulesOf paths) specifier rule)
    (hnodup : (rulesOf paths).Nodup) (hmatch : other.Matches specifier) :
    ¬ [other, rule].Sublist (rulesOf paths) := by
  obtain ⟨front, back, heq, -, hfront⟩ := h
  rw [heq] at hnodup ⊢
  exact fun hpair => hfront other (mem_front_of_sublist hnodup hpair) hmatch

/-- The first matching rule exists as soon as any rule matches, and its target is the answer. -/
theorem exists_decides {rules : List Rule} (htexts : Resolver.Textual rules)
    (hmatch : ∃ rule ∈ rules, rule.Matches specifier) :
    ∃ rule text, Decides rules specifier rule ∧ rule.map? specifier = .ok (some (.text text)) ∧
      target? specifier rules = .ok (some (.text text)) := by
  induction rules with
  | nil =>
    obtain ⟨rule, hmem, -⟩ := hmatch
    cases hmem
  | cons first rules ih =>
    obtain ⟨target, htarget⟩ := htexts first mem_cons_self
    rw [target?]
    rcases first.map?_spec htarget specifier with ⟨hfirst, text, hmap⟩ | ⟨hfirst, hmap⟩
    · exact ⟨first, text, ⟨[], rules, rfl, hfirst, by simp⟩, hmap, by rw [hmap]; rfl⟩
    · have hrest : ∃ rule ∈ rules, rule.Matches specifier := by
        obtain ⟨rule, hmem, hrule⟩ := hmatch
        rcases mem_cons.1 hmem with rfl | hmem
        · exact absurd hrule hfirst
        · exact ⟨rule, hmem, hrule⟩
      obtain ⟨rule, text, ⟨front, back, rfl, hrule, hfront⟩, htext, htarget⟩ :=
        ih (fun rule hrule => htexts rule (mem_cons_of_mem _ hrule)) hrest
      refine ⟨rule, text, ⟨first :: front, back, rfl, hrule, ?_⟩,
        htext, by rw [hmap]; exact htarget⟩
      rintro other (_ | ⟨_, hother⟩)
      · exact hfirst
      · exact hfront other hother

/-- A specifier that some rule matches gets its path from the first matching rule. This rule is not
strictly broader than another matching rule with a star. A rule without a star decides exactly if
every matching rule with a star has a shorter pattern, or one of the same length that is given
later. -/
theorem deciding_rule_not_broader (base : String) (source : Option String)
    (hkeys : (paths.map Prod.fst).Nodup) (htexts : Resolver.Textual (rulesOf paths))
    (hmatch : ∃ rule ∈ rulesOf paths, rule.Matches specifier) :
    ∃ rule text, Decides (rulesOf paths) specifier rule ∧
      rule.map? specifier = .ok (some (.text text)) ∧ (ofPaths paths base source).map? specifier =
        .ok (Relative.join? (Relative.normalize base) text) ∧
      (∀ other ∈ rulesOf paths, other.Matches specifier → rule.Broader other →
        other.isWildcard = false) ∧
      ∀ exact ∈ rulesOf paths, exact.isWildcard = false → exact.Matches specifier →
        (rule = exact ↔ ∀ wild ∈ rulesOf paths, wild.isWildcard = true → wild.Matches specifier →
          wild.pattern.length < exact.pattern.length ∨
            wild.pattern.length = exact.pattern.length ∧ [exact, wild].Sublist (given paths)) := by
  obtain ⟨rule, text, hdecides, hrule, htarget⟩ := exists_decides htexts hmatch
  have hpatterns := nodup_patterns hkeys
  have hnodup : (rulesOf paths).Nodup := (mergeSort_perm _ _).nodup_iff.2 hpatterns.of_map
  have hmem : rule ∈ rulesOf paths := by
    obtain ⟨front, back, heq, -⟩ := hdecides
    rw [heq]
    exact mem_append_right _ mem_cons_self
  have hmatches : rule.Matches specifier := by
    obtain ⟨-, -, -, hmatches, -⟩ := hdecides
    exact hmatches
  refine ⟨rule, text, hdecides, hrule, ?_, ?_, ?_⟩
  · rw [map?, ofPaths, htarget]
    exact Resolver.place?_text _ _
  · intro other hother hmatch hbroader
    by_contra hwild
    rw [Bool.not_eq_false] at hwild
    have hlt := Rule.length_lt_of_broader (Rule.isWildcard_of_broader hmatches hmatch hbroader)
      hwild hbroader
    rcases hdecides.cases hother hmatch with rfl | hle
    · exact lt_irrefl _ hlt
    · omega
  · intro exact' hexact hplain hmatch
    constructor
    · rintro rfl wild hwild hstar hmatchWild
      have hne : wild ≠ rule := by
        rintro rfl
        exact Bool.false_ne_true (hplain.symm.trans hstar)
      have hle := (hdecides.cases hwild hmatchWild).resolve_left hne
      rcases hle.lt_or_eq with hlt | heq
      · exact .inl hlt
      · refine .inr ⟨heq, ?_⟩
        rcases sublist_pair_or (mem_rulesOf.1 hexact) (mem_rulesOf.1 hwild) hne.symm with
          hpair | hpair
        · exact hpair
        · exact absurd (pair_sublist_rulesOf hpair heq.ge)
            (hdecides.not_sublist hnodup hmatchWild)
    · intro hshorter
      cases hwild : rule.isWildcard with
      | false =>
        rw [Rule.matches_exact_iff hplain] at hmatch
        rw [Rule.matches_exact_iff hwild] at hmatches
        exact inj_on_of_nodup_map hpatterns (mem_rulesOf.1 hmem) (mem_rulesOf.1 hexact)
          (hmatches.symm.trans hmatch)
      | true =>
        rcases hdecides.cases hexact hmatch with heq | hle
        · exact heq.symm
        · rcases hshorter rule hmem hwild hmatches with hlt | ⟨heq, hpair⟩
          · omega
          · exact absurd (pair_sublist_rulesOf hpair heq.le)
              (hdecides.not_sublist hnodup hmatch)

/-- A pattern without a star, given after a shorter one with a star that matches it too. -/
def layered : List (String × List Value) :=
  [("@*", [.text "src/*"]), ("@lib", [.text "src/main"])]

theorem deciding_rule_not_broader_layered :
    (ofPaths layered "app").map? "@lib" =
      .ok (Relative.join? (Relative.normalize "app") "src/main") := by
  have hgiven : given layered = [⟨"@*", .text "src/*"⟩, ⟨"@lib", .text "src/main"⟩] := rfl
  have hexact : (⟨"@lib", .text "src/main"⟩ : Rule) ∈ rulesOf layered :=
    mem_rulesOf.2 (by simp [hgiven])
  have hmatch : Rule.Matches ⟨"@lib", .text "src/main"⟩ "@lib" := .inl ⟨rfl, rfl⟩
  have htexts : Resolver.Textual (rulesOf layered) := by
    intro rule hrule
    rw [mem_rulesOf, hgiven, mem_pair] at hrule
    rcases hrule with rfl | rfl <;> exact ⟨_, rfl⟩
  obtain ⟨rule, text, -, hrule, hmap, -, hwins⟩ :=
    deciding_rule_not_broader "app" none (by decide) htexts ⟨_, hexact, hmatch⟩
  obtain rfl := (hwins _ hexact rfl hmatch).2 fun wild hwild hstar _ => by
    rw [mem_rulesOf, hgiven, mem_pair] at hwild
    rcases hwild with rfl | rfl
    · exact .inl (by decide)
    · cases hstar
  obtain rfl : "src/main" = text := Value.text.inj (Option.some.inj (Except.ok.inj hrule))
  exact hmap

/-- A pattern without a star, and the same pattern with a star at its end. -/
def crossed : List (String × List Value) :=
  [("@lib*", [.text "src/lib*"]), ("@lib", [.text "src/main"])]

/-- The star may stand for nothing, and still makes the pattern the longer one. -/
theorem star_pattern_beats_exact : Decides (rulesOf crossed) "@lib" ⟨"@lib*", .text "src/lib*"⟩ ∧
      (⟨"@lib", .text "src/main"⟩ : Rule) ∈ rulesOf crossed ∧
      Rule.Matches ⟨"@lib", .text "src/main"⟩ "@lib" ∧
      Rule.Broader ⟨"@lib*", .text "src/lib*"⟩ ⟨"@lib", .text "src/main"⟩ := by
  have hstar : ∀ specifier : String, "@lib".toList <+: specifier.toList →
      Rule.Matches ⟨"@lib*", .text "src/lib*"⟩ specifier := by
    rintro specifier ⟨middle, hmiddle⟩
    exact .inr ⟨"@lib".toList, middle, [], rfl, by decide, by simpa using hmiddle.symm⟩
  refine ⟨⟨[], [⟨"@lib", .text "src/main"⟩], ?_, hstar _ (prefix_refl _), by simp⟩,
    mem_rulesOf.2 (mem_cons_of_mem _ mem_cons_self), .inl ⟨rfl, rfl⟩, ?_, "@library",
    hstar _ ⟨"rary".toList, rfl⟩, ?_⟩
  · exact mergeSort_of_pairwise (by decide)
  · intro specifier hmatch
    rw [Rule.matches_exact_iff rfl] at hmatch
    exact hstar _ (hmatch ▸ prefix_refl _)
  · rw [Rule.matches_exact_iff rfl]
    decide

end Table

end Deadwood.Alias

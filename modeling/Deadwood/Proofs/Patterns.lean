import Deadwood.Proofs.Indexing
import Deadwood.Proofs.Places

/-!
# Patterns that take out a directory

A pattern takes out a directory if it matches the path of the directory with a slash at its end. The
steps of a pattern then lead somewhere into that path, and they lead there still if more follows
(`Extends`), unless they lead to the very end of it. There they stand right after the slash, where
the steps of a pattern end only if they go on with anything (`Absorbs`). Both are kept by every
step, as long as only slashes and stars for directories pass over a slash (`Laid`). A set in
brackets may match a slash, too; without such sets, what is below a directory that is taken out is
taken out itself (`excludes_below`).
-/

set_option autoImplicit false

namespace Deadwood.Ignore

open Glob List

variable {P : List Char → Bool} {p : Char → Bool} {cs : List Char}

/-! ## What may follow a match -/

/-- What holds of a text that ends in a slash holds of every text that goes on after it. -/
def Extends (P : List Char → Bool) : Prop :=
  ∀ front rest, P (front ++ ['/']) = true → P (front ++ '/' :: rest) = true

/-- What holds at the end holds of everything. -/
def Absorbs (P : List Char → Bool) : Prop := P [] = true → ∀ rest, P rest = true

/-- What holds at the end holds where a slash follows. -/
def Ends (P : List Char → Bool) : Prop := P [] = true → ∀ rest, P ('/' :: rest) = true

theorem Absorbs.ends (h : Absorbs P) : Ends P := fun hnil rest => h hnil ('/' :: rest)

theorem absorbs_of_nil (h : P [] = false) : Absorbs P := fun hnil => by simp [h] at hnil

theorem Extends.or {Q : List Char → Bool} (h : Extends P) (h' : Extends Q) :
    Extends fun cs => P cs || Q cs := by
  intro front rest hor
  rw [Bool.or_eq_true] at hor ⊢
  exact hor.imp (h front rest) (h' front rest)

theorem extends_afterOne (h : Extends P) (hslash : p '/' → Absorbs P) :
    Extends (Reach.afterOne p P) := by
  rintro (_ | ⟨c, front⟩) rest hone
  · obtain ⟨hp, hnil⟩ := Bool.and_eq_true_iff.1 hone
    exact Bool.and_eq_true_iff.2 ⟨hp, hslash hp hnil rest⟩
  · obtain ⟨hp, hfront⟩ := Bool.and_eq_true_iff.1 hone
    exact Bool.and_eq_true_iff.2 ⟨hp, h front rest hfront⟩

theorem afterSome_of (h : P cs) : Reach.afterSome p P cs := by
  cases cs with
  | nil => exact h
  | cons c cs => exact Bool.or_eq_true_iff.2 (.inl h)

theorem extends_afterSome (h : Extends P) (hslash : p '/' → Absorbs P) :
    Extends (Reach.afterSome p P) := by
  intro front rest hsome
  induction front with
  | nil =>
    rcases Bool.or_eq_true_iff.1 hsome with hhere | hnext
    · exact afterSome_of (h [] rest hhere)
    · obtain ⟨hp, hnil⟩ := Bool.and_eq_true_iff.1 hnext
      exact Bool.or_eq_true_iff.2 (.inr (Bool.and_eq_true_iff.2
        ⟨hp, afterSome_of (hslash hp hnil rest)⟩))
  | cons c front ih =>
    rcases Bool.or_eq_true_iff.1 hsome with hhere | hnext
    · exact afterSome_of (h (c :: front) rest hhere)
    · obtain ⟨hp, hfront⟩ := Bool.and_eq_true_iff.1 hnext
      exact Bool.or_eq_true_iff.2 (.inr (Bool.and_eq_true_iff.2 ⟨hp, ih hfront⟩))

/-- Any text may be passed over up to its end or its first slash. -/
theorem absorbs_afterSome_inSegment (h : Ends P) : Absorbs (Reach.afterSome inSegment P) := by
  intro hnil rest
  induction rest with
  | nil => exact hnil
  | cons c rest ih =>
    by_cases hc : c = '/'
    · subst hc
      exact afterSome_of (h hnil rest)
    · exact Bool.or_eq_true_iff.2 (.inr (Bool.and_eq_true_iff.2 ⟨by simp [inSegment, hc], ih⟩))

theorem absorbs_afterSome (h : Absorbs P) : Absorbs (Reach.afterSome p P) :=
  fun hnil rest => afterSome_of (h hnil rest)

/-! ## Steps -/

/-- The step passes over no slash. -/
def Step.IsInside : Step → Prop
  | .char c => c ≠ '/'
  | .set s => s.contains '/' = false
  | .one | .run | .segment => True
  | .leading | .inner | .slash | .edge => False

/-- The step passes over slashes. -/
def Step.IsJoint : Step → Prop
  | .leading | .inner | .slash => True
  | .char _ | .set _ | .one | .run | .segment | .edge => False

/-- Steps as they are laid out by a pattern: inside of segments no slash is passed over, and the
edge comes last, after some step inside of a segment. `begun` tells that there was one already. -/
inductive Laid : (begun : Bool) → List Step → Prop
  | nil (begun : Bool) : Laid begun []
  | edge : Laid true [.edge]
  | inside {begun : Bool} {step : Step} {steps : List Step} (isInside : step.IsInside)
      (rest : Laid true steps) : Laid begun (step :: steps)
  | joint {begun : Bool} {step : Step} {steps : List Step} (isJoint : step.IsJoint)
      (rest : Laid false steps) : Laid begun (step :: steps)

variable {begun : Bool} {step : Step} {steps here : List Step}

theorem Laid.begin (h : Laid false steps) : Laid true steps := by
  cases h with
  | nil => exact .nil true
  | inside hinside hrest => exact .inside hinside hrest
  | joint hjoint hrest => exact .joint hjoint hrest

theorem Laid.append (hhere : ∀ step ∈ here, step.IsInside) (h : Laid true steps) :
    Laid true (here ++ steps) := by
  induction here with
  | nil => exact h
  | cons step here ih =>
    obtain ⟨hstep, hhere⟩ := forall_mem_cons.1 hhere
    exact .inside hstep (ih hhere)

/-- One step inside of a segment. -/
theorem Laid.follow_inside (hinside : step.IsInside) (h : Extends (follow steps))
    (hends : Ends (follow steps)) :
    Extends (follow (step :: steps)) ∧ Absorbs (follow (step :: steps)) := by
  have hinSegment : inSegment '/' → Absorbs (follow steps) := by simp [inSegment]
  cases step with
  | char c =>
    refine ⟨extends_afterOne h fun hp => ?_, absorbs_of_nil rfl⟩
    exact absurd (eq_of_beq hp).symm hinside
  | one => exact ⟨extends_afterOne h hinSegment, absorbs_of_nil rfl⟩
  | set s =>
    refine ⟨extends_afterOne h fun hp => ?_, absorbs_of_nil rfl⟩
    exact absurd (hp.symm.trans hinside) (by simp)
  | run => exact ⟨extends_afterSome h hinSegment, absorbs_afterSome_inSegment hends⟩
  | segment =>
    refine ⟨extends_afterOne (extends_afterSome h hinSegment) fun hp => ?_, absorbs_of_nil rfl⟩
    exact absorbs_afterSome_inSegment hends
  | leading => exact hinside.elim
  | inner => exact hinside.elim
  | slash => exact hinside.elim
  | edge => exact hinside.elim

/-- One step from a segment to another. -/
theorem Laid.follow_joint (hjoint : step.IsJoint) (h : Extends (follow steps))
    (habsorbs : Absorbs (follow steps)) :
    Extends (follow (step :: steps)) ∧ Absorbs (follow (step :: steps)) := by
  have hslash : Extends (Reach.afterOne (· == '/') (follow steps)) :=
    extends_afterOne h fun _ => habsorbs
  cases step with
  | slash => exact ⟨hslash, absorbs_of_nil rfl⟩
  | leading =>
    constructor
    · exact h.or (extends_afterOne (extends_afterSome hslash fun _ => absorbs_of_nil rfl)
        fun _ => absorbs_of_nil rfl)
    · intro hnil rest
      have hnil : follow steps [] := by simpa [follow, Reach.afterOne] using hnil
      exact Bool.or_eq_true_iff.2 (.inl (habsorbs hnil rest))
  | inner =>
    constructor
    · refine h.or (extends_afterOne (extends_afterOne (extends_afterSome h fun _ => habsorbs)
        fun _ => ?_) fun _ => absorbs_of_nil rfl)
      exact absorbs_afterSome habsorbs
    · intro hnil rest
      have hnil : follow steps [] := by simpa [follow, Reach.afterOne] using hnil
      exact Bool.or_eq_true_iff.2 (.inl (habsorbs hnil rest))
  | char _ => exact hjoint.elim
  | set _ => exact hjoint.elim
  | one => exact hjoint.elim
  | run => exact hjoint.elim
  | segment => exact hjoint.elim
  | edge => exact hjoint.elim

theorem follow_edge_ends : Extends (follow [.edge]) ∧ Ends (follow [.edge]) := by
  constructor
  · intro front rest hedge
    have hend : isEnd (front ++ ['/']) = false := by
      rcases front with _ | ⟨c, _ | ⟨d, front⟩⟩ <;> simp [isEnd]
    rcases front with _ | ⟨c, front⟩
    · simp [follow, Reach.afterOne]
    · simp only [follow, hend, Bool.false_and, Bool.false_or] at hedge
      simp only [follow]
      rw [Bool.or_eq_true]
      exact .inr hedge
  · intro _ rest
    simp [follow, Reach.afterOne]

/-- Steps that are laid out by a pattern match what goes on after a directory that they match. -/
theorem Laid.follow_spec (h : Laid begun steps) :
    Extends (follow steps) ∧ Ends (follow steps) ∧ (begun = false → Absorbs (follow steps)) := by
  induction h with
  | nil => exact ⟨fun _ _ _ => rfl, fun _ _ => rfl, fun _ _ _ => rfl⟩
  | edge => exact ⟨follow_edge_ends.1, follow_edge_ends.2, by simp⟩
  | inside hinside _ ih =>
    obtain ⟨hextends, habsorbs⟩ := Laid.follow_inside hinside ih.1 ih.2.1
    exact ⟨hextends, habsorbs.ends, fun _ => habsorbs⟩
  | joint hjoint _ ih =>
    obtain ⟨hextends, habsorbs⟩ := Laid.follow_joint hjoint ih.1 (ih.2.2 rfl)
    exact ⟨hextends, habsorbs.ends, fun _ => habsorbs⟩

/-! ## The steps of a pattern -/

/-- The step is a set that matches a slash. -/
def Step.matchesSlash : Step → Bool
  | .set s => s.contains '/'
  | _ => false

/-- No set among the steps matches a slash. -/
def SlashFree (steps : List Step) : Prop := ∀ step ∈ steps, step.matchesSlash = false

instance (steps : List Step) : Decidable (SlashFree steps) :=
  inferInstanceAs (Decidable (∀ step ∈ steps, _))

variable {rest : List Char} {segments : List (List Char)} {patterns : List Pattern} {path : String}

theorem slash_not_mem_of_bracket? {isNegation : Char → Bool} {inside : List Char}
    (h : bracket? isNegation cs = some (inside, rest)) (hslash : '/' ∉ cs) : '/' ∉ rest := by
  obtain ⟨⟨before, after⟩, hcut, heq⟩ := Option.map_eq_some_iff.1 h
  cases heq
  have hdrop := Text.eq_of_cutAt hcut
  intro hmem
  exact hslash (mem_of_mem_drop (hdrop ▸ mem_append_right _ hmem))

theorem SlashFree.tail (h : SlashFree (step :: steps)) : SlashFree steps :=
  (forall_mem_cons.1 h).2

theorem map_cons_eq_ok {ε : Type} {x : Except ε (List Step)} (h : x.map (step :: ·) = .ok steps) :
    ∃ more, x = .ok more ∧ steps = step :: more := by
  cases x with
  | error e => cases h
  | ok more => exact ⟨more, rfl, (Except.ok.inj h).symm⟩

/-- The steps through a segment pass over no slash, and there are none only if it is empty. -/
theorem segmentSteps_spec (h : segmentSteps cs = .ok steps) (hslash : '/' ∉ cs)
    (hfree : SlashFree steps) : (∀ step ∈ steps, step.IsInside) ∧ (steps = [] → cs = []) := by
  fun_induction segmentSteps cs generalizing steps with
  | case1 =>
    cases h
    simp
  | case2 => cases h
  | case3 c cs ih =>
    simp only [mem_cons, not_or] at hslash
    obtain ⟨more, hmore, rfl⟩ := map_cons_eq_ok h
    refine ⟨forall_mem_cons.2 ⟨?_, (ih hmore hslash.2.2 hfree.tail).1⟩, by simp⟩
    exact fun heq => hslash.2.1 heq.symm
  | case4 cs ih =>
    simp only [mem_cons, not_or] at hslash
    obtain ⟨more, hmore, rfl⟩ := map_cons_eq_ok h
    exact ⟨forall_mem_cons.2 ⟨trivial, (ih hmore hslash.2 hfree.tail).1⟩, by simp⟩
  | case5 cs ih =>
    simp only [mem_cons, not_or] at hslash
    obtain ⟨more, hmore, rfl⟩ := map_cons_eq_ok h
    exact ⟨forall_mem_cons.2 ⟨trivial, (ih hmore hslash.2 hfree.tail).1⟩, by simp⟩
  | case6 => cases h
  | case7 cs inside rest hfound ih =>
    simp only [mem_cons, not_or] at hslash
    obtain ⟨more, hmore, rfl⟩ := map_cons_eq_ok h
    have hrest := slash_not_mem_of_bracket? hfound hslash.2
    refine ⟨forall_mem_cons.2 ⟨?_, (ih hmore hrest hfree.tail).1⟩, by simp⟩
    exact hfree (.set (setOf inside)) mem_cons_self
  | case8 c cs _ _ _ _ _ ih =>
    simp only [mem_cons, not_or] at hslash
    obtain ⟨more, hmore, rfl⟩ := map_cons_eq_ok h
    refine ⟨forall_mem_cons.2 ⟨?_, (ih hmore hslash.2 hfree.tail).1⟩, by simp⟩
    exact fun heq => hslash.1 heq.symm

/-- Segments without slashes, the last of which is not empty. -/
structure Sound (segments : List (List Char)) : Prop where
  slash : ∀ segment ∈ segments, '/' ∉ segment
  last : segments.getLast? ≠ some []

theorem Sound.tail {segment : List Char} (h : Sound (segment :: segments)) : Sound segments := by
  refine ⟨fun other hother => h.slash other (mem_cons_of_mem segment hother), ?_⟩
  rcases eq_or_ne segments [] with rfl | hne
  · simp
  · have hlast := h.last
    rwa [getLast?_cons_of_ne_nil hne] at hlast

/-! The steps of one segment: two stars, or what is inside of it between a slash and an edge. -/

theorem stepsOf_deep {first slash : Bool} (h : stepsOf first slash (deep :: segments) = .ok steps) :
    steps = [.slash] ∨ ∃ step slash more, step.IsJoint ∧
      stepsOf false slash segments = .ok more ∧ steps = step :: more := by
  rw [stepsOf, if_pos rfl] at h
  split at h
  · obtain ⟨more, hmore, rfl⟩ := map_cons_eq_ok h
    exact .inr ⟨.leading, _, more, trivial, hmore, rfl⟩
  · split at h
    · exact .inl (Except.ok.inj h).symm
    · obtain ⟨more, hmore, rfl⟩ := map_cons_eq_ok h
      exact .inr ⟨.inner, _, more, trivial, hmore, rfl⟩

theorem stepsOf_segment {first slash : Bool} {segment : List Char} (hdeep : segment ≠ deep)
    (hslash : '/' ∉ segment) (h : stepsOf first slash (segment :: segments) = .ok steps)
    (hfree : SlashFree steps) : ∃ inside more, stepsOf false true segments = .ok more ∧
      steps = (if slash then [.slash] else []) ++ (inside ++
        ((if segments.isEmpty then [.edge] else []) ++ more)) ∧
      (∀ step ∈ inside, step.IsInside) ∧ (inside = [] → segment = []) := by
  rw [stepsOf, if_neg hdeep] at h
  dsimp only at h
  split at h
  all_goals
    obtain ⟨inside, hinside, h⟩ := bind_eq_ok_iff.1 h
    obtain ⟨more, hmore, h⟩ := bind_eq_ok_iff.1 h
    cases h
    refine ⟨inside, more, hmore, by simp only [append_assoc], ?_⟩
  · cases hinside
    simp [Step.IsInside]
  · exact segmentSteps_spec hinside hslash fun step hstep => hfree step (by simp [hstep])

theorem Laid.after_slash (h : Laid false steps) (slash : Bool) :
    Laid false ((if slash then [.slash] else []) ++ steps) := by
  cases slash with
  | false => exact h
  | true => exact .joint trivial h

theorem Laid.edge_after {inside : List Step} (hinside : ∀ step ∈ inside, step.IsInside)
    (hne : inside ≠ []) : Laid false (inside ++ [.edge]) := by
  obtain ⟨step, others, rfl⟩ := exists_cons_of_ne_nil hne
  obtain ⟨hstep, hothers⟩ := forall_mem_cons.1 hinside
  exact .inside hstep (Laid.append hothers .edge)

theorem Laid.after_inside {inside : List Step} (hinside : ∀ step ∈ inside, step.IsInside)
    (h : Laid false steps) : Laid false (inside ++ steps) := by
  cases inside with
  | nil => exact h
  | cons step others =>
    obtain ⟨hstep, hothers⟩ := forall_mem_cons.1 hinside
    exact .inside hstep (Laid.append hothers h.begin)

/-- The steps through segments are laid out as they should be. -/
theorem laid_of_stepsOf {first slash : Bool} (h : stepsOf first slash segments = .ok steps)
    (hsound : Sound segments) (hfree : SlashFree steps) : Laid false steps := by
  induction segments generalizing first slash steps with
  | nil =>
    cases h
    exact .nil false
  | cons segment rest ih =>
    rcases eq_or_ne segment deep with rfl | hdeep
    · rcases stepsOf_deep h with rfl | ⟨step, slash, more, hjoint, hmore, rfl⟩
      · exact .joint trivial (.nil false)
      · exact .joint hjoint (ih hmore hsound.tail hfree.tail)
    obtain ⟨inside, more, hmore, rfl, hinside, hempty⟩ :=
      stepsOf_segment hdeep (hsound.slash segment mem_cons_self) h hfree
    have hlater := ih hmore hsound.tail fun step hstep => hfree step (by simp [hstep])
    refine Laid.after_slash ?_ slash
    cases rest with
    | nil =>
      -- the edge comes after the last segment, which is not empty
      cases hmore
      exact Laid.edge_after hinside fun hnil => hsound.last (by simp [hempty hnil])
    | cons next rest => exact Laid.after_inside hinside hlater

theorem slash_not_mem_deep : '/' ∉ deep := by decide

/-- Normalising brings in no slashes. -/
theorem slash_not_mem_anchored (h : ∀ segment ∈ segments, '/' ∉ segment) :
    ∀ segment ∈ anchored segments, '/' ∉ segment := by
  have hdeep := slash_not_mem_deep
  unfold anchored
  split
  · exact fun segment hsegment => h segment (mem_cons_of_mem [] hsegment)
  · split <;> simp_all
  · split <;> simp_all
  · exact h

theorem slash_not_mem_closed (h : ∀ segment ∈ segments, '/' ∉ segment) :
    ∀ segment ∈ closed segments, '/' ∉ segment := by
  unfold closed
  split
  · intro segment hsegment
    rcases mem_append.1 hsegment with hsegment | hsegment
    · exact h segment (dropLast_subset segments hsegment)
    · rw [mem_singleton.1 hsegment]
      exact slash_not_mem_deep
  · exact h

theorem getLast?_closed (segments : List (List Char)) : (closed segments).getLast? ≠ some [] := by
  unfold closed
  split
  · simp [deep]
  · rename_i hlast
    exact hlast

theorem thinned_sublist (segments : List (List Char)) : (thinned segments).Sublist segments := by
  induction segments with
  | nil => exact List.Sublist.refl []
  | cons segment segments ih =>
    rw [thinned]
    split
    · exact ih.cons segment
    · exact ih.cons_cons segment

theorem getLast?_thinned (segments : List (List Char)) :
    (thinned segments).getLast? = segments.getLast? := by
  induction segments with
  | nil => rfl
  | cons segment segments ih =>
    rcases eq_or_ne segments [] with rfl | hne
    · simp [thinned]
    · have hthinned : thinned segments ≠ [] := by
        intro hnil
        rw [hnil, getLast?_nil] at ih
        exact hne (getLast?_eq_none_iff.1 ih.symm)
      rw [thinned, getLast?_cons_of_ne_nil hne, ← ih]
      split
      · rfl
      · exact getLast?_cons_of_ne_nil hthinned

/-- The segments of a pattern in normal form. -/
theorem sound_normal (text : List Char) :
    Sound (thinned (closed (anchored (text.splitOn '/')))) where
  slash := fun segment hsegment => slash_not_mem_closed
    (slash_not_mem_anchored (fun _ h => Relative.slash_not_mem_of_mem_splitOn h)) segment
    ((thinned_sublist _).subset hsegment)
  last := by
    rw [getLast?_thinned]
    exact getLast?_closed _

/-- No set of the rule matches a slash. -/
def Rule.SlashFree : Rule → Prop
  | .steps way => Ignore.SlashFree way
  | .anything | .nested => True

instance : (rule : Rule) → Decidable rule.SlashFree
  | .steps way => inferInstanceAs (Decidable (Ignore.SlashFree way))
  | .anything => inferInstanceAs (Decidable True)
  | .nested => inferInstanceAs (Decidable True)

theorem Rule.holds_spec {rule : Rule} {directory : Bool} (h : ruleOf directory segments = .ok rule)
    (hsound : Sound segments) (hfree : rule.SlashFree) :
    Extends rule.holds ∧ Absorbs rule.holds := by
  have hanything : Extends Rule.anything.holds ∧ Absorbs Rule.anything.holds := by
    refine ⟨fun front rest _ => ?_, absorbs_of_nil rfl⟩
    simp [Rule.holds, inLine]
  have hnested : Extends Rule.nested.holds ∧ Absorbs Rule.nested.holds := by
    refine ⟨fun front rest _ => ?_, absorbs_of_nil rfl⟩
    simp [Rule.holds]
  unfold ruleOf at h
  split at h
  · cases h
    split
    · exact hnested
    · exact hanything
  split at h
  · cases h
    exact hanything
  split at h
  · cases h
    exact hnested
  · cases hsteps : stepsOf true false segments with
    | error flaw =>
      rw [hsteps] at h
      cases h
    | ok steps =>
      rw [hsteps] at h
      cases h
      have hfollow : (Rule.steps steps).holds = follow steps := by
        funext cs
        rw [Rule.holds, reach_eq, Reach.first_of]
      obtain ⟨hextends, -, habsorbs⟩ := (laid_of_stepsOf hsteps hsound hfree).follow_spec
      rw [hfollow]
      exact ⟨hextends, habsorbs rfl⟩

/-- A pattern that was read matches what is below a directory that it matches. -/
theorem holds_of_parse {line : String} {pattern : Pattern} (h : parse line = .ok (some pattern))
    (hfree : pattern.rule.SlashFree) : Extends pattern.rule.holds ∧ Absorbs pattern.rule.holds := by
  unfold parse at h
  dsimp only at h
  generalize (if ((stripped line.toList).head? == some '!') = true then
    (stripped line.toList).drop 1 else stripped line.toList) = text at h
  split at h
  · cases h
  split at h
  · cases h
  split at h
  · rename_i rule hrule
    split at h
    · cases h
    · cases h
      exact Rule.holds_spec hrule (sound_normal _) hfree
  · cases h
  · cases h

/-! ## Patterns together -/

/-- The pattern is not turned around, and matches what is below a directory that it matches. -/
structure Pattern.Deepens (pattern : Pattern) : Prop where
  negated : pattern.negated = false
  extends_holds : Extends pattern.rule.holds
  absorbs_holds : Absorbs pattern.rule.holds

/-- If no pattern is turned around, one that matches is enough. -/
theorem excludes_eq_true_iff (h : ∀ pattern ∈ patterns, pattern.negated = false) :
    excludes patterns path ↔ ∃ pattern ∈ patterns, pattern.rule.holds (relative path.toList) := by
  unfold excludes
  split
  · rename_i pattern hfind
    have hmem : pattern ∈ patterns := mem_reverse.1 (mem_of_find?_eq_some hfind)
    have hholds := find?_some hfind
    simp only [h pattern hmem, Bool.not_false, true_iff]
    exact ⟨pattern, hmem, hholds⟩
  · rename_i hfind
    rw [find?_eq_none] at hfind
    simp only [Bool.false_eq_true, false_iff, not_exists, not_and]
    exact fun pattern hmem => hfind pattern (mem_reverse.2 hmem)

/-- What stands before a slash is left as it is at its end, or left out together with the slash. -/
theorem relative_append (front : List Char) : (∀ rest, relative (front ++ '/' :: rest) = rest) ∨
      ∃ kept, ∀ rest, relative (front ++ '/' :: rest) = kept ++ '/' :: rest := by
  rcases front with _ | ⟨c, front⟩
  · exact .inl fun rest => rfl
  by_cases hslash : c = '/'
  · subst hslash
    exact .inr ⟨front, fun rest => rfl⟩
  by_cases hdot : c = '.'
  · subst hdot
    rcases front with _ | ⟨d, front⟩
    · exact .inl fun rest => rfl
    · by_cases hd : d = '/'
      · subst hd
        exact .inr ⟨front, fun rest => rfl⟩
      · refine .inr ⟨'.' :: d :: front, fun rest => ?_⟩
        simp [relative, hd]
  · refine .inr ⟨c :: front, fun rest => ?_⟩
    simp [relative, hslash, hdot]

/-- What is below a directory that patterns take out is taken out, too. -/
theorem excludes_below {directory : String} (hpatterns : ∀ pattern ∈ patterns, pattern.Deepens)
    (hpath : path.toList = directory.toList ++ '/' :: rest)
    (h : excludes patterns (directory ++ "/")) : excludes patterns path := by
  have hnegated := fun pattern hpattern => (hpatterns pattern hpattern).negated
  obtain ⟨pattern, hmem, hholds⟩ := (excludes_eq_true_iff hnegated).1 h
  refine (excludes_eq_true_iff hnegated).2 ⟨pattern, hmem, ?_⟩
  have hdeepens := hpatterns pattern hmem
  have hslash : (directory ++ "/").toList = directory.toList ++ ['/'] := by simp
  rw [hslash] at hholds
  rw [hpath]
  rcases relative_append directory.toList with hgone | ⟨kept, hkept⟩
  · rw [hgone] at hholds ⊢
    exact hdeepens.absorbs_holds hholds rest
  · rw [hkept] at hholds ⊢
    exact hdeepens.extends_holds kept rest hholds

end Deadwood.Ignore

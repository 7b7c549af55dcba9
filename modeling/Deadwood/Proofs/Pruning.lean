import Deadwood.Proofs.Disclosing
import Deadwood.Proofs.Patterns

/-!
# Walks that prune

A walk does not enter a directory that is left out. What it finds is therefore what a plain filter
would keep of all files, as long as a directory is left out only with everything below it
(`pruned_walk_agrees_with_filter`). For patterns that are not turned around this follows from the
way in which patterns match, if no set of a pattern matches a slash. A set that does may match the
slash at the end of a directory, and then leaves out the directory but none of its files
(`set_matches_slash`).
-/

set_option autoImplicit false

namespace Deadwood

open List

/-! ## Ways through directories -/

namespace Relative

/-- Up some directories, and then down along names without backslashes. -/
def IsWay (parts : List String) : Prop :=
  ∃ count names, parts = replicate count ".." ++ names ∧ ∀ name ∈ names, IsPlain name

variable {parts more : List String}

theorem IsWay.isPart (h : IsWay parts) : ∀ part ∈ parts, IsPart part := by
  obtain ⟨count, names, rfl, hnames⟩ := h
  intro part hpart
  rcases mem_append.1 hpart with hpart | hpart
  · rw [eq_of_mem_replicate hpart]
    exact ⟨by decide, by decide, by decide⟩
  · exact (hnames part hpart).isPart

theorem IsWay.backslash (h : IsWay parts) : '\\' ∉ (ofSegments parts).toList := by
  obtain ⟨count, names, rfl, hnames⟩ := h
  intro hmem
  rcases mem_ofSegments hmem with hslash | ⟨part, hpart, hc⟩
  · exact absurd hslash (by decide)
  · rcases mem_append.1 hpart with hpart | hpart
    · rw [eq_of_mem_replicate hpart] at hc
      exact absurd hc (by decide)
    · exact (hnames part hpart).backslash hc

theorem foldl_push_ups (count : Nat) :
    (replicate count "..").foldl (push false) [] = replicate count ".." := by
  induction count with
  | zero => rfl
  | succ count ih =>
    rw [replicate_succ', foldl_concat, ih, ← replicate_succ']
    cases count with
    | zero => rfl
    | succ count => rfl

theorem IsWay.collapse_eq (h : IsWay parts) : collapse false parts = parts := by
  obtain ⟨count, names, rfl, hnames⟩ := h
  rw [collapse, foldl_append, foldl_push_ups,
    foldl_push_of_isName fun name hname => (hnames name hname).isName]
  simp

theorem IsWay.normalize_eq (h : IsWay parts) : normalize (ofSegments parts) = ofSegments parts := by
  rcases eq_or_ne parts [] with rfl | hne
  · decide
  · exact normalize_of_collapse hne h.isPart h.backslash h.collapse_eq

theorem toList_ofSegments_append (hne : parts ≠ []) (hmore : more ≠ []) :
    (ofSegments (parts ++ more)).toList =
      (ofSegments parts).toList ++ '/' :: (ofSegments more).toList := by
  rw [ofSegments_append parts hmore, ofSegments_concat hne]
  simp

theorem eq_of_ofSegments (hparts : ∀ part ∈ parts, IsPart part) (hmore : ∀ part ∈ more, IsPart part)
    (hne : parts ≠ []) (hne' : more ≠ []) (h : ofSegments parts = ofSegments more) :
    parts = more := by
  rw [← segments_ofSegments hne fun part hpart => (hparts part hpart).slash, h,
    segments_ofSegments hne' fun part hpart => (hmore part hpart).slash]

/-- A path does not end in a slash. -/
theorem exists_ofSegments_concat (hne : parts ≠ []) (hparts : ∀ part ∈ parts, IsPart part) :
    ∃ front c, (ofSegments parts).toList = front ++ [c] ∧ c ≠ '/' := by
  obtain ⟨others, last, rfl⟩ := eq_nil_or_concat parts |>.resolve_left hne
  have hlast : IsPart last := hparts last (by simp)
  have hchars : last.toList ≠ [] := fun hnil => hlast.ne_empty (String.toList_eq_nil_iff.1 hnil)
  obtain ⟨chars, c, hc⟩ := eq_nil_or_concat last.toList |>.resolve_left hchars
  have hslash : c ≠ '/' := by
    rintro rfl
    exact hlast.slash (by simp [hc])
  rcases eq_or_ne others [] with rfl | hothers
  · exact ⟨chars, c, by simpa [ofSegments_singleton] using hc, hslash⟩
  · refine ⟨(ofSegments others).toList ++ '/' :: chars, c, ?_, hslash⟩
    rw [concat_eq_append] at hc ⊢
    rw [toList_ofSegments_append hothers (by simp), ofSegments_singleton, hc]
    simp

end Relative

/-! ## What is left out -/

namespace Ignore.Excluder

open Relative

variable {patterns : List Pattern} {parts more : List String}

section

variable (hne : parts ≠ []) (hparts : ∀ part ∈ parts, IsPart part)
include hne hparts

/-- Slashes at the end of a path do not count for its directories. -/
theorem bare_ofSegments (count : Nat) :
    String.ofList (((ofSegments parts).toList ++ replicate count '/').reverse.dropWhile
      (· == '/')).reverse = ofSegments parts := by
  obtain ⟨front, c, htext, hc⟩ := exists_ofSegments_concat hne hparts
  have hdrop : ((front ++ [c]) ++ replicate count '/').reverse.dropWhile (· == '/') =
      (front ++ [c]).reverse := by
    rw [reverse_append, reverse_replicate, dropWhile_append_of_pos]
    · simp [hc]
    · simp +contextual
  rw [htext, hdrop, reverse_reverse, ← htext, String.ofList_toList]

theorem excludesAnywhere_file : excludesAnywhere patterns (ofSegments parts) =
      (excludes patterns (ofSegments parts) || parts.dropLast.any (excludes patterns)) := by
  have hbare := bare_ofSegments hne hparts 0
  rw [replicate_zero, append_nil] at hbare
  rw [excludesAnywhere, hbare, segments_ofSegments hne fun part hpart => (hparts part hpart).slash]

theorem excludesAnywhere_directory : excludesAnywhere patterns (ofSegments parts ++ "/") =
      (excludes patterns (ofSegments parts ++ "/") || parts.dropLast.any (excludes patterns)) := by
  have hbare := bare_ofSegments hne hparts 1
  have htext : (ofSegments parts ++ "/").toList = (ofSegments parts).toList ++ ['/'] := by simp
  rw [replicate_one, ← htext] at hbare
  rw [excludesAnywhere, hbare, segments_ofSegments hne fun part hpart => (hparts part hpart).slash]

end

/-- If patterns leave out a directory, they leave out what is below it. -/
theorem excludesAnywhere_below (hpatterns : ∀ pattern ∈ patterns, pattern.Deepens)
    (hne : parts ≠ []) (hmore : more ≠ []) (hparts : ∀ part ∈ parts ++ more, IsPart part)
    (h : excludesAnywhere patterns (ofSegments parts ++ "/")) :
    excludesAnywhere patterns (ofSegments (parts ++ more)) := by
  have hfront := fun part hpart => hparts part (mem_append_left more hpart)
  rw [excludesAnywhere_directory hne hfront, Bool.or_eq_true] at h
  rw [excludesAnywhere_file (by simp [hne]) hparts, Bool.or_eq_true]
  rcases h with hpath | hname
  · exact .inl (excludes_below hpatterns (toList_ofSegments_append hne hmore) hpath)
  · obtain ⟨name, hmem, hname⟩ := any_eq_true.1 hname
    refine .inr (any_eq_true.2 ⟨name, ?_, hname⟩)
    rw [dropLast_append_of_ne_nil hmore]
    exact mem_append_left _ (dropLast_subset parts hmem)

variable {excluder : Excluder}

/-- A file of the project is asked for by its path as it is. -/
theorem leavesOutFile_eq (hne : parts ≠ []) (hparts : IsWay parts) :
    excluder.leavesOutFile (Path.ofString (ofSegments parts)) =
      excluder.leavesOut (ofSegments parts) := by
  have htext : Path.toString ⟨0, parts⟩ = ofSegments parts := by
    simp [Path.toString, hne]
  rw [ofString_ofSegments hne hparts.isPart]
  simp only [leavesOutFile, Path.isAbsolute, bne_self_eq_false, Bool.false_eq_true, if_false,
    Option.any_some, htext, hparts.normalize_eq]

/-- No pattern is turned around, and each matches what is below a directory that it matches. -/
structure Deepens (excluder : Excluder) : Prop where
  defaults : ∀ pattern ∈ excluder.defaults, pattern.Deepens
  own : ∀ pattern ∈ excluder.own, pattern.Deepens

theorem Deepens.leavesOut (h : excluder.Deepens) (hne : parts ≠ []) (hmore : more ≠ [])
    (hparts : ∀ part ∈ parts ++ more, IsPart part)
    (hdirectory : excluder.leavesOutDirectory (ofSegments parts)) :
    excluder.leavesOut (ofSegments (parts ++ more)) := by
  rw [leavesOutDirectory, Excluder.leavesOut, Bool.or_eq_true] at hdirectory
  rw [Excluder.leavesOut, Bool.or_eq_true]
  exact hdirectory.imp (excludesAnywhere_below h.defaults hne hmore hparts)
    (excludesAnywhere_below h.own hne hmore hparts)

variable {lines : List Value}

/-- Every pattern was read from a line. -/
theorem exists_line_of_mem (h : patternsOf lines = .ok patterns) :
    ∀ pattern ∈ patterns, ∃ line, parse line = .ok (some pattern) := by
  induction lines generalizing patterns with
  | nil =>
    cases h
    simp
  | cons line lines ih =>
    -- the line has a pattern that was read from it, or none at all
    obtain ⟨first, rest, hfirst, hrest, rfl⟩ : ∃ first rest,
        (∀ pattern ∈ first, ∃ line, parse line = .ok (some pattern)) ∧
        patternsOf lines = .ok rest ∧ patterns = first ++ rest := by
      unfold patternsOf at h
      dsimp only at h
      split at h
      · obtain ⟨text, -, h⟩ := bind_eq_ok_iff.1 h
        obtain ⟨pattern, hparse, h⟩ := bind_eq_ok_iff.1 h
        obtain ⟨rest, hrest, h⟩ := bind_eq_ok_iff.1 h
        refine ⟨_, rest, fun pattern hpattern => ⟨text, ?_⟩, hrest, (Except.ok.inj h).symm⟩
        obtain rfl := Option.mem_toList.1 hpattern
        cases hresult : parse text with
        | error e =>
          rw [hresult] at hparse
          cases hparse
        | ok found =>
          rw [hresult] at hparse
          exact congrArg Except.ok (Except.ok.inj hparse)
      · obtain ⟨pattern, hnone, h⟩ := bind_eq_ok_iff.1 h
        obtain ⟨rest, hrest, h⟩ := bind_eq_ok_iff.1 h
        cases hnone
        exact ⟨[], rest, by simp, hrest, (Except.ok.inj h).symm⟩
    intro pattern hpattern
    rcases mem_append.1 hpattern with hpattern | hpattern
    · exact hfirst pattern hpattern
    · exact ih hrest pattern hpattern

theorem deepens_of_patternsOf (h : patternsOf lines = .ok patterns)
    (hpatterns : ∀ pattern ∈ patterns, pattern.negated = false ∧ pattern.rule.SlashFree) :
    ∀ pattern ∈ patterns, pattern.Deepens := by
  intro pattern hpattern
  obtain ⟨line, hline⟩ := exists_line_of_mem h pattern hpattern
  obtain ⟨hextends, habsorbs⟩ := holds_of_parse hline (hpatterns pattern hpattern).2
  exact ⟨(hpatterns pattern hpattern).1, hextends, habsorbs⟩

/-- The patterns of a project leave out directories as a whole if those of its own do: what is left
out always is no matter of marks and sets. -/
theorem deepens_of_load {disk : Disk} {root : Path} {everything : Bool} {extra : List Value}
    (h : load disk root everything extra = .ok excluder)
    (hown : ∀ pattern ∈ excluder.own, pattern.negated = false ∧ pattern.rule.SlashFree) :
    excluder.Deepens := by
  obtain ⟨hdefaults, lines, hlines⟩ := patterns_of_load h
  refine ⟨deepens_of_patternsOf hdefaults ?_, deepens_of_patternsOf hlines hown⟩
  have hall : (patternsOf (defaultLines.map .text)).toOption.any (fun patterns =>
      decide (∀ pattern ∈ patterns, pattern.negated = false ∧ pattern.rule.SlashFree)) := by
    decide +kernel
  obtain ⟨patterns, hread, hall⟩ := exists_ok_of_any hall
  obtain rfl := Except.ok.inj (hdefaults.symm.trans hread)
  exact of_decide_eq_true hall

end Ignore.Excluder

open Relative

/-! ## Trees -/

namespace Disk

/-- The disk is a tree: no two nodes stand at one place, the places are made of names, and what does
not stand at the top stands in a directory. -/
structure IsTree (disk : Disk) : Prop where
  nodup : (disk.nodes.map Prod.fst).Nodup
  isSegment : ∀ pair ∈ disk.nodes, ∀ name ∈ pair.1, IsSegment name
  parent : ∀ pair ∈ disk.nodes, pair.1.dropLast ≠ [] → (pair.1.dropLast, .directory) ∈ disk.nodes

variable {disk : Disk} {place : Place} {node : Node}

/-- What lies on the way to a node is a directory. -/
theorem IsTree.directory_above (h : disk.IsTree) {names : List String} (hplace : place ≠ [])
    (hnames : names ≠ []) (hmem : (place ++ names, node) ∈ disk.nodes) :
    (place, .directory) ∈ disk.nodes := by
  induction names using reverseRecOn generalizing node with
  | nil => exact absurd rfl hnames
  | append_singleton names name ih =>
    rw [← append_assoc] at hmem
    have hparent := h.parent _ hmem
    simp only [dropLast_concat] at hparent
    have hdirectory := hparent (by simp [hplace])
    rcases eq_or_ne names [] with rfl | hne
    · simpa using hdirectory
    · exact ih hne hdirectory

/-- The names in a directory are distinct. -/
theorem IsTree.nodup_children (h : disk.IsTree) (place : Place) :
    ((disk.children place).map Prod.fst).Nodup := by
  rw [children_eq, ((mergeSort_perm _ _).map Prod.fst).nodup_iff, List.Nodup,
    pairwise_map, pairwise_filterMap]
  refine (pairwise_map.1 h.nodup).imp ?_
  intro pair other hne child hchild child' hchild' hname
  rw [childOf_eq_some_iff] at hchild hchild'
  exact hne (by rw [hchild, hchild', hname])

end Disk

/-! ## Names below the start -/

namespace Walk

variable {walk : Walk} {disk : Disk} {base place : Place} {name path : String}
  {names : List String} {node : Node} {found : List String}

theorem exists_trail (base place : Place) :
    ∃ count back, trail base place = replicate count ".." ++ back ∧ back <:+ place := by
  induction base generalizing place with
  | nil => exact ⟨0, place, by simp [trail], suffix_refl place⟩
  | cons first base ih =>
    cases place with
    | nil =>
      exact ⟨(first :: base).length, [], by simp [trail, replicate_succ], nil_suffix⟩
    | cons part place =>
      rw [trail]
      split
      · obtain ⟨count, back, heq, hback⟩ := ih place
        exact ⟨count, back, heq, hback.trans (suffix_cons part place)⟩
      · exact ⟨(first :: base).length, part :: place, by simp [replicate_succ],
          suffix_refl _⟩

/-- Below a place that is not above the root, the trail only gets longer. -/
theorem trail_append_names (h : ¬ (place <+: base ∧ place ≠ base)) (names : List String) :
    trail base (place ++ names) = trail base place ++ names := by
  induction base generalizing place with
  | nil => simp [trail]
  | cons first base ih =>
    cases place with
    | nil => exact absurd ⟨List.nil_prefix, by simp⟩ h
    | cons part place =>
      rw [cons_append, trail, trail]
      split
      · rename_i heq
        subst heq
        refine ih fun habove => h ⟨?_, by simpa using habove.2⟩
        exact cons_prefix_cons.2 ⟨rfl, habove.1⟩
      · simp

/-- The paths of what stands below a directory are made of the names on the way: the root is not
below the directory, and no name on the way has a backslash. -/
structure Clear (disk : Disk) (base place : Place) : Prop where
  isDirectory : disk.at? place = some .directory
  beside : ¬ (place <+: base ∧ place ≠ base)
  backslash : ∀ pair ∈ disk.nodes, place <+: pair.1 → ∀ name ∈ trail base pair.1,
    '\\' ∉ name.toList

namespace Clear

theorem isWay_trail (htree : disk.IsTree) (hmem : (place, node) ∈ disk.nodes)
    (hslash : ∀ name ∈ trail base place, '\\' ∉ name.toList) : IsWay (trail base place) := by
  obtain ⟨count, back, heq, hback⟩ := exists_trail base place
  refine ⟨count, back, heq, fun name hname => ⟨?_, ?_⟩⟩
  · exact htree.isSegment _ hmem name (hback.subset hname)
  · exact hslash name (heq ▸ mem_append_right _ hname)

section

variable (h : Clear disk base place) (htree : disk.IsTree)
include h htree

theorem isWay : IsWay (trail base place) := by
  rcases eq_or_ne place [] with rfl | hne
  · obtain ⟨count, back, heq, hback⟩ := exists_trail base []
    obtain rfl := suffix_nil.1 hback
    exact ⟨count, [], heq, by simp⟩
  · have hmem := Disk.mem_of_at? hne h.isDirectory
    exact isWay_trail htree hmem (h.backslash _ hmem (prefix_refl place))

theorem isWay_append (hmem : (place ++ names, node) ∈ disk.nodes) :
    IsWay (trail base place ++ names) := by
  rw [← trail_append_names h.beside]
  exact isWay_trail htree hmem (h.backslash _ hmem (prefix_append place names))

theorem pathOf_eq (hmem : (place ++ names, node) ∈ disk.nodes) :
    pathOf base (place ++ names) = ofSegments (trail base place ++ names) := by
  rw [pathOf, trail_append_names h.beside, (h.isWay_append htree hmem).normalize_eq]

/-- What a walk asks about a name in the directory is its path. -/
theorem child_pathOf (hmem : (place ++ [name], node) ∈ disk.nodes) :
    child (pathOf base place) name = pathOf base (place ++ [name]) := by
  rw [h.pathOf_eq htree hmem, pathOf, (h.isWay htree).normalize_eq,
    child_ofSegments (h.isWay htree).isPart]

/-- What holds of a directory holds of the directories in it. -/
theorem append (hmem : (place ++ [name], .directory) ∈ disk.nodes) :
    Clear disk base (place ++ [name]) where
  isDirectory := by
    rw [Disk.at?_of_ne_nil disk (by simp)]
    exact (Keyed.lookup_eq_some_iff_mem htree.nodup).2 hmem
  beside := by
    rintro ⟨hleads, hne⟩
    refine h.beside ⟨(prefix_append place [name]).trans hleads, ?_⟩
    rintro rfl
    exact absurd hleads.length_le (by simp)
  backslash := fun pair hpair hleads =>
    h.backslash pair hpair ((prefix_append place [name]).trans hleads)

end

end Clear

/-! ## Which files are found -/

theorem candidate?_eq_some_iff {directory : String} :
    walk.candidate? directory name = .ok (some path) ↔ walk.admits name = .ok true ∧
      walk.excluder.leavesOutFile (Path.ofString path) = false ∧ path = child directory name := by
  constructor
  · intro h
    obtain ⟨admitted, hadmits, h⟩ := bind_eq_ok_iff.1 h
    split at h
    · rename_i hkept
      cases h
      obtain ⟨hadmitted, hleft⟩ := Bool.and_eq_true_iff.1 hkept
      exact ⟨by rw [hadmits, hadmitted], by simpa using hleft, rfl⟩
    · cases Except.ok.inj h
  · rintro ⟨hadmits, hleft, rfl⟩
    simp only [candidate?, hadmits, bind, Except.bind, hleft, Bool.not_false, Bool.and_true,
      if_true]
    rfl

/-- The names lead from a place to a file whose name is admitted. -/
structure Offers (walk : Walk) (disk : Disk) (place : Place) (names : List String) : Prop where
  isFile : ∃ bytes, (place ++ names, .file bytes) ∈ disk.nodes
  admitted : ∃ name ∈ names.getLast?, walk.admits name = .ok true

/-- A plain filter lets the file pass: its name is admitted, and it is not left out. -/
structure Passes (walk : Walk) (disk : Disk) (base place : Place) (names : List String) : Prop
    extends walk.Offers disk place names where
  kept : walk.excluder.leavesOutFile (Path.ofString (pathOf base (place ++ names))) = false

/-- No directory on the way along the names is left out. -/
def Enters (walk : Walk) (base place : Place) (names : List String) : Prop :=
  ∀ front, front ≠ [] → front <+: names → front ≠ names →
    walk.excluder.leavesOutDirectory (pathOf base (place ++ front)) = false

theorem Offers.ne_nil (h : walk.Offers disk place names) : names ≠ [] := by
  obtain ⟨name, hname, -⟩ := h.admitted
  rintro rfl
  cases hname

/-- The names after the first one lead on from the directory that the first one names. -/
theorem passes_cons_iff (hne : names ≠ []) : walk.Passes disk base place (name :: names) ↔
    walk.Passes disk base (place ++ [name]) names := by
  have happend : place ++ [name] ++ names = place ++ name :: names := by simp
  have hlast := getLast?_cons_of_ne_nil (x := name) hne
  constructor
  · rintro ⟨⟨hfile, hadmitted⟩, hkept⟩
    exact ⟨⟨by rwa [happend], hlast ▸ hadmitted⟩, by rwa [happend]⟩
  · rintro ⟨⟨hfile, hadmitted⟩, hkept⟩
    rw [happend] at hfile hkept
    exact ⟨⟨hfile, by rwa [hlast]⟩, hkept⟩

theorem enters_cons_iff (hne : names ≠ []) : walk.Enters base place (name :: names) ↔
    walk.excluder.leavesOutDirectory (pathOf base (place ++ [name])) = false ∧
      walk.Enters base (place ++ [name]) names :=
  forall_front_cons_iff (fun place => walk.excluder.leavesOutDirectory (pathOf base place) = false)
    place name hne

/-- What is found passes the filter, and no directory on the way to it is left out. -/
theorem Finds.exists_names (h : walk.Finds disk base path place) (htree : disk.IsTree)
    (hclear : Clear disk base place) : ∃ names, walk.Passes disk base place names ∧
      walk.Enters base place names ∧ path = pathOf base (place ++ names) := by
  induction h with
  | @file place name bytes hmem hfound =>
    rw [Disk.mem_children_iff] at hmem
    obtain ⟨hadmits, hkept, hpath⟩ := candidate?_eq_some_iff.1 hfound
    rw [hclear.child_pathOf htree hmem] at hpath
    rw [hpath] at hkept
    refine ⟨[name], ⟨⟨⟨bytes, hmem⟩, name, rfl, hadmits⟩, hkept⟩, fun front hne hfront hnot => ?_,
      hpath⟩
    exact absurd (eq_singleton_of_front hne hfront) hnot
  | @deeper place name hmem hentered hfinds ih =>
    rw [Disk.mem_children_iff] at hmem
    obtain ⟨names, hpasses, henters, hpath⟩ := ih (hclear.append htree hmem)
    rw [hclear.child_pathOf htree hmem] at hentered
    have hne := hpasses.toOffers.ne_nil
    exact ⟨name :: names, (passes_cons_iff hne).2 hpasses,
      (enters_cons_iff hne).2 ⟨hentered, henters⟩, by simpa using hpath⟩

/-- What passes the filter is found, unless a directory on the way to it is left out. -/
theorem finds_of_passes (htree : disk.IsTree) (hclear : Clear disk base place)
    (hpasses : walk.Passes disk base place names) (henters : walk.Enters base place names) :
    walk.Finds disk base (pathOf base (place ++ names)) place := by
  induction names generalizing place with
  | nil => exact absurd rfl hpasses.toOffers.ne_nil
  | cons name names ih =>
    rcases eq_or_ne names [] with rfl | hne
    · obtain ⟨bytes, hfile⟩ := hpasses.isFile
      obtain ⟨last, hlast, hadmits⟩ := hpasses.admitted
      obtain rfl : name = last := Option.some.inj hlast
      refine .file (Disk.mem_children_iff.2 hfile) (candidate?_eq_some_iff.2
        ⟨hadmits, hpasses.kept, ?_⟩)
      exact (hclear.child_pathOf htree hfile).symm
    · rw [passes_cons_iff hne] at hpasses
      rw [enters_cons_iff hne] at henters
      obtain ⟨bytes, hfile⟩ := hpasses.isFile
      have hmem := htree.directory_above (by simp) hne hfile
      rw [append_cons]
      refine .deeper (Disk.mem_children_iff.2 hmem) ?_
        (ih (hclear.append htree hmem) hpasses henters.2)
      rw [hclear.child_pathOf htree hmem]
      exact henters.1

/-! ## Success -/

/-- Every end of a name that is asked for is a text. -/
def HasTexts (walk : Walk) : Prop := ∀ ext ∈ walk.extensions, ∃ text, ext = .text text

theorem exists_endsWithAny {extensions : List Value}
    (h : ∀ ext ∈ extensions, ∃ text, ext = .text text) (name : String) :
    ∃ fits, endsWithAny name extensions = .ok fits := by
  induction extensions with
  | nil => exact ⟨false, rfl⟩
  | cons ext extensions ih =>
    obtain ⟨⟨text, rfl⟩, hothers⟩ := forall_mem_cons.1 h
    have hstep : endsWithAny name (.text text :: extensions) =
        if name.endsWith text then .ok true else endsWithAny name extensions := rfl
    rw [hstep]
    split
    · exact ⟨true, rfl⟩
    · exact ih hothers

theorem HasTexts.exists_admits (h : walk.HasTexts) (name : String) :
    ∃ admitted, walk.admits name = .ok admitted := by
  unfold admits
  dsimp only
  split
  · exact ⟨_, rfl⟩
  · obtain ⟨fits, hfits⟩ := exists_endsWithAny h name
    exact ⟨_, by rw [hfits]; rfl⟩

theorem HasTexts.exists_candidate? (h : walk.HasTexts) (directory name : String) :
    ∃ candidate, walk.candidate? directory name = .ok candidate := by
  obtain ⟨admitted, hadmits⟩ := h.exists_admits name
  simp only [candidate?, hadmits, bind, Except.bind]
  split
  · exact ⟨_, rfl⟩
  · exact ⟨_, rfl⟩

theorem exists_bind {ε α β : Type} {x : Except ε α} {f : α → Except ε β} (hx : ∃ a, x = .ok a)
    (hf : ∀ a, ∃ b, f a = .ok b) : ∃ b, x >>= f = .ok b := by
  obtain ⟨a, rfl⟩ := hx
  exact hf a

theorem exists_mapM {ε α β : Type} {f : α → Except ε β} {as : List α}
    (h : ∀ a ∈ as, ∃ b, f a = .ok b) : ∃ bs, as.mapM f = .ok bs := by
  simp only [mapM_eq_ok_iff]
  induction as with
  | nil => exact ⟨[], .nil⟩
  | cons a as ih =>
    obtain ⟨⟨b, hb⟩, hothers⟩ := forall_mem_cons.1 h
    obtain ⟨bs, hbs⟩ := ih hothers
    exact ⟨b :: bs, .cons hb hbs⟩

theorem HasTexts.exists_filesAt (h : walk.HasTexts) (disk : Disk) (base place : Place) :
    ∃ files, walk.filesAt disk base place = .ok files := by
  rw [filesAt_eq]
  refine exists_bind (exists_mapM fun entry _ => ?_) fun parts => ⟨_, rfl⟩
  obtain ⟨name, _ | bytes⟩ := entry
  · exact ⟨[], rfl⟩
  · exact exists_bind (h.exists_candidate? (pathOf base place) name) fun candidate => ⟨_, rfl⟩

/-- A walk fails only on an end of a name that is no text. -/
theorem HasTexts.exists_below (h : walk.HasTexts) (disk : Disk) (base place : Place) :
    ∃ found, walk.below disk base place = .ok found := by
  induction hn : disk.depth - place.length using Nat.strongRecOn generalizing place with
  | ind n ih =>
    rw [below_eq]
    refine exists_bind (h.exists_filesAt disk base place) fun files => ?_
    refine exists_bind (exists_mapM fun entry hentry => ?_) fun deeper => ⟨_, rfl⟩
    obtain ⟨name, _ | bytes⟩ := entry
    · rw [belowEntry]
      split
      · exact ⟨[], rfl⟩
      · exact ih _ (hn ▸ depth_sub_lt hentry) (place ++ [name]) rfl
    · exact ⟨[], rfl⟩

/-! ## Each file once -/

theorem child_injective (directory : String) : Function.Injective (child directory) := by
  intro name other h
  unfold child at h
  split at h
  · exact h
  · simpa [← String.toList_inj] using h

/-- Two ways below a directory that have the same path are the same way. -/
theorem Clear.eq_of_pathOf (h : Clear disk base place) (htree : disk.IsTree)
    {names' : List String} {node' : Node} (hne : names ≠ []) (hne' : names' ≠ [])
    (hmem : (place ++ names, node) ∈ disk.nodes) (hmem' : (place ++ names', node') ∈ disk.nodes)
    (heq : pathOf base (place ++ names) = pathOf base (place ++ names')) : names = names' := by
  rw [h.pathOf_eq htree hmem, h.pathOf_eq htree hmem'] at heq
  exact append_cancel_left (eq_of_ofSegments (h.isWay_append htree hmem).isPart
    (h.isWay_append htree hmem').isPart (by simp [hne]) (by simp [hne']) heq)

/-- The candidates in a directory come in the order of their names. -/
theorem sublist_of_filesAt {files : List String} (h : walk.filesAt disk base place = .ok files) :
    files.Sublist (((disk.children place).map Prod.fst).map (child (pathOf base place))) := by
  rw [filesAt_eq] at h
  obtain ⟨parts, hparts, hfiles⟩ := bind_eq_ok_iff.1 h
  cases hfiles
  clear h
  rw [mapM_eq_ok_iff] at hparts
  generalize disk.children place = entries at hparts ⊢
  induction hparts with
  | nil => exact nil_sublist _
  | @cons entry part entries parts hpart _ ih =>
    obtain ⟨name, _ | bytes⟩ := entry
    · cases hpart
      exact ih.cons _
    · obtain ⟨_ | path, hcandidate, hpart⟩ := bind_eq_ok_iff.1 hpart
      · cases hpart
        exact ih.cons _
      · cases hpart
        rw [eq_child_of_candidate? hcandidate]
        exact ih.cons_cons _

theorem pairwise_of_forall₂ {α β : Type} {R : α → β → Prop} {S : α → α → Prop} {T : β → β → Prop}
    {as : List α} {bs : List β} (h : List.Forall₂ R as bs) (has : as.Pairwise S)
    (hT : ∀ a ∈ as, ∀ a' ∈ as, ∀ b b', R a b → R a' b' → S a a' → T b b') : bs.Pairwise T := by
  induction h with
  | nil => exact .nil
  | @cons a b as bs hab hrest ih =>
    rw [pairwise_cons] at has ⊢
    refine ⟨fun b' hb' => ?_, ih has.2 fun a ha a' ha' =>
      hT a (mem_cons_of_mem _ ha) a' (mem_cons_of_mem _ ha')⟩
    obtain ⟨a', ha', hab'⟩ := exists_of_forall₂_right hrest hb'
    exact hT a mem_cons_self a' (mem_cons_of_mem _ ha') b b' hab hab' (has.1 a' ha')

/-- What is found by an entry has its name on the way, and one name more. -/
theorem exists_names_of_belowEntry {entry : String × Node} {part : List String}
    (htree : disk.IsTree) (hclear : Clear disk base place) (hentry : entry ∈ disk.children place)
    (h : walk.belowEntry base place (walk.below disk base) entry = .ok part) (hpath : path ∈ part) :
    ∃ names node, names ≠ [] ∧ (place ++ entry.1 :: names, node) ∈ disk.nodes ∧
      path = pathOf base (place ++ entry.1 :: names) := by
  rcases belowEntry_cases h with rfl | ⟨name, rfl, -, h⟩
  · cases hpath
  · have hbelow := hclear.append htree (Disk.mem_children_iff.1 hentry)
    obtain ⟨names, hpasses, -, rfl⟩ := ((mem_below_iff h).1 hpath).exists_names htree hbelow
    obtain ⟨bytes, hfile⟩ := hpasses.isFile
    have happend : place ++ [name] ++ names = place ++ name :: names := by simp
    exact ⟨names, _, hpasses.toOffers.ne_nil, happend ▸ hfile, by rw [happend]⟩

/-- A walk finds each file once. -/
theorem nodup_below (htree : disk.IsTree) (hclear : Clear disk base place)
    (h : walk.below disk base place = .ok found) : found.Nodup := by
  induction hn : disk.depth - place.length using Nat.strongRecOn generalizing place found with
  | ind n ih =>
    rw [below_eq] at h
    obtain ⟨files, hfiles, h⟩ := bind_eq_ok_iff.1 h
    obtain ⟨deeper, hdeeper, h⟩ := bind_eq_ok_iff.1 h
    cases h
    rw [mapM_eq_ok_iff] at hdeeper
    have hnames := htree.nodup_children place
    rw [nodup_append]
    refine ⟨(hnames.map (child_injective _)).sublist (sublist_of_filesAt hfiles),
      nodup_flatten.2 ⟨fun part hmem => ?_, ?_⟩, ?_⟩
    · -- what is found by one entry
      obtain ⟨entry, hentry, hresult⟩ := exists_of_forall₂_right hdeeper hmem
      rcases belowEntry_cases hresult with rfl | ⟨name, rfl, -, hresult⟩
      · exact nodup_nil
      · exact ih _ (hn ▸ depth_sub_lt hentry)
          (hclear.append htree (Disk.mem_children_iff.1 hentry)) hresult rfl
    · -- two entries have two names
      refine pairwise_of_forall₂ hdeeper (pairwise_map.1 hnames) ?_
      intro entry hentry entry' hentry' part part' hresult hresult' hne path hpath hpath'
      obtain ⟨names, node, -, hmem, hpathOf⟩ :=
        exists_names_of_belowEntry htree hclear hentry hresult hpath
      obtain ⟨names', node', -, hmem', hpathOf'⟩ :=
        exists_names_of_belowEntry htree hclear hentry' hresult' hpath'
      have heq := hclear.eq_of_pathOf htree (by simp) (by simp) hmem hmem'
        (hpathOf.symm.trans hpathOf')
      exact hne (cons.inj heq).1
    · -- a file of the directory has no further name
      rintro path hpath _ hdeep rfl
      obtain ⟨name, bytes, hfile, hfound⟩ := (mem_filesAt_iff hfiles).1 hpath
      rw [Disk.mem_children_iff] at hfile
      obtain ⟨part, hmem, hpathPart⟩ := mem_flatten.1 hdeep
      obtain ⟨entry, hentry, hresult⟩ := exists_of_forall₂_right hdeeper hmem
      obtain ⟨names, node, hne, hnode, hpathOf⟩ :=
        exists_names_of_belowEntry htree hclear hentry hresult hpathPart
      have hchild := eq_child_of_candidate? hfound
      rw [hclear.child_pathOf htree hfile] at hchild
      have heq := hclear.eq_of_pathOf htree (by simp) (by simp) hfile hnode
        (hchild.symm.trans hpathOf)
      exact hne (cons.inj heq).2.symm

/-! ## The walk and the filter -/

/-- The walk begins in a directory. -/
structure Begins (walk : Walk) (disk : Disk) (base start : Place) : Prop where
  base_eq : disk.locate walk.root = .ok base
  start_eq : disk.locate (walk.root.child (normalize walk.start)) = .ok start
  isDirectory : disk.at? start = some .directory

/-- What a walk finds of the files below its start. -/
structure Prunes (walk : Walk) (disk : Disk) (found : List String) : Prop where
  /-- Each file is found at most once. -/
  nodup : found.Nodup
  /-- What is found passes the filter: it is not left out. -/
  passes : ∀ path ∈ found, ∃ base start names, walk.Begins disk base start ∧
    walk.Passes disk base start names ∧ path = pathOf base (start ++ names)
  /-- A file with an admitted name that is not found is left out, or lies below a directory that
  is. -/
  missed : ∀ base start names, walk.Begins disk base start → walk.Offers disk start names →
    pathOf base (start ++ names) ∉ found →
    walk.excluder.leavesOutFile (Path.ofString (pathOf base (start ++ names))) = true ∨
      ∃ front, front ≠ [] ∧ front <+: names ∧ front ≠ names ∧
        walk.excluder.leavesOutDirectory (pathOf base (start ++ front)) = true

/-- A walk that begins in a directory follows it; else it finds nothing. -/
theorem exists_paths (htexts : walk.HasTexts)
    (hroot : disk.locate walk.root ≠ .error .zeroCharacter)
    (hstart : disk.locate (walk.root.child (normalize walk.start)) ≠ .error .zeroCharacter) :
    ∃ found, walk.paths disk = .ok found ∧
      (∀ path ∈ found, ∃ base start, walk.Begins disk base start) ∧
      ∀ base start, walk.Begins disk base start → walk.below disk base start = .ok found := by
  unfold paths
  dsimp only
  split
  · rename_i hzero
    exact absurd hzero hroot
  · rename_i hzero _
    exact absurd hzero hstart
  · rename_i base place hbase hplace
    have hsame : ∀ base' start, walk.Begins disk base' start → base' = base ∧ start = place :=
      fun base' start hbegins => ⟨Except.ok.inj (hbegins.base_eq.symm.trans hbase),
        Except.ok.inj (hbegins.start_eq.symm.trans hplace)⟩
    split
    · rename_i hdirectory
      obtain ⟨found, hfound⟩ := htexts.exists_below disk base place
      refine ⟨found, ofFault_eq_ok_iff.2 hfound,
        fun _ _ => ⟨base, place, hbase, hplace, hdirectory⟩, fun base' start hbegins => ?_⟩
      obtain ⟨rfl, rfl⟩ := hsame base' start hbegins
      exact hfound
    · rename_i hdirectory
      refine ⟨[], rfl, by simp, fun base' start hbegins => ?_⟩
      obtain ⟨rfl, rfl⟩ := hsame base' start hbegins
      exact absurd hbegins.isDirectory hdirectory
  · rename_i hnowhere
    refine ⟨[], rfl, by simp, fun base start hbegins => ?_⟩
    exact (hnowhere base start hbegins.base_eq hbegins.start_eq).elim

/-- A file that passes the filter is found if no directory on the way to it is left out. -/
theorem mem_of_passes {start : Place} (htree : disk.IsTree) (hclear : Clear disk base start)
    (hbelow : walk.below disk base start = .ok found) (hpasses : walk.Passes disk base start names)
    (henters : walk.Enters base start names) : pathOf base (start ++ names) ∈ found :=
  (mem_below_iff hbelow).2 (finds_of_passes htree hclear hpasses henters)

theorem prunes_of_below (htree : disk.IsTree)
    (hclear : ∀ base start, walk.Begins disk base start → Clear disk base start)
    (hsome : ∀ path ∈ found, ∃ base start, walk.Begins disk base start)
    (hbelow : ∀ base start, walk.Begins disk base start → walk.below disk base start = .ok found) :
    walk.Prunes disk found where
  nodup := by
    rcases eq_or_ne found [] with rfl | hne
    · exact nodup_nil
    · obtain ⟨path, hpath⟩ := exists_mem_of_ne_nil found hne
      obtain ⟨base, start, hbegins⟩ := hsome path hpath
      exact nodup_below htree (hclear base start hbegins) (hbelow base start hbegins)
  passes := by
    intro path hpath
    obtain ⟨base, start, hbegins⟩ := hsome path hpath
    obtain ⟨names, hpasses, -, heq⟩ := ((mem_below_iff (hbelow base start hbegins)).1
      hpath).exists_names htree (hclear base start hbegins)
    exact ⟨base, start, names, hbegins, hpasses, heq⟩
  missed := by
    intro base start names hbegins hoffers hmissed
    by_contra hneither
    rw [not_or, Bool.not_eq_true] at hneither
    refine hmissed (mem_of_passes htree (hclear base start hbegins) (hbelow base start hbegins)
      ⟨hoffers, hneither.1⟩ fun front hne hfront hnot => ?_)
    by_contra hleft
    exact hneither.2 ⟨front, hne, hfront, hnot, by simpa using hleft⟩

/-- If a directory is left out, then so is every file below it. -/
theorem leavesOutFile_below {start : Place} {front more : List String} (htree : disk.IsTree)
    (hclear : Clear disk base start) (hdeepens : walk.excluder.Deepens) (hfront : front ≠ [])
    (hmore : more ≠ []) (hmem : (start ++ (front ++ more), node) ∈ disk.nodes)
    (h : walk.excluder.leavesOutDirectory (pathOf base (start ++ front))) :
    walk.excluder.leavesOutFile (Path.ofString (pathOf base (start ++ (front ++ more)))) =
      true := by
  have hdirectory : (start ++ front, .directory) ∈ disk.nodes := by
    rw [← append_assoc] at hmem
    exact htree.directory_above (by simp [hfront]) hmore hmem
  have hway := hclear.isWay_append htree hmem
  rw [hclear.pathOf_eq htree hdirectory] at h
  rw [hclear.pathOf_eq htree hmem, Ignore.Excluder.leavesOutFile_eq (by simp [hfront]) hway,
    ← append_assoc]
  rw [← append_assoc] at hway
  exact hdeepens.leavesOut (by simp [hfront]) hmore hway.isPart h

/-- A walk that does not enter directories that are left out finds each file at most once and only
files that are not left out, and misses only files that are left out or lie below a directory that
is. If no pattern of the project is turned around and no set of a pattern matches a slash, then with
a directory everything below it is left out, and the walk finds exactly the files that a plain
filter lets pass. -/
theorem pruned_walk_agrees_with_filter {disk₀ : Disk} {root : Path} {everything : Bool}
    {extra : List Value}
    (hload : Ignore.Excluder.load disk₀ root everything extra = .ok walk.excluder)
    (htree : disk.IsTree) (htexts : walk.HasTexts)
    (hroot : disk.locate walk.root ≠ .error .zeroCharacter)
    (hstart : disk.locate (walk.root.child (normalize walk.start)) ≠ .error .zeroCharacter)
    (hclear : ∀ base start, walk.Begins disk base start → Clear disk base start) :
    ∃ found, walk.paths disk = .ok found ∧ walk.Prunes disk found ∧
      ((∀ pattern ∈ walk.excluder.own, pattern.negated = false ∧ pattern.rule.SlashFree) →
        (∀ base start front more node, walk.Begins disk base start → front ≠ [] → more ≠ [] →
          (start ++ (front ++ more), node) ∈ disk.nodes →
          walk.excluder.leavesOutDirectory (pathOf base (start ++ front)) = true →
          walk.excluder.leavesOutFile
            (Path.ofString (pathOf base (start ++ (front ++ more)))) = true) ∧
        ∀ path, path ∈ found ↔ ∃ base start names, walk.Begins disk base start ∧
          walk.Passes disk base start names ∧ path = pathOf base (start ++ names)) := by
  obtain ⟨found, hpaths, hsome, hbelow⟩ := exists_paths htexts hroot hstart
  have hprunes := prunes_of_below htree hclear hsome hbelow
  refine ⟨found, hpaths, hprunes, fun hown => ?_⟩
  have hdeepens := Ignore.Excluder.deepens_of_load hload hown
  constructor
  · intro base start front more node hbegins hfront hmore hmem
    exact leavesOutFile_below htree (hclear base start hbegins) hdeepens hfront hmore hmem
  · refine fun path => ⟨hprunes.passes path, ?_⟩
    rintro ⟨base, start, names, hbegins, hpasses, rfl⟩
    refine mem_of_passes htree (hclear base start hbegins) (hbelow base start hbegins) hpasses ?_
    -- a directory on the way that is left out would take the file along
    rintro front hne ⟨more, rfl⟩ hnot
    obtain ⟨bytes, hfile⟩ := hpasses.isFile
    by_contra hleft
    have hmore : more ≠ [] := by
      rintro rfl
      exact hnot (append_nil front).symm
    have hout := leavesOutFile_below htree (hclear base start hbegins) hdeepens hne hmore hfile
      (by simpa using hleft)
    rw [hpasses.kept] at hout
    cases hout

/-! ## A directory that is left out -/

/-- A project with an ignore file, and a file in a directory. -/
def ignoringDisk (pattern directory : String) : Disk where
  nodes := [([".gitignore"], .file (Text.Utf8.encode (pattern ++ "\n").toList)),
    ([directory], .directory), ([directory, "x.ts"], .file []), (["main.ts"], .file [])]

def ignoringWalk (excluder : Ignore.Excluder) : Walk where
  root := Analysis.smallRoot
  excluder := excluder
  extensions := [.text ".ts"]

section Ignoring

variable {excluder : Ignore.Excluder}

theorem clear_of_begins {start : Place}
    (hplain : ∀ pair ∈ disk.nodes, ∀ name ∈ pair.1, IsPlain name)
    (h : (ignoringWalk excluder).Begins disk base start) : Clear disk base start := by
  obtain ⟨hbase, hstart⟩ :=
    @Analysis.locate_smallRoot (ignoringWalk excluder) rfl rfl disk
  obtain rfl := Except.ok.inj (hbase.symm.trans h.base_eq)
  obtain rfl := Except.ok.inj (hstart.symm.trans h.start_eq)
  refine ⟨rfl, by simp, fun pair hpair _ name hname => ?_⟩
  rw [show trail [] pair.1 = pair.1 by simp [trail]] at hname
  exact (hplain pair hpair name hname).backslash

theorem hasTexts_ignoring : (ignoringWalk excluder).HasTexts := by
  intro ext hext
  exact ⟨".ts", mem_singleton.1 hext⟩

end Ignoring

theorem pruned_walk_agrees_with_filter_gen : ∃ excluder found,
    Ignore.Excluder.load (ignoringDisk "gen" "gen") Analysis.smallRoot false [] = .ok excluder ∧
    excluder.leavesOutDirectory "gen" = true ∧
    (ignoringWalk excluder).paths (ignoringDisk "gen" "gen") = .ok found ∧ found.Nodup ∧
    (∀ path, path ∈ found ↔ ∃ base start names,
      (ignoringWalk excluder).Begins (ignoringDisk "gen" "gen") base start ∧
      (ignoringWalk excluder).Passes (ignoringDisk "gen" "gen") base start names ∧
      path = pathOf base (start ++ names)) ∧ "main.ts" ∈ found := by
  obtain ⟨excluder, hload, hcheck⟩ := exists_ok_of_any
    (x := Ignore.Excluder.load (ignoringDisk "gen" "gen") Analysis.smallRoot false [])
    (p := fun excluder => decide (excluder.leavesOutDirectory "gen" = true ∧
      (∀ pattern ∈ excluder.own, pattern.negated = false ∧ pattern.rule.SlashFree) ∧
      ((ignoringWalk excluder).listed (ignoringDisk "gen" "gen") []
        ((ignoringDisk "gen" "gen").depth + 1) []).toOption.any (· == ["main.ts"]) = true))
    (by decide +kernel)
  obtain ⟨hleft, hown, hlisted⟩ := of_decide_eq_true hcheck
  have hplain : ∀ pair ∈ (ignoringDisk "gen" "gen").nodes, ∀ name ∈ pair.1, IsPlain name := by
    decide +kernel
  have htree : (ignoringDisk "gen" "gen").IsTree :=
    ⟨by decide +kernel, fun pair hpair name hname => (hplain pair hpair name hname).toIsSegment,
      by decide +kernel⟩
  obtain ⟨hbase, hstart⟩ :=
    @Analysis.locate_smallRoot (ignoringWalk excluder) rfl rfl (ignoringDisk "gen" "gen")
  have hwalk : Ignore.Excluder.load (ignoringDisk "gen" "gen") Analysis.smallRoot false [] =
      .ok (ignoringWalk excluder).excluder := hload
  obtain ⟨found, hpaths, hprunes, hagrees⟩ := pruned_walk_agrees_with_filter hwalk
    htree hasTexts_ignoring (by rw [hbase]; simp) (by rw [hstart]; simp)
    fun base start hbegins => clear_of_begins hplain hbegins
  obtain ⟨-, hexact⟩ := hagrees hown
  have hfound := Analysis.paths_of_listed rfl rfl (by decide +kernel) hlisted
  obtain rfl := Except.ok.inj (hpaths.symm.trans hfound)
  exact ⟨excluder, _, hload, hleft, hfound, hprunes.nodup, hexact, by simp⟩

/-- A set that leaves out one character matches a slash as well. The directory below is left out by
the slash at its end, and so its file is not found, though nothing leaves out the file and no
pattern is turned around. -/
theorem set_matches_slash : ∃ excluder found,
    Ignore.Excluder.load (ignoringDisk "foo[!a]" "foo") Analysis.smallRoot false [] = .ok excluder ∧
    (∀ pattern ∈ excluder.own, pattern.negated = false) ∧
    (ignoringWalk excluder).paths (ignoringDisk "foo[!a]" "foo") = .ok found ∧
    (ignoringWalk excluder).Passes (ignoringDisk "foo[!a]" "foo") [] [] ["foo", "x.ts"] ∧
    excluder.leavesOutDirectory "foo" = true ∧
    excluder.leavesOutFile (Path.ofString "foo/x.ts") = false ∧ "foo/x.ts" ∉ found := by
  obtain ⟨excluder, hload, hcheck⟩ := exists_ok_of_any
    (x := Ignore.Excluder.load (ignoringDisk "foo[!a]" "foo") Analysis.smallRoot false [])
    (p := fun excluder => decide (excluder.leavesOutDirectory "foo" = true ∧
      (∀ pattern ∈ excluder.own, pattern.negated = false) ∧
      excluder.leavesOutFile (Path.ofString "foo/x.ts") = false ∧
      ((ignoringWalk excluder).admits "x.ts").toOption.any id = true ∧
      ((ignoringWalk excluder).listed (ignoringDisk "foo[!a]" "foo") []
        ((ignoringDisk "foo[!a]" "foo").depth + 1) []).toOption.any (· == ["main.ts"]) = true))
    (by decide +kernel)
  obtain ⟨hleft, hown, hkept, hadmitted, hlisted⟩ := of_decide_eq_true hcheck
  obtain ⟨admitted, hadmits, rfl : admitted = true⟩ := exists_ok_of_any hadmitted
  have hpath : pathOf [] ([] ++ ["foo", "x.ts"]) = "foo/x.ts" := by decide
  have hfile : ([] ++ ["foo", "x.ts"], .file []) ∈ (ignoringDisk "foo[!a]" "foo").nodes := by
    simp [ignoringDisk]
  exact ⟨excluder, ["main.ts"], hload, hown,
    Analysis.paths_of_listed rfl rfl (by decide +kernel) hlisted,
    ⟨⟨⟨[], hfile⟩, "x.ts", rfl, hadmits⟩, hpath ▸ hkept⟩, hleft, hkept, by decide⟩

end Walk

end Deadwood

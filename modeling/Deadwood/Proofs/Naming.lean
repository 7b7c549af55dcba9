import Deadwood.Proofs.Growth
import Deadwood.Proofs.Places
import Deadwood.Proofs.Relisting

/-!
# How candidates are named

A walk gives a candidate the path that is spelled by the names on the way to it. As long as these
are plain names, without slashes of either kind, the path says no more and no less than the names
do: it is in normal form already (`normalize_ofSegments`), and read as a path it leads from the root
through these names (`Spells.child_eq`). With a backslash in a name it is not so, since the
directory of a candidate is normalised on the way.
-/

set_option autoImplicit false

namespace Deadwood

open List

namespace Relative

/-! ## Paths that are spelled by names -/

/-- A segment that stays when a path is read: a name, or `..`. -/
structure IsPart (part : String) : Prop where
  ne_empty : part ≠ ""
  ne_here : part ≠ "."
  slash : '/' ∉ part.toList

theorem segments_append_slash (front back : List Char) :
    segments (String.ofList (front ++ '/' :: back)) =
      segments (String.ofList front) ++ segments (String.ofList back) := by
  simp only [segments, String.toList_ofList, splitOn_append_cons_self, map_append]

/-- A path that begins with a part begins neither with a slash nor with `./`. -/
theorem begins_of_isPart {path part : String} (hhead : (segments path).head? = some part)
    (h : IsPart part) : path.toList.head? ≠ some '/' ∧ dropHere path.toList = path.toList := by
  have hfront : ∀ front back, '/' ∉ front → path.toList = front ++ '/' :: back →
      IsPart (String.ofList front) := by
    intro front back hslash htext
    rw [← String.ofList_toList (s := path), htext, segments_append_slash,
      segments_of_slashless (by rwa [String.toList_ofList])] at hhead
    exact Option.some.inj hhead ▸ h
  constructor
  · intro hslash
    obtain ⟨back, htext⟩ := head?_eq_some_iff.1 hslash
    exact (hfront [] back (by simp) htext).ne_empty rfl
  · unfold dropHere
    split
    · rename_i back htext
      exact absurd rfl (hfront ['.'] back (by simp) htext).ne_here
    · rfl

section Parts

variable {parts : List String} (hne : parts ≠ []) (hparts : ∀ part ∈ parts, IsPart part)
include hne hparts

theorem ofSegments_begins : (ofSegments parts).toList.head? ≠ some '/' ∧
    dropHere (ofSegments parts).toList = (ofSegments parts).toList := by
  obtain ⟨first, others, rfl⟩ := exists_cons_of_ne_nil hne
  refine begins_of_isPart ?_ (hparts first mem_cons_self)
  rw [segments_ofSegments hne fun part hpart => (hparts part hpart).slash, head?_cons]

theorem leadingSlashes_ofSegments : leadingSlashes (ofSegments parts).toList = 0 :=
  leadingSlashes_eq_zero_iff.2 (ofSegments_begins hne hparts).1

/-- A path stands for the parts that it is made of. -/
theorem ofString_ofSegments : Path.ofString (ofSegments parts) = ⟨0, parts⟩ := by
  have hkept : parts.filter (fun part => part != "" && part != ".") = parts := by
    refine filter_eq_self.2 fun part hpart => ?_
    simp [(hparts part hpart).ne_empty, (hparts part hpart).ne_here]
  rw [Path.ofString, leadingSlashes_ofSegments hne hparts,
    segments_ofSegments hne fun part hpart => (hparts part hpart).slash, hkept]

/-- A path without backslashes is in normal form if its parts do not collapse. -/
theorem normalize_of_collapse (hslash : '\\' ∉ (ofSegments parts).toList)
    (hcollapse : collapse false parts = parts) :
    normalize (ofSegments parts) = ofSegments parts := by
  simp only [normalize, map_slash_of_not_mem hslash, (ofSegments_begins hne hparts).2,
    leadingSlashes_ofSegments hne hparts, String.ofList_toList,
    segments_ofSegments hne fun part hpart => (hparts part hpart).slash]
  exact (congrArg (fun parts => String.ofList (ofSegments parts).toList) hcollapse).trans
    String.ofList_toList

end Parts

/-- A name that is one segment of a path. -/
structure IsSegment (name : String) : Prop where
  isName : IsName name
  slash : '/' ∉ name.toList

theorem IsSegment.isPart {name : String} (h : IsSegment name) : IsPart name :=
  ⟨h.isName.1, h.isName.2.1, h.slash⟩

/-- The path is spelled by names, one after the other. -/
structure Spells (names : List String) (path : String) : Prop where
  ne_nil : names ≠ []
  isSegment : ∀ name ∈ names, IsSegment name
  path_eq : path = ofSegments names

variable {names : List String} {path : String}

theorem Spells.segments_eq (h : Spells names path) : segments path = names := by
  rw [h.path_eq]
  exact segments_ofSegments h.ne_nil fun name hname => (h.isSegment name hname).slash

/-- A path that is spelled by names stands for these names. -/
theorem Spells.ofString_eq (h : Spells names path) : Path.ofString path = ⟨0, names⟩ := by
  rw [h.path_eq]
  exact ofString_ofSegments h.ne_nil fun name hname => (h.isSegment name hname).isPart

theorem Spells.child_eq (h : Spells names path) (root : Path) :
    root.child path = ⟨root.slashes, root.parts ++ names⟩ := by
  rw [Path.child, h.ofString_eq]
  rfl

theorem Spells.isSegment_name_child (h : Spells names path) (root : Path) :
    IsSegment (root.child path).name := by
  have hlast : (root.child path).name = names.getLast h.ne_nil := by
    rw [h.child_eq, Path.name, getLastD_eq_getLast?, getLast?_append_of_ne_nil _ h.ne_nil,
      getLast?_eq_some_getLast h.ne_nil, Option.getD_some]
  rw [hlast]
  exact h.isSegment _ (getLast_mem h.ne_nil)

/-! ## Plain names -/

/-- A segment without backslashes, which normalising leaves alone. -/
structure IsPlain (name : String) : Prop extends IsSegment name where
  backslash : '\\' ∉ name.toList

instance (name : String) : Decidable (IsPlain name) :=
  decidable_of_iff (IsName name ∧ '/' ∉ name.toList ∧ '\\' ∉ name.toList)
    ⟨fun h => ⟨⟨h.1, h.2.1⟩, h.2.2⟩, fun h => ⟨h.isName, h.slash, h.backslash⟩⟩

theorem mem_ofSegments {c : Char} (h : c ∈ (ofSegments names).toList) :
    c = '/' ∨ ∃ name ∈ names, c ∈ name.toList := by
  rw [ofSegments, String.toList_ofList] at h
  rcases Module.mem_of_mem_intercalate h with hslash | ⟨part, hpart, hc⟩
  · exact .inl (mem_singleton.1 hslash)
  · obtain ⟨name, hname, rfl⟩ := mem_map.1 hpart
    exact .inr ⟨name, hname, hc⟩

theorem backslash_not_mem_ofSegments (h : ∀ name ∈ names, IsPlain name) :
    '\\' ∉ (ofSegments names).toList := by
  intro hmem
  rcases mem_ofSegments hmem with hslash | ⟨name, hname, hc⟩
  · exact absurd hslash (by decide)
  · exact (h name hname).backslash hc

/-- A path that is spelled by plain names is in normal form. -/
theorem normalize_ofSegments (h : ∀ name ∈ names, IsPlain name) :
    normalize (ofSegments names) = ofSegments names := by
  rcases eq_or_ne names [] with rfl | hne
  · decide
  exact normalize_of_collapse hne (fun name hname => (h name hname).isPart)
    (backslash_not_mem_ofSegments h) (collapse_of_isName fun name hname => (h name hname).isName)

theorem ofSegments_singleton (name : String) : ofSegments [name] = name := by
  simp [ofSegments]

theorem IsSegment.spells {name : String} (h : IsSegment name) : Spells [name] name :=
  ⟨by simp, by simpa using h, (ofSegments_singleton name).symm⟩

theorem ofSegments_cons (hne : names ≠ []) (first : String) :
    ofSegments (first :: names) = first ++ "/" ++ ofSegments names := by
  rw [ofSegments, map_cons, intercalate_cons_of_ne_nil (by simpa using hne),
    String.ofList_append, String.ofList_append, String.ofList_toList]
  rfl

/-- A path below a directory is spelled by the names that lead to the directory, and by its own. -/
theorem ofSegments_append (front : List String) (hne : names ≠ []) :
    ofSegments (front ++ names) = ofSegments (front ++ [ofSegments names]) := by
  induction front with
  | nil => exact (ofSegments_singleton _).symm
  | cons first front ih =>
    rw [cons_append, cons_append, ofSegments_cons (by simp [hne]),
      ofSegments_cons (by simp), ih]

theorem ofSegments_concat (hne : names ≠ []) (name : String) :
    ofSegments (names ++ [name]) = ofSegments names ++ "/" ++ name := by
  induction names with
  | nil => exact absurd rfl hne
  | cons first names ih =>
    rcases eq_or_ne names [] with rfl | hnames
    · rw [singleton_append, ofSegments_cons (by simp), ofSegments_singleton,
        ofSegments_singleton]
    · rw [cons_append, ofSegments_cons (by simp), ih hnames, ofSegments_cons hnames]
      simp only [String.append_assoc]

/-- The path of a name in a directory is made of one part more. -/
theorem child_ofSegments (h : ∀ part ∈ names, IsPart part) (name : String) :
    child (ofSegments names) name = ofSegments (names ++ [name]) := by
  rcases eq_or_ne names [] with rfl | hne
  · exact (ofSegments_singleton name).symm
  · -- the empty text would be made of an empty part
    have hempty : (ofSegments names).isEmpty ≠ true := by
      intro hempty
      have hmem : "" ∈ names := by
        rw [← segments_ofSegments hne fun part hpart => (h part hpart).slash,
          String.isEmpty_iff.1 hempty]
        decide
      exact (h "" hmem).ne_empty rfl
    rw [child, if_neg hempty, ofSegments_concat hne]

end Relative

open Relative

/-! ## Candidates -/

/-- Every directory on the way to a path that can be followed is there. -/
theorem Disk.at?_of_locate {disk : Disk} {place : Place} {path : Path} {front back : List String}
    (hpath : path.IsResolved)
    (h : disk.locate path = .ok place) (hparts : path.parts = front ++ back) (hback : back ≠ []) :
    disk.at? front = some .directory := by
  have hdescend : disk.descend [] path.parts = .ok place := by
    rw [locate, if_pos hpath.isAbsolute_eq] at h
    split at h
    · cases h
    · split at h
      · cases h
      · exact h
  rw [hparts, descend_append] at hdescend
  obtain ⟨middle, hfront, hmiddle⟩ := bind_eq_ok_iff.1 hdescend
  have hnames : ∀ part ∈ front, IsName part := fun part hpart =>
    hpath.names part (hparts ▸ mem_append_left back hpart)
  -- the names in front lead to the place that they spell
  obtain rfl : middle = front := by
    rw [eq_foldl_of_descend (by simp) (fun part hpart => ⟨(hnames part hpart).1,
      (hnames part hpart).2.1⟩) hfront, foldl_push_of_isName hnames]
    simp
  obtain ⟨part, others, rfl⟩ := exists_cons_of_ne_nil hback
  rw [descend] at hmiddle
  split at hmiddle
  · assumption
  · cases hmiddle
  · cases hmiddle

/-- Every name below a place is plain. -/
def Disk.PlainBelow (disk : Disk) (base : Place) : Prop :=
  ∀ pair ∈ disk.nodes, base <+: pair.1 → ∀ name ∈ pair.1.drop base.length, IsPlain name

instance (disk : Disk) (base : Place) : Decidable (disk.PlainBelow base) :=
  inferInstanceAs (Decidable (∀ pair ∈ disk.nodes, _ → ∀ name ∈ _, _))

theorem Disk.PlainBelow.isPlain {disk : Disk} {base names : Place} {node : Node}
    (h : disk.PlainBelow base) (hmem : (base ++ names, node) ∈ disk.nodes) :
    ∀ name ∈ names, IsPlain name := by
  have hnames := h _ hmem (prefix_append base names)
  rwa [drop_left] at hnames

namespace Walk

variable {walk : Walk} {disk : Disk} {base place : Place} {path : String} {names : List String}

theorem trail_append (base names : List String) : trail base (base ++ names) = names := by
  induction base with
  | nil => rfl
  | cons first base ih => rw [cons_append, trail, if_pos rfl, ih]

theorem pathOf_append (base : Place) (h : ∀ name ∈ names, IsPlain name) :
    pathOf base (base ++ names) = ofSegments names := by
  rw [pathOf, trail_append, normalize_ofSegments h]

theorem eq_child_of_candidate? {directory name : String}
    (h : walk.candidate? directory name = .ok (some path)) : path = child directory name := by
  obtain ⟨admitted, -, h⟩ := bind_eq_ok_iff.1 h
  split at h
  · exact (Option.some.inj (Except.ok.inj h)).symm
  · cases Except.ok.inj h

/-- The names lead from a place through directories to a file. -/
structure Way (disk : Disk) (place : Place) (names : List String) : Prop where
  isFile : ∃ bytes, (place ++ names, .file bytes) ∈ disk.nodes
  directory : ∀ front, front ≠ [] → front <+: names → front ≠ names →
    (place ++ front, .directory) ∈ disk.nodes

/-- Nothing lies between a directory and its file. -/
theorem eq_singleton_of_front {name : String} {front : List String} (hnil : front ≠ [])
    (hleads : front <+: [name]) : front = [name] := by
  obtain ⟨first, others, rfl⟩ := exists_cons_of_ne_nil hnil
  obtain ⟨rfl, hothers⟩ := cons_prefix_cons.1 hleads
  rw [prefix_nil.1 hothers]

/-- The directories on the way along names are the one that the first name leads to and those on the
way on from there. -/
theorem forall_front_cons_iff (holds : Place → Prop) (place : Place) (name : String)
    (hne : names ≠ []) : (∀ front, front ≠ [] → front <+: name :: names → front ≠ name :: names →
      holds (place ++ front)) ↔
      holds (place ++ [name]) ∧ ∀ front, front ≠ [] → front <+: names → front ≠ names →
        holds (place ++ [name] ++ front) := by
  have happend : ∀ more, place ++ [name] ++ more = place ++ name :: more := fun more => by simp
  constructor
  · intro h
    refine ⟨h [name] (by simp) (by simp) (by simpa using hne.symm), ?_⟩
    intro front hfront hleads hnot
    rw [happend]
    exact h (name :: front) (by simp) (by simpa using hleads) (by simpa using hnot)
  · rintro ⟨hfirst, hothers⟩ (_ | ⟨first, front⟩) hnil hleads hnot
    · exact absurd rfl hnil
    obtain ⟨rfl, hrest⟩ := cons_prefix_cons.1 hleads
    -- the first name alone is the only front that leads to no front of the other names
    rcases eq_or_ne front [] with rfl | hfront
    · exact hfirst
    · rw [← happend]
      exact hothers front hfront hrest fun heq => hnot (by rw [heq])

/-- The names after the first one lead on from the directory that the first one names. -/
theorem way_cons_iff {name : String} (hne : names ≠ []) : Way disk place (name :: names) ↔
    (place ++ [name], .directory) ∈ disk.nodes ∧ Way disk (place ++ [name]) names := by
  have hfronts :=
    forall_front_cons_iff (fun place => (place, .directory) ∈ disk.nodes) place name hne
  constructor
  · rintro ⟨hfile, hdirectory⟩
    obtain ⟨hfirst, hothers⟩ := hfronts.1 hdirectory
    exact ⟨hfirst, by simpa using hfile, hothers⟩
  · rintro ⟨hfirst, hfile, hothers⟩
    exact ⟨by simpa using hfile, hfronts.2 ⟨hfirst, hothers⟩⟩

section

variable {name : String} {node : Node} (hplain : disk.PlainBelow base)
  (hmem : (name, node) ∈ disk.children place) (hplace : place = base ++ names)
include hplain hmem hplace

theorem isPlain_of_mem_children : ∀ part ∈ names ++ [name], IsPlain part := by
  rw [Disk.mem_children_iff, hplace, append_assoc] at hmem
  exact hplain.isPlain hmem

theorem spells_of_candidate? (hnames : ∀ name ∈ names, IsPlain name)
    (hfound : walk.candidate? (pathOf base place) name = .ok (some path)) :
    Spells (names ++ [name]) path := by
  refine ⟨by simp, fun part hpart => (isPlain_of_mem_children hplain hmem hplace part
    hpart).toIsSegment, ?_⟩
  rw [eq_child_of_candidate? hfound, hplace, pathOf_append base hnames]
  exact child_ofSegments (fun part hpart => (hnames part hpart).isPart) name

end

/-- A candidate below a directory is spelled by the plain names on the way to it, if all names there
are plain. -/
theorem Finds.exists_way (h : walk.Finds disk base path place) (hplain : disk.PlainBelow base)
    (hplace : place = base ++ names) (hnames : ∀ name ∈ names, IsPlain name) :
    ∃ more, more ≠ [] ∧ Spells (names ++ more) path ∧ (∀ name ∈ names ++ more, IsPlain name) ∧
      Way disk place more := by
  induction h generalizing names with
  | @file place name bytes hmem hfound =>
    refine ⟨[name], by simp, spells_of_candidate? hplain hmem hplace hnames hfound,
      isPlain_of_mem_children hplain hmem hplace, ⟨bytes, Disk.mem_children_iff.1 hmem⟩, ?_⟩
    intro front hnil hleads hnot
    exact absurd (eq_singleton_of_front hnil hleads) hnot
  | @deeper place name hmem hentered hfinds ih =>
    obtain ⟨more, hne, hspells, hmore, hway⟩ := ih (by rw [hplace, append_assoc])
      (isPlain_of_mem_children hplain hmem hplace)
    rw [append_assoc] at hspells hmore
    exact ⟨name :: more, by simp, hspells, hmore,
      (way_cons_iff hne).2 ⟨Disk.mem_children_iff.1 hmem, hway⟩⟩

/-- What a walk that begins at the root finds. -/
theorem mem_paths_iff {found : List String} (hstart : walk.start = "")
    (hroot : walk.root.IsResolved) (h : walk.paths disk = .ok found) : path ∈ found ↔
      disk.locate walk.root = .ok walk.root.parts ∧
        disk.at? walk.root.parts = some .directory ∧
        walk.Finds disk walk.root.parts path walk.root.parts := by
  have hsame : walk.root.child (normalize walk.start) = walk.root := by
    rw [hstart]
    obtain ⟨slashes, parts⟩ := walk.root
    exact congrArg (Path.mk slashes) (append_nil parts)
  simp only [paths, hsame] at h
  cases hlocate : disk.locate walk.root with
  | error cause =>
    have hnil : found = [] := by
      cases cause <;> simp only [hlocate] at h <;> cases h <;> rfl
    simp [hnil]
  | ok base =>
    obtain rfl := Disk.eq_parts_of_locate hroot hlocate
    simp only [hlocate] at h
    split at h
    · rename_i hdirectory
      simp [mem_below_iff (ofFault_eq_ok_iff.1 h), hdirectory]
    · rename_i hdirectory
      cases h
      simp [hdirectory]

/-- The candidates of a walk that begins at the root are spelled by plain names. -/
theorem spells_of_mem_paths {found : List String} (hstart : walk.start = "")
    (hroot : walk.root.IsResolved) (hplain : disk.PlainBelow walk.root.parts)
    (h : walk.paths disk = .ok found) (hmem : path ∈ found) :
    ∃ spelled, Spells spelled path ∧ ∀ name ∈ spelled, IsPlain name := by
  obtain ⟨-, -, hfinds⟩ := (mem_paths_iff hstart hroot h).1 hmem
  obtain ⟨names, -, hspells, hnames, -⟩ :=
    hfinds.exists_way hplain (append_nil _).symm (by simp)
  exact ⟨_, hspells, hnames⟩

/-- If there is one node at each place, directories lead from the root to a candidate, which is a
file. -/
theorem reachesFile_of_mem_paths {found : List String} (hstart : walk.start = "")
    (hroot : walk.root.IsResolved) (hplain : disk.PlainBelow walk.root.parts)
    (hnodup : (disk.nodes.map Prod.fst).Nodup) (h : walk.paths disk = .ok found)
    (hmem : path ∈ found) :
    ∃ names bytes, Spells names path ∧ disk.ReachesFile (walk.root.parts ++ names) bytes := by
  obtain ⟨hlocate, hdirectory, hfinds⟩ := (mem_paths_iff hstart hroot h).1 hmem
  obtain ⟨names, hne, hspells, -, hway⟩ :=
    hfinds.exists_way hplain (append_nil _).symm (by simp)
  have hat : ∀ {place node}, place ≠ [] → (place, node) ∈ disk.nodes →
      disk.at? place = some node := fun hplace hmem => by
    rw [Disk.at?_of_ne_nil disk hplace]
    exact (Keyed.lookup_eq_some_iff_mem hnodup).2 hmem
  obtain ⟨bytes, hfile⟩ := hway.isFile
  refine ⟨names, bytes, hspells, fun front hleads hnot => ?_, hat (by simp [hne]) hfile⟩
  -- up to the root the way has been followed, and below it the walk has gone
  rcases prefix_or_prefix_of_prefix hleads (prefix_append _ names) with
    ⟨back, hback⟩ | ⟨more, rfl⟩
  · rcases eq_or_ne back [] with rfl | hne
    · rwa [← hback, append_nil] at hdirectory
    · exact Disk.at?_of_locate hroot hlocate hback.symm hne
  · rcases eq_or_ne more [] with rfl | hmore
    · rwa [append_nil]
    · exact hat (by simp [hmore]) (hway.directory more hmore
        ((prefix_append_right_inj _).1 hleads) fun heq => hnot (by rw [heq]))

end Walk

/-- The records of a report are about files that are spelled by plain names. -/
theorem Analysis.spells_of_run {disk : Disk} {directory : Path} {options : OpenOptions}
    {project : Project} {now : Stamp} {report : Report String}
    (hload : Project.load disk directory options = .ok project)
    (hplain : disk.PlainBelow project.root.parts) (hrun : run project now = .ok report)
    {record : Record String} (hrecord : record ∈ report.records) :
    ∃ names, Spells names record.path ∧ ∀ name ∈ names, IsPlain name := by
  obtain ⟨hroot, -, -, -, -, -, table, -, extensions, -, paths, -, -, -, -, -, -, hwalk, hpaths,
    hindex, -⟩ := Project.load_eq_ok_iff.1 hload
  obtain ⟨directories, names, -, -, hrecords⟩ := run_spec hrun
  obtain ⟨path, hpath, hclassify⟩ := exists_of_forall₂_right hrecords hrecord
  obtain ⟨-, -, -, -, hrecordPath, -⟩ := judge_spec hclassify
  have hfound : path ∈ paths := by
    rw [(Index.build_spec hindex ⟨rfl, rfl⟩).1] at hpath
    simpa [mem_eraseDups] using hpath
  have hwalkRoot : project.walk.root = project.root := by rw [hwalk]
  rw [hrecordPath]
  refine Walk.spells_of_mem_paths (by rw [hwalk]) ?_ ?_ hpaths hfound
  · rw [hwalkRoot]
    exact Path.isResolved_of_resolved hroot
  · rwa [hwalkRoot]

end Deadwood

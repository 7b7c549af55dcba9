import Deadwood.Proofs.Verdicts
import Deadwood.Proofs.Wildcards

/-!
# Which edges keep a file

Each kind of edge speaks for its target in its own way, and not every edge does. An import of a
whole module, a re-export of everything, a list without entries and a name that is passed on to a
module that it comes from bind nothing that is counted. `Grips` is the exact condition: an edge with
it keeps its target whatever else is known (`keep_of_grips`), and an edge without it makes no
difference to the reasons of its target (`speaksFor_without`). So a file that a kept file imports
may be dropped, and a small project shows it.
-/

set_option autoImplicit false

namespace Deadwood

open List hiding count
open Reference Deadwood.Module

namespace Index

/-- The index without an edge. -/
def without (index : Index) (edge : Edge) : Index :=
  { index with edges := index.edges.filter (· != edge) }

/-- An edge grips its target if something that it binds counts as a use: the whole file for its
effects or at run time, some export of a file that gathers exports, an import that the target is not
known to export, the default export, or an exported name that does not come from the importer. -/
inductive Grips (index : Index) (edge : Edge) : Prop
  | effect (kind : edge.kind = .sideEffect)
  | dynamic (kind : edge.kind = .dynamic)
  | barrel (kind : edge.kind = .static) (gathers : Relative.isBarrel edge.target = true)
      (exported : index.exportedNames edge.target ≠ [])
  | unlisted {name : String} (kind : edge.kind = .static) (mem : name ∈ edge.names)
      (named : name ≠ allNames) (unlisted : name ∉ index.exportedNames edge.target)
  | default (mem : "default" ∈ edge.names) (exported : "default" ∈ index.exportedNames edge.target)
  | named {name : String} (mem : name ∈ edge.names) (named : isName name.toList = true)
      (exported : name ∈ index.exportedNames edge.target)
      (outside : edge.importer ∉ ((index.suppliers edge.target).lookup name).getD [])

/-- What a file exports does not depend on the edges. -/
@[simp] theorem suppliers_without (index : Index) (edge : Edge) :
    (index.without edge).suppliers = index.suppliers :=
  funext fun _ => Agrees.suppliersFrom_eq ⟨id, fun _ _ _ => rfl, fun _ _ _ _ _ => rfl⟩ rfl

variable {index : Index} {edge : Edge}

variable {path : String}

theorem mem_edgesTo_iff {e : Edge} : e ∈ index.edgesTo path ↔
    e ∈ index.edges ∧ e.target = path ∧ (index.find? e.importer).isSome := by
  simp [edgesTo, mem_filter]

/-- Something that does not hold of an edge is found without it as well. -/
theorem exists_edgesTo_without_iff {P : Edge → Prop} (h : path = edge.target → ¬ P edge) :
    (∃ e ∈ (index.without edge).edgesTo path, P e) ↔ ∃ e ∈ index.edgesTo path, P e := by
  constructor
  · rintro ⟨e, he, hP⟩
    obtain ⟨hmem, hrest⟩ := mem_edgesTo_iff.1 he
    exact ⟨e, mem_edgesTo_iff.2 ⟨mem_of_mem_filter hmem, hrest⟩, hP⟩
  · rintro ⟨e, he, hP⟩
    obtain ⟨hmem, htarget, hfound⟩ := mem_edgesTo_iff.1 he
    refine ⟨e, mem_edgesTo_iff.2 ⟨mem_filter.2 ⟨hmem, ?_⟩, htarget, hfound⟩, hP⟩
    rw [bne_iff_ne]
    rintro rfl
    exact h htarget.symm hP

theorem edgesOfKind_ne_nil_iff {kinds : List EdgeKind} :
    (!(index.edgesOfKind path kinds).isEmpty) = true ↔
      ∃ e ∈ index.edgesTo path, e.kind ∈ kinds := by
  rw [Bool.not_eq_true', isEmpty_eq_false_iff_exists_mem]
  simp [edgesOfKind, mem_filter]

theorem mem_dynamicTargets_iff :
    path ∈ index.dynamicTargets ↔ ∃ e ∈ index.edges, e.kind = .dynamic ∧ e.target = path := by
  simp [dynamicTargets, mem_eraseDups, mem_map, mem_filter, and_assoc]

end Index

namespace Project

/-- The project without an edge. -/
def without (project : Project) (edge : Edge) : Project :=
  { project with index := project.index.without edge }

end Project

namespace Analysis

open Index

variable {index : Index} {project : Project} {edge : Edge}

variable {path : String} {directories names : Value} {record : Record String}

theorem unlistedNames_ne_nil_iff {exports : Suppliers} :
    (!(unlistedNames index path exports).isEmpty) = true ↔ ∃ e ∈ index.edgesTo path,
      e.kind = .static ∧ ∃ name ∈ e.names, name ≠ allNames ∧ name ∉ exports.map Prod.fst := by
  rw [Bool.not_eq_true', isEmpty_eq_false_iff_exists_mem]
  simp only [unlistedNames, importedNames, edgesOfKind, mem_filter, mem_eraseDups,
    mem_flatMap, bne_iff_ne, Bool.not_eq_true', contains_eq_mem, decide_eq_false_iff_not,
    mem_singleton, decide_eq_true_eq]
  constructor
  · rintro ⟨name, ⟨⟨e, ⟨he, hkind⟩, hmem⟩, hstar⟩, hunlisted⟩
    exact ⟨e, he, hkind, name, hmem, hstar, hunlisted⟩
  · rintro ⟨e, he, hkind, name, hmem, hstar, hunlisted⟩
    exact ⟨name, ⟨⟨e, ⟨he, hkind⟩, hmem⟩, hstar⟩, hunlisted⟩

theorem any_exportCounts_iff : (exportCounts index path).any (0 < ·.2) ↔ ∃ name files,
      (name, files) ∈ index.suppliers path ∧ 0 < count index name path files := by
  simp only [exportCounts, countEach, any_map, any_eq_true, Prod.exists, Function.comp_apply,
    decide_eq_true_eq]

/-- An edge that does not grip adds no use of a name that its target exports. -/
theorem count_without (h : ¬ Grips index edge) {name : String} {files : List String}
    (hmem : (name, files) ∈ index.suppliers edge.target) :
    0 < count (index.without edge) name edge.target files ↔
      0 < count index name edge.target files := by
  unfold count
  split
  · rename_i hdefault
    rw [countDefault_pos_iff, countDefault_pos_iff]
    refine exists_edgesTo_without_iff fun _ hbinds => h ?_
    simp only [Edge.bindsDefault, Bool.or_eq_true, beq_iff_eq, contains_eq_mem,
      decide_eq_true_eq] at hbinds
    rcases hbinds with hkind | hnames
    · exact .dynamic hkind
    · exact .default hnames (mem_map.2 ⟨_, hmem, hdefault⟩)
  · exact Iff.rfl

/-- An edge that does not grip speaks for no reason to keep its target. -/
theorem speaksFor_without (h : ¬ Grips project.index edge) (allowed routed : Bool)
    (reason : Reason) : speaksFor (project.without edge) allowed routed edge.target reason =
      speaksFor project allowed routed edge.target reason := by
  rw [Bool.eq_iff_iff]
  cases reason with
  | allowlist | routeConvention | pathMentioned => exact Iff.rfl
  | dynamicImportTarget =>
    simp only [speaksFor, isDynamic, Bool.or_eq_true, contains_eq_mem, decide_eq_true_eq,
      mem_dynamicTargets_iff]
    refine or_congr Iff.rfl ⟨?_, ?_⟩
    · rintro ⟨e, he, hrest⟩
      exact ⟨e, mem_of_mem_filter he, hrest⟩
    · rintro ⟨e, he, hkind, htarget⟩
      refine ⟨e, mem_filter.2 ⟨he, ?_⟩, hkind, htarget⟩
      rw [bne_iff_ne]
      rintro rfl
      exact h (.dynamic hkind)
  | barrelUsed =>
    simp only [speaksFor, isUsedBarrel, Bool.and_eq_true, edgesOfKind_ne_nil_iff, Project.without,
      suppliers_without]
    refine and_congr_right fun hbarrel => exists_edgesTo_without_iff fun _ hkind => h ?_
    simp only [mem_cons, not_mem_nil, or_false] at hkind
    rcases hkind with hkind | hkind
    · exact .barrel hkind hbarrel.1.2 (by simpa [Index.exportedNames] using hbarrel.2)
    · exact .effect hkind
  | exportReferenced =>
    simp only [speaksFor, Bool.or_eq_true, unlistedNames_ne_nil_iff, Project.without,
      suppliers_without]
    refine or_congr ?_ (exists_edgesTo_without_iff ?_)
    · simp only [any_exportCounts_iff, suppliers_without]
      exact exists_congr fun name => exists_congr fun files =>
        and_congr_right fun hmem => count_without h hmem
    · rintro - ⟨hkind, name, hmem, hstar, hunlisted⟩
      exact h (.unlisted hkind hmem hstar hunlisted)
  | sideEffectImport =>
    simp only [speaksFor, edgesOfKind_ne_nil_iff, Project.without]
    refine exists_edgesTo_without_iff fun _ hkind => h (.effect ?_)
    simpa using hkind

/-- An edge that grips keeps its target. -/
theorem keep_of_grips (hfaithful : project.index.Faithful) (hedge : edge ∈ project.index.edges)
    (h : Grips project.index edge)
    (hclassify : judge project directories names edge.target = .ok record)
    (htarget : edge.target ∈ project.index.paths) : record.status = .keep := by
  obtain ⟨allowed, routed, -, -, -, -, hreasons⟩ := judge_spec hclassify
  have hto : edge ∈ project.index.edgesTo edge.target := hfaithful.mem_edgesTo_iff.2 ⟨hedge, rfl⟩
  rw [Record.status_eq_keep_iff]
  cases h with
  | effect kind =>
    refine ⟨.sideEffectImport, (hreasons _).2 ?_⟩
    exact edgesOfKind_ne_nil_iff.2 ⟨edge, hto, by simp [kind]⟩
  | dynamic kind =>
    refine ⟨.dynamicImportTarget, (hreasons _).2 ?_⟩
    simp only [speaksFor, isDynamic, Bool.or_eq_true, contains_eq_mem, decide_eq_true_eq]
    exact .inr (mem_dynamicTargets_iff.2 ⟨edge, hedge, kind, rfl⟩)
  | barrel kind gathers exported =>
    obtain ⟨candidate, hcandidate, hpath⟩ := mem_map.1 htarget
    refine ⟨.barrelUsed, (hreasons _).2 ?_⟩
    simp only [speaksFor, isUsedBarrel, Bool.and_eq_true, edgesOfKind_ne_nil_iff]
    refine ⟨⟨⟨?_, gathers⟩, by simpa [Index.exportedNames] using exported⟩, edge,
      hto, by simp [kind]⟩
    rw [← hpath, hfaithful.find?_eq hcandidate]
    rfl
  | unlisted kind mem named unlisted =>
    exact ⟨_, exportReferenced_of_unlisted hfaithful hclassify hedge rfl kind mem named unlisted⟩
  | default mem exported =>
    obtain ⟨files, -, hsupplied⟩ := exists_lookup_of_mem_exportedNames exported
    have hcount : 0 < count project.index "default" edge.target files :=
      hfaithful.count_pos_of_edge hedge mem (by decide) (.inl rfl)
    exact ⟨_, (exportReferenced_of_count hclassify hsupplied hcount).2⟩
  | @named name mem named exported outside =>
    obtain ⟨files, hlookup, hsupplied⟩ := exists_lookup_of_mem_exportedNames exported
    rw [hlookup, Option.getD_some] at outside
    have hcount := hfaithful.count_pos_of_edge hedge mem named (.inr outside)
    exact ⟨_, (exportReferenced_of_count hclassify hsupplied hcount).2⟩

/-- Whether there is a verdict on a file does not depend on the edges. -/
theorem exists_judge_without (h : judge project directories names path = .ok record)
    (edge : Edge) :
    ∃ other, judge (project.without edge) directories names path = .ok other := by
  obtain ⟨allowed, hallowed, h⟩ := bind_eq_ok_iff.1 h
  obtain ⟨routed, hrouted, -⟩ := bind_eq_ok_iff.1 h
  exact ⟨_, bind_eq_ok_iff.2 ⟨allowed, hallowed, bind_eq_ok_iff.2 ⟨routed, hrouted, rfl⟩⟩⟩

theorem exists_run_without {now : Stamp} {report : Report String}
    (h : run project now = .ok report) (edge : Edge) :
    ∃ other, run (project.without edge) now = .ok other := by
  obtain ⟨directories, names, hdirectories, hnames, hrecords⟩ := run_spec h
  obtain ⟨others, hothers⟩ : ∃ others, List.Forall₂ (fun path record =>
      judge (project.without edge) directories names path = .ok record)
      project.index.paths others := by
    generalize project.index.paths = every, report.records = records at hrecords ⊢
    induction hrecords with
    | nil => exact ⟨[], .nil⟩
    | cons hrecord _ ih =>
      obtain ⟨others, hothers⟩ := ih
      obtain ⟨other, hother⟩ := exists_judge_without hrecord edge
      exact ⟨other :: others, .cons hother hothers⟩
  exact ⟨_, bind_eq_ok_iff.2 ⟨directories, hdirectories, bind_eq_ok_iff.2 ⟨names, hnames,
    bind_eq_ok_iff.2 ⟨others, (classifyAll_eq_ok_iff sound_nil).2 hothers, rfl⟩⟩⟩⟩

/-- A file that an edge leads to is kept exactly if the edge grips it or it is kept without the
edge. What becomes of the importer does not matter. -/
theorem edge_target_kept_iff {disk : Disk} {root : Path} {paths : List String}
    {resolver : Alias.Resolver} {now : Stamp} {report : Report String}
    (hindex : Index.build disk root paths resolver = .ok project.index)
    (hrun : run project now = .ok report) (hedge : edge ∈ project.index.edges)
    {record : Record String} (hrecord : record ∈ report.records)
    (htarget : record.path = edge.target) :
    ∃ other, run (project.without edge) now = .ok other ∧ ∃ without ∈ other.records,
      without.path = edge.target ∧
      (record.status = .keep ↔ Grips project.index edge ∨ without.status = .keep) := by
  have hfaithful := Index.faithful_of_build hindex
  obtain ⟨directories, names, hdirectories, hnames, hrecords⟩ := run_spec hrun
  obtain ⟨path, hpath, hclassify⟩ := exists_of_forall₂_right hrecords hrecord
  obtain ⟨allowed, routed, hallowed, hrouted, hrecordPath, -, hreasons⟩ := judge_spec hclassify
  obtain rfl : path = edge.target := hrecordPath.symm.trans htarget
  -- the same file in the report without the edge
  obtain ⟨other, hother⟩ := exists_run_without hrun edge
  obtain ⟨directories', names', hdirectories', hnames', hothers⟩ := run_spec hother
  obtain rfl : directories = directories' := Except.ok.inj (hdirectories.symm.trans hdirectories')
  obtain rfl : names = names' := Except.ok.inj (hnames.symm.trans hnames')
  obtain ⟨without, hwithout, hclassify'⟩ := exists_of_forall₂_left hothers hpath
  obtain ⟨allowed', routed', hallowed', hrouted', hpath', -, hreasons'⟩ := judge_spec hclassify'
  obtain rfl : allowed = allowed' := Except.ok.inj (hallowed.symm.trans hallowed')
  obtain rfl : routed = routed' := Except.ok.inj (hrouted.symm.trans hrouted')
  refine ⟨other, hother, without, hwithout, hpath', ?_⟩
  by_cases hgrips : Grips project.index edge
  · exact iff_of_true (keep_of_grips hfaithful hedge hgrips hclassify hpath) (.inl hgrips)
  · have hsame : ∀ reason, reason ∈ without.reasons ↔ reason ∈ record.reasons := by
      intro reason
      rw [hreasons, hreasons', speaksFor_without hgrips]
    rw [Record.status_eq_keep_iff, Record.status_eq_keep_iff, exists_congr hsame,
      or_iff_right hgrips]

theorem edge_target_kept_iff_small : ∃ index report edge record,
    Index.build smallDisk smallRoot smallPaths { root := smallRoot } =
      .ok (smallProject index).index ∧
    run (smallProject index) smallNow = .ok report ∧ edge ∈ index.edges ∧
    record ∈ report.records ∧ record.path = edge.target ∧
    ∃ other, run ((smallProject index).without edge) smallNow = .ok other ∧
      ∃ without ∈ other.records, without.path = edge.target ∧
        (record.status = .keep ↔ Grips index edge ∨ without.status = .keep) := by
  obtain ⟨index, report, hindex, hrun, hcheck⟩ := exists_small (fun index report => decide (
    ∃ edge ∈ index.edges, edge.target = "src/parts.ts" ∧
      ∃ record ∈ report.records, record.path = edge.target)) (by decide +kernel)
  simp only [decide_eq_true_eq] at hcheck
  obtain ⟨edge, hedge, -, record, hrecord, htarget⟩ := hcheck
  exact ⟨index, report, edge, record, hindex, hrun, hedge, hrecord, htarget,
    edge_target_kept_iff hindex hrun hedge hrecord htarget⟩

/-- A file that a kept file imports as a whole is dropped if nothing else speaks for it. -/
theorem whole_import_of_dropped_file : ∃ index report,
    Index.build smallDisk smallRoot smallPaths { root := smallRoot } =
      .ok (smallProject index).index ∧
    run (smallProject index) smallNow = .ok report ∧
    ∃ edge ∈ index.edges, edge.names = [allNames] ∧
      (∃ record ∈ report.records, record.path = edge.importer ∧ record.status = .keep) ∧
      ∃ record ∈ report.records, record.path = edge.target ∧ record.status = .drop := by
  obtain ⟨index, report, hindex, hrun, hcheck⟩ := exists_small (fun index report => decide (
    ∃ edge ∈ index.edges, edge.names = [allNames] ∧
      (∃ record ∈ report.records, record.path = edge.importer ∧ record.status = .keep) ∧
      ∃ record ∈ report.records, record.path = edge.target ∧ record.status = .drop))
    (by decide +kernel)
  exact ⟨index, report, hindex, hrun, by simpa using hcheck⟩

end Analysis

end Deadwood

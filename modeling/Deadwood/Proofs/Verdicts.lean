import Deadwood.Proofs.Indexing
import Deadwood.Proofs.Statements
import Deadwood.Proofs.Wildcards
import Deadwood.Verdict.Analysis

/-!
# Uses and reasons

A name that a statement binds stands in the text of its module, next to comments and line breaks as
it may be, so the module is counted as a user of the name unless it supplies it
(`Faithful.count_pos_of_edge`). A verdict has exactly the reasons that something speaks for
(`judge_spec`), and a name that is used, or imported without being known to be exported, is one of
them.
-/

set_option autoImplicit false

namespace Deadwood

open List hiding count
open Reference Deadwood.Module

/-! ## Counting users -/

namespace Reference

variable {owner : String}

theorem countIn_pos_iff {name : String} {skipped : List String} {read : String → List Char}
    {paths : List String} : 0 < countIn name owner skipped read paths ↔
      ∃ path ∈ paths, path ≠ owner ∧ path ∉ skipped ∧ 0 < countTokens name (read path) := by
  induction paths with
  | nil => simp [countIn]
  | cons path paths ih =>
    simp only [countIn, exists_mem_cons_iff, ← ih]
    split
    · rename_i hskip
      constructor
      · exact .inr
      · rintro (⟨howner, hskipped, -⟩ | h)
        · exact absurd hskip (by tauto)
        · exact h
    · rename_i hskip
      simp only [not_or] at hskip
      simp only [ne_eq, hskip, not_false_eq_true, true_and]
      omega

theorem countDefault_pos_iff {index : Index} :
    0 < countDefault index owner ↔ ∃ edge ∈ index.edgesTo owner, edge.bindsDefault := by
  rw [countDefault, length_pos_iff_exists_mem]
  simp only [mem_filter]

end Reference

namespace Index

variable {index : Index}

variable {edge : Edge} {name : String}

section

variable (h : index.Faithful) (hedge : edge ∈ index.edges)
include h hedge

/-- A name that an edge binds, the default export apart, stands in the text of the importer. -/
theorem Faithful.stands_of_edge (hmem : name ∈ edge.names) (hname : isName name.toList)
    (hdefault : name ≠ "default") : ∃ candidate ∈ index.files, candidate.path = edge.importer ∧
      Stands name.toList candidate.text := by
  obtain ⟨candidate, hfile, request, hrequest, target, -, -, rfl⟩ := (h.mem_edges_iff edge).1 hedge
  refine ⟨candidate, hfile, rfl, ?_⟩
  have hstar : name ≠ allNames := by
    rintro rfl
    exact absurd hname (by decide)
  -- the statement is one of a text that has a shape
  rcases h.module_eq candidate hfile with hparse | hempty
  · obtain ⟨masked, hshape, hmodule⟩ := parse_eq_ok_iff.1 hparse
    refine (masks_of_shape hshape).stands (isName_iff.1 hname).1 (isName_iff.1 hname).2 ?_
    simp only [requests, mem_append, mem_map, hmodule] at hrequest
    rcases hrequest with (⟨statement, hstatement, rfl⟩ | ⟨statement, hstatement, rfl⟩) | ⟨_, -, rfl⟩
    · cases hclause : statement.clause with
      | none => simp [Import.request, hclause] at hmem
      | some clause =>
        simp only [Import.request, hclause, Clause.importedNames, mem_append, mem_map,
          mem_ite_nil_right, mem_singleton, hstar, hdefault, and_false,
          or_false] at hmem
        obtain ⟨names, hnames, rfl⟩ := hmem
        exact name_stands_of_mem_importsOf hstatement hclause hnames hname
    · cases hpassage : statement.passage with
      | everything | whole => simp [Reexport.request, hpassage, hstar] at hmem
      | listed list =>
        simp only [Reexport.request, hpassage, mem_map] at hmem
        obtain ⟨entry, hentry, rfl⟩ := hmem
        obtain ⟨inside, rfl, hinside⟩ := exists_inside_of_reexport hstatement hpassage
        exact hinside _ (name_stands_of_mem_entries hentry hname)
    · exact absurd (mem_singleton.1 hmem) hstar
  · simp [hempty, requests] at hrequest

/-- An edge leads to a file other than its importer. -/
theorem Faithful.importer_ne_target : edge.importer ≠ edge.target := by
  obtain ⟨candidate, -, request, -, target, -, hne, rfl⟩ := (h.mem_edges_iff edge).1 hedge
  exact hne.symm

/-- A name that an edge binds is counted as used, unless the importer is one of the files that are
passed over. The default export is counted in any case. -/
theorem Faithful.count_pos_of_edge (hmem : name ∈ edge.names) (hname : isName name.toList)
    {skipped : List String} (hskip : name = "default" ∨ edge.importer ∉ skipped) :
    0 < count index name edge.target skipped := by
  unfold count
  split
  · rename_i hdefault
    refine countDefault_pos_iff.2 ⟨edge, h.mem_edgesTo_iff.2 ⟨hedge, rfl⟩, ?_⟩
    simp [Edge.bindsDefault, ← hdefault, hmem]
  · rename_i hdefault
    obtain ⟨candidate, hfile, hpath, hstands⟩ := h.stands_of_edge hedge hmem hname hdefault
    refine countIn_pos_iff.2 ⟨edge.importer, ?_, h.importer_ne_target hedge,
      hskip.resolve_left hdefault, ?_⟩
    · exact mem_map.2 ⟨candidate, hfile, hpath⟩
    · rw [← hpath, h.textOf_eq hfile]
      exact (countTokens_pos_iff (isName_iff.1 hname).1 _).2 hstands

end

/-- An exported name has the suppliers that the table gives for it. -/
theorem exists_lookup_of_mem_exportedNames {path : String} (h : name ∈ index.exportedNames path) :
    ∃ files,
      (index.suppliers path).lookup name = some files ∧ (name, files) ∈ index.suppliers path := by
  have hsome : ((index.suppliers path).lookup name).isSome := by
    obtain ⟨pair, hmem, hname⟩ := mem_map.1 h
    exact lookup_isSome_iff.2 ⟨pair, hmem, by simp [hname]⟩
  obtain ⟨files, hlookup⟩ := Option.isSome_iff_exists.1 hsome
  obtain ⟨front, rest, htable, -⟩ := lookup_eq_some_iff.1 hlookup
  exact ⟨files, hlookup, by simp [htable]⟩

end Index

/-! ## Reasons -/

namespace Record

variable {ν : Type} {record : Record ν} {condition : Bool} {reason other : Reason}

theorem mem_addReasonIf : other ∈ (record.addReasonIf condition reason).reasons ↔
    other ∈ record.reasons ∨ condition ∧ other = reason := by
  unfold addReasonIf addReason
  cases condition with
  | false => simp
  | true =>
    by_cases hmem : record.reasons.contains reason
    · simp only [if_true, hmem, true_and]
      refine ⟨.inl, fun h => h.elim id ?_⟩
      rintro rfl
      simpa using hmem
    · rw [if_pos rfl, if_neg hmem]
      simp

@[simp] theorem addReasonIf_path : (record.addReasonIf condition reason).path = record.path := by
  unfold addReasonIf addReason
  split <;> [split; skip] <;> rfl

@[simp] theorem addReasonIf_exportRefs :
    (record.addReasonIf condition reason).exportRefs = record.exportRefs := by
  unfold addReasonIf addReason
  split <;> [split; skip] <;> rfl

theorem status_eq_keep_iff : record.status = .keep ↔ ∃ reason, reason ∈ record.reasons := by
  unfold status
  cases record.reasons with
  | nil => simp
  | cons reason reasons => simp

end Record

namespace Analysis

variable {project : Project}

/-- The verdict on a candidate with the exports that are found for it. -/
def judge (project : Project) (directories names : Value) (path : String) :
    Except Fault (Record String) :=
  classify project directories names path (project.index.suppliers path)

/-- What is found for each reason to keep a file, where `allowed` says whether the file is protected
and `routed` whether it is loaded by convention. -/
def speaksFor (project : Project) (allowed routed : Bool) (path : String) : Reason → Bool
  | .allowlist => allowed
  | .routeConvention => routed
  | .dynamicImportTarget => isDynamic project.index path
  | .barrelUsed => isUsedBarrel project.index path (project.index.suppliers path)
  | .exportReferenced =>
    (exportCounts project.index path).any (0 < ·.2) ||
      !(unlistedNames project.index path (project.index.suppliers path)).isEmpty
  | .pathMentioned => !(project.corpus.mentions path).isEmpty
  | .sideEffectImport => !(project.index.edgesOfKind path [.sideEffect]).isEmpty

variable {directories names : Value} {record : Record String} {now : Stamp} {report : Report String}
  {name : String}

/-- A verdict has exactly the reasons that something speaks for. -/
theorem judge_spec {path : String} (h : judge project directories names path = .ok record) :
    ∃ allowed routed, isAllowlisted path project.allowlist = .ok allowed ∧
      isRoute path directories names = .ok routed ∧ record.path = path ∧
      record.exportRefs = (exportCounts project.index path).map (fun (name, n) => ⟨name, n⟩) ∧
      ∀ reason, reason ∈ record.reasons ↔ speaksFor project allowed routed path reason := by
  obtain ⟨allowed, hallowed, h⟩ := bind_eq_ok_iff.1 h
  obtain ⟨routed, hrouted, h⟩ := bind_eq_ok_iff.1 h
  cases h
  refine ⟨allowed, routed, hallowed, hrouted, by simp, by simp [exportCounts], fun reason => ?_⟩
  have hrefs : ∀ counts : List (String × Nat), (counts.map fun (name, n) =>
      ExportRef.mk name (n : Int)).any (0 < ·.refs) = counts.any (0 < ·.2) := by
    simp [any_map, Function.comp_def]
  simp only [Record.mem_addReasonIf, not_mem_nil, false_or, hrefs]
  cases reason <;> simp [speaksFor, exportCounts]

/-- The exports that were asked for earlier do not matter to the verdicts. -/
theorem classifyAll_eq_ok_iff {answers : Index.Answers} (h : project.index.Sound answers)
    {paths : List String} {records : List (Record String)} :
    classifyAll project directories names answers paths = .ok records ↔
      List.Forall₂ (fun path record => judge project directories names path = .ok record)
        paths records := by
  induction paths generalizing answers records with
  | nil => simp [classifyAll, eq_comm]
  | cons path paths ih =>
    obtain ⟨hask, hsound⟩ : (project.index.ask path answers).1 = _ ∧ _ := h.ask
    simp only [classifyAll, hask, bind_eq_ok_iff, ih hsound, forall₂_cons_left_iff]
    constructor
    · rintro ⟨record, hrecord, records, hrecords, heq⟩
      exact ⟨record, records, hrecord, hrecords, (Except.ok.inj heq).symm⟩
    · rintro ⟨record, records, hrecord, hrecords, rfl⟩
      exact ⟨record, hrecord, records, hrecords, rfl⟩

/-- Every candidate has its verdict in the report, and every verdict is on a candidate. -/
theorem run_spec (h : run project now = .ok report) :
    ∃ directories names, project.config.routeDirectories = .ok directories ∧
      project.config.routeNames = .ok names ∧
      List.Forall₂ (fun path record => judge project directories names path = .ok record)
        project.index.paths report.records := by
  obtain ⟨directories, hdirectories, h⟩ := bind_eq_ok_iff.1 h
  obtain ⟨names, hnames, h⟩ := bind_eq_ok_iff.1 h
  obtain ⟨records, hrecords, h⟩ := bind_eq_ok_iff.1 h
  cases h
  exact ⟨directories, names, hdirectories, hnames,
    (classifyAll_eq_ok_iff Index.sound_nil).1 hrecords⟩

/-- The verdict on a candidate. -/
theorem exists_record_of_run (h : run project now = .ok report) {path : String}
    (hpath : path ∈ project.index.paths) : ∃ record ∈ report.records, ∃ directories names,
      judge project directories names path = .ok record := by
  obtain ⟨directories, names, -, -, hrecords⟩ := run_spec h
  obtain ⟨record, hrecord, hclassify⟩ := exists_of_forall₂_left hrecords hpath
  exact ⟨record, hrecord, directories, names, hclassify⟩

/-- A name with a count above zero keeps the file that exports it. -/
theorem exportReferenced_of_count {path : String} {files : List String}
    (h : judge project directories names path = .ok record)
    (hmem : (name, files) ∈ project.index.suppliers path)
    (hcount : 0 < count project.index name path files) :
    (∃ ref ∈ record.exportRefs, ref.name = name ∧ 1 ≤ ref.refs) ∧
      .exportReferenced ∈ record.reasons := by
  obtain ⟨allowed, routed, -, -, -, hrefs, hreasons⟩ := judge_spec h
  have hcounts : (name, count project.index name path files) ∈ exportCounts project.index path :=
    mem_map.2 ⟨(name, files), hmem, rfl⟩
  have hpos : (1 : Int) ≤ count project.index name path files := by exact_mod_cast hcount
  constructor
  · rw [hrefs]
    exact ⟨_, mem_map.2 ⟨_, hcounts, rfl⟩, rfl, hpos⟩
  · rw [hreasons, speaksFor, Bool.or_eq_true, any_eq_true]
    exact .inl ⟨_, hcounts, by simpa using hcount⟩

/-- A name that is imported from a file and that the file is not known to export keeps it. -/
theorem exportReferenced_of_unlisted {path : String} {edge : Edge}
    (hfaithful : project.index.Faithful) (h : judge project directories names path = .ok record)
    (hedge : edge ∈ project.index.edges) (htarget : edge.target = path)
    (hkind : edge.kind = .static) (hmem : name ∈ edge.names) (hstar : name ≠ allNames)
    (hunlisted : name ∉ project.index.exportedNames path) : .exportReferenced ∈ record.reasons := by
  obtain ⟨allowed, routed, -, -, -, -, hreasons⟩ := judge_spec h
  rw [hreasons, speaksFor, Bool.or_eq_true]
  right
  have hname : name ∈ unlistedNames project.index path (project.index.suppliers path) := by
    simp only [unlistedNames, importedNames, Index.edgesOfKind, mem_filter,
      mem_eraseDups, mem_flatMap, hfaithful.mem_edgesTo_iff]
    refine ⟨⟨⟨edge, ⟨⟨hedge, htarget⟩, by simp [hkind]⟩, hmem⟩, by simpa using hstar⟩, ?_⟩
    simpa [Index.exportedNames] using hunlisted
  simpa using ne_nil_of_mem hname

/-! ## A small project

Four modules for the witnesses below: two that are loaded by convention, one of which imports a name
and the other a whole module, and the two modules that they import. -/

def smallDisk : Disk where
  nodes := [(["routes"], .directory), (["src"], .directory),
    (["routes", "entry.ts"], .file (Text.Utf8.encode
      "import \x7b used /* here */ as mine \x7d from '../src/parts';\n".toList)),
    (["routes", "root.ts"], .file (Text.Utf8.encode
      "import * as whole from '../src/whole';\n".toList)),
    (["src", "parts.ts"], .file (Text.Utf8.encode
      "export const used = 1;\nexport const idle = 2;\n".toList)),
    (["src", "whole.ts"], .file (Text.Utf8.encode "export const nobody = 1;\n".toList))]

def smallRoot : Path := ⟨1, []⟩

def smallPaths : List String :=
  ["routes/entry.ts", "routes/root.ts", "src/parts.ts", "src/whole.ts"]

/-- The project with the given index, without any settings. -/
def smallProject (index : Index) : Project where
  root := smallRoot
  config := []
  allowlist := []
  walk := {
    root := smallRoot
    extensions := []
    excluder :=
      { root := smallRoot, ignored := [], extra := [], sources := [], defaults := [], own := [] } }
  index := index
  corpus := []
  workers := .null

def smallNow : Stamp := { year := 2026, month := 1, day := 1 }

/-- Something that a computation shows of the index and of the report holds of them. The paths are
in order already, so the computation does not have to sort them. -/
theorem exists_small (check : Index → Report String → Bool)
    (h : (Index.buildOrdered smallDisk smallRoot smallPaths { root := smallRoot }).toOption.any
      fun index => (run (smallProject index) smallNow).toOption.any (check index)) :
    ∃ index report,
      Index.build smallDisk smallRoot smallPaths { root := smallRoot } =
        .ok (smallProject index).index ∧
      run (smallProject index) smallNow = .ok report ∧ check index report := by
  have hsorted : smallPaths.Pairwise fun a b => decide (a ≤ b) = true := by decide
  rw [← Index.build_of_sorted hsorted (by decide)] at h
  obtain ⟨index, hindex, h⟩ := exists_ok_of_any h
  obtain ⟨report, hreport, hcheck⟩ := exists_ok_of_any h
  exact ⟨index, report, hindex, hreport, hcheck⟩

/-! ## Names that are bound -/

/-- A statement of `candidate` that reaches `path` in the way `kind` and binds `name`: an import, or
a re-export with a list. -/
inductive Binds (index : Index) (candidate : Candidate) (path name : String) : EdgeKind → Prop
  | imported {statement : Import} {clause : Clause} (mem : statement ∈ candidate.module.imports)
      (bound : statement.clause = some clause)
      (found : index.target? candidate.path statement.specifier = some path)
      (named : name ∈ clause.importedNames) : Binds index candidate path name .static
  | passedOn {statement : Reexport} {list : List Module.Entry}
      (mem : statement ∈ candidate.module.reexports) (listed : statement.passage = .listed list)
      (found : index.target? candidate.path statement.specifier = some path)
      (named : name ∈ list.map Module.Entry.name) : Binds index candidate path name .reexport

/-- A statement that binds a name of another file has its edge. -/
theorem Binds.exists_edge {index : Index} (hfaithful : index.Faithful) {candidate : Candidate}
    (hcandidate : candidate ∈ index.files) {path : String} (hother : path ≠ candidate.path)
    {kind : EdgeKind} (h : Binds index candidate path name kind) :
    ∃ edge ∈ index.edges, edge.importer = candidate.path ∧ edge.target = path ∧
      edge.kind = kind ∧ name ∈ edge.names := by
  have hedge : ∀ request ∈ candidate.module.requests,
      index.target? candidate.path request.specifier = some path →
      ⟨candidate.path, path, request.kind, request.names⟩ ∈ index.edges := by
    intro request hrequest hfound
    exact (hfaithful.mem_edges_iff _).2 ⟨candidate, hcandidate, request, hrequest, path, hfound,
      hother, rfl⟩
  cases h with
  | @imported statement clause mem bound found named =>
    have hrequest : statement.request = ⟨statement.specifier, .static,
        clause.importedNames ++ (if clause.wholeName.isSome then [allNames] else [])⟩ := by
      simp [Import.request, bound]
    refine ⟨_, hedge statement.request ?_ (by rw [hrequest]; exact found), rfl, rfl, ?_, ?_⟩
    · simp only [Module.requests, mem_append, mem_map]
      exact .inl (.inl ⟨statement, mem, rfl⟩)
    · rw [hrequest]
    · rw [hrequest]
      exact mem_append_left _ named
  | @passedOn statement list mem listed found named =>
    have hrequest : statement.request =
        ⟨statement.specifier, .reexport, list.map Module.Entry.name⟩ := by
      simp [Reexport.request, listed]
    refine ⟨_, hedge statement.request ?_ (by rw [hrequest]; exact found), rfl, rfl, ?_, ?_⟩
    · simp only [Module.requests, mem_append, mem_map]
      exact .inl (.inr ⟨statement, mem, rfl⟩)
    · rw [hrequest]
    · rw [hrequest]
      exact named

/-- A file is kept if another candidate binds one of its exports by name, unless the name comes from
that candidate, and it is kept if another candidate imports a name that it is not known to
export. -/
theorem bound_name_keeps_file {disk : Disk} {root : Path} {paths : List String}
    {resolver : Alias.Resolver} {now : Stamp} {report : Report String}
    (hindex : Index.build disk root paths resolver = .ok project.index)
    (hrun : run project now = .ok report)
    {candidate : Candidate} (hcandidate : candidate ∈ project.index.files)
    {path name : String} (hpath : path ∈ project.index.paths) (hother : path ≠ candidate.path)
    (hname : isName name.toList = true) {kind : EdgeKind}
    (hbinds : Binds project.index candidate path name kind) :
    ∃ record ∈ report.records, record.path = path ∧ (name ∈ project.index.exportedNames path →
        name = "default" ∨ candidate.path ∉ ((project.index.suppliers path).lookup name).getD [] →
        (∃ ref ∈ record.exportRefs, ref.name = name ∧ 1 ≤ ref.refs) ∧
          .exportReferenced ∈ record.reasons ∧ record.status = .keep) ∧
      (kind = .static → name ∉ project.index.exportedNames path →
        .exportReferenced ∈ record.reasons ∧ record.status = .keep) := by
  have hfaithful := Index.faithful_of_build hindex
  obtain ⟨record, hrecord, directories, names, hclassify⟩ := exists_record_of_run hrun hpath
  obtain ⟨edge, hedge, himporter, htarget, hkind, hmem⟩ :=
    hbinds.exists_edge hfaithful hcandidate hother
  refine ⟨record, hrecord, ?_, ?_, ?_⟩
  · obtain ⟨-, -, -, -, hpath, -⟩ := judge_spec hclassify
    exact hpath
  · intro hexported hskip
    obtain ⟨files, hlookup, hsupplied⟩ := Index.exists_lookup_of_mem_exportedNames hexported
    rw [hlookup, Option.getD_some, ← himporter] at hskip
    have hcount := hfaithful.count_pos_of_edge hedge hmem hname hskip
    rw [htarget] at hcount
    obtain ⟨hrefs, hreason⟩ := exportReferenced_of_count hclassify hsupplied hcount
    exact ⟨hrefs, hreason, Record.status_eq_keep_iff.2 ⟨_, hreason⟩⟩
  · intro hstatic hunlisted
    have hstar : name ≠ allNames := by
      rintro rfl
      exact absurd hname (by decide)
    have hreason := exportReferenced_of_unlisted hfaithful hclassify hedge htarget
      (hkind.trans hstatic) hmem hstar hunlisted
    exact ⟨hreason, Record.status_eq_keep_iff.2 ⟨_, hreason⟩⟩

set_option maxRecDepth 4000 in
theorem bound_name_keeps_file_small : ∃ index report,
    Index.build smallDisk smallRoot smallPaths { root := smallRoot } =
      .ok (smallProject index).index ∧
    run (smallProject index) smallNow = .ok report ∧
    ∃ record ∈ report.records, record.path = "src/parts.ts" ∧
      (∃ ref ∈ record.exportRefs, ref.name = "used" ∧ 1 ≤ ref.refs) ∧
      .exportReferenced ∈ record.reasons ∧ record.status = .keep := by
  obtain ⟨index, report, hindex, hrun, hcheck⟩ := exists_small (fun index _ => decide (
    (∃ candidate ∈ index.files, candidate.path = "routes/entry.ts" ∧
      ∃ statement ∈ candidate.module.imports,
        index.target? candidate.path statement.specifier = some "src/parts.ts" ∧
        "used" ∈ statement.importedNames) ∧
    "src/parts.ts" ∈ index.paths ∧ "used" ∈ index.exportedNames "src/parts.ts" ∧
    "routes/entry.ts" ∉ ((index.suppliers "src/parts.ts").lookup "used").getD []))
    (by decide +kernel)
  simp only [decide_eq_true_eq] at hcheck
  obtain ⟨⟨candidate, hcandidate, hpath, statement, hstatement, hfound, hnamed⟩, htarget, hexported,
    houtside⟩ := hcheck
  obtain ⟨clause, hclause⟩ : ∃ clause, statement.clause = some clause := by
    cases hclause : statement.clause with
    | none => simp [Import.importedNames, hclause] at hnamed
    | some clause => exact ⟨clause, rfl⟩
  have hbinds : Binds (smallProject index).index candidate "src/parts.ts" "used" .static :=
    .imported hstatement hclause hfound (by simpa [Import.importedNames, hclause] using hnamed)
  obtain ⟨record, hrecord, hrecordPath, hkept, -⟩ := bound_name_keeps_file hindex hrun hcandidate
    htarget (by rw [hpath]; decide) (by decide) hbinds
  exact ⟨index, report, hindex, hrun, record, hrecord, hrecordPath,
    hkept hexported (.inr (by rw [hpath]; exact houtside))⟩

end Analysis

end Deadwood

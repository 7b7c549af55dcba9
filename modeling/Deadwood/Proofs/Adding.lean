import Deadwood.Proofs.Writing

/-!
# Files that are added

When files are added to a project, every candidate is found and read as before, and no file that was
there and was no candidate becomes one (`Project.Gains.grows`). For this the path of a candidate has
to say where the candidate stands. It does if no name holds a backslash: the way along which a walk
finds a file is then spelled by the path (`Walk.Finds.of_way`), and it leads to the file on each
disk that holds it. So an old candidate keeps all its reasons (`added_files_keep_reasons`). A
backslash in the name of a directory lets a candidate have the path of a file that comes later
(`backslash_hides_file`).
-/

set_option autoImplicit false

namespace Deadwood

open List Relative

/-! ## Ways that a walk goes -/

namespace Walk

variable {walk : Walk} {disk earlier : Disk} {base place : Place} {path : String} {root : Path}
  {names more : List String}

/-- A candidate is found on every disk that holds the way to it. -/
theorem Finds.of_way (h : walk.Finds disk base path place) (hplain : disk.PlainBelow base)
    (hplace : place = base ++ names) (hnames : ∀ name ∈ names, IsPlain name)
    (hspells : Spells (names ++ more) path) (hway : Way earlier place more) :
    walk.Finds earlier base path place := by
  induction h generalizing names more with
  | @file place name bytes hmem hfound =>
    have hlast := spells_of_candidate? hplain hmem hplace hnames hfound
    obtain rfl : more = [name] :=
      append_cancel_left (hspells.segments_eq.symm.trans hlast.segments_eq)
    obtain ⟨bytes, hfile⟩ := hway.isFile
    exact .file (Disk.mem_children_iff.2 hfile) hfound
  | @deeper place name hmem hentered hfinds ih =>
    have hspelled := isPlain_of_mem_children hplain hmem hplace
    have hplace' : place ++ [name] = base ++ (names ++ [name]) := by rw [hplace, append_assoc]
    obtain ⟨rest, hne, hrest, -⟩ := hfinds.exists_way hplain hplace' hspelled
    obtain rfl : more = name :: rest := by
      refine append_cancel_left (hspells.segments_eq.symm.trans (hrest.segments_eq.trans ?_))
      simp
    obtain ⟨hfirst, hway⟩ := (way_cons_iff hne).1 hway
    exact .deeper (Disk.mem_children_iff.2 hfirst) hentered (ih hplace' hspelled hrest hway)

/-- A file that stands at a path stands at the end of a way. -/
theorem way_of_isFile (hroot : root.IsResolved) (hspells : Spells names path)
    (h : disk.isFile (root.child path) = .ok true) : Way disk root.parts names := by
  have hresolved := Trim.isResolved_child hroot hspells
  have hparts : (root.child path).parts = root.parts ++ names := by rw [hspells.child_eq]
  obtain ⟨bytes, hlocate, hfile⟩ : ∃ bytes,
      disk.locate (root.child path) = .ok (root.child path).parts ∧
        disk.at? (root.child path).parts = some (.file bytes) := by
    obtain ⟨node, hnode, hsome⟩ := bind_eq_ok_iff.1 h
    split at hsome
    · rename_i bytes
      unfold Disk.node? at hnode
      split at hnode
      · rename_i place hlocate
        obtain rfl := Disk.eq_parts_of_locate hresolved hlocate
        exact ⟨bytes, hlocate, Except.ok.inj hnode⟩
      · cases hnode
      · cases hnode
    · cases hsome
  rw [hparts] at hfile
  refine ⟨⟨bytes, Disk.mem_of_at? (by simp [hspells.ne_nil]) hfile⟩,
    fun front hnil hleads hnot => ?_⟩
  obtain ⟨back, rfl⟩ := hleads
  have hback : back ≠ [] := by
    rintro rfl
    exact hnot (by simp)
  rw [← append_assoc] at hparts
  exact Disk.mem_of_at? (by simp [hnil]) (Disk.at?_of_locate hresolved hlocate hparts hback)

end Walk

/-! ## Projects with further files -/

/-- `later` is `project` after nodes have been added to its disk: they stand where nothing stood,
and the settings and what is left out are the same. The disk has one node at each place, and no name
below the root holds a backslash. -/
structure Project.Gains (disk : Disk) (added : List (Place × Node)) (project later : Project) :
    Prop where
  place_new : ∀ place node, (place, node) ∈ added → disk.at? place = none
  config_eq : later.config = project.config
  excluder_eq : later.walk.excluder = project.walk.excluder
  nodup : (disk.nodes.map Prod.fst).Nodup
  plain : (disk.adding added).PlainBelow project.root.parts

namespace Project.Gains

variable {disk : Disk} {added : List (Place × Node)} {directory : Path} {options : OpenOptions}
  {project later : Project}

theorem plain_before (h : project.Gains disk added later) : disk.PlainBelow project.root.parts :=
  fun pair hpair => h.plain pair (mem_append_right added hpair)

section

variable (h : project.Gains disk added later) {walk : Walk} {paths pathsLater : List String}
  {path : String} (hroot : project.root.IsResolved) (hwalk : walk.root = project.root)
  (hstart : walk.start = "") (hpaths : walk.paths disk = .ok paths)
include h hroot hwalk hstart hpaths

/-- A candidate is read as before. -/
theorem readText_eq (hpath : path ∈ paths) :
    (disk.adding added).readText (project.root.child path) =
      disk.readText (project.root.child path) := by
  obtain ⟨names, bytes, hspells, hreaches⟩ := Walk.reachesFile_of_mem_paths hstart
    (hwalk ▸ hroot) (hwalk ▸ h.plain_before) h.nodup hpaths hpath
  rw [hwalk] at hreaches
  have hkeeps := Disk.keeps_adding h.place_new
  have hlater : (disk.adding added).ReachesFile (project.root.parts ++ names) bytes :=
    ⟨fun front hfront hne => hkeeps.at_eq (hreaches.directory front hfront hne),
      hkeeps.at_eq hreaches.isFile⟩
  exact hreaches.readText_eq hlater (Trim.isResolved_child hroot hspells) (by rw [hspells.child_eq])

/-- A file that was no candidate does not become one. -/
theorem isFile_ne (hpathsLater : walk.paths (disk.adding added) = .ok pathsLater)
    (hne : paths ≠ []) (hpath : path ∈ pathsLater) (hnew : path ∉ paths) :
    disk.isFile (project.root.child path) ≠ .ok true := by
  intro hisFile
  obtain ⟨-, -, hfinds⟩ := (Walk.mem_paths_iff hstart (hwalk ▸ hroot) hpathsLater).1 hpath
  obtain ⟨other, hother⟩ := exists_mem_of_ne_nil _ hne
  obtain ⟨hlocate, hdirectory, -⟩ := (Walk.mem_paths_iff hstart (hwalk ▸ hroot) hpaths).1 hother
  refine hnew ((Walk.mem_paths_iff hstart (hwalk ▸ hroot) hpaths).2 ⟨hlocate, hdirectory, ?_⟩)
  rw [hwalk] at hfinds ⊢
  obtain ⟨names, -, hspells, -⟩ := hfinds.exists_way h.plain (append_nil _).symm (by simp)
  exact hfinds.of_way h.plain (append_nil _).symm (by simp) hspells
    (Walk.way_of_isFile hroot hspells hisFile)

end

/-- The candidates, their edges and the files that may mention them are all still there. -/
theorem grows (h : project.Gains disk added later)
    (hload : Project.load disk directory options = .ok project)
    (hloadLater : Project.load (disk.adding added) directory options = .ok later)
    (htargets : ∀ candidate ∈ project.index.files, ∀ request ∈ candidate.module.requests,
      later.index.target? candidate.path request.specifier =
        project.index.target? candidate.path request.specifier) :
    project.index.Grows later.index ∧ project.corpus ⊆ later.corpus ∧
      later.allowlist = project.allowlist := by
  have hkeeps := Disk.keeps_adding h.place_new
  obtain ⟨hroot, -, hallowlist, -, -, -, table, -, extensions, directories, paths, -, -, -, -,
    hextensions, hdirectories, hwalk, hpaths, hindex, hcorpus⟩ := Project.load_eq_ok_iff.1 hload
  obtain ⟨hrootLater, -, hallowlistLater, -, -, -, tableLater, -, extensionsLater, directoriesLater,
    pathsLater, -, -, -, -, hextensionsLater, hdirectoriesLater, hwalkLater, hpathsLater,
    hindexLater, hcorpusLater⟩ := Project.load_eq_ok_iff.1 hloadLater
  -- both projects have one root and one set of settings
  have hsameRoot : later.root = project.root :=
    (Except.ok.inj (hroot.symm.trans hrootLater)).symm
  rw [h.config_eq] at hallowlistLater hextensionsLater hdirectoriesLater hwalkLater
  rw [hsameRoot, h.excluder_eq] at hwalkLater hcorpusLater
  rw [hsameRoot] at hindexLater
  obtain rfl := Except.ok.inj (hextensions.symm.trans hextensionsLater)
  obtain rfl := Except.ok.inj (hdirectories.symm.trans hdirectoriesLater)
  rw [hwalkLater, ← hwalk] at hpathsLater
  refine ⟨?_, ?_, Except.ok.inj (hallowlistLater.symm.trans hallowlist)⟩
  · have hresolved := Path.isResolved_of_resolved hroot
    have hwalkRoot : project.walk.root = project.root := by rw [hwalk]
    have hstart : project.walk.start = "" := by rw [hwalk]
    have hmem : ∀ {path}, path ∈ project.index.paths ↔ path ∈ paths := by
      rw [(Index.build_spec hindex ⟨rfl, rfl⟩).1]
      simp [mem_eraseDups]
    have hmemLater : ∀ {path}, path ∈ later.index.paths ↔ path ∈ pathsLater := by
      rw [(Index.build_spec hindexLater ⟨rfl, rfl⟩).1]
      simp [mem_eraseDups]
    refine Index.grows_of_build hindex hindexLater ⟨rfl, rfl⟩ ⟨rfl, rfl⟩
      (fun path hpath => hkeeps.mem_paths hpaths hpathsLater hpath)
      (fun path hpath => h.readText_eq hresolved hwalkRoot hstart hpaths (hmem.1 hpath)) htargets
      fun hne path hpath hnew => ?_
    obtain ⟨other, hother⟩ := exists_mem_of_ne_nil _ hne
    exact h.isFile_ne hresolved hwalkRoot hstart hpaths hpathsLater
      (ne_nil_of_mem (hmem.1 hother)) (hmemLater.1 hpath) fun hold => hnew (hmem.2 hold)
  · rintro ⟨path, text⟩ hmem
    exact hkeeps.mem_corpus hcorpus hcorpusLater hmem

end Project.Gains

namespace Analysis

open Index Reference

/-- If files are added to a project and every statement of an old candidate still leads to the file,
or to none, that it led to, then every old candidate keeps each of its reasons, and no count of its
exports falls. In particular a file that was kept is kept. -/
theorem added_files_keep_reasons {disk : Disk} {added : List (Place × Node)} {directory : Path}
    {options : OpenOptions} {project later : Project} {now nowLater : Stamp}
    {report reportLater : Report String} (hload : Project.load disk directory options = .ok project)
    (hloadLater : Project.load (disk.adding added) directory options = .ok later)
    (hgains : project.Gains disk added later)
    (htargets : ∀ candidate ∈ project.index.files, ∀ request ∈ candidate.module.requests,
      later.index.target? candidate.path request.specifier =
        project.index.target? candidate.path request.specifier)
    (hrun : run project now = .ok report) (hrunLater : run later nowLater = .ok reportLater) :
    ∀ record ∈ report.records,
      (∃ recordLater ∈ reportLater.records, recordLater.path = record.path) ∧
      ∀ recordLater ∈ reportLater.records, recordLater.path = record.path →
        (∀ reason ∈ record.reasons, reason ∈ recordLater.reasons) ∧
        List.Forall₂ (fun ref refLater => refLater.name = ref.name ∧ ref.refs ≤ refLater.refs)
          record.exportRefs recordLater.exportRefs ∧
        (record.status = .keep → recordLater.status = .keep) := by
  obtain ⟨hgrows, hcorpus, hallowlist⟩ := hgains.grows hload hloadLater htargets
  have hold := Project.faithful_of_load hload
  have hnew := Project.faithful_of_load hloadLater
  obtain ⟨directories, names, hdirectories, hnames, hrecords⟩ := run_spec hrun
  obtain ⟨directoriesLater, namesLater, hdirectoriesLater, hnamesLater, hrecordsLater⟩ :=
    run_spec hrunLater
  rw [hgains.config_eq] at hdirectoriesLater hnamesLater
  obtain rfl := Except.ok.inj (hdirectories.symm.trans hdirectoriesLater)
  obtain rfl := Except.ok.inj (hnames.symm.trans hnamesLater)
  intro record hrecord
  obtain ⟨path, hpath, hclassify⟩ := exists_of_forall₂_right hrecords hrecord
  obtain ⟨allowed, routed, hallowed, hrouted, hrecordPath, hrefs, hreasons⟩ :=
    judge_spec hclassify
  have hpathLater : path ∈ later.index.paths := by
    obtain ⟨candidate, hcandidate, rfl⟩ := mem_map.1 hpath
    exact mem_map_of_mem (hgrows.files.subset hcandidate)
  constructor
  · obtain ⟨recordLater, hmem, hclassifyLater⟩ := exists_of_forall₂_left hrecordsLater hpathLater
    obtain ⟨-, -, -, -, hrecordLaterPath, -⟩ := judge_spec hclassifyLater
    exact ⟨recordLater, hmem, hrecordLaterPath.trans hrecordPath.symm⟩
  · intro recordLater hmem hsamePath
    obtain ⟨pathLater, -, hclassifyLater⟩ := exists_of_forall₂_right hrecordsLater hmem
    obtain ⟨allowedLater, routedLater, hallowedLater, hroutedLater, hrecordLaterPath, hrefsLater,
      hreasonsLater⟩ := judge_spec hclassifyLater
    obtain rfl : pathLater = path := by rw [← hrecordLaterPath, hsamePath, hrecordPath]
    rw [hallowlist] at hallowedLater
    obtain rfl := Except.ok.inj (hallowed.symm.trans hallowedLater)
    obtain rfl := Except.ok.inj (hrouted.symm.trans hroutedLater)
    have hkept : ∀ reason ∈ record.reasons, reason ∈ recordLater.reasons := by
      intro reason hreason
      rw [hreasonsLater]
      exact speaksFor_of_grows hgrows hold hnew hcorpus hpath ((hreasons reason).1 hreason)
    refine ⟨hkept, ?_, fun hkeep => ?_⟩
    · rw [hrefs, hrefsLater, exportCounts, exportCounts, hgrows.suppliers_eq hpath hold, countEach,
        countEach, map_map, map_map, forall₂_map_left_iff, forall₂_map_right_iff]
      refine forall₂_same.2 fun supplied _ => ⟨rfl, ?_⟩
      exact Int.ofNat_le.2 (hgrows.count_le hold hnew supplied.1 supplied.2)
    · obtain ⟨reason, hreason⟩ := Record.status_eq_keep_iff.1 hkeep
      exact Record.status_eq_keep_iff.2 ⟨reason, hkept reason hreason⟩

/-! ## A pair of modules and a third

The project of the witness below: one directory with a module that exports a name and a module that
imports it, to which a second importer is added. -/

def pairFiles : List (String × List UInt8) :=
  [("entry.ts", Text.Utf8.encode "import \x7b used \x7d from './parts';\n".toList),
    ("parts.ts", Text.Utf8.encode "export const used = 1;\n".toList)]

def thirdFile : String × List UInt8 :=
  ("again.ts", Text.Utf8.encode "import \x7b used \x7d from './parts';\n".toList)

def pairDisk : Disk where
  nodes := (["src"], .directory) :: pairFiles.map fun (name, bytes) => (["src", name], .file bytes)

def thirdModule : List (Place × Node) := [(["src", thirdFile.1], .file thirdFile.2)]

/-- Something that a computation shows of two projects and their reports holds of them. -/
theorem exists_reports {disk later : Disk} {listed paths listedLater pathsLater : List String}
    (hbare : Bare disk listed paths) (hbareLater : Bare later listedLater pathsLater)
    (check : Index → Index → Report String → Report String → Bool)
    (hcheck : (buildOrdered disk smallRoot paths { root := smallRoot }).toOption.any fun index =>
      (buildOrdered later smallRoot pathsLater { root := smallRoot }).toOption.any
        fun indexLater => (run (pairProject [] index) smallNow).toOption.any fun report =>
          (run (pairProject [] indexLater) smallNow).toOption.any
            (check index indexLater report)) :
    ∃ defaults index indexLater report reportLater,
      Project.load disk smallRoot pairOptions = .ok (pairProject defaults index) ∧
      Project.load later smallRoot pairOptions = .ok (pairProject defaults indexLater) ∧
      run (pairProject defaults index) smallNow = .ok report ∧
      run (pairProject defaults indexLater) smallNow = .ok reportLater ∧
      check index indexLater report reportLater := by
  obtain ⟨defaults, hdefaults, -, hload⟩ := hbare.exists_load
  obtain ⟨defaultsLater, hdefaultsLater, -, hloadLater⟩ := hbareLater.exists_load
  obtain rfl := Except.ok.inj (hdefaults.symm.trans hdefaultsLater)
  obtain ⟨index, hindex, hcheck⟩ := exists_ok_of_any hcheck
  obtain ⟨indexLater, hindexLater, hcheck⟩ := exists_ok_of_any hcheck
  obtain ⟨report, hreport, hcheck⟩ := exists_ok_of_any hcheck
  obtain ⟨reportLater, hreportLater, hcheck⟩ := exists_ok_of_any hcheck
  rw [← run_pairProject defaults] at hreport hreportLater
  exact ⟨defaults, index, indexLater, report, reportLater, hload index hindex,
    hloadLater indexLater hindexLater, hreport, hreportLater, hcheck⟩

theorem added_files_keep_reasons_pair : ∃ project later report reportLater,
    Project.load pairDisk smallRoot pairOptions = .ok project ∧
    Project.load (pairDisk.adding thirdModule) smallRoot pairOptions = .ok later ∧
    project.Gains pairDisk thirdModule later ∧
    run project smallNow = .ok report ∧ run later smallNow = .ok reportLater ∧
    ∃ record ∈ report.records, ∃ recordLater ∈ reportLater.records,
      record.path = "src/parts.ts" ∧ recordLater.path = "src/parts.ts" ∧
      .exportReferenced ∈ record.reasons ∧ .exportReferenced ∈ recordLater.reasons := by
  have hbare : Bare pairDisk ["src/entry.ts", "src/parts.ts"] ["src/entry.ts", "src/parts.ts"] :=
    ⟨by decide +kernel, rfl, rfl, fun _ => rfl, by decide +kernel, by decide, by decide⟩
  have hbareLater : Bare (pairDisk.adding thirdModule)
      ["src/again.ts", "src/entry.ts", "src/parts.ts"]
      ["src/again.ts", "src/entry.ts", "src/parts.ts"] :=
    ⟨by decide +kernel, rfl, rfl, fun _ => rfl, by decide +kernel, by decide, by decide⟩
  obtain ⟨defaults, index, later, report, reportLater, hload, hloadLater, hreport, hreportLater,
      hcheck⟩ :=
    exists_reports hbare hbareLater
      (fun index later report _ => decide (
        (∀ candidate ∈ index.files, ∀ request ∈ candidate.module.requests,
          later.target? candidate.path request.specifier =
            index.target? candidate.path request.specifier) ∧
        ∃ record ∈ report.records, record.path = "src/parts.ts" ∧
          .exportReferenced ∈ record.reasons))
      (by decide +kernel)
  obtain ⟨htargets, record, hrecord, hpath, hreason⟩ := of_decide_eq_true hcheck
  have hgains : (pairProject defaults index).Gains pairDisk thirdModule
      (pairProject defaults later) := by
    have hplain : (pairDisk.adding thirdModule).PlainBelow smallRoot.parts := by decide +kernel
    refine ⟨?_, rfl, rfl, by decide +kernel, hplain⟩
    intro place node hmem
    obtain ⟨rfl, rfl⟩ := Prod.mk.inj (mem_singleton.1 hmem)
    decide
  obtain ⟨⟨recordLater, hrecordLater, hsame⟩, hkeeps⟩ :=
    added_files_keep_reasons hload hloadLater hgains htargets hreport hreportLater record hrecord
  obtain ⟨hreasons, -, -⟩ := hkeeps recordLater hrecordLater hsame
  exact ⟨_, _, report, reportLater, hload, hloadLater, hgains, hreport, hreportLater, record,
    hrecord, recordLater, hrecordLater, hpath, hsame.trans hpath, hreason, hreasons _ hreason⟩

/-- A directory with a backslash in its name: the path of its file, `a/b/x.ts`, is also one of a
file in other directories. -/
def slashDisk : Disk where
  nodes := [(["a\\b"], .directory), (["a\\b", "x.ts"], .file []), (["src"], .directory),
    (["src", "main.ts"], .file (Text.Utf8.encode
      "import \x7b foo as bar \x7d from './parts';\nexport const foo = bar;\n".toList)),
    (["src", "parts.ts"], .file (Text.Utf8.encode "export * from '../a/b/x';\n".toList))]

def shadowingFile : List (Place × Node) :=
  [(["a"], .directory), (["a", "b"], .directory), (["a", "b", "x.ts"],
    .file (Text.Utf8.encode "export \x7b foo \x7d from '../../src/main';\n".toList))]

def slashPaths : List String := ["a/b/x.ts", "src/main.ts", "src/parts.ts"]

/-- A candidate that could not be read at its path is read there once a file has been added. What it
then exports is supplied by the only user of the name, and the file that passes it on is dropped. -/
theorem backslash_hides_file : ∃ project later report reportLater,
    Project.load slashDisk smallRoot pairOptions = .ok project ∧
    Project.load (slashDisk.adding shadowingFile) smallRoot pairOptions = .ok later ∧
    (∀ place node, (place, node) ∈ shadowingFile → slashDisk.at? place = none) ∧
    later.config = project.config ∧ later.walk.excluder = project.walk.excluder ∧
    (∀ candidate ∈ project.index.files, ∀ request ∈ candidate.module.requests,
      later.index.target? candidate.path request.specifier =
        project.index.target? candidate.path request.specifier) ∧
    run project smallNow = .ok report ∧ run later smallNow = .ok reportLater ∧
    (∃ record ∈ report.records, record.path = "src/parts.ts" ∧ record.status = .keep) ∧
    ∃ record ∈ reportLater.records, record.path = "src/parts.ts" ∧ record.status = .drop := by
  have hbare : Bare slashDisk slashPaths slashPaths :=
    ⟨by decide +kernel, rfl, rfl, fun _ => rfl, by decide +kernel, by decide, by decide⟩
  have hbareLater : Bare (slashDisk.adding shadowingFile) ("a/b/x.ts" :: slashPaths) slashPaths :=
    ⟨by decide +kernel, rfl, rfl, fun _ => rfl, by decide +kernel, by decide, by decide⟩
  obtain ⟨_, index, later, report, reportLater, hload, hloadLater, hreport, hreportLater,
      hcheck⟩ :=
    exists_reports hbare hbareLater
      (fun index later report reportLater => decide (
        (∀ candidate ∈ index.files, ∀ request ∈ candidate.module.requests,
          later.target? candidate.path request.specifier =
            index.target? candidate.path request.specifier) ∧
        (∃ record ∈ report.records, record.path = "src/parts.ts" ∧ record.status = .keep) ∧
        ∃ record ∈ reportLater.records, record.path = "src/parts.ts" ∧ record.status = .drop))
      (by decide +kernel)
  obtain ⟨htargets, hkept, hdropped⟩ := of_decide_eq_true hcheck
  refine ⟨_, _, report, reportLater, hload, hloadLater, fun place node hmem => ?_, rfl, rfl,
    htargets, hreport, hreportLater, hkept, hdropped⟩
  have hnew : ∀ pair ∈ shadowingFile, slashDisk.at? pair.1 = none := by decide
  exact hnew _ hmem

end Analysis

end Deadwood

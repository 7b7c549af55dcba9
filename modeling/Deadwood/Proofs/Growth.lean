import Deadwood.Proofs.Edges
import Deadwood.Proofs.Walking
import Mathlib.Algebra.GroupWithZero.Nat
import Mathlib.Data.List.Flatten
import Mathlib.Data.List.Nodup
import Mathlib.Data.List.Perm.Subperm

/-!
# Further files only add reasons

When files are added to a project and the statements of the old candidates still lead where they
led, nothing that speaks for an old candidate falls silent. The old candidates and their edges are
all still there (`Grows`), and every count runs over more texts or more edges. Two signals could
shrink: the files that supply a name are not counted as its users, and an import counts for itself
only if its name is not known to be exported. Both depend on what a file exports, which is read off
the file and the files that it passes on, and these are the same as before (`Grows.suppliers_eq`).
So an old candidate keeps all its reasons and its counts do not fall.
-/

set_option autoImplicit false

namespace Deadwood

open List hiding count

/-! ## Counting in more texts -/

namespace Reference

variable {name owner : String} {skipped : List String} {read : String → List Char}

theorem countIn_congr {other : String → List Char} {paths : List String}
    (h : ∀ path ∈ paths, other path = read path) :
    countIn name owner skipped other paths = countIn name owner skipped read paths := by
  induction paths with
  | nil => rfl
  | cons path paths ih =>
    rw [countIn, countIn, ih fun p hp => h p (mem_cons_of_mem _ hp),
      h path mem_cons_self]

variable {paths' : List String}

theorem countIn_eq_sum (paths : List String) :
    countIn name owner skipped read paths = (paths.map fun path =>
      if path = owner ∨ path ∈ skipped then 0 else countTokens name (read path)).sum := by
  induction paths with
  | nil => rfl
  | cons path paths ih =>
    rw [countIn, ih, map_cons, sum_cons]
    split <;> simp

theorem countIn_le_of_subperm {paths : List String} (h : paths.Subperm paths') :
    countIn name owner skipped read paths ≤ countIn name owner skipped read paths' := by
  obtain ⟨middle, hperm, hsub⟩ := h
  obtain ⟨rest, hrest⟩ := hsub.exists_perm_append
  rw [countIn_eq_sum, countIn_eq_sum, (hrest.map _).sum_nat, map_append, sum_append_nat,
    (hperm.map _).sum_nat]
  exact Nat.le_add_right _ _

end Reference

/-! ## Where the answers of a resolver come from -/

namespace Alias.Resolver

variable {resolver later : Resolver} {disk : Disk}

/-- Every file among the answers is known or stands on the disk. -/
def Grounded (resolver : Resolver) (disk : Disk) : Prop :=
  ∀ specifier directory file, resolver.answer? specifier directory = some (some file) →
    file ∈ resolver.known ∨ disk.isFile (resolver.root.child file) = .ok true

variable {file specifier directory : String}

theorem firstFile?_spec {files : List String}
    (h : resolver.firstFile? disk files = .ok (some file)) :
    file ∈ resolver.known ∨ disk.isFile (resolver.root.child file) = .ok true := by
  induction files with
  | nil => cases h
  | cons first files ih =>
    unfold firstFile? at h
    split at h
    · rename_i hknown
      obtain rfl : first = file := by simpa [pure, Except.pure] using h
      exact .inl (by simpa using hknown)
    · obtain ⟨isFile, hisFile, h⟩ := bind_eq_ok_iff.1 h
      cases isFile with
      | false => exact ih h
      | true =>
        obtain rfl : first = file := by simpa [pure, Except.pure] using h
        exact .inr hisFile

theorem lookUp?_spec (h : resolver.lookUp? disk specifier directory = .ok (some file)) :
    file ∈ resolver.known ∨ disk.isFile (resolver.root.child file) = .ok true := by
  obtain ⟨base, -, h⟩ := bind_eq_ok_iff.1 h
  cases base with
  | none => cases h
  | some base => exact firstFile?_spec (ofDisk_eq_ok_iff.1 h)

/-- A resolver for the same project whose answers are grounded. -/
def Serves (root : Path) (known : List String) (disk : Disk) (resolver : Resolver) : Prop :=
  resolver.root = root ∧ resolver.known = known ∧ resolver.Grounded disk

theorem Serves.resolve {root : Path} {known : List String} {answer : Option String}
    (h : Serves root known disk resolver)
    (hresolve : resolver.resolve disk specifier directory = .ok (answer, later)) :
    Serves root known disk later := by
  obtain ⟨hroot, hknown, hgrounded⟩ := h
  unfold Resolver.resolve at hresolve
  split at hresolve
  · cases hresolve
    exact ⟨hroot, hknown, hgrounded⟩
  · obtain ⟨found, hfound, hlater⟩ := bind_eq_ok_iff.1 hresolve
    cases hlater
    refine ⟨hroot, hknown, fun specifier' directory' file hanswer => ?_⟩
    rw [answer?, lookup_append] at hanswer
    cases hold : resolver.answers.lookup (directory', specifier') with
    | some answer =>
      rw [hold] at hanswer
      exact hgrounded specifier' directory' file (by simpa [answer?, hold] using hanswer)
    | none =>
      rw [hold, Option.none_or, lookup_cons] at hanswer
      split at hanswer
      · cases hanswer
        have hspec := lookUp?_spec hfound
        exact hspec
      · cases hanswer

theorem Asked.serves {root : Path} {known : List String} (h : Asked disk resolver later)
    (hserves : Serves root known disk resolver) : Serves root known disk later := by
  induction h with
  | refl => exact hserves
  | tail _ hstep ih =>
    obtain ⟨specifier, directory, answer, hresolve⟩ := hstep
    exact ih.resolve hresolve

end Alias.Resolver

namespace Index

open Alias Reference

variable {disk : Disk} {path : String} {later : Resolver}

/-! ## Indexes with more candidates -/

theorem map_path_of_load {root : Path} {paths : List String} {files : List Candidate}
    (h : List.Forall₂ (fun path file => Candidate.load disk root path = .ok file) paths files) :
    files.map Candidate.path = paths := by
  induction h with
  | nil => rfl
  | cons hload _ ih => rw [map_cons, (load_spec hload).1, ih]

/-- What an index is built from: one candidate for each path, and a resolver that serves them. -/
theorem build_spec {root : Path} {paths : List String} {resolver : Resolver} {index : Index}
    (h : build disk root paths resolver = .ok index)
    (hserves : resolver.root = root ∧ resolver.answers = []) :
    index.paths = (paths.mergeSort (· ≤ ·)).eraseDups ∧ (∀ candidate, candidate ∈ index.files ↔
        ∃ path ∈ paths, Candidate.load disk root path = .ok candidate) ∧
      Resolver.Serves root index.paths disk index.resolver := by
  obtain ⟨files, hfiles, h⟩ := bind_eq_ok_iff.1 h
  obtain ⟨⟨edges, later⟩, hedges, h⟩ := bind_eq_ok_iff.1 h
  cases h
  rw [mapM_eq_ok_iff] at hfiles
  have hpaths := map_path_of_load hfiles
  refine ⟨hpaths, fun candidate => ⟨fun hmem => ?_, ?_⟩, ?_⟩
  · obtain ⟨path, hpath, hload⟩ := exists_of_forall₂_right hfiles hmem
    exact ⟨path, by simpa [mem_eraseDups] using hpath, hload⟩
  · rintro ⟨path, hpath, hload⟩
    obtain ⟨found, hfound, hsame⟩ :=
      exists_of_forall₂_left hfiles (by simpa [mem_eraseDups] using hpath)
    obtain rfl := Except.ok.inj (hload.symm.trans hsame)
    exact hfound
  · refine (edgesOf_spec hedges).1.serves ⟨hserves.1, hpaths.symm, ?_⟩
    intro specifier directory file hanswer
    simp [Resolver.answer?, hserves.2] at hanswer

/-- The second index has the candidates and the edges of the first and perhaps more, and what the
old candidates export comes from the same files. -/
structure Grows (old new : Index) : Prop where
  agrees : old.Agrees new
  files : old.files.Subperm new.files
  edges : old.edges.Subperm new.edges

theorem mem_requests_of_reexport {m : Module} {statement : Module.Reexport}
    (h : statement ∈ m.reexports) :
    ∃ request ∈ m.requests, request.specifier = statement.specifier := by
  refine ⟨statement.request, ?_, ?_⟩
  · simp only [Module.requests, mem_append, mem_map]
    exact .inl (.inr ⟨statement, h, rfl⟩)
  · unfold Module.Reexport.request
    split <;> rfl

theorem subperm_flatMap {α β : Type} {l l' : List α} (f : α → List β) (h : l.Subperm l') :
    (l.flatMap f).Subperm (l'.flatMap f) := by
  obtain ⟨middle, hperm, hsub⟩ := h
  exact ⟨middle.flatMap f, hperm.flatMap fun _ _ => .refl _, hsub.flatMap f⟩

theorem exists_of_find?_eq {index : Index} {candidate : Candidate}
    (h : index.find? path = some candidate) : candidate ∈ index.files ∧ candidate.path = path :=
  ⟨mem_of_find?_eq_some h, by simpa using find?_some h⟩

section Building

variable {disk later : Disk} {root : Path} {paths pathsLater : List String}
  {resolver resolverLater : Resolver} {old new : Index}

section

variable (hold : build disk root paths resolver = .ok old)
include hold

/-- Candidates whose paths and texts stay are candidates again. -/
theorem files_subperm_of_build (hnew : build later root pathsLater resolverLater = .ok new)
    (hresolver : resolver.root = root ∧ resolver.answers = [])
    (hresolverLater : resolverLater.root = root ∧ resolverLater.answers = [])
    (hpaths : paths ⊆ pathsLater)
    (htexts : ∀ path ∈ old.paths,
      later.readText (root.child path) = disk.readText (root.child path)) :
    old.files.Subperm new.files := by
  obtain ⟨hordered, hmem, -⟩ := build_spec hold hresolver
  obtain ⟨-, hmemLater, -⟩ := build_spec hnew hresolverLater
  have hnodup : old.files.Nodup := by
    refine List.Nodup.of_map Candidate.path ?_
    rw [show old.files.map Candidate.path = _ from hordered]
    exact nodup_eraseDups _
  refine subperm_of_subset hnodup ?_
  intro candidate hcandidate
  obtain ⟨path, hpath, hload⟩ := (hmem candidate).1 hcandidate
  have hknown : path ∈ old.paths := (load_spec hload).1 ▸ mem_map_of_mem hcandidate
  refine (hmemLater candidate).2 ⟨path, hpaths hpath, ?_⟩
  rw [Candidate.load, htexts path hknown]
  exact hload

/-- A file that a specifier led to is no new candidate: it was found on the disk, or it was a
candidate before. -/
theorem find?_eq_none_of_target (hresolver : resolver.root = root ∧ resolver.answers = [])
    (hfresh : ∀ path ∈ new.paths, path ∉ old.paths → disk.isFile (root.child path) ≠ .ok true)
    {path specifier file : String} (htarget : old.target? path specifier = some file)
    (hfile : old.find? file = none) : new.find? file = none := by
  obtain ⟨-, -, hserves⟩ := build_spec hold hresolver
  have hunknown : file ∉ old.paths := by
    intro hmem
    obtain ⟨found, hfound, rfl⟩ := mem_map.1 hmem
    rw [(faithful_of_build hold).find?_eq hfound] at hfile
    cases hfile
  rw [target?, Option.join_eq_some_iff] at htarget
  have hstood := (hserves.2.2 _ _ _ htarget).resolve_left (hserves.2.1 ▸ hunknown)
  rw [hserves.1] at hstood
  refine find?_eq_none.2 fun other hother hpath => ?_
  have hother : file ∈ new.paths := mem_map.2 ⟨other, hother, by simpa using hpath⟩
  exact hfresh file hother hunknown hstood

/-- An index grows if files are added: those that were there before are still there with their
texts, their statements lead to the same files, and no file that was there and was no candidate has
become one. -/
theorem grows_of_build (hnew : build later root pathsLater resolverLater = .ok new)
    (hresolver : resolver.root = root ∧ resolver.answers = [])
    (hresolverLater : resolverLater.root = root ∧ resolverLater.answers = [])
    (hpaths : paths ⊆ pathsLater)
    (htexts : ∀ path ∈ old.paths,
      later.readText (root.child path) = disk.readText (root.child path))
    (htargets : ∀ candidate ∈ old.files, ∀ request ∈ candidate.module.requests,
      new.target? candidate.path request.specifier = old.target? candidate.path request.specifier)
    (hfresh : old.paths ≠ [] → ∀ path ∈ new.paths, path ∉ old.paths →
      disk.isFile (root.child path) ≠ .ok true) :
    old.Grows new := by
  have hfiles := files_subperm_of_build hold hnew hresolver hresolverLater hpaths htexts
  have hkeeps : ∀ {path : String} {candidate : Candidate}, old.find? path = some candidate →
      new.find? path = some candidate := by
    intro path candidate hfound
    obtain ⟨hcandidate, rfl⟩ := exists_of_find?_eq hfound
    exact (faithful_of_build hnew).find?_eq (hfiles.subset hcandidate)
  refine ⟨⟨hkeeps, ?_, ?_⟩, hfiles, ?_⟩
  · intro path candidate hfound statement hstatement
    obtain ⟨hcandidate, rfl⟩ := exists_of_find?_eq hfound
    obtain ⟨request, hrequest, hspecifier⟩ := mem_requests_of_reexport hstatement
    rw [← hspecifier, htargets candidate hcandidate request hrequest]
  · intro path candidate hfound statement hstatement file htarget
    cases hfile : old.find? file with
    | some found => exact hkeeps hfile
    | none =>
      have hmem := mem_map_of_mem (f := Candidate.path) (exists_of_find?_eq hfound).1
      exact find?_eq_none_of_target hold hresolver (hfresh (ne_nil_of_mem hmem)) htarget hfile
  · rw [edges_of_build hold, edges_of_build hnew]
    have hsame : (old.files.flatMap fun candidate =>
        candidate.module.requests.filterMap (edge? old.resolver candidate.path)) =
        old.files.flatMap fun candidate =>
          candidate.module.requests.filterMap (edge? new.resolver candidate.path) := by
      refine flatMap_congr fun candidate hcandidate => ?_
      refine filterMap_congr fun request hrequest => ?_
      have htarget := htargets candidate hcandidate request hrequest
      rw [target?, target?] at htarget
      rw [edge?, edge?, htarget]
    rw [hsame]
    exact subperm_flatMap _ hfiles

end

end Building

namespace Grows

variable {old new : Index} (h : old.Grows new) {path : String}
include h

variable {edge : Edge}

theorem mem_edges (hedge : edge ∈ old.edges) : edge ∈ new.edges :=
  h.edges.subset hedge

theorem mem_edgesTo (hedge : edge ∈ old.edgesTo path) : edge ∈ new.edgesTo path := by
  obtain ⟨hmem, htarget, hfound⟩ := mem_edgesTo_iff.1 hedge
  obtain ⟨candidate, hcandidate⟩ := Option.isSome_iff_exists.1 hfound
  refine mem_edgesTo_iff.2 ⟨h.mem_edges hmem, htarget, ?_⟩
  rw [h.agrees.find_eq hcandidate]
  rfl

/-- What an old candidate exports, and where it comes from, is as before. -/
theorem suppliers_eq (hpath : path ∈ old.paths) (hold : old.Faithful) :
    new.suppliers path = old.suppliers path := by
  obtain ⟨candidate, hcandidate, rfl⟩ := mem_map.1 hpath
  refine h.agrees.suppliersFrom_eq ?_
  rw [hold.find?_eq hcandidate, h.agrees.find_eq (hold.find?_eq hcandidate)]

/-- The uses of a name do not become fewer. -/
theorem count_le (hold : old.Faithful) (hnew : new.Faithful) (name : String)
    (skipped : List String) : count old name path skipped ≤ count new name path skipped := by
  unfold count
  split
  · -- the edges to a file are those with it as target, whoever imports it
    have heq : ∀ {index : Index}, index.Faithful →
        index.edgesTo path = index.edges.filter (·.target == path) := by
      intro index hfaithful
      refine filter_congr fun edge hedge => ?_
      obtain ⟨candidate, hcandidate, himporter⟩ := hfaithful.exists_importer hedge
      rw [← himporter, hfaithful.find?_eq hcandidate]
      simp
    rw [countDefault, countDefault, heq hold, heq hnew]
    exact ((h.edges.filter _).filter _).length_le
  · have hread : ∀ path ∈ old.paths, new.textOf path = old.textOf path := by
      intro path hpath
      obtain ⟨candidate, hcandidate, rfl⟩ := mem_map.1 hpath
      rw [textOf, textOf, hold.find?_eq hcandidate, h.agrees.find_eq (hold.find?_eq hcandidate)]
    obtain ⟨middle, hperm, hsub⟩ := h.files
    rw [← countIn_congr hread]
    exact countIn_le_of_subperm ⟨middle.map _, hperm.map _, hsub.map _⟩

end Grows

end Index

namespace Analysis

open Index Reference

variable {project later : Project} {path : String}

/-- Nothing that speaks for an old candidate falls silent. -/
theorem speaksFor_of_grows (h : project.index.Grows later.index)
    (hold : project.index.Faithful) (hnew : later.index.Faithful)
    (hcorpus : project.corpus ⊆ later.corpus) (hpath : path ∈ project.index.paths)
    {allowed routed : Bool} {reason : Reason}
    (hspeaks : speaksFor project allowed routed path reason) :
    speaksFor later allowed routed path reason := by
  have hexports := h.suppliers_eq hpath hold
  have hfound : ∀ {candidate : Candidate}, project.index.find? path = some candidate →
      later.index.find? path = some candidate := h.agrees.find_eq
  cases reason with
  | allowlist => exact hspeaks
  | routeConvention => exact hspeaks
  | dynamicImportTarget =>
    simp only [speaksFor, isDynamic, Bool.or_eq_true, Option.any_eq_true] at hspeaks ⊢
    rcases hspeaks with ⟨candidate, hcandidate, hloads⟩ | hloaded
    · exact .inl ⟨candidate, hfound hcandidate, hloads⟩
    · simp only [contains_iff_mem, mem_dynamicTargets_iff] at hloaded ⊢
      obtain ⟨edge, hedge, hdynamic⟩ := hloaded
      exact .inr ⟨edge, h.mem_edges hedge, hdynamic⟩
  | barrelUsed =>
    simp only [speaksFor, isUsedBarrel, Bool.and_eq_true, edgesOfKind_ne_nil_iff,
      hexports] at hspeaks ⊢
    obtain ⟨⟨⟨hsome, hbarrel⟩, hexported⟩, edge, hedge, hkind⟩ := hspeaks
    obtain ⟨candidate, hcandidate⟩ := Option.isSome_iff_exists.1 hsome
    refine ⟨⟨⟨?_, hbarrel⟩, hexported⟩, edge, h.mem_edgesTo hedge, hkind⟩
    rw [hfound hcandidate]
    rfl
  | exportReferenced =>
    simp only [speaksFor, Bool.or_eq_true, any_exportCounts_iff, unlistedNames_ne_nil_iff,
      hexports] at hspeaks ⊢
    rcases hspeaks with ⟨name, files, hmem, hcount⟩ | ⟨edge, hedge, hunlisted⟩
    · exact .inl ⟨name, files, hmem, hcount.trans_le (h.count_le hold hnew name files)⟩
    · exact .inr ⟨edge, h.mem_edgesTo hedge, hunlisted⟩
  | pathMentioned =>
    simp only [speaksFor, Corpus.mentions, Bool.not_eq_true',
      isEmpty_eq_false_iff_exists_mem, mem_mergeSort, mem_map,
      mem_filter] at hspeaks ⊢
    obtain ⟨file, pair, ⟨hmem, hmentions⟩, hfile⟩ := hspeaks
    exact ⟨file, pair, ⟨hcorpus hmem, hmentions⟩, hfile⟩
  | sideEffectImport =>
    simp only [speaksFor, edgesOfKind_ne_nil_iff] at hspeaks ⊢
    obtain ⟨edge, hedge, hkind⟩ := hspeaks
    exact ⟨edge, h.mem_edgesTo hedge, hkind⟩

end Analysis

/-! ## Projects with further files -/

/-- The patterns of an excluder are read from lines. -/
theorem Ignore.Excluder.patterns_of_load {disk : Disk} {root : Path} {everything : Bool}
    {extra : List Value} {excluder : Excluder}
    (h : load disk root everything extra = .ok excluder) :
    patternsOf (defaultLines.map .text) = .ok excluder.defaults ∧
      ∃ lines, patternsOf lines = .ok excluder.own := by
  unfold load at h
  dsimp only at h
  split at h
  all_goals
    obtain ⟨file, -, h⟩ := bind_eq_ok_iff.1 h
    obtain ⟨defaults, hdefaults, h⟩ := bind_eq_ok_iff.1 h
    obtain ⟨own, hpatterns, h⟩ := bind_eq_ok_iff.1 h
    cases h
    exact ⟨hdefaults, _, hpatterns⟩

/-- What a project holds comes from its settings and from the disk. -/
theorem Project.load_eq_ok_iff {disk : Disk} {directory : Path} {options : OpenOptions}
    {project : Project} : Project.load disk directory options = .ok project ↔
      directory.resolved disk.here = .ok project.root ∧
      Config.resolve disk project.root options.config = .ok project.config ∧
      (do Config.distinct ((← project.config.allowlist) ++ options.allow.map Value.text)) =
        .ok project.allowlist ∧
      workersFor project.config options = .ok project.workers ∧
      checkWorkers project.workers = .ok () ∧
      ∃ aliases table patterns extensions directories paths,
        aliasesFor project.config options = .ok aliases ∧
        Alias.load disk project.root aliases = .ok table ∧
        patternsFor project.config options = .ok patterns ∧
        Ignore.Excluder.load disk project.root options.everything patterns =
          .ok project.walk.excluder ∧
        project.config.extensions.elements = .ok extensions ∧
        project.config.referenceDirectories.elements = .ok directories ∧
        project.walk =
          { root := project.root
            excluder := project.walk.excluder
            extensions := extensions
            skipBarrels := project.config.skipBarrels.isSet } ∧
        project.walk.paths disk = .ok paths ∧
        Index.build disk project.root paths
          { root := project.root, table := table, extensions := extensions.map Value.plain } =
            .ok project.index ∧
        Reference.Corpus.load disk project.root project.walk.excluder
          (directories.map Value.plain) = .ok project.corpus := by
  simp only [Project.load, bind_eq_ok_iff, ofFault_eq_ok_iff]
  constructor
  · rintro ⟨root, hroot, config, hconfig, allowlist, hallowlist, workers, hworkers, aliases,
      haliases, table, htable, patterns, hpatterns, excluder, hexcluder, extensions, hextensions,
      paths, hpaths, _, hcheck, index, hindex, directories, hdirectories, corpus, hcorpus, h⟩
    cases h
    exact ⟨hroot, hconfig, hallowlist, hworkers, hcheck, aliases, table, patterns, extensions,
      directories, paths, haliases, htable, hpatterns, hexcluder, hextensions, hdirectories, rfl,
      hpaths, hindex, hcorpus⟩
  · rintro ⟨hroot, hconfig, hallowlist, hworkers, hcheck, aliases, table, patterns, extensions,
      directories, paths, haliases, htable, hpatterns, hexcluder, hextensions, hdirectories, hwalk,
      hpaths, hindex, hcorpus⟩
    rw [hwalk] at hpaths
    refine ⟨_, hroot, _, hconfig, _, hallowlist, _, hworkers, _, haliases, _, htable, _, hpatterns,
      _, hexcluder, _, hextensions, _, hpaths, _, hcheck, _, hindex, _, hdirectories, _, hcorpus,
      ?_⟩
    rw [← hwalk]
    rfl

namespace Analysis

open Index Reference

/-! ## Projects without settings

The projects of the examples are opened at the top of a disk and have no settings. The names in
their directories are in order, so what a walk through them lists does not have to be sorted. -/

/-- Only what is always left out is left out. -/
def pairOptions : OpenOptions := { everything := true }

/-- The walk through the pair, given the patterns that always hold. -/
def pairWalk (defaults : List Ignore.Pattern) : Walk where
  root := smallRoot
  excluder := ⟨smallRoot, [], [], ["defaults"], defaults, []⟩
  extensions := Module.extensions.map Value.text

/-- The project with the given index, as it is opened without any settings. -/
def pairProject (defaults : List Ignore.Pattern) (index : Index) : Project where
  root := smallRoot
  config := []
  allowlist := []
  walk := pairWalk defaults
  index := index
  corpus := []
  workers := .null

section

variable {walk : Walk} (hroot : walk.root = smallRoot) (hstart : walk.start = "") {disk : Disk}
include hroot hstart

theorem locate_smallRoot : disk.locate walk.root = .ok [] ∧
    disk.locate (walk.root.child (Relative.normalize walk.start)) = .ok [] := by
  rw [hroot, hstart, show smallRoot.child (Relative.normalize "") = smallRoot by decide]
  exact ⟨rfl, rfl⟩

theorem paths_of_listed {paths : List String} (horder : disk.InOrder)
    (h : (walk.listed disk [] (disk.depth + 1) []).toOption.any (· == paths)) :
    walk.paths disk = .ok paths := by
  obtain ⟨hbase, hplace⟩ := locate_smallRoot hroot hstart
  obtain ⟨found, hfound, hsame⟩ := exists_ok_of_any h
  rw [Walk.paths_eq_listed horder hbase hplace rfl, hfound, eq_of_beq hsame]
  rfl

end

/-- A disk without settings whose names are in order, the candidates that a walk through it lists,
and the same without repetitions. -/
structure Bare (disk : Disk) (listed paths : List String) : Prop where
  inOrder : disk.InOrder
  config : Config.resolve disk smallRoot none = .ok []
  table : Alias.load disk smallRoot none = .ok {}
  corpus : ∀ excluder, Corpus.load disk smallRoot excluder
    Config.defaultReferenceDirectories = .ok []
  walked : (Ignore.Excluder.patternsOf (Ignore.defaultLines.map .text)).toOption.any
    fun defaults => ((pairWalk defaults).listed disk [] (disk.depth + 1) []).toOption.any
      (· == listed)
  sorted : listed.Pairwise fun a b => decide (a ≤ b) = true
  distinct : listed.eraseDups = paths

/-- The project is opened, given its index. -/
theorem Bare.exists_load {disk : Disk} {listed paths : List String} (h : Bare disk listed paths) :
    ∃ defaults, Ignore.Excluder.patternsOf (Ignore.defaultLines.map .text) = .ok defaults ∧
      (pairWalk defaults).paths disk = .ok listed ∧
      ∀ index, buildOrdered disk smallRoot paths { root := smallRoot } = .ok index →
        Project.load disk smallRoot pairOptions = .ok (pairProject defaults index) := by
  obtain ⟨defaults, hdefaults, hwalked⟩ := exists_ok_of_any h.walked
  have hpaths : (pairWalk defaults).paths disk = .ok listed :=
    paths_of_listed rfl rfl h.inOrder hwalked
  refine ⟨defaults, hdefaults, hpaths, fun index hindex => ?_⟩
  refine Project.load_eq_ok_iff.2 ⟨rfl, h.config, rfl, rfl, rfl, none, {}, [], _, _, listed, rfl,
    h.table, rfl, ?_, rfl, rfl, rfl, hpaths, (build_of_sorted h.sorted h.distinct).trans hindex,
    h.corpus _⟩
  rw [Ignore.Excluder.load]
  exact bind_eq_ok_iff.2 ⟨none, rfl, bind_eq_ok_iff.2 ⟨defaults, hdefaults,
    bind_eq_ok_iff.2 ⟨[], rfl, rfl⟩⟩⟩

/-- A report does not depend on the patterns of files that are left out. -/
theorem run_pairProject (defaults : List Ignore.Pattern) (index : Index) :
    run (pairProject defaults index) smallNow = run (pairProject [] index) smallNow := by
  have hall : ∀ directories names answers paths,
      classifyAll (pairProject defaults index) directories names answers paths =
        classifyAll (pairProject [] index) directories names answers paths := by
    intro directories names answers paths
    induction paths generalizing answers with
    | nil => rfl
    | cons path paths ih =>
      simp only [classifyAll, ih]
      rfl
  simp only [run, hall]
  rfl

end Analysis

end Deadwood

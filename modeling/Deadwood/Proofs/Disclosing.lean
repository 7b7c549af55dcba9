import Deadwood.Proofs.Writing

/-!
# What a run discloses

A run first plans and then writes. While it plans, a text is worked on only where an entry says that
a name was taken out, and that is said only of names that may be taken out (`Covers`, kept by every
step for a name and by every step for a file). What is written are the texts that have changed since
the run began. So the results of a run name everything that it has changed on the disk
(`run_discloses`), with a snapshot of each file as it was, as long as no directory stands where a
snapshot is to be.
-/

set_option autoImplicit false

namespace Deadwood

open List

namespace Trim

open Relative Analysis

variable {root : Path} {run file : String} {names : List String} {disk later : Disk}

/-! ## The plan of a run -/

section Plan

variable {project : Project} {options : Options} {paths : Except Failure (List String)}
  {session next final : Session} {entry : Entry String} {entries : List (Entry String)}

/-- All that a step for one name can do: it leaves the name and the session, or it takes the name,
which nothing protects, out of the text of the file by an edit. -/
theorem trimName_cases {name : String}
    (h : trimName project disk options paths file session name = .ok (entry, next)) :
    (entry.outcome = .skipped ∧ next = session) ∨
      (entry.file = file ∧ entry.name = name ∧
        entry.outcome = (if options.write then .applied else .dryRun) ∧ name ≠ "default" ∧
        project.allowlist.any (·.same (.text name)) = false ∧
        ∃ text m edited action, session.read disk project.root file = .ok text ∧
          Module.parse text = .ok m ∧ edit options.mode text m name = .ok (edited, action) ∧
          next = { session with
            working := Keyed.put file edited session.working
            initial := Keyed.putNew file text session.initial }) := by
  have hleave : ∀ {obstacle refs}, (pure (leave file name obstacle refs, session) :
      Except Failure (Entry String × Session)) = .ok (entry, next) →
      entry.outcome = .skipped ∧ next = session := by
    intro obstacle refs h
    cases h
    exact ⟨rfl, rfl⟩
  -- a protected name, the default export and a name in use are left, in this order
  unfold trimName at h
  split at h
  · exact .inl (hleave h)
  rename_i hlisted
  split at h
  · exact .inl (hleave h)
  rename_i hdefault
  obtain ⟨searched, -, h⟩ := bind_eq_ok_iff.1 h
  simp only at h
  split at h
  · exact .inl (hleave h)
  obtain ⟨text, hread, h⟩ := bind_eq_ok_iff.1 h
  -- what is left can still be a text that cannot be parsed or edited
  unfold trimText at h
  split at h
  · cases h
    exact .inl ⟨rfl, rfl⟩
  rename_i m hparse
  split at h
  · cases h
    exact .inl ⟨rfl, rfl⟩
  · rename_i edited action hedit
    cases h
    exact .inr ⟨rfl, rfl, rfl, hdefault, by simpa using hlisted, text, m, edited, action, hread,
      hparse, hedit, rfl⟩

/-- The entries of a run account for the texts that it has worked on. -/
structure Covers (project : Project) (name : String) (files : List String)
    (entries : List (Entry String)) (session : Session) : Prop where
  name_eq : session.name = name
  nodup : (session.working.map Prod.fst).Nodup
  /-- What has been worked on has an entry. -/
  applied : ∀ file ∈ session.working.map Prod.fst,
    ∃ entry ∈ entries, entry.file = file ∧ entry.outcome = .applied
  /-- An entry says so only of names that may be taken out. -/
  admitted : ∀ entry ∈ entries, entry.outcome = .applied →
    entry.file ∈ files ∧ Ignore.isProtected entry.file = false ∧ entry.name ≠ "default" ∧
      project.allowlist.any (·.same (.text entry.name)) = false

variable {name : String} {files : List String}

theorem Covers.append_skipped {more : List (Entry String)}
    (h : Covers project name files entries session)
    (hmore : ∀ entry ∈ more, entry.outcome = .skipped) :
    Covers project name files (entries ++ more) session where
  name_eq := h.name_eq
  nodup := h.nodup
  applied := by
    intro file hfile
    obtain ⟨entry, hentry, happlied⟩ := h.applied file hfile
    exact ⟨entry, mem_append_left more hentry, happlied⟩
  admitted := by
    intro entry hentry happlied
    rcases mem_append.1 hentry with hentry | hentry
    · exact h.admitted entry hentry happlied
    · rw [hmore entry hentry] at happlied
      cases happlied

/-- One step: a name that is taken out gets its entry. -/
theorem Covers.trimName {exported : String} (h : Covers project name files entries session)
    (hwrite : options.write) (hfile : file ∈ files) (hprotected : Ignore.isProtected file = false)
    (hstep : trimName project disk options paths file session exported = .ok (entry, next)) :
    Covers project name files (entries ++ [entry]) next := by
  rcases trimName_cases hstep with ⟨hskipped, rfl⟩ |
    ⟨hentryFile, hentryName, houtcome, hdefault, hlisted, _, _, _, _, -, -, -, rfl⟩
  · exact h.append_skipped (by simpa using hskipped)
  rw [if_pos hwrite] at houtcome
  refine ⟨h.name_eq, Keyed.nodup_keys_put h.nodup, fun other hother => ?_, ?_⟩
  · rcases Keyed.mem_keys_put.1 hother with hother | rfl
    · obtain ⟨before, hbefore, happlied⟩ := h.applied other hother
      exact ⟨before, mem_append_left _ hbefore, happlied⟩
    · exact ⟨entry, by simp, hentryFile, houtcome⟩
  · intro other hother happlied
    rcases mem_append.1 hother with hother | hother
    · exact h.admitted other hother happlied
    · obtain rfl := mem_singleton.1 hother
      rw [hentryFile, hentryName]
      exact ⟨hfile, hprotected, hdefault, hlisted⟩

/-- A whole plan, from a session that has not begun. -/
theorem covers_of_plan {targets : List (Record String)} (hwrite : options.write)
    (h : plan project disk options { name } targets = .ok (entries, final)) :
    Covers project name (targets.map Record.path) entries final := by
  have hstart : Covers project name (targets.map Record.path) [] { name } :=
    ⟨rfl, nodup_nil, by simp, by simp⟩
  refine plan_induction (Covers project name (targets.map Record.path)) Covers.append_skipped ?_
    hstart h
  intro s s' record exported entry done hrecord hprotected hdone hstep
  exact hdone.trimName hwrite (mem_map_of_mem hrecord) hprotected hstep

end Plan

/-! ## A whole run -/

/-- The results of a run that has written disclose all that it did to the disk. -/
structure Discloses (project : Project) (name : String) (final : Session)
    (results : Results String) (disk later : Disk) : Prop where
  /-- The files that are written are those whose texts have changed. -/
  written_iff : ∀ file, file ∈ results.written ↔
    ∃ text, final.working.lookup file = some text ∧ final.initial.lookup file ≠ some text
  /-- What has changed is a file that was written, a snapshot, or a new directory above one. -/
  frame : ∀ place, later.at? place ≠ disk.at? place →
    (∃ file ∈ results.written, place = placeOf project.root file) ∨
    (∃ pair ∈ results.backups, place = placeOf project.root pair.2) ∨
    (disk.at? place = none ∧ later.at? place = some .directory ∧
      ∃ pair ∈ results.backups, place <+: placeOf project.root pair.2)
  /-- A file that was written holds its text at the end of the run. -/
  holds : ∀ file ∈ results.written, ∃ text, final.working.lookup file = some text ∧
    later.at? (placeOf project.root file) = some (.file (Text.Utf8.encode text))
  /-- Every file that was written has its snapshot. -/
  backups_eq : results.backups = results.written.map fun file => (file, snapshotPath name file)
  /-- A snapshot holds what the file held before the run. -/
  shelved : ∀ pair ∈ results.backups, ∃ bytes,
    disk.at? (placeOf project.root pair.1) = some (.file bytes) ∧
    later.at? (placeOf project.root pair.2) = some (.file bytes)
  /-- A file that was written has an entry that says so. -/
  applied : ∀ file ∈ results.written,
    ∃ entry ∈ results.entries, entry.file = file ∧ entry.outcome = .applied
  /-- A file that was written lies below the root and in no protected directory. -/
  confined : ∀ file ∈ results.written, ∃ names,
    placeOf project.root file = project.root.parts ++ names ∧
    ∀ directory ∈ names.dropLast, directory ∉ Ignore.protectedNames
  /-- No name is taken out that is protected, and no default export. -/
  admitted : ∀ entry ∈ results.entries, entry.outcome = .applied →
    entry.name ≠ "default" ∧ project.allowlist.any (·.same (.text entry.name)) = false

section Disclosure

variable {project : Project} {options : Options} {name : String} {session final : Session}
  {files : List String} {entries : List (Entry String)} {results : Results String}

/-- The files that are written when a session is flushed, in ascending order. -/
def Session.pending (session : Session) : List (String × List Char) :=
  session.changed (session.working.mergeSort fun a b => a.1 ≤ b.1)

theorem mem_pending_iff (hnodup : (session.working.map Prod.fst).Nodup) (file : String)
    (text : List Char) : (file, text) ∈ session.pending ↔
      session.working.lookup file = some text ∧ session.initial.lookup file ≠ some text := by
  rw [Session.pending, Session.changed, mem_filter, mem_mergeSort,
    Keyed.lookup_eq_some_iff_mem hnodup]
  simp

theorem nodup_pending (hnodup : (session.working.map Prod.fst).Nodup) :
    (session.pending.map Prod.fst).Nodup := by
  have hsorted : ((session.working.mergeSort fun a b => a.1 ≤ b.1).map Prod.fst).Nodup :=
    ((mergeSort_perm _ _).map Prod.fst).nodup_iff.2 hnodup
  exact hsorted.sublist (filter_sublist.map Prod.fst)

/-- What has been worked on may be written, if that holds of the files without protection. -/
theorem Covers.exists_writable (h : Covers project name files entries session)
    (hwritable : ∀ file ∈ files, Ignore.isProtected file = false → ∃ names, Writable names file)
    (hfile : file ∈ session.working.map Prod.fst) : ∃ names, Writable names file := by
  obtain ⟨entry, hentry, rfl, happlied⟩ := h.applied file hfile
  obtain ⟨hmem, hprotected, -⟩ := h.admitted entry hentry happlied
  exact hwritable _ hmem hprotected

theorem mem_keys_of_pending {text : List Char} (hnodup : (session.working.map Prod.fst).Nodup)
    (h : (file, text) ∈ session.pending) : file ∈ session.working.map Prod.fst := by
  have hlookup := ((mem_pending_iff hnodup file text).1 h).1
  exact mem_map.2 ⟨(file, text), (Keyed.lookup_eq_some_iff_mem hnodup).1 hlookup, rfl⟩

/-- Flushing a session writes the files that have changed, and names each with its snapshot. -/
theorem writes_of_flush {metadata : Value} (hroot : project.root.IsResolved)
    (hname : IsSegment name) (hbackup : options.backup)
    (hcovers : Covers project name files entries final)
    (hworking : ∀ file ∈ final.working.map Prod.fst, ∃ names, Spells names file)
    (h : (flush project.root options final { metadata, entries }).run disk = (.ok results, later)) :
    results.written = final.pending.map Prod.fst ∧
      results.backups = results.written.map (fun file => (file, snapshotPath name file)) ∧
      Writes project.root name disk final.pending later := by
  have hspells : ∀ pair ∈ final.working.mergeSort (fun a b => a.1 ≤ b.1),
      ∃ names, Spells names pair.1 := fun pair hpair =>
    hworking pair.1 (mem_map_of_mem (mem_mergeSort.1 hpair))
  obtain ⟨hwrites, hwritten, hbackups⟩ :=
    writes_of_flushFiles hroot (hcovers.name_eq ▸ hname) hbackup hspells h
  rw [hcovers.name_eq] at hwrites hbackups
  refine ⟨hwritten, ?_, hwrites⟩
  rw [hbackups, hwritten]
  exact Keyed.foldl_put_eq (snapshotPath name) (nodup_pending hcovers.nodup)

/-- Results disclose what was written if they name the files that have changed, with their
snapshots. -/
theorem Wrote.discloses (hcovers : Covers project name files results.entries final)
    (hwritable : ∀ file ∈ files, Ignore.isProtected file = false → ∃ names, Writable names file)
    (hwritten : results.written = final.pending.map Prod.fst) (hbackups : results.backups =
      results.written.map fun file => (file, snapshotPath name file))
    (h : Wrote project.root name disk final.pending later) :
    Discloses project name final results disk later := by
  have hkeys : ∀ file, file ∈ results.written ↔ ∃ text, (file, text) ∈ final.pending := by
    rw [hwritten]
    simp
  have hworking : ∀ file ∈ results.written, file ∈ final.working.map Prod.fst := by
    intro file hfile
    obtain ⟨text, htext⟩ := (hkeys file).1 hfile
    exact mem_keys_of_pending hcovers.nodup htext
  refine ⟨fun file => ?_, fun place hchange => ?_, fun file hfile => ?_, hbackups, ?_, ?_, ?_, ?_⟩
  · rw [hkeys]
    exact exists_congr fun text => mem_pending_iff hcovers.nodup file text
  · have hspares := h.spares
    rw [← hwritten] at hspares
    have hpair : ∀ file ∈ results.written, (file, snapshotPath name file) ∈ results.backups := by
      intro file hfile
      rw [hbackups]
      exact mem_map.2 ⟨file, hfile, rfl⟩
    rcases hspares.cases_of_ne hchange with hplace | ⟨file, hfile, hplace⟩ |
      ⟨hnone, hnew, file, hfile, hleads⟩
    · exact .inl hplace
    · exact .inr (.inl ⟨_, hpair file hfile, hplace⟩)
    · exact .inr (.inr ⟨hnone, hnew, _, hpair file hfile, hleads⟩)
  · obtain ⟨text, htext⟩ := (hkeys file).1 hfile
    exact ⟨text, ((mem_pending_iff hcovers.nodup file text).1 htext).1, h.holds (file, text) htext⟩
  · rw [hbackups]
    refine forall_mem_map.2 fun file hfile => ?_
    obtain ⟨text, htext⟩ := (hkeys file).1 hfile
    exact h.shelved (file, text) htext
  · exact fun file hfile => hcovers.applied file (hworking file hfile)
  · intro file hfile
    obtain ⟨names, hnames⟩ := hcovers.exists_writable hwritable (hworking file hfile)
    exact ⟨names, placeOf_eq hnames.toSpells, hnames.unprotected⟩
  · exact fun entry hentry happlied => (hcovers.admitted entry hentry happlied).2.2

end Disclosure

/-- The results of a run that writes, on a project that was analysed, disclose all that the run did
to the disk, if the names below the root are plain and no directory stands where a snapshot is to
be. -/
theorem run_discloses {disk₀ : Disk} {directory : Path} {opening : OpenOptions} {project : Project}
    {now₀ now : Stamp} {report : Report String} {mode : Mode} {name : String}
    {results : Results String}
    (hload : Project.load disk₀ directory opening = .ok project)
    (hreport : Analysis.run project now₀ = .ok report)
    (hplain : disk₀.PlainBelow project.root.parts) (hname : IsSegment name)
    (hrun : (Trim.run project { write := true, mode, backup := true } { name } now report).run
      disk = (.ok results, later))
    (hfree : ∀ pair ∈ results.backups, disk.at? (placeOf project.root pair.2) ≠ some .directory) :
    ∃ final, plan project disk { write := true, mode, backup := true } { name } report.partlyUsed =
        .ok (results.entries, final) ∧
      Discloses project name final results disk later := by
  obtain ⟨⟨entries, final⟩, middle, hlook, hfinish⟩ := run_bind_eq_ok_iff.1 hrun
  obtain ⟨hplan, rfl⟩ := Prod.mk.inj hlook
  have hcovers := covers_of_plan rfl hplan
  obtain rfl : results.entries = entries := flushFiles_entries hfinish
  refine ⟨final, hplan, ?_⟩
  -- the files of a report are spelled by plain names, so protection is seen in their places
  have hroot : project.root.IsResolved :=
    Path.isResolved_of_resolved (Project.load_eq_ok_iff.1 hload).1
  have hwritable : ∀ file ∈ report.partlyUsed.map Record.path, Ignore.isProtected file = false →
      ∃ names, Writable names file := by
    refine forall_mem_map.2 fun record hrecord hprotected => ?_
    obtain ⟨names, hspells, hnames⟩ :=
      Analysis.spells_of_run hload hplain hreport (mem_of_mem_filter hrecord)
    exact ⟨names, writable_of_isPlain hspells hnames hprotected⟩
  have hworking : ∀ file ∈ final.working.map Prod.fst, ∃ names, Writable names file :=
    fun file hfile => hcovers.exists_writable hwritable hfile
  have hflush : (flush project.root { write := true, mode, backup := true } final
      { metadata := metadata project { write := true, mode, backup := true } final now,
        entries := results.entries }).run disk = (.ok results, later) := hfinish
  obtain ⟨hwritten, hbackups, hwrites⟩ := writes_of_flush hroot hname rfl hcovers
    (fun file hfile => (hworking file hfile).imp fun _ hnames => hnames.toSpells) hflush
  refine Wrote.discloses hcovers hwritable hwritten hbackups
    (hwrites.wrote hroot hname (nodup_pending hcovers.nodup) ?_ ?_)
  · exact fun pair hpair => hworking pair.1 (mem_keys_of_pending hcovers.nodup hpair)
  · intro pair hpair
    refine hfree (pair.1, snapshotPath name pair.1) ?_
    rw [hbackups, hwritten]
    exact mem_map.2 ⟨pair.1, mem_map_of_mem hpair, rfl⟩

/-! ## A module with an unused export

The project below has one directory, with a module that exports two names and a module that imports
one of them. Further nodes may stand where snapshots are kept. -/

def idleFiles : List (String × List UInt8) :=
  [("entry.ts", Text.Utf8.encode "import \x7b used \x7d from './parts';\n".toList),
    ("parts.ts", Text.Utf8.encode "export const used = 1;\nexport const idle = 2;\n".toList)]

def idleDisk (extra : List (Place × Node)) : Disk where
  nodes := extra ++ (["src"], .directory) ::
    idleFiles.map fun (name, bytes) => (["src", name], .file bytes)

def idlePaths : List String := ["src/entry.ts", "src/parts.ts"]

theorem bare_idle : Bare (idleDisk []) idlePaths idlePaths :=
  ⟨by decide +kernel, rfl, rfl, fun _ => rfl, by decide +kernel, by decide, by decide⟩

/-- Something that a computation shows of the run holds of it. The names in a directory are in order
already, so the computation does not have to sort them. -/
theorem exists_idle (extra : List (Place × Node)) (name : String) {paths : List String}
    (hbare : Bare (idleDisk extra) paths paths)
    (check : Index → Session → Results String → Disk → Bool)
    (hcheck : (Index.buildOrdered (idleDisk extra) smallRoot paths
      { root := smallRoot }).toOption.any fun index =>
        (Analysis.run (Analysis.pairProject [] index) smallNow).toOption.any fun report =>
          (trimFiles (Analysis.pairProject [] index) (idleDisk extra) { write := true } (.ok paths)
            { name } report.partlyUsed).toOption.any fun planned =>
            let ran := (finish (Analysis.pairProject [] index) { write := true } planned.2 smallNow
              planned.1).run (idleDisk extra)
            ran.1.toOption.any fun results => check index planned.2 results ran.2) :
    ∃ project report final results later,
      Project.load (idleDisk extra) smallRoot pairOptions = .ok project ∧
      Analysis.run project smallNow = .ok report ∧
      Session.searched { name } project (idleDisk extra) = .ok paths ∧
      plan project (idleDisk extra) { write := true } { name } report.partlyUsed =
        .ok (results.entries, final) ∧
      (Trim.run project { write := true } { name } smallNow report).run (idleDisk extra) =
        (.ok results, later) ∧
      project.root = smallRoot ∧ check project.index final results later := by
  obtain ⟨defaults, -, hpaths, hload⟩ := hbare.exists_load
  obtain ⟨index, hindex, hcheck⟩ := exists_ok_of_any hcheck
  obtain ⟨report, hreport, hcheck⟩ := exists_ok_of_any hcheck
  obtain ⟨⟨entries, final⟩, htrim, hcheck⟩ := exists_ok_of_any hcheck
  obtain ⟨⟨outcome, later⟩, hfinish⟩ : ∃ ran, (finish (Analysis.pairProject [] index)
      { write := true } final smallNow entries).run (idleDisk extra) = ran := ⟨_, rfl⟩
  simp only [hfinish] at hcheck
  obtain ⟨results, rfl, hcheck⟩ := exists_ok_of_any hcheck
  have hsearched : Session.searched { name } (Analysis.pairProject defaults index)
      (idleDisk extra) = .ok paths :=
    searched_of_sorted hpaths (append_nil _) hbare.sorted hbare.distinct
  -- of the project the run sees only what does not depend on the patterns
  have hplan :
      plan (Analysis.pairProject defaults index) (idleDisk extra) { write := true } { name }
      report.partlyUsed = .ok (entries, final) := by
    rw [plan, hsearched]
    exact htrim
  obtain rfl : results.entries = entries := flushFiles_entries hfinish
  have hrun : (Trim.run (Analysis.pairProject defaults index) { write := true } { name } smallNow
      report).run (idleDisk extra) = (.ok results, later) :=
    run_bind_eq_ok_iff.2 ⟨(results.entries, final), _, congrArg (·, _) hplan, hfinish⟩
  rw [← Analysis.run_pairProject defaults] at hreport
  exact ⟨_, report, final, results, later, hload index hindex, hreport, hsearched, hplan, hrun, rfl,
    hcheck⟩

theorem run_discloses_idle : ∃ project report results later final,
    Project.load (idleDisk []) smallRoot pairOptions = .ok project ∧
    Analysis.run project smallNow = .ok report ∧
    (Trim.run project { write := true } { name := "one" } smallNow report).run (idleDisk []) =
      (.ok results, later) ∧
    results.written = ["src/parts.ts"] ∧
    plan project (idleDisk []) { write := true } { name := "one" } report.partlyUsed =
      .ok (results.entries, final) ∧
    Discloses project "one" final results (idleDisk []) later := by
  obtain ⟨project, report, -, results, later, hload, hreport, -, -, hrun, hroot, hcheck⟩ :=
    exists_idle [] "one" bare_idle
      (fun _ _ results _ => decide (results.written = ["src/parts.ts"] ∧
        results.backups = [("src/parts.ts", ".orphanprune/backups/one/src/parts.ts")]))
      (by decide +kernel)
  obtain ⟨hwritten, hbackups⟩ := of_decide_eq_true hcheck
  have hplain : (idleDisk []).PlainBelow project.root.parts := by
    rw [hroot]
    decide +kernel
  have hfree : ∀ pair ∈ results.backups,
      (idleDisk []).at? (placeOf project.root pair.2) ≠ some .directory := by
    rw [hbackups, hroot]
    decide +kernel
  obtain ⟨final, hplan, hdiscloses⟩ :=
    run_discloses hload hreport hplain ⟨by decide, by decide⟩ hrun hfree
  exact ⟨project, report, results, later, final, hload, hreport, hrun, hwritten, hplan, hdiscloses⟩

/-- Directories down to where the snapshot is to be. -/
def shelfDirectories : List (Place × Node) :=
  [[".orphanprune"], [".orphanprune", "backups"], [".orphanprune", "backups", "one"],
    [".orphanprune", "backups", "one", "src"],
    [".orphanprune", "backups", "one", "src", "parts.ts"]].map fun place => (place, .directory)

/-- If a directory stands where a snapshot is to be, the file is copied into it: the results name
the directory, and the file that is new is not disclosed. -/
theorem snapshot_into_directory : ∃ project report results later,
    Project.load (idleDisk shelfDirectories) smallRoot pairOptions = .ok project ∧
    Analysis.run project smallNow = .ok report ∧
    (Trim.run project { write := true } { name := "one" } smallNow report).run
      (idleDisk shelfDirectories) = (.ok results, later) ∧
    results.backups = [("src/parts.ts", ".orphanprune/backups/one/src/parts.ts")] ∧
    later.at? (placeOf project.root ".orphanprune/backups/one/src/parts.ts") = some .directory ∧
    later.at? (placeOf project.root ".orphanprune/backups/one/src/parts.ts/parts.ts") =
      (idleDisk shelfDirectories).at? ["src", "parts.ts"] := by
  have hbare : Bare (idleDisk shelfDirectories) idlePaths idlePaths :=
    ⟨by decide +kernel, rfl, rfl, fun _ => rfl, by decide +kernel, by decide, by decide⟩
  obtain ⟨project, report, -, results, later, hload, hreport, -, -, hrun, hroot, hcheck⟩ :=
    exists_idle shelfDirectories "one" hbare
      (fun _ _ results later => decide (
        results.backups = [("src/parts.ts", ".orphanprune/backups/one/src/parts.ts")] ∧
        later.at? (placeOf smallRoot ".orphanprune/backups/one/src/parts.ts") = some .directory ∧
        later.at? (placeOf smallRoot ".orphanprune/backups/one/src/parts.ts/parts.ts") =
          (idleDisk shelfDirectories).at? ["src", "parts.ts"]))
      (by decide +kernel)
  obtain ⟨hbackups, hdirectory, hcopy⟩ := of_decide_eq_true hcheck
  rw [← hroot] at hdirectory hcopy
  exact ⟨project, report, results, later, hload, hreport, hrun, hbackups, hdirectory, hcopy⟩

end Trim

end Deadwood

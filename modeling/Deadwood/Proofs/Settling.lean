import Deadwood.Proofs.Disclosing

/-!
# Trimmed names stay unused

A run counts a name in the texts as they are when its turn comes, and no later edit brings the name
back (`plan_spec`). What the run writes could still do so: a snapshot holds the names as they were.
But no candidate is read where the snapshots of a run are kept, since a walk does not enter the
directory of the program's own results (`Walk.Finds.not_spells`), and a file that is written has the
text that was counted. So the names are unused on the disk that the run leaves
(`trimmed_names_stay_unused`). For this the name of the run has to be one segment: a name with `..`
leads the snapshots back among the candidates (`snapshot_brings_name_back`).
-/

set_option autoImplicit false

namespace Deadwood

open List Relative

/-- A walk finds nothing below a directory that it leaves out. -/
theorem Walk.Finds.not_spells {walk : Walk} {disk : Disk} {base : Place} {path first : String}
    {names : List String} (h : walk.Finds disk base path base) (hplain : disk.PlainBelow base)
    (hout : walk.excluder.leavesOutDirectory first = true) (hne : names ≠ []) :
    ¬ Spells (first :: names) path := by
  intro hspells
  have hbase : base = base ++ [] := (append_nil base).symm
  cases h with
  | file hmem hfound =>
    have hfile := spells_of_candidate? hplain hmem hbase (by simp) hfound
    have hnames := hspells.segments_eq.symm.trans hfile.segments_eq
    exact hne (cons.inj hnames).2
  | deeper hmem hentered hfinds =>
    obtain ⟨more, -, hmore, -⟩ :=
      hfinds.exists_way hplain rfl (isPlain_of_mem_children hplain hmem hbase)
    obtain ⟨rfl, -⟩ := cons.inj (hspells.segments_eq.symm.trans hmore.segments_eq)
    have hhere : pathOf base base = "" := by
      conv => enter [1, 2]; rw [hbase]
      exact pathOf_append base (by simp)
    rw [hhere, Relative.child, if_pos (by decide), hout] at hentered
    cases hentered

/-- The directory of the program's own results is left out of every project. -/
theorem Ignore.Excluder.leavesOut_home {disk : Disk} {root : Path} {everything : Bool}
    {extra : List Value} {excluder : Excluder}
    (h : load disk root everything extra = .ok excluder) :
    excluder.leavesOutDirectory ".orphanprune" = true := by
  have hhome : (patternsOf (defaultLines.map .text)).toOption.any
      (excludesAnywhere · ".orphanprune/") = true := by decide +kernel
  rw [(patterns_of_load h).1] at hhome
  exact Bool.or_eq_true_iff.2 (.inl hhome)

namespace Trim

variable {root : Path} {disk later : Disk} {session final : Session} {options : Options}
  {project : Project}

/-! ## What a run that writes leaves as it is -/

section

variable {names others : List String} {file : String} {bytes : List UInt8}
  (hroot : root.IsResolved)
include hroot

/-- A snapshot leaves every file outside the directory of the program's own results where it is. -/
theorem reachesFile_of_snapshot {run snap : String} (hrun : IsSegment run)
    (hothers : Spells others file) (hout : ∀ rest, rest ≠ [] → names ≠ ".orphanprune" :: rest)
    (hreaches : disk.ReachesFile (root.parts ++ names) bytes)
    (h : (snapshot root run file).run disk = (.ok snap, later)) :
    later.ReachesFile (root.parts ++ names) bytes := by
  rcases snapshot_cases hroot hrun hothers h with ⟨_, herror, -⟩ | ⟨-, hshelves⟩
  · cases herror
  refine ⟨fun front hfront hne => hshelves.at?_directory (hreaches.directory front hfront hne),
    (hshelves.stays fun hbelow => ?_).at?_eq hreaches.isFile⟩
  rw [shelfOf, placeOf, (spells_snapshotPath hrun hothers).child_eq,
    prefix_append_right_inj] at hbelow
  obtain ⟨rest, rfl⟩ := hbelow
  exact hout _ (by simp) rfl

/-- Writing one file leaves the others where they are. -/
theorem reachesFile_of_write {written : List UInt8} (hothers : Spells others file)
    (hne : others ≠ names) (hreaches : disk.ReachesFile (root.parts ++ names) bytes)
    (h : disk.write (root.child file) written = .ok later) :
    later.ReachesFile (root.parts ++ names) bytes := by
  obtain ⟨place, hlocate, hfree, rfl⟩ := Disk.write_eq_ok h
  obtain rfl := Disk.eq_parts_of_locate (isResolved_child hroot hothers) hlocate
  refine ⟨fun front hfront hnot =>
    Disk.at?_put_directory hfree _ (hreaches.directory front hfront hnot),
    (Disk.stays_put hfree _ fun heq => hne ?_).at?_eq hreaches.isFile⟩
  rw [hothers.child_eq] at heq
  exact (append_cancel_left heq).symm

end

/-- The texts that a plan works on are those of the session and some of the files that are to be
trimmed, and the name of the run stays. -/
theorem working_of_plan {targets : List (Record String)} {entries : List (Entry String)}
    (h : plan project disk options session targets = .ok (entries, final)) :
    final.name = session.name ∧
      session.working.map Prod.fst ⊆ final.working.map Prod.fst ∧
      final.working.map Prod.fst ⊆ session.working.map Prod.fst ++ targets.map Record.path := by
  refine plan_induction (fun _ s => s.name = session.name ∧
    session.working.map Prod.fst ⊆ s.working.map Prod.fst ∧
    s.working.map Prod.fst ⊆ session.working.map Prod.fst ++ targets.map Record.path)
    (fun hdone _ => hdone) ?_ ⟨rfl, Subset.refl _, subset_append_left _ _⟩ h
  rintro s s' record name entry done hrecord - ⟨hname, hlower, hupper⟩ hstep
  rcases trimName_cases hstep with ⟨-, rfl⟩ | ⟨-, -, -, -, -, _, _, _, _, -, -, -, rfl⟩
  · exact ⟨hname, hlower, hupper⟩
  · refine ⟨hname, fun file hfile => Keyed.mem_keys_put.2 (.inl (hlower hfile)),
      fun file hfile => ?_⟩
    rcases Keyed.mem_keys_put.1 hfile with hfile | rfl
    · exact hupper hfile
    · exact mem_append_right _ (mem_map_of_mem hrecord)

/-- What keeps the snapshots of a run apart from the candidates: there is one node at each place of
the disk, the names below the root are plain, the name of the run is one segment if snapshots are
taken, and the files of the session and of the report are spelled by names. -/
structure Orderly (project : Project) (disk : Disk) (options : Options) (session : Session)
    (report : Report String) : Prop where
  nodup : (disk.nodes.map Prod.fst).Nodup
  plain : disk.PlainBelow project.root.parts
  segment : options.backup → IsSegment session.name
  spelled : ∀ file ∈ session.working.map Prod.fst ++ report.partlyUsed.map Record.path,
    ∃ names, Spells names file

section

variable {disk₀ : Disk} {directory : Path} {opening : OpenOptions} {report : Report String}
  {entries : List (Entry String)} {searched : List String}

/-- A file that is searched and was not worked on is read after the run as before. -/
theorem Orderly.readText_eq {ν : Type} {results results' : Results ν} {paths : List String}
    {path : String} (h : Orderly project disk options session report)
    (hload : Project.load disk₀ directory opening = .ok project)
    (hplan : plan project disk options session report.partlyUsed = .ok (entries, final))
    (hpaths : project.walk.paths disk = .ok paths) (hpath : path ∈ paths)
    (hfresh : path ∉ final.working.map Prod.fst)
    (hflush : (flush project.root options final results).run disk = (.ok results', later)) :
    later.readText (project.root.child path) = disk.readText (project.root.child path) := by
  obtain ⟨hresolved, -, -, -, -, _, _, _, _, _, _, -, -, -, hexcluder, -, -, hwalk, -⟩ :=
    Project.load_eq_ok_iff.1 hload
  have hroot : project.root.IsResolved := Path.isResolved_of_resolved hresolved
  have hwalkRoot : project.walk.root = project.root := by rw [hwalk]
  have hstart : project.walk.start = "" := by rw [hwalk]
  obtain ⟨names, bytes, hspells, hreaches⟩ := Walk.reachesFile_of_mem_paths hstart
    (hwalkRoot ▸ hroot) (hwalkRoot ▸ h.plain) h.nodup hpaths hpath
  obtain ⟨-, -, hfinds⟩ := (Walk.mem_paths_iff hstart (hwalkRoot ▸ hroot) hpaths).1 hpath
  rw [hwalkRoot] at hreaches hfinds
  obtain ⟨hname, -, hworking⟩ := working_of_plan hplan
  have hspelled : ∀ pair ∈ final.working.mergeSort (fun a b => a.1 ≤ b.1),
      pair.1 ≠ path ∧ ∃ others, Spells others pair.1 := by
    intro pair hpair
    have hkey : pair.1 ∈ final.working.map Prod.fst := mem_map_of_mem (mem_mergeSort.1 hpair)
    exact ⟨fun heq => hfresh (heq ▸ hkey), h.spelled _ (hworking hkey)⟩
  -- the file is neither written nor a snapshot
  have hlater : later.ReachesFile (project.root.parts ++ names) bytes := by
    refine flushFiles_induction (fun _ d => d.ReachesFile (project.root.parts ++ names) bytes) ?_ ?_
      hreaches hflush
    · rintro - d d' pair snap hpair hbackup hd hsnapshot
      obtain ⟨-, others, hothers⟩ := hspelled pair hpair
      refine reachesFile_of_snapshot hroot (hname ▸ h.segment hbackup) hothers ?_ hd hsnapshot
      rintro rest hrest rfl
      exact hfinds.not_spells h.plain (Ignore.Excluder.leavesOut_home hexcluder) hrest hspells
    · rintro - d d' bytes pair - - hpair hd hwrite
      obtain ⟨hother, others, hothers⟩ := hspelled pair hpair
      refine reachesFile_of_write hroot hothers ?_ hd hwrite
      rintro rfl
      exact hother (by rw [hothers.path_eq, hspells.path_eq])
  exact hreaches.readText_eq hlater (isResolved_child hroot hspells) (by rw [hspells.child_eq])

/-- The texts of a session on the disk that a run leaves are those on the disk as it was, as far as
they are searched. -/
theorem Orderly.textOf_eq {ν : Type} {results results' : Results ν} {path : String}
    (h : Orderly project disk options session report)
    (hload : Project.load disk₀ directory opening = .ok project)
    (hplan : plan project disk options session report.partlyUsed = .ok (entries, final))
    (hsearched : session.searched project disk = .ok searched) (hpath : path ∈ searched)
    (hflush : (flush project.root options final results).run disk = (.ok results', later)) :
    final.textOf later project.root path = final.textOf disk project.root path := by
  simp only [Session.textOf, Session.read]
  cases hlookup : final.working.lookup path with
  | some text => rfl
  | none =>
    -- only what the session does not hold is read from the disk
    have hfresh : path ∉ final.working.map Prod.fst := by
      intro hmem
      obtain ⟨pair, hpair, rfl⟩ := mem_map.1 hmem
      exact absurd (lookup_eq_none_iff.1 hlookup pair hpair) (by simp)
    obtain ⟨paths, hpaths, hall⟩ := bind_eq_ok_iff.1 hsearched
    cases hall
    have hmem : path ∈ paths := by
      rcases mem_append.1 (mem_mergeSort.1 (mem_eraseDups.1 hpath)) with hmem | hmem
      · exact hmem
      · exact absurd ((working_of_plan hplan).2.1 hmem) hfresh
    simp only [h.readText_eq hload hplan hpaths hmem hfresh hflush]

/-- At the end of a run that removes no declarations, every name that was taken out of a file is
used in none of the files that are searched, the file and the suppliers of the name apart. This
holds of the texts on the disk that the run leaves, whether it writes or not. -/
theorem trimmed_names_stay_unused {now : Stamp} {results : Results String}
    (hload : Project.load disk₀ directory opening = .ok project) (hmode : options.mode = .strip)
    (horderly : options.write → Orderly project disk options session report)
    (hrun : (run project options session now report).run disk = (.ok results, later)) :
    ∃ final, plan project disk options session report.partlyUsed = .ok (results.entries, final) ∧
      ∀ entry ∈ results.entries, entry.outcome ≠ .skipped → Module.isName entry.name.toList = true →
        ∃ searched, session.searched project disk = .ok searched ∧
          Reference.countIn entry.name entry.file
            (((project.index.suppliers entry.file).lookup entry.name).getD [])
            (final.textOf later project.root) searched = 0 := by
  obtain ⟨⟨entries, final⟩, middle, hlook, hfinish⟩ := run_bind_eq_ok_iff.1 hrun
  obtain ⟨hplan, rfl⟩ := Prod.mk.inj hlook
  simp only [finish] at hfinish
  split at hfinish
  · rename_i hwrite
    obtain rfl : results.entries = entries := flushFiles_entries hfinish
    refine ⟨final, hplan, fun entry hentry houtcome hname => ?_⟩
    obtain ⟨searched, hsearched, hunused⟩ :=
      (plan_spec hmode hplan).2 entry hentry houtcome hname
    refine ⟨searched, hsearched, ?_⟩
    -- the name was counted before anything was written, in texts that read the same afterwards
    rw [← hunused]
    exact Reference.countIn_congr fun path hpath =>
      (horderly hwrite).textOf_eq hload hplan hsearched hpath hfinish
  · -- a run that does not write leaves the disk as it is
    obtain ⟨hresults, rfl⟩ := Prod.mk.inj hfinish
    cases hresults
    exact ⟨final, hplan, (plan_spec hmode hplan).2⟩

end

/-! ## A run that writes -/

open Analysis

theorem trimmed_names_stay_unused_idle : ∃ project report results later final,
    Project.load (idleDisk []) smallRoot pairOptions = .ok project ∧
    (Trim.run project { write := true } { name := "one" } smallNow report).run (idleDisk []) =
      (.ok results, later) ∧
    plan project (idleDisk []) { write := true } { name := "one" } report.partlyUsed =
      .ok (results.entries, final) ∧
    results.written = ["src/parts.ts"] ∧
    ∃ entry ∈ results.entries, entry.file = "src/parts.ts" ∧ entry.name = "idle" ∧
      entry.outcome = .applied ∧
      Reference.countIn "idle" "src/parts.ts"
        (((project.index.suppliers "src/parts.ts").lookup "idle").getD [])
        (final.textOf later project.root) idlePaths = 0 := by
  obtain ⟨project, report, -, results, later, hload, hreport, hsearched, -, hrun, hroot, hcheck⟩ :=
    exists_idle [] "one" bare_idle
      (fun _ _ results _ => decide (results.written = ["src/parts.ts"] ∧
        ∃ entry ∈ results.entries, entry.file = "src/parts.ts" ∧ entry.name = "idle" ∧
          entry.outcome = .applied)) (by decide +kernel)
  obtain ⟨hwritten, entry, hentry, hfile, hname, houtcome⟩ := of_decide_eq_true hcheck
  have hplain : (idleDisk []).PlainBelow project.root.parts := by
    rw [hroot]
    decide +kernel
  have horderly : Orderly project (idleDisk []) { write := true } { name := "one" } report := by
    refine ⟨by decide +kernel, hplain, fun _ => ⟨by decide, by decide⟩, forall_mem_map.2 ?_⟩
    intro record hrecord
    obtain ⟨names, hspells, -⟩ := spells_of_run hload hplain hreport (mem_of_mem_filter hrecord)
    exact ⟨names, hspells⟩
  obtain ⟨final, hplan, hunused⟩ := trimmed_names_stay_unused hload rfl (fun _ => horderly) hrun
  obtain ⟨searched, hsame, hcount⟩ := hunused entry hentry (by rw [houtcome]; decide)
    (by rw [hname]; decide)
  obtain rfl := Except.ok.inj (hsearched.symm.trans hsame)
  rw [hfile, hname] at hcount
  exact ⟨project, report, results, later, final, hload, hrun, hplan, hwritten, entry, hentry, hfile,
    hname, houtcome, hcount⟩

/-- An empty module, in the place to which the name of a run with `..` leads a snapshot. -/
def emptyModule : List (Place × Node) :=
  [(["lib"], .directory), (["lib", "src"], .directory), (["lib", "src", "parts.ts"], .file [])]

/-- If the name of the run leads back into the project, a snapshot takes the place of a file that is
searched, and with it the name that was taken out is used again. -/
theorem snapshot_brings_name_back : ∃ project report results later final searched,
    Project.load (idleDisk emptyModule) smallRoot pairOptions = .ok project ∧
    Analysis.run project smallNow = .ok report ∧
    (Trim.run project { write := true } { name := "../../lib" } smallNow report).run
      (idleDisk emptyModule) = (.ok results, later) ∧
    plan project (idleDisk emptyModule) { write := true } { name := "../../lib" }
      report.partlyUsed = .ok (results.entries, final) ∧
    Session.searched { name := "../../lib" } project (idleDisk emptyModule) = .ok searched ∧
    ∃ entry ∈ results.entries, entry.outcome = .applied ∧
      Module.isName entry.name.toList = true ∧
      0 < Reference.countIn entry.name entry.file
        (((project.index.suppliers entry.file).lookup entry.name).getD [])
        (final.textOf later project.root) searched := by
  have hbare : Bare (idleDisk emptyModule) ("lib/src/parts.ts" :: idlePaths)
      ("lib/src/parts.ts" :: idlePaths) :=
    ⟨by decide +kernel, rfl, rfl, fun _ => rfl, by decide +kernel, by decide, by decide⟩
  obtain ⟨project, report, final, results, later, hload, hreport, hsearched, hplan, hrun, hroot,
      hcheck⟩ :=
    exists_idle emptyModule "../../lib" hbare
      (fun index final results later => decide (∃ entry ∈ results.entries,
        entry.outcome = .applied ∧ Module.isName entry.name.toList = true ∧
        0 < Reference.countIn entry.name entry.file
          (((index.suppliers entry.file).lookup entry.name).getD [])
          (final.textOf later smallRoot) ("lib/src/parts.ts" :: idlePaths)))
      (by decide +kernel)
  have hused := of_decide_eq_true hcheck
  rw [← hroot] at hused
  exact ⟨project, report, results, later, final, _, hload, hreport, hrun, hplan, hsearched, hused⟩

end Trim

end Deadwood

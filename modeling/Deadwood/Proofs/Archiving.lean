import Deadwood.Proofs.Disclosing

/-!
# Snapshots over several runs

A run keeps its snapshots under its name. What one run can do to the disk is said for every outcome,
since a run that fails has changed the disk up to where it failed (`Stops`): the files it has
written hold their texts, their snapshots what they held before (`Writes.kept`), and everything else
stays (`Turn.stays`). A later run therefore gets at a snapshot only if it has the same name and
writes the same file once more. As long as that does not happen, a snapshot outlives all runs that
follow (`snapshot_outlives_later_runs`). It does happen: a session that is used again writes all
files that it has ever changed, and so puts its own work in the place of the originals
(`reused_session_loses_original`).
-/

set_option autoImplicit false

namespace Deadwood

open List

namespace Trim

open Relative

variable {root : Path} {run file other : String} {names others : List String}
  {disk shelved middle later : Disk} {place : Place} {files : List (String × List Char)}

/-! ## Snapshots lie apart -/

/-- The snapshots of two runs are kept in two directories. -/
theorem run_eq_of_below {run' : String} (hrun : IsSegment run) (hrun' : IsSegment run')
    (hfile : Spells names file) (hother : Spells others other)
    (hplace : shelfOf root run file <+: place) (hplace' : shelfOf root run' other <+: place) :
    run = run' := by
  have habove : ∀ {run file names}, IsSegment run → Spells names file →
      root.parts ++ [".orphanprune", "backups", run] <+: shelfOf root run file := by
    intro run file names hrun hfile
    rw [shelfOf_eq hrun hfile, prefix_append_right_inj]
    exact prefix_append [".orphanprune", "backups", run] names
  have hleads := prefix_of_prefix_length_le ((habove hrun hfile).trans hplace)
    ((habove hrun' hother).trans hplace') (by simp)
  simpa using hleads

/-! ## One run, whatever its outcome -/

/-- What a file held on an earlier disk is held by its snapshot, which lies in its place, or below
it where a directory stood in its place. -/
def Kept (root : Path) (run file : String) (before later : Disk) : Prop :=
  ∃ bytes place, before.at? (placeOf root file) = some (.file bytes) ∧
    shelfOf root run file <+: place ∧ later.at? place = some (.file bytes)

theorem Kept.stays (h : Kept root run file disk middle)
    (hstays : ∀ place, shelfOf root run file <+: place → middle.Stays later place) :
    Kept root run file disk later := by
  obtain ⟨bytes, place, hbytes, hplace, hkept⟩ := h
  exact ⟨bytes, place, hbytes, hplace, (hstays place hplace).at?_eq hkept⟩

section

variable (h : Shelves root run file disk shelved)
include h

theorem Shelves.kept (hroot : root.IsResolved) (hspells : Spells names file) :
    Kept root run file disk shelved := by
  cases h with
  | @intro opened bytes place hopens hread hfree heq hbelow =>
    obtain ⟨-, hbytes⟩ := Disk.read_eq_ok (isResolved_child hroot hspells) hread
    refine ⟨bytes, place, (hopens.stays _).at?_before hbytes, hbelow, ?_⟩
    rw [Disk.at?_put_of_free hfree, if_pos rfl]

end

variable {pair : String × List Char} {done : List (String × List Char)}

/-- Every file that is written has its snapshot. -/
theorem Writes.kept (h : Writes root run disk files later) (hroot : root.IsResolved)
    (hrun : IsSegment run) (hnodup : (files.map Prod.fst).Nodup)
    (hwritable : ∀ pair ∈ files, ∃ names, Writable names pair.1) :
    ∀ pair ∈ files, Kept root run pair.1 disk later := by
  induction h with
  | nil disk => simp
  | @cons disk shelved later file text files hshelves hfree hrest ih =>
    obtain ⟨⟨names, hnames⟩, hothers⟩ := forall_mem_cons.1 hwritable
    rw [map_cons, nodup_cons] at hnodup
    have hne : ∀ pair ∈ files, pair.1 ≠ file := fun pair hpair heq =>
      hnodup.1 (mem_map.2 ⟨pair, hpair, heq⟩)
    refine forall_mem_cons.2 ⟨?_, fun pair hpair => ?_⟩
    · -- neither the file itself nor those that follow get at the snapshot
      refine (hshelves.kept hroot hnames.toSpells).stays fun place hplace => ?_
      refine (Disk.stays_put hfree _ ?_).trans (hrest.stays fun pair hpair => ?_)
      · exact ne_placeOf_of_below hrun hnames hnames.toSpells hplace
      · obtain ⟨others, hother⟩ := hothers pair hpair
        have hapart := Writes.apart hshelves hfree hrest hroot hnames.toSpells hother.toSpells hpair
          (hne pair hpair)
        exact ⟨ne_placeOf_of_below hrun hother hnames.toSpells hplace,
          hapart.not_below hrun hnames.toSpells hother.toSpells hplace⟩
    · obtain ⟨bytes, place, hbytes, hplace⟩ := ih hnodup.2 hothers pair hpair
      obtain ⟨others, hother⟩ := hothers pair hpair
      have hstays := hshelves.stays_placeOf hfree (.file (Text.Utf8.encode text)) hrun
        hnames.toSpells hother (hne pair hpair)
      exact ⟨bytes, place, hstays.at?_before hbytes, hplace⟩

theorem Stops.stays (h : Stops root run disk files later)
    (hplace : ∀ pair ∈ files, ¬ shelfOf root run pair.1 <+: place) : disk.Stays later place := by
  cases h with
  | here => exact .inl rfl
  | opened hopens => exact hopens.stays place
  | shelved hshelves => exact hshelves.stays (forall_mem_cons.1 hplace).1

theorem Writes.append (h : Writes root run disk done middle)
    (h' : Writes root run middle files later) : Writes root run disk (done ++ files) later := by
  induction h with
  | nil disk => exact h'
  | cons hshelves hfree hrest ih => exact .cons hshelves hfree (ih h')

/-- The files that were written before a failure have their snapshots, too. -/
theorem Writes.kept_of_stops {rest : List (String × List Char)}
    (h : Writes root run disk done middle) (hstops : Stops root run middle rest later)
    (hroot : root.IsResolved) (hrun : IsSegment run) (hnodup : ((done ++ rest).map Prod.fst).Nodup)
    (hwritable : ∀ pair ∈ done ++ rest, ∃ names, Writable names pair.1) :
    ∀ pair ∈ done, Kept root run pair.1 disk later := by
  have hkept := h.kept hroot hrun (hnodup.sublist ((sublist_append_left done rest).map _))
    fun pair hpair => hwritable pair (mem_append_left rest hpair)
  intro pair hpair
  cases hstops with
  | here => exact hkept pair hpair
  | opened hopens => exact (hkept pair hpair).stays fun place _ => hopens.stays place
  | @shelved file text files later hshelves =>
    -- the snapshot is in the way of the others no more than if the file had been written as well
    obtain ⟨names, hnames⟩ := hwritable (file, text) (by simp)
    obtain ⟨held, -, hheld, -⟩ := hshelves.kept hroot hnames.toSpells
    obtain ⟨bytes, hbytes⟩ := hshelves.holdsFile ⟨held, hheld⟩
    have hfree : later.at? (placeOf root file) ≠ some .directory := by
      rw [hbytes]
      simp
    have hfront : (done ++ [(file, text)]).Sublist (done ++ (file, text) :: files) := by simp
    obtain ⟨bytes, place, hbytes, hplace, hat⟩ :=
      (h.append (.cons hshelves hfree (.nil _))).kept hroot hrun (hnodup.sublist (hfront.map _))
        (fun pair hpair => hwritable pair (hfront.subset hpair)) pair
        (mem_append_left [(file, text)] hpair)
    obtain ⟨others, hothers⟩ := hwritable pair (mem_append_left ((file, text) :: files) hpair)
    have hne := ne_placeOf_of_below hrun hnames hothers.toSpells hplace
    exact ⟨bytes, place, hbytes, hplace, (Disk.stays_put hfree _ hne).at?_before hat⟩

/-! ## Sessions -/

/-- Every path of a file to be trimmed is spelled by plain names. -/
def PlainTargets (report : Report String) : Prop :=
  ∀ record ∈ report.partlyUsed, ∃ names, Spells names record.path ∧ ∀ name ∈ names, IsPlain name

/-- A session has this name and has worked on files that may be written, each of them once. -/
structure Session.Ready (name : String) (session : Session) : Prop where
  name_eq : session.name = name
  nodup : (session.working.map Prod.fst).Nodup
  writable : ∀ file ∈ session.working.map Prod.fst, ∃ names, Writable names file

section Ready

variable {project : Project} {options : Options} {paths : Except Failure (List String)}
  {session next final : Session} {name : String}

theorem Session.Ready.trimName {exported : String} {entry : Entry String}
    (h : session.Ready name) (hfile : Writable names file)
    (hstep : trimName project disk options paths file session exported = .ok (entry, next)) :
    next.Ready name := by
  rcases trimName_cases hstep with ⟨-, rfl⟩ | ⟨-, -, -, -, -, _, _, _, _, -, -, -, rfl⟩
  · exact h
  · refine ⟨h.name_eq, Keyed.nodup_keys_put h.nodup, fun other hother => ?_⟩
    rcases Keyed.mem_keys_put.1 hother with hother | rfl
    · exact h.writable other hother
    · exact ⟨names, hfile⟩

theorem Session.Ready.plan {report : Report String} {entries : List (Entry String)}
    (h : session.Ready name) (hreport : PlainTargets report)
    (hplan : plan project disk options session report.partlyUsed = .ok (entries, final)) :
    final.Ready name := by
  refine plan_induction (fun _ s => s.Ready name) (fun hready _ => hready) ?_ h hplan
  intro s s' record exported entry done hrecord hprotected hready hstep
  obtain ⟨names, hspells, hplain⟩ := hreport record hrecord
  exact hready.trimName (writable_of_isPlain hspells hplain hprotected) hstep

/-- The sessions that runs leave behind, from a new one on. -/
inductive Session.Reached : Session → Prop
  | fresh {name : String} (isSegment : IsSegment name) : Session.Reached { name }
  | planned {project : Project} {disk : Disk} {options : Options} {session final : Session}
      {report : Report String} {entries : List (Entry String)} (reached : session.Reached)
      (plain : PlainTargets report)
      (plan_eq : plan project disk options session report.partlyUsed = .ok (entries, final)) :
      final.Reached

theorem Session.Reached.ready (h : session.Reached) :
    IsSegment session.name ∧ session.Ready session.name := by
  induction h with
  | fresh hname => exact ⟨hname, rfl, nodup_nil, by simp⟩
  | planned hreached hplain hplan ih =>
    have hready := ih.2.plan hplain hplan
    rw [hready.name_eq]
    exact ⟨ih.1, hready⟩

end Ready

/-! ## Runs in a row -/

/-- A run that writes and takes snapshots, on a session that is new or was used before. -/
structure Turn (root : Path) where
  project : Project
  mode : Mode
  session : Session
  now : Stamp
  report : Report String
  before : Disk
  entries : List (Entry String)
  /-- The session as it is left. -/
  final : Session
  outcome : Except Failure (Results String)
  after : Disk
  root_eq : project.root = root
  reached : session.Reached
  plain : PlainTargets report
  plan_eq : plan project before { write := true, mode, backup := true } session report.partlyUsed =
    .ok (entries, final)
  run_eq : (Trim.run project { write := true, mode, backup := true } session now report).run
    before = (outcome, after)

namespace Turn

variable (turn : Turn root)

/-- The files that a run sets out to write. -/
def targets : List String := turn.final.pending.map Prod.fst

/-- The files that a run has written: those that its results name, or, if it has failed, those that
hold what they did not hold before. -/
def Wrote (file : String) : Prop :=
  match turn.outcome with
  | .ok results => file ∈ results.written
  | .error _ => file ∈ turn.targets ∧ ∃ bytes, turn.after.at? (placeOf root file) =
      some (.file bytes) ∧ turn.before.at? (placeOf root file) ≠ some (.file bytes)

variable {turn}

theorem isSegment : IsSegment turn.session.name := turn.reached.ready.1

theorem ready : turn.final.Ready turn.session.name :=
  turn.reached.ready.2.plan turn.plain turn.plan_eq

theorem exists_writable {pair : String × List Char} (h : pair ∈ turn.final.pending) :
    ∃ names, Writable names pair.1 :=
  turn.ready.writable pair.1 (mem_keys_of_pending turn.ready.nodup h)

/-- A run works through the files that it sets out to write, to the end or to where it fails. -/
theorem exists_writes (turn : Turn root) (hroot : root.IsResolved) :
    ∃ done rest middle, turn.final.pending = done ++ rest ∧
      Writes root turn.session.name turn.before done middle ∧
      Stops root turn.session.name middle rest turn.after ∧
      ∀ results, turn.outcome = .ok results → rest = [] ∧ results.written = done.map Prod.fst := by
  obtain ⟨project, mode, session, now, report, before, entries, final, outcome, after, rfl, reached,
    plain, plan_eq, run_eq⟩ := turn
  have hready : final.Ready session.name := reached.ready.2.plan plain plan_eq
  have hspells : ∀ pair ∈ final.working.mergeSort (fun a b => a.1 ≤ b.1),
      ∃ names, Spells names pair.1 := by
    intro pair hpair
    obtain ⟨names, hnames⟩ := hready.writable pair.1
      (mem_map_of_mem (mem_mergeSort.1 hpair))
    exact ⟨names, hnames.toSpells⟩
  have hflush : (flush project.root { write := true, mode, backup := true } final
      { metadata := metadata project { write := true, mode, backup := true } final now,
        entries }).run before = (outcome, after) := by
    rw [← run_eq, Trim.run, run_bind]
    simp only [Act.run, Act.look, ExceptT.mk, plan_eq]
    rfl
  have hrun : IsSegment final.name := hready.name_eq ▸ reached.ready.1
  rw [← hready.name_eq]
  obtain ⟨done, rest, middle, heq, hwrites, hstops, hok⟩ :=
    exists_writes_of_flushFiles hroot hrun rfl hspells hflush
  refine ⟨done, rest, middle, heq, hwrites, hstops, fun results hresults => ?_⟩
  obtain ⟨hrest, hwritten, -⟩ := hok results hresults
  exact ⟨hrest, hwritten.trans (nil_append _)⟩

/-- A run touches only the files that it sets out to write and what lies at or below the places of
their snapshots. -/
theorem stays (turn : Turn root) (hroot : root.IsResolved) (hplace : ∀ file ∈ turn.targets,
      place ≠ placeOf root file ∧ ¬ shelfOf root turn.session.name file <+: place) :
    turn.before.Stays turn.after place := by
  obtain ⟨done, rest, middle, heq, hwrites, hstops, -⟩ := turn.exists_writes hroot
  rw [targets, heq, map_append, forall_mem_append, forall_mem_map,
    forall_mem_map] at hplace
  exact (hwrites.stays hplace.1).trans (hstops.stays fun pair hpair => (hplace.2 pair hpair).2)

/-- A file that a run has written is one of those that were done when the run ended. -/
theorem Wrote.mem_done {done rest : List (String × List Char)} (h : turn.Wrote file)
    (heq : turn.final.pending = done ++ rest)
    (hwrites : Writes root turn.session.name turn.before done middle)
    (hstops : Stops root turn.session.name middle rest turn.after)
    (hok : ∀ results, turn.outcome = .ok results →
      rest = [] ∧ results.written = done.map Prod.fst) : file ∈ done.map Prod.fst := by
  unfold Wrote at h
  split at h
  · rename_i results hresults
    rwa [(hok results hresults).2] at h
  · obtain ⟨hmem, bytes, hafter, hbefore⟩ := h
    have hmem' : ∃ pair ∈ turn.final.pending, pair.1 = file := mem_map.1 hmem
    obtain ⟨pair, hpair, rfl⟩ := hmem'
    obtain ⟨names, hnames⟩ := turn.exists_writable hpair
    by_contra hdone
    -- what is not done is where it was, so it holds nothing new
    have hbelow : ∀ other ∈ done ++ rest,
        ¬ shelfOf root turn.session.name other.1 <+: placeOf root pair.1 := by
      intro other hother hleads
      obtain ⟨others, hothers⟩ := turn.exists_writable (heq ▸ hother)
      exact ne_placeOf_of_below turn.isSegment hnames hothers.toSpells hleads rfl
    have hstays : turn.before.Stays turn.after (placeOf root pair.1) := by
      refine (hwrites.stays fun other hother => ⟨?_, ?_⟩).trans
        (hstops.stays fun other hother => ?_)
      · intro hsame
        obtain ⟨others, hothers⟩ := turn.exists_writable (heq ▸ mem_append_left rest hother)
        rw [eq_of_placeOf hnames.toSpells hothers.toSpells hsame] at hdone
        exact hdone (mem_map_of_mem hother)
      · exact hbelow other (mem_append_left rest hother)
      · exact hbelow other (mem_append_right done hother)
    exact hbefore (hstays.at?_before hafter)

/-- Every file that a run has written has its snapshot when the run ends. -/
theorem Wrote.kept (h : turn.Wrote file) (hroot : root.IsResolved) :
    ∃ names, Spells names file ∧ Kept root turn.session.name file turn.before turn.after := by
  obtain ⟨done, rest, middle, heq, hwrites, hstops, hok⟩ := turn.exists_writes hroot
  obtain ⟨pair, hpair, rfl⟩ := mem_map.1 (h.mem_done heq hwrites hstops hok)
  have hwritable : ∀ other ∈ done ++ rest, ∃ names, Writable names other.1 :=
    fun other hother => turn.exists_writable (heq ▸ hother)
  obtain ⟨names, hnames⟩ := hwritable pair (mem_append_left rest hpair)
  refine ⟨names, hnames.toSpells, ?_⟩
  exact hwrites.kept_of_stops hstops hroot turn.isSegment (heq ▸ nodup_pending turn.ready.nodup)
    hwritable pair hpair

/-- A run leaves alone what a run of another name has kept of a file, and so does a run of the same
name that only writes files apart from it. -/
theorem stays_below (turn : Turn root) (hroot : root.IsResolved) (hrun : IsSegment run)
    (hspells : Spells names file) (hplace : shelfOf root run file <+: place)
    (hapart : turn.session.name = run → ∀ other ∈ turn.targets, Apart root file other) :
    turn.before.Stays turn.after place := by
  refine turn.stays hroot fun other hother => ?_
  have hmem : ∃ pair ∈ turn.final.pending, pair.1 = other := mem_map.1 hother
  obtain ⟨pair, hpair, rfl⟩ := hmem
  obtain ⟨others, hothers⟩ := turn.exists_writable hpair
  refine ⟨ne_placeOf_of_below hrun hothers hspells hplace, fun hbelow => ?_⟩
  have hname := run_eq_of_below turn.isSegment hrun hothers.toSpells hspells hbelow hplace
  rw [hname] at hbelow
  exact (hapart hname pair.1 hother).not_below hrun hspells hothers.toSpells hplace hbelow

end Turn

/-- Runs one after the other. Between them the disk may change, but not where snapshots are kept. -/
inductive History (root : Path) : (disk : Disk) → (turns : List (Turn root)) → (last : Disk) → Prop
  | nil (disk : Disk) : History root disk [] disk
  | change {disk later last : Disk} {turns : List (Turn root)}
      (keeps : ∀ place, root.parts ++ [".orphanprune", "backups"] <+: place →
        later.at? place = disk.at? place)
      (rest : History root later turns last) : History root disk turns last
  | cons (turn : Turn root) {turns : List (Turn root)} {last : Disk}
      (rest : History root turn.after turns last) : History root turn.before (turn :: turns) last

section History

variable {last : Disk} {turn : Turn root} {turns earlier more : List (Turn root)}

/-- What follows on a run is a history of its own. -/
theorem History.after (h : History root disk (earlier ++ turn :: more) last) :
    History root turn.after more last := by
  generalize hturns : earlier ++ turn :: more = turns at h
  induction h generalizing earlier with
  | nil disk => simp at hturns
  | change hkeeps hrest ih => exact ih hturns
  | @cons first turns last hrest ih =>
    cases earlier with
    | nil =>
      obtain ⟨rfl, rfl⟩ := cons.inj hturns
      exact hrest
    | cons turn' earlier =>
      obtain ⟨rfl, rfl⟩ := cons.inj hturns
      exact ih rfl

/-- A snapshot stays what it is as long as no run of the same name writes the file again. -/
theorem History.stays_below (h : History root disk turns last) (hroot : root.IsResolved)
    (hrun : IsSegment run) (hspells : Spells names file)
    (hapart : ∀ turn ∈ turns, turn.session.name = run →
      ∀ other ∈ turn.targets, Apart root file other)
    (hplace : shelfOf root run file <+: place) : disk.Stays last place := by
  induction h with
  | nil disk => exact .inl rfl
  | change hkeeps hrest ih =>
    refine Disk.Stays.trans (.inl (hkeeps place (List.IsPrefix.trans ?_ hplace))) (ih hapart)
    rw [shelfOf_eq hrun hspells, prefix_append_right_inj]
    exact prefix_append [".orphanprune", "backups"] (run :: names)
  | @cons turn turns last hrest ih =>
    obtain ⟨hfirst, hothers⟩ := forall_mem_cons.1 hapart
    exact (turn.stays_below hroot hrun hspells hplace hfirst).trans (ih hothers)

/-- What a file held before a run has written it is held by its snapshot at the end of every
history, if no later run of the same name sets out to write the file again, nor one that lies above
or below it. In particular this holds of the first run that has written it. -/
theorem snapshot_outlives_later_runs (hroot : root.IsResolved)
    (history : History root disk (earlier ++ turn :: more) last) (hwrote : turn.Wrote file)
    (hapart : ∀ later ∈ more, later.session.name = turn.session.name →
      ∀ other ∈ later.targets, Apart root file other) :
    ∃ bytes place, turn.before.at? (placeOf root file) = some (.file bytes) ∧
      shelfOf root turn.session.name file <+: place ∧ last.at? place = some (.file bytes) := by
  obtain ⟨names, hspells, hkept⟩ := hwrote.kept hroot
  exact hkept.stays fun place hplace =>
    history.after.stays_below hroot turn.isSegment hspells hapart hplace

end History

/-! ## Two runs on one module -/

/-- A run whose plan is known is a turn. -/
def Turn.ofPlan {project : Project} {session final : Session} {report : Report String}
    {before : Disk} {entries : List (Entry String)} (reached : session.Reached)
    (plain : PlainTargets report)
    (plan_eq : plan project before { write := true } session report.partlyUsed =
      .ok (entries, final)) : Turn project.root where
  project := project
  mode := .strip
  session := session
  now := Analysis.smallNow
  report := report
  before := before
  entries := entries
  final := final
  outcome := ((Trim.run project { write := true } session Analysis.smallNow report).run before).1
  after := ((Trim.run project { write := true } session Analysis.smallNow report).run before).2
  root_eq := rfl
  reached := reached
  plain := plain
  plan_eq := plan_eq
  run_eq := rfl

theorem Turn.wrote_of_any {turn : Turn root}
    (h : turn.outcome.toOption.any (fun results => results.written.contains file) = true) :
    turn.Wrote file := by
  obtain ⟨results, hresults, hfile⟩ := exists_ok_of_any h
  rw [Turn.Wrote, hresults]
  exact contains_iff_mem.1 hfile

/-- A report by which only the other export is not used. -/
def spentReport : Report String where
  records := [{ path := "pair.ts", reasons := [.exportReferenced]
                exportRefs := [⟨"used", 0⟩, ⟨"idle", 1⟩] }]

theorem plainTargets_pair {report : Report String}
    (h : ∀ record ∈ report.partlyUsed, record.path = "pair.ts") : PlainTargets report := by
  intro record hrecord
  have hplain : IsPlain "pair.ts" := by decide
  refine ⟨["pair.ts"], ?_, by simpa using hplain⟩
  rw [h record hrecord]
  exact hplain.toIsSegment.spells

/-- What a run makes of the project with one module. -/
def trimPair (session : Session) (report : Report String) (disk : Disk) :
    Except Failure (Results String) × Disk :=
  (Trim.run pairProject { write := true } session Analysis.smallNow report).run disk

/-- The disk after a first run. -/
def trimmedDisk : Disk := (trimPair { name := "one" } pairReport pairDisk).2

theorem snapshot_outlives_later_runs_pair : ∃ first second : Turn Analysis.smallRoot,
    History Analysis.smallRoot pairDisk ([] ++ first :: [second]) second.after ∧
    first.before = pairDisk ∧ first.session.name = "one" ∧ second.session.name = "two" ∧
    first.Wrote "pair.ts" ∧ second.Wrote "pair.ts" ∧
    ∃ bytes place, pairDisk.at? (placeOf Analysis.smallRoot "pair.ts") = some (.file bytes) ∧
      shelfOf Analysis.smallRoot "one" "pair.ts" <+: place ∧
      second.after.at? place = some (.file bytes) := by
  have hone : Session.Reached { name := "one" } := .fresh ⟨by decide, by decide⟩
  obtain ⟨⟨entries, final⟩, hfirst, hwrote⟩ := exists_ok_of_any
    (x := plan pairProject pairDisk { write := true } { name := "one" } pairReport.partlyUsed)
    (p := fun _ => (trimPair { name := "one" } pairReport pairDisk).1.toOption.any fun results =>
      results.written.contains "pair.ts") (by decide +kernel)
  -- the other run was planned on the disk as it was, and writes its texts only now
  obtain ⟨⟨planned, session⟩, hplanned, hcheck⟩ := exists_ok_of_any
    (x := plan pairProject pairDisk { write := true } { name := "two" } spentReport.partlyUsed)
    (p := fun planned => decide (planned.2.name = "two") &&
      (trimPair planned.2 {} trimmedDisk).1.toOption.any fun results =>
        results.written.contains "pair.ts") (by decide +kernel)
  obtain ⟨hname, hwrote'⟩ := Bool.and_eq_true_iff.1 hcheck
  have hreached : session.Reached :=
    .planned (.fresh ⟨by decide, by decide⟩) (plainTargets_pair (by decide)) hplanned
  have hsecond : plan pairProject trimmedDisk { write := true } session
    (Report.partlyUsed {}) = .ok ([], session) := rfl
  let first := Turn.ofPlan hone (plainTargets_pair (by decide)) hfirst
  let second := Turn.ofPlan hreached (plainTargets_pair (by decide)) hsecond
  have hfirstWrote : first.Wrote "pair.ts" := Turn.wrote_of_any hwrote
  have history : History Analysis.smallRoot pairDisk ([] ++ first :: [second]) second.after :=
    .cons first (.cons second (.nil second.after))
  refine ⟨first, second, history, rfl, rfl, of_decide_eq_true hname, hfirstWrote,
    Turn.wrote_of_any hwrote', ?_⟩
  refine snapshot_outlives_later_runs ⟨rfl, by simp [Analysis.smallRoot]⟩ history hfirstWrote ?_
  intro later hlater hsame
  obtain rfl := mem_singleton.1 hlater
  have hdiffers : "one" ≠ "two" := by decide
  exact absurd (hsame.symm.trans (of_decide_eq_true hname)) hdiffers

/-- A session that is used again writes all that it has ever changed, over the snapshots that it has
taken: after two runs of one session nothing where snapshots are kept holds what the file held
before. -/
theorem reused_session_loses_original : ∃ first second : Turn Analysis.smallRoot,
    History Analysis.smallRoot pairDisk [first, second] second.after ∧
    first.before = pairDisk ∧ first.Wrote "pair.ts" ∧ second.session = first.final ∧
    ∀ place, Analysis.smallRoot.parts ++ [".orphanprune", "backups"] <+: place →
      second.after.at? place ≠ pairDisk.at? (placeOf Analysis.smallRoot "pair.ts") := by
  have hone : Session.Reached { name := "one" } := .fresh ⟨by decide, by decide⟩
  have hplain : PlainTargets pairReport := plainTargets_pair (by decide)
  obtain ⟨⟨entries, final⟩, hfirst, hcheck⟩ := exists_ok_of_any
    (x := plan pairProject pairDisk { write := true } { name := "one" } pairReport.partlyUsed)
    (p := fun planned => ((trimPair { name := "one" } pairReport pairDisk).1.toOption.any
        fun results => results.written.contains "pair.ts") &&
      (trimPair planned.2 {} trimmedDisk).2.nodes.all fun stored =>
        decide ([".orphanprune", "backups"] <+: stored.1 →
          some stored.2 ≠ pairDisk.at? (placeOf Analysis.smallRoot "pair.ts"))) (by decide +kernel)
  obtain ⟨hwrote, hnodes⟩ := Bool.and_eq_true_iff.1 hcheck
  have hsecond : plan pairProject trimmedDisk { write := true } final
    (Report.partlyUsed {}) = .ok ([], final) := rfl
  let first := Turn.ofPlan hone hplain hfirst
  let second := Turn.ofPlan (.planned hone hplain hfirst) (plainTargets_pair (by decide)) hsecond
  refine ⟨first, second, .cons first (.cons second (.nil second.after)), rfl,
    Turn.wrote_of_any hwrote, rfl, fun place hplace hat => ?_⟩
  have hne : place ≠ [] := by
    rintro rfl
    simp at hplace
  obtain ⟨node, hnode⟩ : ∃ node,
      pairDisk.at? (placeOf Analysis.smallRoot "pair.ts") = some node := ⟨_, rfl⟩
  rw [hnode, Disk.at?_of_ne_nil _ hne] at hat
  obtain ⟨front, back, hsplit, -⟩ := lookup_eq_some_iff.1 hat
  have hmem : (place, node) ∈ second.after.nodes := by simp [hsplit]
  exact of_decide_eq_true (all_eq_true.1 hnodes _ hmem) hplace hnode.symm

end Trim

end Deadwood

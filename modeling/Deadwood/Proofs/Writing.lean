import Deadwood.Proofs.Naming
import Deadwood.Proofs.Trimming

/-!
# Files and their snapshots

Every file is written after a snapshot of it has been taken, so a run of writes is a chain of two
steps for each file (`Writes`). What a step can do to the disk is said once: directories are made
where nothing stood (`Disk.Opens`), and two files are put, the snapshot and the file itself
(`Shelves`). A snapshot lies in a protected directory, and so never where a file is written; and if
the snapshot of one file had to be a directory for that of another one, the file itself would be a
directory, which cannot be copied. Hence the files do not get in each other's way
(`Writes.wrote`).
-/

set_option autoImplicit false

namespace Deadwood

open List

/-! ## Operations on a disk -/

namespace Disk

open Relative

variable {disk opened later : Disk} {place way : Place} {path source target : Path}
  {bytes : List UInt8}

theorem read_eq_ok (hpath : path.IsResolved) (h : disk.read path = .ok bytes) :
    disk.locate path = .ok path.parts ∧ disk.at? path.parts = some (.file bytes) := by
  unfold read at h
  split at h
  · cases h
  · rename_i place hlocate
    obtain rfl := eq_parts_of_locate hpath hlocate
    split at h
    · rename_i content hat
      cases h
      exact ⟨hlocate, hat⟩
    · cases h
    · cases h

theorem write_eq_ok (h : disk.write path bytes = .ok later) :
    ∃ place, disk.locate path = .ok place ∧ disk.at? place ≠ some .directory ∧
      later = disk.put place (.file bytes) := by
  unfold write at h
  split at h
  · cases h
  · rename_i place hlocate
    split at h
    · cases h
    · rename_i hdirectory
      exact ⟨place, hlocate, hdirectory, (Except.ok.inj h).symm⟩

/-- A resolved path goes on resolved if names are added. -/
theorem isResolved_append {root : Path} {names : List String} (hroot : root.IsResolved)
    (hnames : ∀ name ∈ names, IsName name) :
    Path.IsResolved ⟨root.slashes, root.parts ++ names⟩ := by
  refine ⟨hroot.slashes_eq, fun part hpart => ?_⟩
  rcases mem_append.1 hpart with hpart | hpart
  · exact hroot.names part hpart
  · exact hnames part hpart

/-- A file is copied to the target, or into it if a directory stands there. -/
theorem copy_eq_ok (htarget : target.IsResolved) (hsource : IsSegment source.name)
    (h : disk.copy source target = .ok later) :
    ∃ bytes place, disk.read source = .ok bytes ∧ disk.at? place ≠ some .directory ∧
      (disk.at? target.parts ≠ some .directory → place = target.parts) ∧
      target.parts <+: place ∧ later = disk.put place (.file bytes) := by
  obtain ⟨isDirectory, hdirectory, h⟩ := bind_eq_ok_iff.1 h
  obtain ⟨bytes, hread, h⟩ := bind_eq_ok_iff.1 h
  generalize hactual : (if isDirectory then target.child source.name else target) = actual
    at h
  split at h
  · cases h
  obtain ⟨place, hlocate, hplace, rfl⟩ := write_eq_ok h
  refine ⟨bytes, place, hread, hplace, fun hfree => ?_, ?_, rfl⟩
  rotate_left
  · -- inside a directory the file keeps its name
    split at hactual
    · subst hactual
      rw [hsource.spells.child_eq] at hlocate
      rw [eq_parts_of_locate (isResolved_append htarget (by simpa using hsource.isName)) hlocate]
      exact prefix_append _ _
    · subst hactual
      rw [eq_parts_of_locate htarget hlocate]
  -- no directory is found where none stands
  have hfalse : isDirectory = false := by
    obtain ⟨node, hnode, hsame⟩ := bind_eq_ok_iff.1 hdirectory
    cases hsame
    unfold node? at hnode
    split at hnode
    · rename_i found hfound
      cases hnode
      rw [eq_parts_of_locate htarget hfound]
      simpa using hfree
    · cases hnode
    · cases hnode
      rfl
  rw [hfalse] at hactual
  subst hactual
  exact eq_parts_of_locate htarget hlocate

/-- Writing where no directory stands. -/
theorem at?_put_of_free (hfree : disk.at? place ≠ some .directory) (node : Node) (other : Place) :
    (disk.put place node).at? other = if other = place then some node else disk.at? other := by
  refine at?_put ?_ node other
  rintro rfl
  exact hfree rfl

/-- A directory stays one when something is written where none stands. -/
theorem at?_put_directory {other : Place} (hfree : disk.at? place ≠ some .directory) (node : Node)
    (hother : disk.at? other = some .directory) :
    (disk.put place node).at? other = some .directory := by
  have hne : other ≠ place := by
    rintro rfl
    exact hfree hother
  rw [at?_put_of_free hfree, if_neg hne, hother]

/-- Further directories have been made on a way, where nothing stood. -/
def Opens (disk later : Disk) (way : Place) : Prop :=
  ∀ place, later.at? place = disk.at? place ∨
    place <+: way ∧ disk.at? place = none ∧ later.at? place = some .directory

theorem Opens.refl (disk : Disk) (way : Place) : disk.Opens disk way := fun _ => .inl rfl

theorem Opens.trans (h : disk.Opens opened way) (h' : opened.Opens later way) :
    disk.Opens later way := by
  intro place
  rcases h place with heq | ⟨hway, hnone, hnew⟩
  · rw [← heq]
    exact h' place
  · rcases h' place with heq' | ⟨-, hnone', -⟩
    · exact .inr ⟨hway, hnone, heq'.trans hnew⟩
    · rw [hnew] at hnone'
      cases hnone'

theorem Opens.mono {longer : Place} (h : disk.Opens later way) (hway : way <+: longer) :
    disk.Opens later longer :=
  fun place => (h place).imp_right fun ⟨hplace, hnew⟩ => ⟨hplace.trans hway, hnew⟩

/-- What stands at a place stays there. Where nothing stands, a directory may be made. -/
def Stays (disk later : Disk) (place : Place) : Prop :=
  later.at? place = disk.at? place ∨ disk.at? place = none ∧ later.at? place = some .directory

theorem Stays.at?_eq {node : Node} (h : disk.Stays later place)
    (hat : disk.at? place = some node) : later.at? place = some node := by
  rcases h with hsame | ⟨hnone, -⟩
  · rw [hsame, hat]
  · rw [hat] at hnone
    cases hnone

/-- A file is never new. -/
theorem Stays.at?_before (h : disk.Stays later place) (hat : later.at? place = some (.file bytes)) :
    disk.at? place = some (.file bytes) := by
  rcases h with hsame | ⟨-, hnew⟩
  · rw [← hsame, hat]
  · rw [hat] at hnew
    cases hnew

theorem Stays.trans (h : disk.Stays opened place) (h' : opened.Stays later place) :
    disk.Stays later place := by
  rcases h with hsame | ⟨hnone, hnew⟩
  · rw [Stays, ← hsame]
    exact h'
  · exact .inr ⟨hnone, h'.at?_eq hnew⟩

theorem Opens.stays {way : Place} (h : disk.Opens later way) (place : Place) :
    disk.Stays later place :=
  (h place).imp_right And.right

theorem stays_put {other : Place} (hfree : disk.at? other ≠ some .directory) (node : Node)
    (hne : place ≠ other) : disk.Stays (disk.put other node) place := by
  rw [Stays, at?_put_of_free hfree, if_neg hne]
  exact .inl rfl

/-- A file stands at the place. -/
def HoldsFile (disk : Disk) (place : Place) : Prop := ∃ bytes, disk.at? place = some (.file bytes)

theorem HoldsFile.put_file {other : Place} (h : disk.HoldsFile place)
    (hfree : disk.at? other ≠ some .directory) :
    (disk.put other (.file bytes)).HoldsFile place := by
  rw [HoldsFile, at?_put_of_free hfree]
  split
  · exact ⟨bytes, rfl⟩
  · exact h

theorem opens_of_makeDirectory (hpath : path.IsResolved)
    (h : disk.makeDirectory path = .ok later) : disk.Opens later path.parts := by
  unfold makeDirectory at h
  split at h
  · cases h
  · rename_i place hlocate
    obtain rfl := eq_parts_of_locate hpath hlocate
    split at h
    · cases h
    · rename_i hsome
      cases h
      have hnone : disk.at? path.parts = none := by simpa using hsome
      have hne : path.parts ≠ [] := by
        intro hnil
        rw [hnil] at hnone
        cases hnone
      intro place
      rw [at?_put hne]
      split
      · rename_i heq
        subst heq
        exact .inr ⟨prefix_refl _, hnone, rfl⟩
      · exact .inl rfl

theorem eq_of_keepDirectory {e : Error} (h : disk.keepDirectory path e = .ok later) :
    later = disk := by
  unfold keepDirectory at h
  split at h
  · cases h
  · obtain ⟨isDirectory, -, h⟩ := bind_eq_ok_iff.1 h
    split at h
    · exact (Except.ok.inj h).symm
    · cases h

/-- Making sure that a directory is there makes directories on the way to it and nothing else. -/
theorem opens_of_ensure {reversed : List String} (hnames : ∀ part ∈ reversed, IsName part)
    (h : disk.ensure 1 reversed = .ok later) : disk.Opens later reversed.reverse := by
  induction reversed generalizing disk later with
  | nil =>
    cases h
    exact .refl _ _
  | cons part reversed ih =>
    have hpath : Path.IsResolved ⟨1, (part :: reversed).reverse⟩ :=
      ⟨rfl, fun other hother => hnames other (mem_reverse.1 hother)⟩
    have hway : reversed.reverse <+: (part :: reversed).reverse := by
      rw [reverse_cons]
      exact prefix_append _ _
    rw [ensure] at h
    split at h
    · rename_i made hmade
      cases h
      exact opens_of_makeDirectory hpath hmade
    · split at h
      · obtain ⟨opened, hopened, h⟩ := bind_eq_ok_iff.1 h
        have habove := (ih (fun other hother => hnames other (mem_cons_of_mem _ hother))
          hopened).mono hway
        split at h
        · rename_i made hmade
          cases h
          exact habove.trans (opens_of_makeDirectory hpath hmade)
        · obtain rfl := eq_of_keepDirectory h
          exact habove
      · obtain rfl := eq_of_keepDirectory h
        exact .refl _ _

theorem opens_of_ensureDirectory (hpath : path.IsResolved)
    (h : disk.ensureDirectory path.parent = .ok later) : disk.Opens later path.parts.dropLast := by
  rw [ensureDirectory, Path.parent, hpath.slashes_eq] at h
  have hopens := opens_of_ensure (fun part hpart =>
    hpath.names part (dropLast_subset _ (mem_reverse.1 hpart))) h
  rwa [reverse_reverse] at hopens

end Disk

namespace Trim

open Relative

/-! ## One file -/

/-- The place of a file of the project. -/
def placeOf (root : Path) (file : String) : Place := (root.child file).parts

/-- The path of the snapshot that a run takes of a file, from the root. -/
@[irreducible]
def snapshotPath (run file : String) : String :=
  ofSegments [".orphanprune", "backups", run, file]

/-- The place of the snapshot that a run takes of a file. -/
def shelfOf (root : Path) (run file : String) : Place := placeOf root (snapshotPath run file)

variable {root : Path} {run file : String} {names : List String} {disk later : Disk}

theorem spells_snapshotPath (hrun : IsSegment run) (hspells : Spells names file) :
    Spells (".orphanprune" :: "backups" :: run :: names) (snapshotPath run file) := by
  refine ⟨by simp, ?_, ?_⟩
  · simp only [forall_mem_cons]
    exact ⟨⟨by decide, by decide⟩, ⟨by decide, by decide⟩, hrun, hspells.isSegment⟩
  · rw [snapshotPath, hspells.path_eq]
    exact (ofSegments_append [".orphanprune", "backups", run] hspells.ne_nil).symm

theorem backups_child (hrun : IsSegment run) (hspells : Spells names file) :
    (Layout.backups root run).child file = root.child (snapshotPath run file) := by
  have hhome : IsSegment ".orphanprune" := ⟨by decide, by decide⟩
  have hbackups : IsSegment "backups" := ⟨by decide, by decide⟩
  rw [Layout.backups, Layout.home, hhome.spells.child_eq, hbackups.spells.child_eq,
    hrun.spells.child_eq, hspells.child_eq, (spells_snapshotPath hrun hspells).child_eq]
  simp only [append_assoc, cons_append, nil_append]

/-- An action that goes on after another one ends where either of them does. -/
theorem run_bind_cases {α β : Type} {act : Act α} {go : α → Act β} {outcome : Except Failure β}
    (h : (act >>= go).run disk = (outcome, later)) :
    (∃ e, act.run disk = (.error e, later) ∧ outcome = .error e) ∨
      ∃ a middle, act.run disk = (.ok a, middle) ∧ (go a).run middle = (outcome, later) := by
  rw [run_bind] at h
  rcases hact : act.run disk with ⟨e | a, middle⟩
  · rw [hact] at h
    obtain ⟨rfl, rfl⟩ := Prod.mk.inj h
    exact .inl ⟨e, rfl, rfl⟩
  · rw [hact] at h
    exact .inr ⟨a, middle, rfl, h⟩

theorem eq_of_run_change {e : Failure} {change : Disk → Except Disk.Error Disk}
    (h : (Act.change change).run disk = (.error e, later)) : later = disk := by
  simp only [Act.run, Act.change, ExceptT.mk] at h
  cases hchange : change disk with
  | error error =>
    rw [hchange] at h
    exact (Prod.mk.inj h).2.symm
  | ok changed =>
    rw [hchange] at h
    cases (Prod.mk.inj h).1

/-- What a snapshot does to the disk: directories are made on the way to its place, and the file is
copied there, or below it if a directory stands in its place already. -/
inductive Shelves (root : Path) (run file : String) (disk : Disk) : (later : Disk) → Prop
  | intro {opened : Disk} {bytes : List UInt8} {place : Place}
      (opens : disk.Opens opened (shelfOf root run file).dropLast)
      (read : opened.read (root.child file) = .ok bytes)
      (free : opened.at? place ≠ some .directory)
      (place_eq : opened.at? (shelfOf root run file) ≠ some .directory →
        place = shelfOf root run file)
      (below : shelfOf root run file <+: place) :
      Shelves root run file disk (opened.put place (.file bytes))

theorem isResolved_child (hroot : root.IsResolved) (hspells : Spells names file) :
    (root.child file).IsResolved := by
  rw [hspells.child_eq]
  exact Disk.isResolved_append hroot fun name hname => (hspells.isSegment name hname).isName

/-- A snapshot that fails has made directories at most. -/
theorem snapshot_cases {outcome : Except Failure String} (hroot : root.IsResolved)
    (hrun : IsSegment run) (hspells : Spells names file)
    (h : (snapshot root run file).run disk = (outcome, later)) :
    (∃ e, outcome = .error e ∧ disk.Opens later (shelfOf root run file).dropLast) ∨
      outcome = .ok (snapshotPath run file) ∧ Shelves root run file disk later := by
  have hsnapshot := spells_snapshotPath hrun hspells
  have htarget : (root.child (snapshotPath run file)).IsResolved := isResolved_child hroot hsnapshot
  have hrelative : (root.child (snapshotPath run file)).relativeTo? root =
      some ⟨0, ".orphanprune" :: "backups" :: run :: names⟩ := by
    rw [hsnapshot.child_eq, Path.relativeTo?, if_pos (by simp), drop_left]
  simp only [snapshot, backups_child hrun hspells, hrelative] at h
  rcases run_bind_cases h with ⟨e, hfails, rfl⟩ | ⟨_, opened, hopened, h⟩
  · rw [eq_of_run_change hfails]
    exact .inl ⟨e, rfl, .refl _ _⟩
  have hopens : disk.Opens opened (shelfOf root run file).dropLast :=
    Disk.opens_of_ensureDirectory htarget (run_change_eq_ok_iff.1 hopened)
  rcases run_bind_cases h with ⟨e, hfails, rfl⟩ | ⟨_, copied, hcopied, h⟩
  · rw [eq_of_run_change hfails]
    exact .inl ⟨e, rfl, hopens⟩
  obtain ⟨bytes, place, hread, hfree, hplace, hbelow, rfl⟩ :=
    Disk.copy_eq_ok htarget (hspells.isSegment_name_child root) (run_change_eq_ok_iff.1 hcopied)
  obtain ⟨rfl, rfl⟩ := Prod.mk.inj h
  refine .inr ⟨?_, .intro hopens hread hfree hplace hbelow⟩
  rw [hsnapshot.path_eq]
  exact congrArg Except.ok String.empty_append

/-- Files are written one after the other, each after its snapshot. -/
inductive Writes (root : Path) (run : String) :
    (disk : Disk) → (files : List (String × List Char)) → (later : Disk) → Prop
  | nil (disk : Disk) : Writes root run disk [] disk
  | cons {disk shelved later : Disk} {file : String} {text : List Char}
      {files : List (String × List Char)} (shelves : Shelves root run file disk shelved)
      (free : shelved.at? (placeOf root file) ≠ some .directory)
      (rest : Writes root run
        (shelved.put (placeOf root file) (.file (Text.Utf8.encode text))) files later) :
      Writes root run disk ((file, text) :: files) later

/-- The files of a session whose texts are no longer what they were. -/
def Session.changed (session : Session) (files : List (String × List Char)) :
    List (String × List Char) :=
  files.filter fun (file, text) => session.initial.lookup file ≠ some text

theorem Session.changed_cons (session : Session) (file : String) (text : List Char)
    (files : List (String × List Char)) :
    session.changed ((file, text) :: files) =
      if session.initial.lookup file = some text then session.changed files
      else (file, text) :: session.changed files := by
  simp only [changed, filter_cons, ne_eq, decide_not, Bool.not_eq_true', decide_eq_false_iff_not]
  split <;> simp_all

/-- A run that fails stops at the first of the files that are left: before its snapshot, on the way
to it, or after it. -/
inductive Stops (root : Path) (run : String) (disk : Disk) :
    (files : List (String × List Char)) → (later : Disk) → Prop
  | here (files : List (String × List Char)) : Stops root run disk files disk
  | opened {file : String} {text : List Char} {files : List (String × List Char)} {opened : Disk}
      (opens : disk.Opens opened (shelfOf root run file).dropLast) :
      Stops root run disk ((file, text) :: files) opened
  | shelved {file : String} {text : List Char} {files : List (String × List Char)} {shelved : Disk}
      (shelves : Shelves root run file disk shelved) :
      Stops root run disk ((file, text) :: files) shelved

/-- Flushing works through the files that have changed, to the end or to where it fails. -/
theorem exists_writes_of_flushFiles {ν : Type} {options : Options} {session : Session}
    {results : Results ν} {outcome : Except Failure (Results ν)}
    {files : List (String × List Char)} (hroot : root.IsResolved)
    (hrun : IsSegment session.name) (hbackup : options.backup)
    (hspells : ∀ pair ∈ files, ∃ names, Spells names pair.1)
    (h : (flushFiles root options session results files).run disk = (outcome, later)) :
    ∃ done rest middle, session.changed files = done ++ rest ∧
      Writes root session.name disk done middle ∧ Stops root session.name middle rest later ∧
      ∀ results', outcome = .ok results' → rest = [] ∧
        results'.written = results.written ++ done.map Prod.fst ∧
        results'.backups = (done.map Prod.fst).foldl (fun backups file =>
          Keyed.put file (snapshotPath session.name file) backups) results.backups := by
  induction files generalizing results disk with
  | nil =>
    obtain ⟨rfl, rfl⟩ := Prod.mk.inj h
    refine ⟨[], [], disk, rfl, .nil disk, .here [], fun results' hresults => ?_⟩
    cases hresults
    exact ⟨rfl, by simp, rfl⟩
  | cons pair files ih =>
    obtain ⟨file, text⟩ := pair
    obtain ⟨⟨names, hnames⟩, hothers⟩ := forall_mem_cons.1 hspells
    rw [flushFiles] at h
    rw [Session.changed_cons]
    split at h
    · rename_i hsame
      rw [if_pos hsame]
      exact ih hothers h
    rename_i hdiffers
    rw [if_neg hdiffers]
    -- the snapshot fails, or else the file cannot be written, or else the rest goes on
    rcases run_bind_cases h with ⟨e, hfails, rfl⟩ | ⟨snap, shelved, hsnapshot, h⟩
    · rcases snapshot_cases hroot hrun hnames hfails with ⟨_, -, hopens⟩ | ⟨heq, -⟩
      · exact ⟨[], _, disk, rfl, .nil disk, .opened hopens, by simp⟩
      · cases heq
    rcases snapshot_cases hroot hrun hnames hsnapshot with ⟨_, heq, -⟩ | ⟨heq, hshelves⟩
    · cases heq
    cases heq
    rcases run_bind_cases h with ⟨e, hfails, -⟩ | ⟨backups, _, hput, h⟩
    · cases (Prod.mk.inj hfails).1
    cases hput
    rcases run_bind_cases h with ⟨e, hfails, rfl⟩ | ⟨_, written, hwrite, h⟩
    · rw [eq_of_run_change hfails]
      exact ⟨[], _, disk, rfl, .nil disk, .shelved hshelves, by simp⟩
    obtain ⟨place, hlocate, hfree, rfl⟩ := Disk.write_eq_ok (run_change_eq_ok_iff.1 hwrite)
    obtain rfl := Disk.eq_parts_of_locate (isResolved_child hroot hnames) hlocate
    obtain ⟨done, rest, middle, heq, hwrites, hstops, hok⟩ := ih hothers h
    refine ⟨(file, text) :: done, rest, middle, by rw [heq, cons_append],
      .cons hshelves hfree hwrites, hstops, fun results' hresults => ?_⟩
    obtain ⟨hrest, hwritten, hbackups⟩ := hok results' hresults
    refine ⟨hrest, ?_, ?_⟩
    · rw [hwritten, map_cons, append_assoc, singleton_append]
    · rw [hbackups, map_cons, foldl_cons]

/-- What is flushed are the files that have changed, and each has its snapshot. -/
theorem writes_of_flushFiles {ν : Type} {options : Options} {session : Session}
    {results results' : Results ν} {files : List (String × List Char)} (hroot : root.IsResolved)
    (hrun : IsSegment session.name) (hbackup : options.backup)
    (hspells : ∀ pair ∈ files, ∃ names, Spells names pair.1)
    (h : (flushFiles root options session results files).run disk = (.ok results', later)) :
    Writes root session.name disk (session.changed files) later ∧
      results'.written = results.written ++ (session.changed files).map Prod.fst ∧
      results'.backups = ((session.changed files).map Prod.fst).foldl (fun backups file =>
        Keyed.put file (snapshotPath session.name file) backups) results.backups := by
  obtain ⟨done, rest, middle, heq, hwrites, hstops, hok⟩ :=
    exists_writes_of_flushFiles hroot hrun hbackup hspells h
  obtain ⟨rfl, hwritten⟩ := hok results' rfl
  cases hstops
  rw [heq, append_nil]
  exact ⟨hwrites, hwritten⟩

/-! ## Files and their snapshots -/

/-- The path is spelled by names, and none of its directories is protected. -/
structure Writable (names : List String) (file : String) : Prop extends Spells names file where
  unprotected : ∀ name ∈ names.dropLast, name ∉ Ignore.protectedNames

theorem writable_of_isPlain (hspells : Spells names file) (hplain : ∀ name ∈ names, IsPlain name)
    (hprotected : Ignore.isProtected file = false) : Writable names file := by
  refine ⟨hspells, fun name hname hmem => ?_⟩
  have hnormal : normalize file = file := by
    rw [hspells.path_eq]
    exact normalize_ofSegments hplain
  rw [Ignore.isProtected, hnormal, hspells.segments_eq, any_eq_false] at hprotected
  exact hprotected name hname (by simpa using hmem)

theorem placeOf_eq (h : Spells names file) : placeOf root file = root.parts ++ names := by
  rw [placeOf, h.child_eq]

theorem shelfOf_eq (hrun : IsSegment run) (h : Spells names file) :
    shelfOf root run file = root.parts ++ (".orphanprune" :: "backups" :: run :: names) :=
  placeOf_eq (spells_snapshotPath hrun h)

section Apart

variable {other : String} {others : List String}

theorem eq_of_placeOf (h : Spells names file) (h' : Spells others other)
    (heq : placeOf root file = placeOf root other) : file = other := by
  rw [placeOf_eq h, placeOf_eq h'] at heq
  rw [h.path_eq, h'.path_eq, append_cancel_left heq]

/-- Neither of two files is, or lies below, the other. -/
def Apart (root : Path) (file other : String) : Prop :=
  ¬ placeOf root file <+: placeOf root other ∧ ¬ placeOf root other <+: placeOf root file

theorem shelfOf_prefix_iff (hrun : IsSegment run) (h : Spells names file)
    (h' : Spells others other) : shelfOf root run file <+: shelfOf root run other ↔
      placeOf root file <+: placeOf root other := by
  rw [shelfOf_eq hrun h, shelfOf_eq hrun h', placeOf_eq h, placeOf_eq h',
    prefix_append_right_inj, prefix_append_right_inj]
  simp only [cons_prefix_cons, true_and]

/-- The snapshots of files that lie apart have nothing in common. -/
theorem Apart.not_below {place : Place} (h : Apart root file other) (hrun : IsSegment run)
    (hfile : Spells names file) (hother : Spells others other)
    (hplace : shelfOf root run file <+: place) : ¬ shelfOf root run other <+: place := by
  intro hbelow
  rcases prefix_or_prefix_of_prefix hplace hbelow with hleads | hleads
  · exact h.1 ((shelfOf_prefix_iff hrun hfile hother).1 hleads)
  · exact h.2 ((shelfOf_prefix_iff hrun hother hfile).1 hleads)

/-- No snapshot lies where a file may be written, nor below such a place. -/
theorem ne_placeOf_of_below {place : Place} (hrun : IsSegment run) (h : Writable names file)
    (hother : Spells others other) (hplace : shelfOf root run other <+: place) :
    place ≠ placeOf root file := by
  rintro rfl
  rw [shelfOf_eq hrun hother, placeOf_eq h.toSpells, prefix_append_right_inj] at hplace
  obtain ⟨back, rfl⟩ := hplace
  refine h.unprotected ".orphanprune" ?_ (by decide)
  rw [cons_append, dropLast_cons_of_ne_nil (by simp)]
  exact mem_cons_self

end Apart

/-- The place of a snapshot is not on the way to it. -/
theorem not_shelfOf_above (hrun : IsSegment run) (h : Spells names file) :
    ¬ shelfOf root run file <+: (shelfOf root run file).dropLast := by
  intro hleads
  have hlength := hleads.length_le
  have hpos : 0 < (shelfOf root run file).length := by
    rw [shelfOf_eq hrun h]
    exact length_pos_of_ne_nil (by simp)
  rw [length_dropLast] at hlength
  omega

/-! ## One step -/

section Step

variable {shelved : Disk} {place : Place}

section

variable (h : Shelves root run file disk shelved)
include h

/-- A directory stays a directory. -/
theorem Shelves.at?_directory (hplace : disk.at? place = some .directory) :
    shelved.at? place = some .directory := by
  cases h with
  | intro hopens hread hfree heq =>
    exact Disk.at?_put_directory hfree _ ((hopens.stays _).at?_eq hplace)

/-- The directories of the file are there. -/
theorem Shelves.at?_above {back : List String} (hroot : root.IsResolved)
    (hspells : Spells names file) (hback : back ≠ []) (hplace : placeOf root file = place ++ back) :
    shelved.at? place = some .directory := by
  cases h with
  | intro hopens hread hfree heq =>
    have hfile := isResolved_child hroot hspells
    obtain ⟨hlocate, -⟩ := Disk.read_eq_ok hfile hread
    exact Disk.at?_put_directory hfree _ (Disk.at?_of_locate hfile hlocate hplace hback)

theorem Shelves.stays (hplace : ¬ shelfOf root run file <+: place) : disk.Stays shelved place := by
  cases h with
  | intro hopens hread hfree heq hbelow =>
    refine (hopens.stays place).trans (Disk.stays_put hfree _ ?_)
    rintro rfl
    exact hplace hbelow

theorem Shelves.holdsFile (hplace : disk.HoldsFile place) : shelved.HoldsFile place := by
  cases h with
  | intro hopens hread hfree heq hbelow =>
    obtain ⟨bytes, hbytes⟩ := hplace
    exact Disk.HoldsFile.put_file ⟨bytes, (hopens.stays place).at?_eq hbytes⟩ hfree

/-- If no directory stands in its place, a snapshot holds the bytes of the file, and apart from it
there are only new directories on the way to it. -/
theorem Shelves.at?_eq (hroot : root.IsResolved) (hrun : IsSegment run)
    (hspells : Spells names file) (hfree : disk.at? (shelfOf root run file) ≠ some .directory) :
    ∃ opened bytes, disk.Opens opened (shelfOf root run file).dropLast ∧
      disk.at? (placeOf root file) = some (.file bytes) ∧
      ∀ place, shelved.at? place =
        if place = shelfOf root run file then some (.file bytes) else opened.at? place := by
  cases h with
  | @intro opened bytes place hopens hread hplace heq =>
    obtain ⟨-, hbytes⟩ := Disk.read_eq_ok (isResolved_child hroot hspells) hread
    -- the directories that are made lie above the place of the snapshot, not in it
    have hshelf : opened.at? (shelfOf root run file) ≠ some .directory := by
      rcases hopens (shelfOf root run file) with hsame | ⟨hleads, -⟩
      · rwa [hsame]
      · exact absurd hleads (not_shelfOf_above hrun hspells)
    obtain rfl := heq hshelf
    refine ⟨opened, bytes, hopens, ?_, Disk.at?_put_of_free hplace _⟩
    rcases hopens (placeOf root file) with hsame | ⟨-, -, hnew⟩
    · rw [← hsame]
      exact hbytes
    · exact absurd (hbytes.symm.trans hnew) (by simp)

end

end Step

/-! ## A run of steps -/

/-- The place is neither that of one of the files nor that of a snapshot of one. -/
def Elsewhere (root : Path) (run : String) (files : List String) (place : Place) : Prop :=
  ∀ file ∈ files, place ≠ placeOf root file ∧ place ≠ shelfOf root run file

/-- The disks differ only where the files and their snapshots are, and in new directories on the way
to the snapshots. -/
def Spares (root : Path) (run : String) (files : List String) (disk later : Disk) : Prop :=
  ∀ place, Elsewhere root run files place → later.at? place = disk.at? place ∨
    disk.at? place = none ∧ later.at? place = some .directory ∧
      ∃ file ∈ files, place <+: shelfOf root run file

section Frame

variable {files : List String} {middle : Disk} {place : Place}

section

variable (h : Spares root run files disk later)
include h

theorem Spares.stays (hplace : Elsewhere root run files place) : disk.Stays later place :=
  (h place hplace).imp_right fun ⟨hnone, hnew, _⟩ => ⟨hnone, hnew⟩

/-- What has changed is one of the files, a snapshot, or a new directory above a snapshot. -/
theorem Spares.cases_of_ne (hne : later.at? place ≠ disk.at? place) :
    (∃ file ∈ files, place = placeOf root file) ∨ (∃ file ∈ files, place = shelfOf root run file) ∨
      (disk.at? place = none ∧ later.at? place = some .directory ∧
        ∃ file ∈ files, place <+: shelfOf root run file) := by
  by_cases hplace : Elsewhere root run files place
  · rcases h place hplace with hsame | hnew
    · exact absurd hsame hne
    · exact .inr (.inr hnew)
  · simp only [Elsewhere, not_forall, not_and_or, not_not] at hplace
    obtain ⟨file, hfile, hplace | hplace⟩ := hplace
    · exact .inl ⟨file, hfile, hplace⟩
    · exact .inr (.inl ⟨file, hfile, hplace⟩)

end

theorem Spares.trans (h : Spares root run [file] disk middle)
    (h' : Spares root run files middle later) : Spares root run (file :: files) disk later := by
  intro place hplace
  have hfirst : Elsewhere root run [file] place := by
    intro other hother
    exact hplace other (mem_singleton.1 hother ▸ mem_cons_self)
  have hrest : Elsewhere root run files place :=
    fun other hother => hplace other (mem_cons_of_mem file hother)
  rcases h place hfirst with hsame | ⟨hnone, hnew, other, hother, hleads⟩
  · rw [← hsame]
    refine (h' place hrest).imp_right fun ⟨hnone, hnew, other, hother, hleads⟩ => ?_
    exact ⟨hnone, hnew, other, mem_cons_of_mem file hother, hleads⟩
  · -- a directory that the first file has made is there already for the others
    obtain rfl := mem_singleton.1 hother
    exact .inr ⟨hnone, (h'.stays hrest).at?_eq hnew, other, mem_cons_self, hleads⟩

/-- One file: apart from it and its snapshot nothing changes, and the snapshot holds what the file
held. -/
theorem Shelves.spares {shelved : Disk} (h : Shelves root run file disk shelved)
    (hroot : root.IsResolved) (hrun : IsSegment run) (hwritable : Writable names file)
    (hfree : disk.at? (shelfOf root run file) ≠ some .directory)
    (hplace : shelved.at? (placeOf root file) ≠ some .directory) (written : List UInt8) :
    Spares root run [file] disk (shelved.put (placeOf root file) (.file written)) ∧
      ∃ bytes, disk.at? (placeOf root file) = some (.file bytes) ∧
        (shelved.put (placeOf root file) (.file written)).at? (shelfOf root run file) =
          some (.file bytes) := by
  obtain ⟨opened, bytes, hopens, hbytes, hshelved⟩ := h.at?_eq hroot hrun hwritable.toSpells hfree
  refine ⟨fun place helsewhere => ?_, bytes, hbytes, ?_⟩
  · obtain ⟨hnePlace, hneShelf⟩ := helsewhere file (mem_singleton_self file)
    rw [Disk.at?_put_of_free hplace, if_neg hnePlace, hshelved, if_neg hneShelf]
    refine (hopens place).imp_right fun ⟨hleads, hnone, hnew⟩ => ⟨hnone, hnew, file, ?_⟩
    exact ⟨mem_singleton_self file, hleads.trans (List.dropLast_prefix _)⟩
  · have hne : shelfOf root run file ≠ placeOf root file :=
      ne_placeOf_of_below hrun hwritable hwritable.toSpells (prefix_refl _)
    rw [Disk.at?_put_of_free hplace, if_neg hne, hshelved, if_pos rfl]

end Frame

section Files

variable {files : List (String × List Char)} {pair : String × List Char} {shelved : Disk}
  {place : Place} {other : String} {others : List String}

/-- No directory stands where a file is written, since directories stay. -/
theorem Writes.at?_ne_directory (h : Writes root run disk files later) (hmem : pair ∈ files) :
    disk.at? (placeOf root pair.1) ≠ some .directory := by
  induction h with
  | nil disk => cases hmem
  | cons hshelves hfree hrest ih =>
    intro hdirectory
    have hshelved := hshelves.at?_directory hdirectory
    rcases mem_cons.1 hmem with rfl | hmem
    · exact hfree hshelved
    · exact ih hmem (Disk.at?_put_directory hfree _ hshelved)

/-- Another file is not touched when a file is written. -/
theorem Shelves.stays_placeOf (h : Shelves root run file disk shelved)
    (hfree : shelved.at? (placeOf root file) ≠ some .directory) (node : Node)
    (hrun : IsSegment run) (hspells : Spells names file) (hother : Writable others other)
    (hne : other ≠ file) :
    disk.Stays (shelved.put (placeOf root file) node) (placeOf root other) := by
  refine (h.stays ?_).trans (Disk.stays_put hfree _ ?_)
  · exact fun hbelow => ne_placeOf_of_below hrun hother hspells hbelow rfl
  · exact fun heq => hne (eq_of_placeOf hother.toSpells hspells heq)

/-- A place is touched only if it is that of a file that is written, or lies at or below that of its
snapshot. -/
theorem Writes.stays (h : Writes root run disk files later)
    (hplace : ∀ pair ∈ files, place ≠ placeOf root pair.1 ∧ ¬ shelfOf root run pair.1 <+: place) :
    disk.Stays later place := by
  induction h with
  | nil disk => exact .inl rfl
  | cons hshelves hfree hrest ih =>
    obtain ⟨⟨hne, hbelow⟩, hothers⟩ := forall_mem_cons.1 hplace
    exact ((hshelves.stays hbelow).trans (Disk.stays_put hfree _ hne)).trans (ih hothers)

/-- What is a directory of a file that is written was no file. -/
theorem Writes.not_holdsFile_above {back : List String} (h : Writes root run disk files later)
    (hroot : root.IsResolved) (hmem : pair ∈ files) (hspells : Spells names pair.1)
    (hback : back ≠ []) (hplace : placeOf root pair.1 = place ++ back) :
    ¬ disk.HoldsFile place := by
  induction h with
  | nil disk => cases hmem
  | cons hshelves hfree hrest ih =>
    intro hholds
    have hshelved := hshelves.holdsFile hholds
    rcases mem_cons.1 hmem with rfl | hmem
    · obtain ⟨bytes, hbytes⟩ := hshelved
      rw [hshelves.at?_above hroot hspells hback hplace] at hbytes
      cases hbytes
    · exact ih hmem (hshelved.put_file hfree)

/-- The files that one run writes lie apart: where one of them stands there is no directory. -/
theorem Writes.apart {text : List Char} (hshelves : Shelves root run file disk shelved)
    (hfree : shelved.at? (placeOf root file) ≠ some .directory)
    (hrest : Writes root run (shelved.put (placeOf root file) (.file (Text.Utf8.encode text)))
      files later) (hroot : root.IsResolved) (hfile : Spells names file)
    (hpair : Spells others pair.1) (hmem : pair ∈ files) (hne : pair.1 ≠ file) :
    Apart root file pair.1 := by
  have hback : ∀ {back : List String}, placeOf root file ++ back = placeOf root pair.1 ∨
      placeOf root pair.1 ++ back = placeOf root file → back ≠ [] := by
    rintro back heq rfl
    rw [append_nil, append_nil] at heq
    rcases heq with heq | heq
    · exact hne (eq_of_placeOf hfile hpair heq).symm
    · exact hne (eq_of_placeOf hpair hfile heq)
  constructor
  · rintro ⟨back, heq⟩
    refine hrest.not_holdsFile_above hroot hmem hpair (hback (.inl heq)) heq.symm ?_
    exact ⟨_, by rw [Disk.at?_put_of_free hfree, if_pos rfl]⟩
  · rintro ⟨back, heq⟩
    have habove := hshelves.at?_above hroot hfile (hback (.inr heq)) heq.symm
    exact hrest.at?_ne_directory hmem (Disk.at?_put_directory hfree _ habove)

/-- What files that are written one after the other hold at the end. -/
theorem Writes.holds (h : Writes root run disk files later) (hrun : IsSegment run)
    (hnodup : (files.map Prod.fst).Nodup)
    (hwritable : ∀ pair ∈ files, ∃ names, Writable names pair.1) :
    ∀ pair ∈ files, later.at? (placeOf root pair.1) = some (.file (Text.Utf8.encode pair.2)) := by
  induction h with
  | nil disk => simp
  | @cons disk shelved later file text files hshelves hfree hrest ih =>
    obtain ⟨⟨names, hnames⟩, hothers⟩ := forall_mem_cons.1 hwritable
    rw [map_cons, nodup_cons] at hnodup
    refine forall_mem_cons.2 ⟨?_, ih hnodup.2 hothers⟩
    -- neither the files that follow nor their snapshots stand in the place of this one
    refine (hrest.stays fun pair hpair => ?_).at?_eq ?_
    · obtain ⟨others, hother⟩ := hothers pair hpair
      refine ⟨fun hsame => ?_, fun hbelow => ?_⟩
      · exact hnodup.1 (mem_map.2
          ⟨pair, hpair, (eq_of_placeOf hnames.toSpells hother.toSpells hsame).symm⟩)
      · exact ne_placeOf_of_below hrun hnames hother.toSpells hbelow rfl
    · rw [Disk.at?_put_of_free hfree, if_pos rfl]

/-- What has become of files that were written: each holds its text, each has a snapshot with what
it held before, and everything else is as it was. -/
structure Wrote (root : Path) (run : String) (disk : Disk) (files : List (String × List Char))
    (later : Disk) : Prop where
  spares : Spares root run (files.map Prod.fst) disk later
  holds : ∀ pair ∈ files,
    later.at? (placeOf root pair.1) = some (.file (Text.Utf8.encode pair.2))
  shelved : ∀ pair ∈ files, ∃ bytes, disk.at? (placeOf root pair.1) = some (.file bytes) ∧
    later.at? (shelfOf root run pair.1) = some (.file bytes)

/-- Files that are written one after the other do not get in each other's way: the directories that
one snapshot needs never stand where another is to be. -/
theorem Writes.wrote (h : Writes root run disk files later) (hroot : root.IsResolved)
    (hrun : IsSegment run) (hnodup : (files.map Prod.fst).Nodup)
    (hwritable : ∀ pair ∈ files, ∃ names, Writable names pair.1)
    (hfree : ∀ pair ∈ files, disk.at? (shelfOf root run pair.1) ≠ some .directory) :
    Wrote root run disk files later := by
  suffices hboth : Spares root run (files.map Prod.fst) disk later ∧
      ∀ pair ∈ files, ∃ bytes, disk.at? (placeOf root pair.1) = some (.file bytes) ∧
        later.at? (shelfOf root run pair.1) = some (.file bytes) from
    ⟨hboth.1, h.holds hrun hnodup hwritable, hboth.2⟩
  induction h with
  | nil disk => exact ⟨fun _ _ => .inl rfl, by simp⟩
  | @cons disk shelved later file text files hshelves hplace hrest ih =>
    obtain ⟨⟨names, hnames⟩, hothers⟩ := forall_mem_cons.1 hwritable
    obtain ⟨hfreeFile, hfreeRest⟩ := forall_mem_cons.1 hfree
    rw [map_cons, nodup_cons] at hnodup
    obtain ⟨hspares, bytes, hbytes, hsnapshot⟩ :=
      hshelves.spares hroot hrun hnames hfreeFile hplace (Text.Utf8.encode text)
    have hapart : ∀ pair ∈ files, ∃ others, Writable others pair.1 ∧ pair.1 ≠ file ∧
        Apart root file pair.1 := by
      intro pair hpair
      obtain ⟨others, hother⟩ := hothers pair hpair
      have hne : pair.1 ≠ file := fun heq => hnodup.1 (mem_map.2 ⟨pair, hpair, heq⟩)
      exact ⟨others, hother, hne, Writes.apart hshelves hplace hrest hroot hnames.toSpells
        hother.toSpells hpair hne⟩
    -- the directories that the first file needs are not where another snapshot is to be
    have hfreeOthers : ∀ pair ∈ files, (shelved.put (placeOf root file)
        (.file (Text.Utf8.encode text))).at? (shelfOf root run pair.1) ≠ some .directory := by
      intro pair hpair hdirectory
      obtain ⟨others, hother, -, hpairApart⟩ := hapart pair hpair
      have hleads := hpairApart.not_below hrun hnames.toSpells hother.toSpells (prefix_refl _)
      have hshelf : Elsewhere root run [file] (shelfOf root run pair.1) := by
        rintro _ (_ | ⟨_, ⟨⟩⟩)
        exact ⟨ne_placeOf_of_below hrun hnames hother.toSpells (prefix_refl _),
          fun heq => hleads (heq ▸ prefix_refl _)⟩
      rcases hspares _ hshelf with hsame | ⟨-, -, _, hmem, habove⟩
      · exact hfreeRest pair hpair (hsame ▸ hdirectory)
      · exact hleads (mem_singleton.1 hmem ▸ habove)
    obtain ⟨hrestSpares, hshelved⟩ := ih hnodup.2 hothers hfreeOthers
    refine ⟨hspares.trans hrestSpares,
      forall_mem_cons.2 ⟨⟨bytes, hbytes, ?_⟩, fun pair hpair => ?_⟩⟩
    · refine (hrest.stays fun pair hpair => ?_).at?_eq hsnapshot
      obtain ⟨others, hother, -, hpairApart⟩ := hapart pair hpair
      exact ⟨ne_placeOf_of_below hrun hother hnames.toSpells (prefix_refl _),
        hpairApart.not_below hrun hnames.toSpells hother.toSpells (prefix_refl _)⟩
    · obtain ⟨held, hheld, hlater⟩ := hshelved pair hpair
      obtain ⟨others, hother, hne, -⟩ := hapart pair hpair
      exact ⟨held,
        (hshelves.stays_placeOf hplace _ hrun hnames.toSpells hother hne).at?_before hheld, hlater⟩

end Files

end Trim

end Deadwood

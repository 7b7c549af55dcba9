import Deadwood.Deletion
import Deadwood.Proofs.Places

/-!
# What a deletion accounts for

`Deletes` says what can become of one file: it is deleted, the system refuses, or it is left because
it is no file of the project that may be deleted. `DeletesAll` is a run over a list of files. The
disk of a later step is the first disk without some of its files (`Thinned`), so a path leads to
where it led at the beginning and no step can stumble over what an earlier one did. From this the
results of a whole run can be read against the disk before it: the files that are gone are those of
the items that were applied, all of them inside the project and in no protected directory.
-/

set_option autoImplicit false

namespace Deadwood.Deletion

open Relative List

/-! ## Files that may be deleted -/

/-- A path leads to a file of the project that is in no protected directory: `inside` is its path
from the root and `place` is where it stands. -/
structure Targets (root : Path) (disk : Disk) (file inside : String) (place : Place) : Prop where
  inside_eq : (root.child file).inProject? root disk.here = some inside
  unprotected : Ignore.isProtected file = false
  located : disk.locate (root.child file) = .ok place
  isFile : ∃ bytes, disk.at? place = some (.file bytes)

variable {root : Path} {disk later last : Disk} {file inside : String} {place : Place}
  {refusal : String → Option String}

theorem Targets.exists_rest (hroot : root.IsResolved) (h : Targets root disk file inside place) :
    ∃ rest, place = root.parts ++ rest ∧ collapse true (root.child file).parts = place ∧
      inside = normalize (Path.toString ⟨0, rest⟩) := by
  obtain ⟨rest, hrest, hinside⟩ := Path.exists_rest_of_inProject? hroot h.inside_eq
  have hplace : place = collapse true (root.child file).parts :=
    Disk.eq_collapse_of_locate (Path.isAbsolute_child hroot file)
      (fun part hpart => Path.ne_of_mem_child hroot hpart) h.located
  exact ⟨rest, hplace.trans hrest, hplace.symm, hinside⟩

variable {inside' : String} {bytes : List UInt8} {result : Except Disk.Cause Place} {path : Path}
  {gate : Gate}

/-- The path of a file from the root depends on its place only, however it is spelled. -/
theorem Targets.inside_unique {file' : String} (hroot : root.IsResolved)
    (h : Targets root disk file inside place) (h' : Targets root later file' inside' place) :
    inside' = inside := by
  obtain ⟨rest, hplace, -, hinside⟩ := h.exists_rest hroot
  obtain ⟨rest', hplace', -, hinside'⟩ := h'.exists_rest hroot
  rw [hplace', append_cancel_left_eq] at hplace
  rw [hinside, hinside', hplace]

/-- A file that may be deleted lies inside the project and in no protected directory. -/
theorem Targets.confined (hroot : root.IsResolved) (hslash : '\\' ∉ file.toList)
    (h : Targets root disk file inside place) :
    ∃ rest, place = root.parts ++ rest ∧ ∀ name ∈ rest.dropLast, name ∉ Ignore.protectedNames := by
  obtain ⟨rest, hplace, hcollapse, -⟩ := h.exists_rest hroot
  refine ⟨rest, hplace, fun name hname => ?_⟩
  exact Path.not_mem_protectedNames hroot hslash h.unprotected (hcollapse.trans hplace) hname

/-! ## Disks without some of their files -/

/-- The disk `later` is `disk` without some of its files. -/
structure Thinned (disk later : Disk) : Prop where
  here_eq : later.here = disk.here
  same_or_gone : ∀ place, later.at? place = disk.at? place ∨
    later.at? place = none ∧ ∃ bytes, disk.at? place = some (.file bytes)

theorem Thinned.refl (disk : Disk) : Thinned disk disk := ⟨rfl, fun _ => .inl rfl⟩

theorem Thinned.trans (h : Thinned disk later) (h' : Thinned later last) : Thinned disk last where
  here_eq := h'.here_eq.trans h.here_eq
  same_or_gone := by
    intro place
    rcases h'.same_or_gone place with hsame | ⟨hgone, bytes, hfile⟩
    · rw [hsame]
      exact h.same_or_gone place
    · right
      rcases h.same_or_gone place with hsame | ⟨hnone, -⟩
      · exact ⟨hgone, bytes, hsame ▸ hfile⟩
      · rw [hnone] at hfile
        cases hfile

theorem thinned_erase (h : disk.at? place = some (.file bytes)) :
    Thinned disk (disk.erase place) where
  here_eq := rfl
  same_or_gone := by
    intro other
    rw [Disk.at?_erase (Disk.ne_nil_of_file h)]
    split
    · rename_i heq
      exact .inr ⟨rfl, bytes, heq ▸ h⟩
    · exact .inl rfl

section

variable (h : Thinned disk later)
include h

/-- A path leads through directories, and those are all there. So it leads to the same place, and it
is too long for the one disk if it is too long for the other. -/
theorem Thinned.locate_iff (path : Path)
    (hresult : result = .error .tooLong ∨ ∃ target, result = .ok target) :
    later.locate path = result ↔ disk.locate path = result := by
  have hkept : ∀ place,
      later.at? place = some .directory ↔ disk.at? place = some .directory := by
    intro place
    rcases h.same_or_gone place with hsame | ⟨hgone, bytes, hfile⟩
    · rw [hsame]
    · simp [hgone, hfile]
  exact ⟨Disk.locate_of_directories h.here_eq.symm (fun place => (hkept place).1) hresult,
    Disk.locate_of_directories h.here_eq (fun place => (hkept place).2) hresult⟩

/-- A file that may be deleted could have been deleted before. -/
theorem Thinned.targets (htargets : Targets root later file inside place) :
    Targets root disk file inside place where
  inside_eq := h.here_eq ▸ htargets.inside_eq
  unprotected := htargets.unprotected
  located := (h.locate_iff _ (.inr ⟨place, rfl⟩)).1 htargets.located
  isFile := by
    obtain ⟨bytes, hfile⟩ := htargets.isFile
    rcases h.same_or_gone place with hsame | ⟨hgone, -⟩
    · exact ⟨bytes, hsame ▸ hfile⟩
    · rw [hgone] at hfile
      cases hfile

/-- A file that is still there may still be deleted. -/
theorem Thinned.targets_later (hsame : later.at? place = disk.at? place)
    (htargets : Targets root disk file inside place) : Targets root later file inside place where
  inside_eq := h.here_eq.symm ▸ htargets.inside_eq
  unprotected := htargets.unprotected
  located := (h.locate_iff _ (.inr ⟨place, rfl⟩)).2 htargets.located
  isFile := hsame ▸ htargets.isFile

end

/-! ## One file -/

/-- What can become of one file. -/
inductive Deletes (root : Path) (refusal : String → Option String) (disk : Disk) (file : String) :
    Outcome → Option String → Disk → Prop
  | applied {inside : String} {place : Place} (h : Targets root disk file inside place)
      (hnone : refusal inside = none) :
      Deletes root refusal disk file .applied none (disk.erase place)
  | failed {inside message : String} {place : Place} (h : Targets root disk file inside place)
      (hsome : refusal inside = some message) :
      Deletes root refusal disk file .failed (some message) disk
  | skipped {error : Option String} (h : ∀ inside place, ¬ Targets root disk file inside place) :
      Deletes root refusal disk file .skipped error disk

/-- Whether a file stands at a path that is not too long. -/
theorem exists_isFile (hlong : disk.locate path ≠ .error .tooLong) :
    ∃ found, disk.isFile path = .ok found ∧ (found ↔
      ∃ place bytes, disk.locate path = .ok place ∧ disk.at? place = some (.file bytes)) := by
  unfold Disk.isFile Disk.node?
  cases hlocate : disk.locate path with
  | error cause =>
    cases cause with
    | tooLong => exact absurd hlocate hlong
    | missing | notDirectory | isDirectory | «exists» | zeroCharacter | sameFile =>
      exact ⟨false, rfl, by simp⟩
  | ok place =>
    simp only [bind, Except.bind]
    cases hnode : disk.at? place with
    | none => exact ⟨false, rfl, by simp [hnode]⟩
    | some node =>
      cases node with
      | directory => exact ⟨false, rfl, by simp [hnode]⟩
      | file bytes => exact ⟨true, rfl, by simp [hnode]⟩

theorem remove_eq (hlocate : disk.locate path = .ok place)
    (hfile : disk.at? place = some (.file bytes)) : disk.remove path = .ok (disk.erase place) := by
  unfold Disk.remove
  simp only [hlocate, hfile]

theorem exists_deletes (refusal : String → Option String)
    (hlong : disk.locate (root.child file) ≠ .error .tooLong) :
    ∃ outcome error later,
      deleteFile root refusal (.text file) disk = .ok ((outcome, error), later) ∧
      Deletes root refusal disk file outcome error later := by
  have hname : ofFault (Value.asText (.text file)) = .ok file := rfl
  unfold deleteFile
  simp only [hname, bind, Except.bind]
  cases hinside : (root.child file).inProject? root disk.here with
  | none =>
    refine ⟨_, _, _, rfl, .skipped fun inside place htargets => ?_⟩
    rw [htargets.inside_eq] at hinside
    cases hinside
  | some inside =>
    cases hprotected : Ignore.isProtected file with
    | true =>
      refine ⟨_, _, _, rfl, .skipped fun inside place htargets => ?_⟩
      rw [htargets.unprotected] at hprotected
      cases hprotected
    | false =>
      obtain ⟨found, hisFile, hfound⟩ := exists_isFile hlong
      simp only [hisFile, ofDisk, Except.mapError]
      cases found with
      | false =>
        refine ⟨_, _, _, rfl, .skipped fun inside place htargets => ?_⟩
        obtain ⟨bytes, hfile⟩ := htargets.isFile
        exact absurd (hfound.2 ⟨place, bytes, htargets.located, hfile⟩) (by decide)
      | true =>
        obtain ⟨place, bytes, hlocate, hfile⟩ := hfound.1 rfl
        have htargets : Targets root disk file inside place :=
          ⟨hinside, hprotected, hlocate, bytes, hfile⟩
        simp only [remove_eq hlocate hfile]
        cases hrefusal : refusal inside with
        | some message => exact ⟨_, _, _, rfl, .failed htargets hrefusal⟩
        | none => exact ⟨_, _, _, rfl, .applied htargets hrefusal⟩

/-- One file leaves the disk as it is, or thins it by the file. -/
theorem Deletes.thinned {outcome : Outcome} {error : Option String}
    (h : Deletes root refusal disk file outcome error later) : Thinned disk later := by
  cases h with
  | applied h hnone =>
    obtain ⟨bytes, hfile⟩ := h.isFile
    exact thinned_erase hfile
  | failed h hsome => exact .refl disk
  | skipped h => exact .refl disk

/-- A file that the system will not delete is not deleted under another name either. -/
theorem Deletes.keeps_refused {outcome : Outcome} {error : Option String} {other message : String}
    (hroot : root.IsResolved) (h : Deletes root refusal disk file outcome error later)
    (htargets : Targets root disk other inside place) (hsome : refusal inside = some message) :
    later.at? place = disk.at? place := by
  cases h with
  | failed | skipped => rfl
  | @applied inside' place' h hnone =>
    obtain ⟨bytes, hfile⟩ := h.isFile
    rw [Disk.at?_erase (Disk.ne_nil_of_file hfile), if_neg]
    rintro rfl
    rw [htargets.inside_unique hroot h, hsome] at hnone
    cases hnone

/-! ## All files -/

/-- What can become of a list of files, one after the other. -/
inductive DeletesAll (root : Path) (refusal : String → Option String) :
    Disk → List String → List Item → Disk → Prop
  | nil {disk : Disk} : DeletesAll root refusal disk [] [] disk
  | cons {disk middle later : Disk} {file : String} {files : List String} {items : List Item}
      {outcome : Outcome} {error : Option String}
      (first : Deletes root refusal disk file outcome error middle)
      (others : DeletesAll root refusal middle files items later) :
      DeletesAll root refusal disk (file :: files)
        ({ file := .text file, outcome, error := .textOrNull error } :: items) later

theorem exists_deletesAll (refusal : String → Option String) {files : List String}
    (hlong : ∀ file ∈ files, disk.locate (root.child file) ≠ .error .tooLong) :
    ∃ items later, deleteFiles root refusal disk (files.map .text) = (.ok items, later) ∧
      DeletesAll root refusal disk files items later := by
  induction files generalizing disk with
  | nil => exact ⟨[], disk, rfl, .nil⟩
  | cons file files ih =>
    obtain ⟨outcome, error, middle, hfile, hdeletes⟩ :=
      exists_deletes refusal (hlong file mem_cons_self)
    -- what was short enough before is so on the thinner disk
    have hlater : ∀ other ∈ files, middle.locate (root.child other) ≠ .error .tooLong := by
      intro other hother htoo
      rw [hdeletes.thinned.locate_iff _ (.inl rfl)] at htoo
      exact hlong other (mem_cons_of_mem _ hother) htoo
    obtain ⟨items, later, hfiles, hall⟩ := ih hlater
    refine ⟨_, later, ?_, .cons hdeletes hall⟩
    rw [map_cons, deleteFiles, hfile]
    simp only [hfiles, Except.map]

/-- The item is about the file at `place`, whose path from the root is `inside`. -/
def Item.Targets (item : Item) (root : Path) (disk : Disk) (inside : String) (place : Place) :
    Prop :=
  ∃ file, item.file = .text file ∧ Deletion.Targets root disk file inside place

/-- How the results of a run account for what has become of a disk. -/
structure Accounts (root : Path) (refusal : String → Option String) (disk later : Disk)
    (files : List String) (items : List Item) : Prop where
  /-- There is one item for each file, in the order of the files. -/
  files_eq : items.map Item.file = files.map .text
  /-- What has changed are the files of the items that were applied. -/
  changed_iff : ∀ place, later.at? place ≠ disk.at? place ↔
    ∃ item ∈ items, item.outcome = .applied ∧ ∃ inside, item.Targets root disk inside place
  /-- What has changed is gone. -/
  gone : ∀ place, later.at? place ≠ disk.at? place → later.at? place = none
  /-- What has changed lies inside the project and in no protected directory. -/
  confined : ∀ place, later.at? place ≠ disk.at? place → ∃ rest, place = root.parts ++ rest ∧
    ∀ name ∈ rest.dropLast, name ∉ Ignore.protectedNames
  /-- An item that was applied is about a file. -/
  applied : ∀ item ∈ items, item.outcome = .applied →
    ∃ inside place, item.Targets root disk inside place ∧ refusal inside = none
  /-- An item fails exactly if the system will not delete its file. -/
  failed_iff : ∀ item ∈ items, item.outcome = .failed ↔
    ∃ inside place message, item.Targets root disk inside place ∧ refusal inside = some message
  /-- The file of an item that failed is still there. -/
  kept : ∀ item ∈ items, ∀ inside place message, item.Targets root disk inside place →
    refusal inside = some message →
      item.error = .text message ∧ later.at? place = disk.at? place

/-- An item is about one file at most. -/
theorem Item.Targets.unique {item : Item} {place' : Place} (h : item.Targets root disk inside place)
    (h' : item.Targets root disk inside' place') : inside' = inside ∧ place' = place := by
  obtain ⟨file, hfile, htargets⟩ := h
  obtain ⟨file', hfile', htargets'⟩ := h'
  obtain rfl : file' = file := by
    rw [hfile] at hfile'
    exact (Value.text.inj hfile').symm
  constructor
  · exact Option.some.inj (htargets'.inside_eq.symm.trans htargets.inside_eq)
  · exact Except.ok.inj (htargets'.located.symm.trans htargets.located)

section Run

variable {files : List String} {items : List Item}

theorem DeletesAll.thinned (h : DeletesAll root refusal disk files items later) :
    Thinned disk later := by
  induction h with
  | nil => exact .refl _
  | cons first others ih => exact first.thinned.trans ih

theorem DeletesAll.files_eq (h : DeletesAll root refusal disk files items later) :
    items.map Item.file = files.map .text := by
  induction h with
  | nil => rfl
  | cons first others ih => rw [map_cons, map_cons, ih]

/-- No file of a run deletes what the system refuses to delete. -/
theorem DeletesAll.keeps_refused {other message : String} (hroot : root.IsResolved)
    (h : DeletesAll root refusal disk files items later)
    (htargets : Targets root disk other inside place) (hsome : refusal inside = some message) :
    later.at? place = disk.at? place := by
  induction h with
  | nil => rfl
  | cons first others ih =>
    have hmiddle := first.keeps_refused hroot htargets hsome
    rw [ih (first.thinned.targets_later hmiddle htargets), hmiddle]

/-- What a run changes is the file of an item that was applied. -/
theorem DeletesAll.exists_applied (h : DeletesAll root refusal disk files items later)
    (hchanged : later.at? place ≠ disk.at? place) :
    ∃ item ∈ items, item.outcome = .applied ∧ ∃ inside, item.Targets root disk inside place := by
  induction h with
  | nil => exact absurd rfl hchanged
  | @cons disk middle later file files items outcome error first others ih =>
    by_cases hmiddle : middle.at? place = disk.at? place
    · -- the change is that of a later file
      rw [← hmiddle] at hchanged
      obtain ⟨item, hitem, happlied, inside, other, hother, htargets⟩ := ih hchanged
      exact ⟨item, mem_cons_of_mem _ hitem, happlied, inside, other, hother,
        first.thinned.targets htargets⟩
    · refine ⟨_, mem_cons_self, ?_⟩
      cases first with
      | failed | skipped => exact absurd rfl hmiddle
      | @applied inside place' htargets hnone =>
        obtain ⟨bytes, hfile⟩ := htargets.isFile
        rw [Disk.at?_erase (Disk.ne_nil_of_file hfile)] at hmiddle
        split at hmiddle
        · rename_i heq
          exact ⟨rfl, inside, file, rfl, heq ▸ htargets⟩
        · exact absurd rfl hmiddle

variable {item : Item}

/-- The file of an item that was applied is gone. -/
theorem DeletesAll.gone_of_applied (h : DeletesAll root refusal disk files items later)
    (hitem : item ∈ items) (happlied : item.outcome = .applied) :
    ∃ inside place, item.Targets root disk inside place ∧ refusal inside = none ∧
      later.at? place = none := by
  induction h with
  | nil => cases hitem
  | @cons disk middle later file files items outcome error first others ih =>
    rcases mem_cons.1 hitem with rfl | hitem
    · cases first with
      | failed | skipped => cases happlied
      | @applied inside place htargets hnone =>
        obtain ⟨bytes, hfile⟩ := htargets.isFile
        have hgone : (disk.erase place).at? place = none := by
          rw [Disk.at?_erase (Disk.ne_nil_of_file hfile), if_pos rfl]
        refine ⟨inside, place, ⟨file, rfl, htargets⟩, hnone, ?_⟩
        rcases others.thinned.same_or_gone place with hsame | ⟨hlater, -⟩
        · exact hsame.trans hgone
        · exact hlater
    · obtain ⟨inside, place, ⟨other, hother, htargets⟩, hnone, hgone⟩ := ih hitem
      exact ⟨inside, place, ⟨other, hother, first.thinned.targets htargets⟩, hnone, hgone⟩

/-- An item fails exactly if the system will not delete its file, and says why. -/
theorem DeletesAll.failed_iff (hroot : root.IsResolved)
    (h : DeletesAll root refusal disk files items later) (hitem : item ∈ items) :
    (item.outcome = .failed ↔ ∃ inside place message, item.Targets root disk inside place ∧
      refusal inside = some message) ∧
    ∀ {inside place message}, item.Targets root disk inside place →
      refusal inside = some message → item.error = .text message := by
  induction h with
  | nil => cases hitem
  | @cons disk middle later file files items outcome error first others ih =>
    rcases mem_cons.1 hitem with rfl | hitem
    · -- the item of this file
      have hfile : ∀ {inside place}, Item.Targets ⟨.text file, outcome, .textOrNull error⟩ root disk
          inside place → Targets root disk file inside place := by
        rintro inside place ⟨other, hother, htargets⟩
        rwa [Value.text.inj hother]
      cases first with
      | @applied inside place htargets hnone =>
        have hfree : ∀ {inside' place' message}, Targets root disk file inside' place' →
            refusal inside' ≠ some message := by
          intro inside' place' message htargets' hsome
          obtain rfl := Option.some.inj (htargets'.inside_eq.symm.trans htargets.inside_eq)
          rw [hnone] at hsome
          cases hsome
        constructor
        · simp only [reduceCtorEq, false_iff]
          rintro ⟨inside', place', message, hitem', hsome⟩
          exact hfree (hfile hitem') hsome
        · intro inside' place' message hitem' hsome
          exact absurd hsome (hfree (hfile hitem'))
      | @failed inside message place htargets hsome =>
        constructor
        · simp only [true_iff]
          exact ⟨inside, place, message, ⟨file, rfl, htargets⟩, hsome⟩
        · intro inside' place' message' hitem' hsome'
          obtain rfl := Option.some.inj ((hfile hitem').inside_eq.symm.trans htargets.inside_eq)
          obtain rfl := Option.some.inj (hsome'.symm.trans hsome)
          rfl
      | skipped hnone =>
        constructor
        · simp only [reduceCtorEq, false_iff]
          rintro ⟨inside', place', message, hitem', -⟩
          exact hnone inside' place' (hfile hitem')
        · intro inside' place' message hitem' _
          exact absurd (hfile hitem') (hnone inside' place')
    · -- the item of a later file: what is refused is still there when its turn comes
      have hmiddle : ∀ {inside place message}, item.Targets root disk inside place →
          refusal inside = some message → item.Targets root middle inside place := by
        rintro inside place message ⟨other, hother, htargets⟩ hsome
        exact ⟨other, hother, first.thinned.targets_later
          (first.keeps_refused hroot htargets hsome) htargets⟩
      obtain ⟨hiff, herror⟩ := ih hitem
      constructor
      · rw [hiff]
        constructor
        · rintro ⟨inside, place, message, ⟨other, hother, htargets⟩, hsome⟩
          exact ⟨inside, place, message, ⟨other, hother, first.thinned.targets htargets⟩, hsome⟩
        · rintro ⟨inside, place, message, htargets, hsome⟩
          exact ⟨inside, place, message, hmiddle htargets hsome, hsome⟩
      · intro inside place message htargets hsome
        exact herror (hmiddle htargets hsome) hsome

/-- The results of a run account for what has become of the disk. -/
theorem DeletesAll.accounts (hroot : root.IsResolved) (hslash : ∀ file ∈ files, '\\' ∉ file.toList)
    (h : DeletesAll root refusal disk files items later) :
    Accounts root refusal disk later files items where
  files_eq := h.files_eq
  changed_iff := by
    intro place
    constructor
    · exact h.exists_applied
    · rintro ⟨item, hitem, happlied, inside, htargets⟩ hsame
      obtain ⟨inside', place', htargets', -, hgone⟩ := h.gone_of_applied hitem happlied
      obtain ⟨-, rfl⟩ := htargets.unique htargets'
      obtain ⟨file, -, hfile⟩ := htargets
      obtain ⟨bytes, hbytes⟩ := hfile.isFile
      rw [← hsame, hgone] at hbytes
      cases hbytes
  gone := by
    intro place hchanged
    rcases h.thinned.same_or_gone place with hsame | ⟨hgone, -⟩
    · exact absurd hsame hchanged
    · exact hgone
  confined := by
    intro place hchanged
    obtain ⟨item, hitem, -, inside, file, hfile, htargets⟩ := h.exists_applied hchanged
    have hmem : file ∈ files := by
      have hitems := mem_map_of_mem (f := Item.file) hitem
      rw [h.files_eq, hfile] at hitems
      obtain ⟨other, hother, heq⟩ := mem_map.1 hitems
      exact Value.text.inj heq ▸ hother
    exact htargets.confined hroot (hslash file hmem)
  applied := by
    intro item hitem happlied
    obtain ⟨inside, place, htargets, hnone, -⟩ := h.gone_of_applied hitem happlied
    exact ⟨inside, place, htargets, hnone⟩
  failed_iff := fun item hitem => (h.failed_iff hroot hitem).1
  kept := by
    intro item hitem inside place message htargets hsome
    refine ⟨(h.failed_iff hroot hitem).2 htargets hsome, ?_⟩
    obtain ⟨file, -, hfile⟩ := htargets
    exact h.keeps_refused hroot hfile hsome

end Run

/-! ## Whole runs -/

theorem droppable_map (report : Report String) : (report.map Value.text).droppable.map Record.path =
      (report.droppable.map Record.path).map .text := by
  simp only [Report.droppable, Report.view, Report.map, filter_map, map_map]
  rfl

theorem exists_refusal (h : gate.isOpen = false) : ∃ refusal, gate.check = .error refusal := by
  unfold Gate.check
  rw [h]
  cases gate.confirmed with
  | true => exact ⟨_, rfl⟩
  | false => exact ⟨_, rfl⟩

/-- A run looks at the gate and the root, and then deletes. -/
theorem run_eq {directory : Path} {report : Report Value} {surroundings : Surroundings}
    {now : Stamp} {outcome : Except Failure (List Item)} (hopen : gate.isOpen)
    (hresolved : directory.resolved disk.here = .ok root)
    (hdelete : deleteFiles root surroundings.refusal disk (report.droppable.map Record.path) =
      (outcome, later)) :
    (run directory report gate surroundings now).run disk =
      (outcome.map fun items => {
        metadata := metadata root gate now, items, commit := .textOrNull surroundings.commit },
      later) := by
  have hcheck : gate.check = .ok () := if_pos hopen
  simp only [run, Act.run, Act.look, Act.attempt, bind, ExceptT.bind, ExceptT.mk, StateT.bind,
    ExceptT.bindCont, hcheck, Except.mapError, hresolved, hdelete]
  cases outcome with
  | error e => rfl
  | ok items => rfl

/-- With a closed gate a deletion is refused and nothing changes. With an open one it comes to its
end, and its results account for what has become of the disk. -/
theorem run_accounts (directory : Path) (report : Report String) (gate : Gate)
    (surroundings : Surroundings) (now : Stamp) (disk : Disk) : (gate.isOpen = false → ∃ refusal,
      (run directory (report.map .text) gate surroundings now).run disk =
        (.error (.refused refusal), disk)) ∧
    (gate.isOpen = true → ∀ root, directory.resolved disk.here = .ok root →
      (∀ record ∈ report.droppable, '\\' ∉ record.path.toList) →
      (∀ record ∈ report.droppable, disk.locate (root.child record.path) ≠ .error .tooLong) →
      ∃ results later,
        (run directory (report.map .text) gate surroundings now).run disk = (.ok results, later) ∧
        Accounts root surroundings.refusal disk later (report.droppable.map Record.path)
          results.items) := by
  constructor
  · intro hclosed
    obtain ⟨refusal, hcheck⟩ := exists_refusal hclosed
    refine ⟨refusal, ?_⟩
    simp only [run, hcheck]
    rfl
  · intro hopen root hresolved hslash hlong
    have hshort : ∀ file ∈ report.droppable.map Record.path,
        disk.locate (root.child file) ≠ .error .tooLong := forall_mem_map.2 hlong
    obtain ⟨items, later, hdelete, hall⟩ := exists_deletesAll surroundings.refusal hshort
    rw [← droppable_map] at hdelete
    exact ⟨_, later, run_eq hopen hresolved hdelete,
      hall.accounts (Path.isResolved_of_resolved hresolved) (forall_mem_map.2 hslash)⟩

/-! A project with a file that may be deleted, one that the system keeps and one in a protected
directory, beside a file outside. -/

def mixedDisk : Disk where
  nodes := [(["p"], .directory), (["p", "a.ts"], .file []), (["p", "b.ts"], .file []),
    (["p", "vendor"], .directory), (["p", "vendor", "c.ts"], .file []), (["out.ts"], .file [])]

def mixedReport : Report String where
  records :=
    ["a.ts", "../out.ts", "src/../vendor/c.ts", "./b.ts", "/p/a.ts"].map fun path => { path }

def mixedRefusal (path : String) : Option String := if path = "b.ts" then some "busy" else none

theorem run_accounts_mixed : ∃ results later,
    (run ⟨1, ["p"]⟩ (mixedReport.map .text) { confirmed := true, nonInteractive := true }
      { refusal := mixedRefusal } { year := 2026, month := 1, day := 1 }).run mixedDisk =
        (.ok results, later) ∧
    results.items.map Item.outcome = [.applied, .skipped, .skipped, .failed, .skipped] ∧
    Accounts ⟨1, ["p"]⟩ mixedRefusal mixedDisk later (mixedReport.droppable.map Record.path)
      results.items := by
  obtain ⟨results, later, hrun, haccounts⟩ := (run_accounts ⟨1, ["p"]⟩ mixedReport
    { confirmed := true, nonInteractive := true } { refusal := mixedRefusal }
    { year := 2026, month := 1, day := 1 } mixedDisk).2 rfl ⟨1, ["p"]⟩ (by rfl) (by decide +kernel)
    (by decide +kernel)
  have houtcomes : ((run ⟨1, ["p"]⟩ (mixedReport.map .text)
      { confirmed := true, nonInteractive := true } { refusal := mixedRefusal }
      { year := 2026, month := 1, day := 1 }).run mixedDisk).1.toOption.map
        (fun results => results.items.map Item.outcome) =
      some [.applied, .skipped, .skipped, .failed, .skipped] := by decide +kernel
  rw [hrun] at houtcomes
  exact ⟨results, later, hrun, Option.some.inj houtcomes, haccounts⟩

/-! ## Names that are too long -/

section

variable {name : String} (hname : IsName name) (hslash : '/' ∉ name.toList)
  (hback : '\\' ∉ name.toList) (hzero : '\x00' ∉ name.toList)
  (hlong : Disk.maxSegment < name.utf8ByteSize)
include hname hslash hback hzero hlong

/-- A report with a file of the project, and with another name. -/
def pairReport (name : String) : Report String where
  records := [{ path := "a.ts" }, { path := name }]

/-- A name that is too long for the disk ends the run after the file before it is deleted. -/
theorem run_of_long_name :
    (run ⟨1, ["p"]⟩ ((pairReport name).map .text) { confirmed := true, nonInteractive := true } {}
      { year := 2026, month := 1, day := 1 }).run mixedDisk =
        (.error (.disk ⟨.tooLong, (Path.child ⟨1, ["p"]⟩ name).toString⟩),
          mixedDisk.erase ["p", "a.ts"]) := by
  have hchild : Path.child ⟨1, ["p"]⟩ name = ⟨1, ["p", name]⟩ := by
    rw [Path.child, ofString_of_isName hname hslash]
    rfl
  have hfree : Path.hasZero ⟨1, ["p", name]⟩ = false := by simp [Path.hasZero, hzero]
  have hnames : ∀ part ∈ ["p", name], IsName part := by
    simpa [hname] using (by decide : IsName "p")
  have hinside : Path.inProject? ⟨1, ["p", name]⟩ ⟨1, ["p"]⟩ [] =
      some (normalize (Path.toString ⟨0, [name]⟩)) := by
    have hresolve : Path.resolve [] ⟨1, ["p", name]⟩ = ⟨1, ["p", name]⟩ :=
      congrArg (Path.mk 1) (collapse_of_isName hnames)
    rw [Path.inProject?, hfree, hresolve]
    rfl
  have hlocate : (mixedDisk.erase ["p", "a.ts"]).locate ⟨1, ["p", name]⟩ = .error .tooLong := by
    rw [Disk.locate, hfree, if_neg (by decide)]
    split
    · rfl
    · change (if name == ".." then _ else if Disk.maxSegment < name.utf8ByteSize then _ else _) = _
      rw [if_neg (by simpa using hname.2.2), if_pos hlong]
  have hfirst : deleteFile ⟨1, ["p"]⟩ (fun _ => none) (.text "a.ts") mixedDisk =
      .ok ((.applied, none), mixedDisk.erase ["p", "a.ts"]) := by rfl
  have hsecond : deleteFile ⟨1, ["p"]⟩ (fun _ => none) (.text name)
      (mixedDisk.erase ["p", "a.ts"]) =
        .error (.disk ⟨.tooLong, Path.toString ⟨1, ["p", name]⟩⟩) := by
    have hasText : ofFault (Value.asText (.text name)) = .ok name := rfl
    have hhere : (mixedDisk.erase ["p", "a.ts"]).here = [] := rfl
    simp only [deleteFile, hasText, bind, Except.bind, hchild, hhere, hinside,
      isProtected_of_isName hname hslash hback, Disk.isFile, Disk.node?, hlocate]
    rfl
  have hdelete : deleteFiles ⟨1, ["p"]⟩ (fun _ => none) mixedDisk [.text "a.ts", .text name] =
      (.error (.disk ⟨.tooLong, Path.toString ⟨1, ["p", name]⟩⟩),
        mixedDisk.erase ["p", "a.ts"]) := by
    simp only [deleteFiles, hfirst, hsecond, Except.map]
  rw [hchild, run_eq (by rfl) (by rfl) ((congrArg _ (droppable_map _)).trans hdelete)]
  rfl

end

/-- A name with as many letters as bytes. -/
def repeated (n : Nat) : String := String.ofList (replicate n 'n')

theorem not_mem_repeated {c : Char} (h : c ≠ 'n') (n : Nat) : c ∉ (repeated n).toList := by
  rw [repeated, String.toList_ofList]
  exact fun hmem => h (eq_of_mem_replicate hmem)

theorem utf8ByteSize_repeated (n : Nat) : (repeated n).utf8ByteSize = n := by
  unfold repeated
  induction n with
  | zero => rfl
  | succ n ih =>
    have hsize : Char.utf8Size 'n' = 1 := by decide
    rw [replicate_succ, String.ofList_cons, String.utf8ByteSize_append, ih,
      String.utf8ByteSize_singleton, hsize, Nat.add_comm]

theorem isName_repeated {n : Nat} (h : 2 < n) : IsName (repeated n) := by
  have hne : ∀ short : String, short.utf8ByteSize ≤ 2 → repeated n ≠ short := by
    rintro short hshort rfl
    rw [utf8ByteSize_repeated] at hshort
    omega
  exact ⟨hne "" (by decide), hne "." (by decide), hne ".." (by decide)⟩

/-- There are no results when one of two names has 256 bytes, although the file of the other one has
been deleted. -/
theorem long_name_ends_run : ∃ failure later,
    (run ⟨1, ["p"]⟩ ((pairReport (repeated 256)).map .text)
      { confirmed := true, nonInteractive := true } {}
      { year := 2026, month := 1, day := 1 }).run mixedDisk = (.error failure, later) ∧
    mixedDisk.at? ["p", "a.ts"] = some (.file []) ∧ later.at? ["p", "a.ts"] = none := by
  have hlong : Disk.maxSegment < (repeated 256).utf8ByteSize := by
    rw [utf8ByteSize_repeated]
    decide
  exact ⟨_, _, run_of_long_name (isName_repeated (by decide)) (not_mem_repeated (by decide) 256)
    (not_mem_repeated (by decide) 256) (not_mem_repeated (by decide) 256) hlong,
    by decide +kernel, by decide +kernel⟩

end Deadwood.Deletion

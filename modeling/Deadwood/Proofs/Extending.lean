import Deadwood.Proofs.Indexing
import Deadwood.Proofs.Places
import Mathlib.Data.List.Perm.Subperm
import Mathlib.Logic.Relation

/-!
# Configurations that extend others

A configuration may extend several others, and these may extend others again. Unfolded from the
configuration that was chosen, this gives a tree with one node for each route (`unfolding`). The
tree is read from the top, and a file that was read before ends the reading. So loading fails for a
circle exactly if some file stands twice in the tree (`load_circular_iff`). It does if the
configurations extend each other in a circle, and it also does if two of them share a parent
(`shared_parent_is_circular`).
-/

set_option autoImplicit false

namespace Deadwood.Alias

open Relation List

variable {disk : Disk} {path config parent : Path} {depth : Nat} {seen visited : List Path}

/-! ## The tree of a configuration -/

/-- The files that a configuration extends. -/
def parents (disk : Disk) (path : Path) : List Path :=
  match readTable disk path with
  | .ok config => (parentsOf config).filterMap fun name =>
    (parentPath disk.here path name).toOption
  | .error _ => []

/-- A configuration extends another one. -/
def Extends (disk : Disk) (config parent : Path) : Prop := parent ∈ parents disk config

/-- The files that are reached from a configuration in fewer than `depth` steps, once for each
route. -/
def unfolding (disk : Disk) : (depth : Nat) → Path → List Path
  | 0, _ => []
  | depth + 1, path => path.resolve disk.here :: (parents disk path).flatMap (unfolding disk depth)

/-- A configuration can be read, its own options are a table if they are set, and all that it
extends by a relative path is there. -/
def isSound (disk : Disk) (path : Path) : Bool :=
  match readTable disk path with
  | .error _ => false
  | .ok config =>
    (config.member? "compilerOptions").all (fun own => !own.isSet || own.isTable) &&
      (parentsOf config).all fun name =>
        match parentPath disk.here path name with
        | .error _ => false
        | .ok parent => (disk.isFile parent).toOption == some true

/-- Loading has failed for a circle. -/
def IsCircular {α : Type} (result : Except Failure α) : Prop :=
  ∃ text, result = .error (.config (.circular text))

theorem exists_of_isSound (h : isSound disk path) : ∃ config, readTable disk path = .ok config ∧
      (∀ own, config.member? "compilerOptions" = some own → own.isSet = false ∨ own.isTable) ∧
      ∀ name ∈ parentsOf config, ∃ parent, parentPath disk.here path name = .ok parent ∧
        disk.isFile parent = .ok true := by
  unfold isSound at h
  split at h
  · cases h
  · rename_i config hread
    rw [Bool.and_eq_true, all_eq_true] at h
    refine ⟨config, hread, fun own hown => ?_, fun name hname => ?_⟩
    · rw [hown] at h
      simpa using h.1
    · have hname := h.2 name hname
      split at hname
      · cases hname
      · rename_i parent hparent
        refine ⟨parent, hparent, ?_⟩
        cases hfile : disk.isFile parent with
        | error e =>
          rw [hfile] at hname
          cases hname
        | ok found => simpa [hfile, Except.toOption] using hname

theorem unfolding_sublist (disk : Disk) (depth : Nat) (path : Path) :
    (unfolding disk depth path).Sublist (unfolding disk (depth + 1) path) := by
  induction depth generalizing path with
  | zero => exact nil_sublist _
  | succ depth ih =>
    refine Sublist.cons_cons _ ?_
    induction parents disk path with
    | nil => exact .refl _
    | cons parent rest ihrest => exact (ih parent).append ihrest

theorem unfolding_sublist_of_le (disk : Disk) {deeper : Nat} (h : depth ≤ deeper) (path : Path) :
    (unfolding disk depth path).Sublist (unfolding disk deeper path) := by
  induction deeper, h using Nat.le_induction with
  | base => exact .refl _
  | succ deeper _ ih => exact ih.trans (unfolding_sublist disk deeper path)

theorem unfolding_sublist_of_mem (depth : Nat) (h : parent ∈ parents disk path) :
    (unfolding disk depth parent).Sublist ((parents disk path).flatMap (unfolding disk depth)) :=
  sublist_flatten_of_mem (mem_map_of_mem h)

/-- What is reached has its tree inside of the whole tree. -/
theorem exists_sublist_of_reach (h : ReflTransGen (Extends disk) path config) (depth : Nat) :
    ∃ deeper, (unfolding disk depth config).Sublist (unfolding disk deeper path) := by
  induction h using ReflTransGen.head_induction_on with
  | refl => exact ⟨depth, .refl _⟩
  | head hstep _ ih =>
    obtain ⟨deeper, hsub⟩ := ih
    have hparent := hsub.trans (unfolding_sublist_of_mem deeper hstep)
    exact ⟨deeper + 1, hparent.trans (sublist_cons_self _ _)⟩

/-- A configuration that is reached from itself stands twice in its tree. -/
theorem exists_not_nodup_of_circle {again : Path} (h : TransGen (Extends disk) config again)
    (heq : again.resolve disk.here = config.resolve disk.here) :
    ∃ depth, ¬ (unfolding disk depth config).Nodup := by
  obtain ⟨parent, hparent, hreach⟩ := TransGen.head'_iff.1 h
  obtain ⟨depth, hsub⟩ := exists_sublist_of_reach hreach 1
  refine ⟨depth + 1, fun hnodup => (nodup_cons.1 hnodup).1 ?_⟩
  apply (unfolding_sublist_of_mem _ hparent).subset
  apply hsub.subset
  rw [← heq]
  exact mem_cons_self

/-! ## Files -/

/-- The paths of what stands on the disk. -/
def placesOf (disk : Disk) : List Path := disk.nodes.map fun node => ⟨1, node.1⟩

/-- An absolute path without empty segments. -/
def IsTidy (path : Path) : Prop :=
  path.isAbsolute = true ∧ ∀ part ∈ path.parts, part ≠ "" ∧ part ≠ "."

theorem isTidy_of_isResolved (h : path.IsResolved) : IsTidy path :=
  ⟨h.isAbsolute_eq, fun part hpart => ⟨(h.names part hpart).1, (h.names part hpart).2.1⟩⟩

theorem isResolved_of_parentPath {here : Place} {name : String}
    (h : parentPath here path name = .ok parent) : parent.IsResolved := by
  obtain ⟨target, htarget, h⟩ := bind_eq_ok_iff.1 h
  have hresolved := Path.isResolved_of_resolved htarget
  split at h
  · cases h
    exact hresolved
  · rw [Path.withName?] at h
    split at h
    · rename_i hnamed
      cases h
      split at hnamed
      · cases hnamed
      · cases hnamed
        refine ⟨hresolved.slashes_eq, fun part hpart => ?_⟩
        rcases mem_append.1 hpart with hfront | hlast
        · exact hresolved.names part (mem_of_mem_dropLast hfront)
        · obtain rfl := mem_singleton.1 hlast
          have hlength : 5 ≤ (target.name ++ ".json").length := by
            rw [String.length_append]
            exact Nat.le_add_left ..
          refine ⟨?_, ?_, ?_⟩
          all_goals
            intro heq
            rw [heq] at hlength
            exact absurd hlength (by decide)
    · cases h

theorem isTidy_of_mem_parents (h : parent ∈ parents disk path) : IsTidy parent := by
  unfold parents at h
  split at h
  · obtain ⟨name, -, hparent⟩ := mem_filterMap.1 h
    cases hpath : parentPath disk.here path name with
    | error e =>
      rw [hpath] at hparent
      cases hparent
    | ok found =>
      rw [hpath] at hparent
      cases hparent
      exact isTidy_of_isResolved (isResolved_of_parentPath hpath)
  · cases h

/-- A configuration that can be read is a file of the disk. -/
theorem mem_placesOf (htidy : IsTidy path) (h : isSound disk path) :
    path.resolve disk.here ∈ placesOf disk := by
  obtain ⟨config, hread, -⟩ := exists_of_isSound h
  obtain ⟨bytes, hbytes⟩ : ∃ bytes, disk.read path = .ok bytes := by
    cases hbytes : disk.read path with
    | ok bytes => exact ⟨bytes, rfl⟩
    | error e =>
      rw [readTable, Disk.readText, hbytes] at hread
      simp only [failDisk] at hread
      split at hread <;> cases hread
  unfold Disk.read at hbytes
  split at hbytes
  · cases hbytes
  · rename_i place hlocate
    split at hbytes
    · rename_i hat
      have hne := Disk.ne_nil_of_file hat
      rw [Disk.at?_of_ne_nil disk hne] at hat
      rw [Path.resolve, htidy.1, if_pos rfl, ← Disk.eq_collapse_of_locate htidy.1 htidy.2 hlocate]
      obtain ⟨front, back, heq, -⟩ := lookup_eq_some_iff.1 hat
      rw [placesOf, heq]
      simp
    · cases hbytes
    · cases hbytes

/-- Everything that is reached from a configuration is sound. -/
def IsSettled (disk : Disk) (path : Path) : Prop :=
  ∀ config, ReflTransGen (Extends disk) path config → isSound disk config = true

theorem IsSettled.of_mem (h : IsSettled disk path) (hparent : parent ∈ parents disk path) :
    IsSettled disk parent :=
  fun config hreach => h config (.head hparent hreach)

theorem unfolding_subset (htidy : IsTidy path) (h : IsSettled disk path) (depth : Nat) :
    unfolding disk depth path ⊆ placesOf disk := by
  induction depth generalizing path with
  | zero => exact nil_subset _
  | succ depth ih =>
    refine cons_subset.2 ⟨mem_placesOf htidy (h path .refl), fun place hplace => ?_⟩
    obtain ⟨parent, hparent, hmem⟩ := mem_flatMap.1 hplace
    exact ih (isTidy_of_mem_parents hparent) (h.of_mem hparent) hmem

/-- The files that were read, with steps left for all that were not. -/
structure Spares (disk : Disk) (fuel : Nat) (seen : List Path) : Prop where
  nodup : seen.Nodup
  places : seen ⊆ placesOf disk
  spare : disk.nodes.length < fuel + seen.length

variable {fuel : Nat} {paths : List Path} {root : Path} {asked : Option String}

theorem Spares.pos (h : Spares disk fuel seen) : 0 < fuel := by
  have hle := (subperm_of_subset h.nodup h.places).length_le
  rw [placesOf, length_map] at hle
  have := h.spare
  omega

theorem Spares.append (h : Spares disk fuel seen) (hnodup : (visited ++ seen).Nodup)
    (hplaces : visited ⊆ placesOf disk) : Spares disk fuel (visited ++ seen) where
  nodup := hnodup
  places := append_subset.2 ⟨hplaces, h.places⟩
  spare := by
    have := h.spare
    rw [length_append]
    omega

theorem Spares.cons (h : Spares disk (fuel + 1) seen) (hpath : path ∈ placesOf disk)
    (hnew : path ∉ seen) : Spares disk fuel (path :: seen) where
  nodup := nodup_cons.2 ⟨hnew, h.nodup⟩
  places := cons_subset.2 ⟨hpath, h.places⟩
  spare := by
    have := h.spare
    rw [length_cons]
    omega

/-- No file stands more than once on a way down, so a tree without repetition has an end. -/
theorem unfolding_eq (htidy : IsTidy path) (h : IsSettled disk path)
    (hspares : Spares disk depth seen) (hnodup : (unfolding disk depth path ++ seen).Nodup) :
    unfolding disk (depth + 1) path = unfolding disk depth path := by
  induction depth generalizing path seen with
  | zero => exact absurd hspares.pos (Nat.lt_irrefl 0)
  | succ depth ih =>
    have hmiddle := perm_middle.nodup_iff.2 hnodup
    have hspares := hspares.cons (mem_placesOf htidy (h path .refl)) fun hmem => ?_
    · refine congrArg (path.resolve disk.here :: ·) (flatMap_congr fun parent hparent => ?_)
      apply ih (isTidy_of_mem_parents hparent) (h.of_mem hparent) hspares
      exact hmiddle.sublist ((unfolding_sublist_of_mem depth hparent).append (.refl _))
    · exact (nodup_cons.1 hnodup).1 (mem_append_right _ hmem)

/-- Some tree repeats a file exactly if the tree does that is as deep as the disk has nodes. -/
theorem exists_not_nodup_iff (htidy : IsTidy path) (h : IsSettled disk path)
    (hfuel : disk.nodes.length < fuel) :
    (∃ depth, ¬ (unfolding disk depth path).Nodup) ↔ ¬ (unfolding disk fuel path).Nodup := by
  have heq : ∀ deeper, fuel ≤ deeper → (unfolding disk fuel path).Nodup →
      unfolding disk deeper path = unfolding disk fuel path := by
    intro deeper hle hnodup
    induction deeper, hle using Nat.le_induction with
    | base => rfl
    | succ deeper hle ih =>
      rw [← ih] at hnodup ⊢
      refine unfolding_eq htidy h ⟨nodup_nil, nil_subset _, ?_⟩ (by rwa [append_nil])
      exact Nat.lt_of_lt_of_le hfuel hle
  refine ⟨?_, fun hnot => ⟨fuel, hnot⟩⟩
  rintro ⟨depth, hdepth⟩ hnodup
  apply hdepth
  rcases Nat.le_total depth fuel with hle | hle
  · exact hnodup.sublist (unfolding_sublist_of_le disk hle path)
  · rwa [heq depth hle hnodup]

/-! ## Reading the tree -/

/-- Reading files ends with all of them seen, if none of them comes twice, and for a circle
otherwise. -/
def Reads {α : Type} (result : Except Failure (α × List Path)) (visited seen : List Path) : Prop :=
  (∃ a, result = .ok (a, visited.reverse ++ seen)) ∧ (visited ++ seen).Nodup ∨
    IsCircular result ∧ ¬ (visited ++ seen).Nodup

theorem Reads.isCircular_iff {α : Type} {result : Except Failure (α × List Path)}
    (h : Reads result visited seen) : IsCircular result ↔ ¬ (visited ++ seen).Nodup := by
  rcases h with ⟨⟨a, rfl⟩, hnodup⟩ | ⟨hcircular, htwice⟩
  · exact iff_of_false nofun (not_not_intro hnodup)
  · exact iff_of_true hcircular htwice

theorem perm_reverse_append (visited next seen : List Path) :
    (next ++ (visited.reverse ++ seen)).Perm (visited ++ next ++ seen) := by
  rw [← append_assoc]
  exact (perm_append_comm.trans ((reverse_perm visited).append_right next)).append_right seen

/-- Files that are read one after the other. -/
theorem Reads.bind {α β : Type} {first : Except Failure (α × List Path)} {next : List Path}
    {f : α × List Path → Except Failure (β × List Path)} (h : Reads first visited seen)
    (hf : ∀ a, (visited ++ seen).Nodup →
      Reads (f (a, visited.reverse ++ seen)) next (visited.reverse ++ seen)) :
    Reads (first >>= f) (visited ++ next) seen := by
  have hperm := (perm_reverse_append visited next seen).nodup_iff
  rcases h with ⟨⟨a, rfl⟩, hnodup⟩ | ⟨⟨text, rfl⟩, htwice⟩
  · rcases hf a hnodup with ⟨⟨b, hb⟩, hnext⟩ | ⟨hcircular, hnext⟩
    · refine .inl ⟨⟨b, hb.trans ?_⟩, hperm.1 hnext⟩
      rw [reverse_append, append_assoc]
    · exact .inr ⟨hcircular, mt hperm.2 hnext⟩
  · refine .inr ⟨⟨text, rfl⟩, fun hnodup => htwice (hnodup.sublist ?_)⟩
    exact (sublist_append_left _ _).append_right _

theorem Reads.map {α β : Type} {first : Except Failure (α × List Path)}
    (h : Reads first visited seen) (f : α × List Path → Except Failure (β × List Path))
    (hf : ∀ a files, ∃ b, f (a, files) = .ok (b, files)) : Reads (first >>= f) visited seen := by
  have hall : Reads (first >>= f) (visited ++ []) seen := by
    refine h.bind fun a hnodup => ?_
    obtain ⟨b, hb⟩ := hf a (visited.reverse ++ seen)
    refine .inl ⟨⟨b, hb⟩, ?_⟩
    exact (perm_reverse_append visited [] seen).nodup_iff.2 (by rwa [append_nil])
  rwa [append_nil] at hall

theorem Reads.cons {α : Type} {result : Except Failure (α × List Path)}
    (h : Reads result visited (path :: seen)) : Reads result (path :: visited) seen := by
  rcases h with ⟨⟨a, rfl⟩, hnodup⟩ | ⟨hcircular, htwice⟩
  · refine .inl ⟨⟨a, ?_⟩, perm_middle.nodup_iff.1 hnodup⟩
    rw [reverse_cons, append_assoc, singleton_append]
  · exact .inr ⟨hcircular, mt perm_middle.nodup_iff.2 htwice⟩

/-- Reading all that a configuration extends, one after the other. -/
theorem reads_parents {names : List String} (hsettled : IsSettled disk path)
    (hnames : ∀ name ∈ names, ∃ parent, parentPath disk.here path name = .ok parent ∧
      disk.isFile parent = .ok true ∧ parent ∈ parents disk path)
    (hcollect : ∀ parent ∈ parents disk path, ∀ seen, Spares disk fuel seen →
      Reads (collect disk fuel seen parent) (unfolding disk fuel parent) seen)
    {f : Options × List Path → String → Except Failure (Options × List Path)}
    (hf : ∀ options seen name parent, parentPath disk.here path name = .ok parent →
      disk.isFile parent = .ok true →
      ∃ add : Options → Options, f (options, seen) name = collect disk fuel seen parent >>=
        fun read => .ok (add read.1, read.2)) (options : Options)
    (hspares : Spares disk fuel seen) :
    Reads (names.foldlM f (options, seen)) ((names.filterMap fun name =>
      (parentPath disk.here path name).toOption).flatMap (unfolding disk fuel)) seen := by
  induction names generalizing options seen with
  | nil => exact .inl ⟨⟨options, rfl⟩, hspares.nodup⟩
  | cons name names ih =>
    rw [forall_mem_cons] at hnames
    obtain ⟨⟨parent, hpath, hfile, hparent⟩, hnames⟩ := hnames
    obtain ⟨add, hadd⟩ := hf options seen name parent hpath hfile
    have hfirst : Reads (f (options, seen) name) (unfolding disk fuel parent) seen := by
      rw [hadd]
      exact (hcollect parent hparent seen hspares).map _ fun a files => ⟨_, rfl⟩
    rw [foldlM_cons, filterMap_cons, hpath]
    refine hfirst.bind fun options hnodup => ih hnames options ?_
    refine hspares.append ?_ ?_
    · exact (perm_reverse_append _ [] seen).nodup_iff.2 (by rwa [append_nil])
    · intro place hplace
      exact unfolding_subset (isTidy_of_mem_parents hparent) (hsettled.of_mem hparent) fuel
        (mem_reverse.1 hplace)

theorem exists_ownOptions {config : Value} (h : ∀ own, config.member? "compilerOptions" = some own →
    own.isSet = false ∨ own.isTable) (path : Path) :
    ∃ options, ownOptions path config = .ok options := by
  unfold ownOptions
  cases hown : config.member? "compilerOptions" with
  | none => exact ⟨_, rfl⟩
  | some own =>
    dsimp only [Option.getD_some]
    rcases h own hown with hset | htable
    · rw [hset]
      exact ⟨_, rfl⟩
    · cases own with
      | table members =>
        split
        · exact ⟨_, rfl⟩
        · exact ⟨_, rfl⟩
      | _ => cases htable

/-- Reading a configuration follows its tree. -/
theorem reads_collect (htidy : IsTidy path) (hsettled : IsSettled disk path)
    (hspares : Spares disk fuel seen) :
    Reads (collect disk fuel seen path) (unfolding disk fuel path) seen := by
  induction fuel generalizing path seen with
  | zero => exact absurd hspares.pos (Nat.lt_irrefl 0)
  | succ fuel ih =>
    obtain ⟨config, hread, hown, hnames⟩ := exists_of_isSound (hsettled path .refl)
    rw [collect, unfolding]
    by_cases hseen : path.resolve disk.here ∈ seen
    · rw [if_pos (contains_iff_mem.2 hseen)]
      refine .inr ⟨⟨_, rfl⟩, fun hnodup => ?_⟩
      exact (nodup_cons.1 hnodup).1 (mem_append_right _ hseen)
    · rw [if_neg fun hcontains => hseen (contains_iff_mem.1 hcontains), hread]
      have hparents : parents disk path = (parentsOf config).filterMap fun name =>
          (parentPath disk.here path name).toOption := by
        rw [parents, hread]
      apply Reads.cons
      rw [hparents]
      obtain ⟨own, hown⟩ := exists_ownOptions hown path
      refine (reads_parents hsettled (fun name hname => ?_) (fun parent hparent seen hspares =>
        ih (isTidy_of_mem_parents hparent) (hsettled.of_mem hparent) hspares)
        (fun options seen name parent hpath hfile => ?_) {}
        (hspares.cons (mem_placesOf htidy (hsettled path .refl)) hseen)).map _ fun a files => ?_
      · obtain ⟨parent, hpath, hfile⟩ := hnames name hname
        refine ⟨parent, hpath, hfile, ?_⟩
        rw [hparents]
        exact mem_filterMap.2 ⟨name, hname, by rw [hpath]; rfl⟩
      · refine ⟨options.over, ?_⟩
        rw [hpath]
        change (ofDisk (disk.isFile parent) >>= _) = _
        rw [hfile]
        rfl
      · simp only [hown]
        exact ⟨_, rfl⟩

theorem mem_of_firstConfig? (h : firstConfig? disk paths = .ok (some path)) : path ∈ paths := by
  induction paths with
  | nil => cases h
  | cons first paths ih =>
    obtain ⟨found, -, h⟩ := bind_eq_ok_iff.1 h
    split at h
    · cases h
      exact mem_cons_self
    · exact mem_cons_of_mem _ (ih h)

theorem isTidy_of_configPath? (hroot : root.IsResolved)
    (h : configPath? disk root asked = .ok (some path)) : IsTidy path := by
  obtain ⟨name, rfl⟩ : ∃ name, path = root.child name := by
    cases asked with
    | some name =>
      obtain ⟨found, -, h⟩ := bind_eq_ok_iff.1 h
      split at h
      · cases h
        exact ⟨name, rfl⟩
      · cases h
    | none =>
      cases hfirst : firstConfig? disk (configNames.map root.child) with
      | error e =>
        rw [configPath?, hfirst] at h
        cases h
      | ok found =>
        rw [configPath?, hfirst] at h
        cases h
        obtain ⟨name, -, heq⟩ := mem_map.1 (mem_of_firstConfig? hfirst)
        exact ⟨name, heq.symm⟩
  exact ⟨Path.isAbsolute_child hroot name, fun part hpart => Path.ne_of_mem_child hroot hpart⟩

theorem isCircular_bind_iff {α β : Type} {x : Except Failure α} {f : α → Except Failure β}
    (hf : ∀ a, ¬ IsCircular (f a)) : IsCircular (x >>= f) ↔ IsCircular x := by
  cases x with
  | error e => simp [IsCircular, bind, Except.bind]
  | ok a => exact iff_of_false (hf a) nofun

/-- Loading fails for a circle only where the tree is read. -/
theorem isCircular_load_iff (h : configPath? disk root asked = .ok (some path)) :
    IsCircular (load disk root asked) ↔
      IsCircular (collect disk (disk.nodes.length + 1) [] path) := by
  rw [load, h]
  change IsCircular (collect disk (disk.nodes.length + 1) [] path >>= _) ↔ _
  apply isCircular_bind_iff
  rintro result ⟨text, hresult⟩
  -- Every later failure is of another form.
  simp only [ofFault, Except.mapError, bind, Except.bind, pure, Except.pure, failConfig] at hresult
  repeat' split at hresult
  all_goals cases hresult
  rename_i hfault
  split at hfault <;> cases hfault

/-- Every configuration that is reached from the chosen one can be read, with all its parents there.
Then loading fails for a circle exactly if some file stands twice in the tree of the chosen
configuration, and so it does whenever one extends itself by way of others. Otherwise the tree is
read to its end. However deep the reading may go, nothing changes beyond the number of files. -/
theorem load_circular_iff {root : Path} {asked : Option String} (hroot : root.IsResolved)
    (hpath : configPath? disk root asked = .ok (some path))
    (hsound : ∀ config, ReflTransGen (Extends disk) path config → isSound disk config = true) :
    (IsCircular (load disk root asked) ↔ ∃ depth, ¬ (unfolding disk depth path).Nodup) ∧
    (∀ config again, ReflTransGen (Extends disk) path config →
      TransGen (Extends disk) config again →
      again.resolve disk.here = config.resolve disk.here → IsCircular (load disk root asked)) ∧
    ∀ fuel, disk.nodes.length < fuel →
      (IsCircular (collect disk fuel [] path) ↔ IsCircular (load disk root asked)) ∧
      (¬ IsCircular (load disk root asked) → ∃ options,
          collect disk fuel [] path = .ok (options, (unfolding disk fuel path).reverse)) := by
  have htidy := isTidy_of_configPath? hroot hpath
  have hreads : ∀ fuel, disk.nodes.length < fuel →
      Reads (collect disk fuel [] path) (unfolding disk fuel path) [] :=
    fun fuel hfuel => reads_collect htidy hsound ⟨nodup_nil, nil_subset _, hfuel⟩
  have hcollect : ∀ fuel, disk.nodes.length < fuel → (IsCircular (collect disk fuel [] path) ↔
      ∃ depth, ¬ (unfolding disk depth path).Nodup) := by
    intro fuel hfuel
    rw [exists_not_nodup_iff htidy hsound hfuel]
    have := (hreads fuel hfuel).isCircular_iff
    rwa [append_nil] at this
  have hload := (isCircular_load_iff hpath).trans (hcollect _ (Nat.lt_succ_self _))
  refine ⟨hload, fun config again hreach hcircle heq => ?_, fun fuel hfuel => ⟨?_, fun hnot => ?_⟩⟩
  · obtain ⟨depth, htwice⟩ := exists_not_nodup_of_circle hcircle heq
    obtain ⟨deeper, hsub⟩ := exists_sublist_of_reach hreach depth
    exact hload.2 ⟨deeper, fun hnodup => htwice (hnodup.sublist hsub)⟩
  · exact (hcollect fuel hfuel).trans hload.symm
  · rcases hreads fuel hfuel with ⟨⟨options, heq⟩, -⟩ | ⟨hcircular, -⟩
    · rw [append_nil] at heq
      exact ⟨options, heq⟩
    · exact absurd (hload.2 ((hcollect fuel hfuel).1 hcircular)) hnot

/-- Files right below the root of a disk. -/
def diskOf (files : List (String × String)) : Disk :=
  { nodes := files.map fun file => ([file.1], .file (Text.Utf8.encode file.2.toList)) }

theorem mem_of_reach (hclosed : ∀ path ∈ paths, ∀ parent ∈ parents disk path, parent ∈ paths)
    (hmem : path ∈ paths) (hreach : ReflTransGen (Extends disk) path config) : config ∈ paths := by
  induction hreach with
  | refl => exact hmem
  | tail _ hstep ih => exact hclosed _ ih _ hstep

/-- Two configurations that extend each other. -/
def ring : Disk :=
  diskOf [("tsconfig.json", "\x7b\"extends\":\"./a\"\x7d"),
    ("a.json", "\x7b\"extends\":\"./tsconfig.json\"\x7d")]

theorem load_circular_iff_ring : configPath? ring ⟨1, []⟩ none = .ok (some ⟨1, ["tsconfig.json"]⟩) ∧
      IsCircular (load ring ⟨1, []⟩ none) := by
  let paths : List Path := [⟨1, ["tsconfig.json"]⟩, ⟨1, ["a.json"]⟩]
  have hpath : configPath? ring ⟨1, []⟩ none = .ok (some ⟨1, ["tsconfig.json"]⟩) := rfl
  have hclosed : ∀ path ∈ paths, ∀ parent ∈ parents ring path, parent ∈ paths := by decide +kernel
  have hsound : ∀ path ∈ paths, isSound ring path = true := by decide +kernel
  have hdown : Extends ring ⟨1, ["tsconfig.json"]⟩ ⟨1, ["a.json"]⟩ := by
    unfold Extends
    decide +kernel
  have hup : Extends ring ⟨1, ["a.json"]⟩ ⟨1, ["tsconfig.json"]⟩ := by
    unfold Extends
    decide +kernel
  refine ⟨hpath, (load_circular_iff ⟨rfl, forall_mem_nil _⟩ hpath fun config hreach => ?_).2.1 _ _
    .refl (.tail (.single hdown) hup) rfl⟩
  exact hsound config (mem_of_reach hclosed mem_cons_self hreach)

/-- Two configurations with the same parent, both extended by a third one. -/
def shared : Disk :=
  diskOf [("tsconfig.json", "\x7b\"extends\":[\"./a\",\"./b\"]\x7d"),
    ("a.json", "\x7b\"extends\":\"./c\"\x7d"), ("b.json", "\x7b\"extends\":\"./c\"\x7d"),
    ("c.json", "\x7b\x7d")]

/-- A shared parent is taken for a circle, although no configuration extends itself by way of
others. -/
theorem shared_parent_is_circular : IsCircular (load shared ⟨1, []⟩ none) ∧
    ∀ config again, ReflTransGen (Extends shared) ⟨1, ["tsconfig.json"]⟩ config →
      isSound shared config = true ∧ (TransGen (Extends shared) config again →
        again.resolve shared.here ≠ config.resolve shared.here) := by
  let paths : List Path :=
    [⟨1, ["tsconfig.json"]⟩, ⟨1, ["a.json"]⟩, ⟨1, ["b.json"]⟩, ⟨1, ["c.json"]⟩]
  have hclosed : ∀ path ∈ paths, ∀ parent ∈ parents shared path,
      parent ∈ paths ∧ paths.idxOf path < paths.idxOf parent := by decide +kernel
  have hsound : ∀ path ∈ paths, isSound shared path = true ∧ path.resolve shared.here = path := by
    decide +kernel
  have hmem : ∀ config, ReflTransGen (Extends shared) ⟨1, ["tsconfig.json"]⟩ config →
      config ∈ paths := fun config =>
    mem_of_reach (fun path hpath parent hparent => (hclosed path hpath parent hparent).1)
      mem_cons_self
  constructor
  · have hpath : configPath? shared ⟨1, []⟩ none = .ok (some ⟨1, ["tsconfig.json"]⟩) := rfl
    have htwice : ¬ (unfolding shared 5 ⟨1, ["tsconfig.json"]⟩ ++ []).Nodup := by decide +kernel
    refine (isCircular_load_iff hpath).2 (Reads.isCircular_iff ?_ |>.2 htwice)
    exact reads_collect (isTidy_of_configPath? ⟨rfl, forall_mem_nil _⟩ hpath)
      (fun config hreach => (hsound config (hmem config hreach)).1)
      ⟨nodup_nil, nil_subset _, by decide⟩
  · intro config again hreach
    have hconfig := hsound config (hmem config hreach)
    refine ⟨hconfig.1, fun hcircle => ?_⟩
    -- Each step leads further down the list of paths.
    have hlater : again ∈ paths ∧ paths.idxOf config < paths.idxOf again := by
      induction hcircle with
      | single hstep => exact hclosed config (hmem config hreach) _ hstep
      | tail _ hstep ih =>
        have hnext := hclosed _ ih.1 _ hstep
        exact ⟨hnext.1, ih.2.trans hnext.2⟩
    rw [hconfig.2, (hsound again hlater.1).2]
    rintro rfl
    exact absurd hlater.2 (Nat.lt_irrefl _)

end Deadwood.Alias

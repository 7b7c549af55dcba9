import Deadwood.Proofs.Indexing
import Deadwood.Proofs.Places
import Deadwood.Proofs.Tables

/-!
# What a walk finds

A walk collects candidates directory by directory and may fail on the way. `Finds` says what it
finds without the order of the walk: a candidate in a directory that no excluded directory stands
above. If the walk succeeds, it has found exactly these (`mem_below_iff`). On a disk with further
nodes, everything that stood on the disk is still found, read and searched for mentions
(`Keeps.mem_paths`, `Keeps.mem_corpus`).
-/

set_option autoImplicit false

namespace Deadwood

open List

theorem ofFault_eq_ok_iff {α : Type} {x : Except Fault α} {a : α} :
    ofFault x = .ok a ↔ x = .ok a := by
  cases x <;> simp [ofFault, Except.mapError]

theorem ofDisk_eq_ok_iff {α : Type} {x : Except Disk.Error α} {a : α} :
    ofDisk x = .ok a ↔ x = .ok a := by
  cases x <;> simp [ofDisk, Except.mapError]

/-! ## Disks with further nodes -/

namespace Disk

variable {disk : Disk}

/-- What a place with a node is in a directory, if it stands there. -/
def childOf (place : Place) (pair : Place × Node) : Option (String × Node) :=
  pair.1.getLast?.bind fun name => if pair.1.dropLast = place then some (name, pair.2) else none

theorem childOf_eq_some_iff {place : Place} {pair : Place × Node} {child : String × Node} :
    childOf place pair = some child ↔ pair = (place ++ [child.1], child.2) := by
  obtain ⟨p, node⟩ := pair
  rcases eq_nil_or_concat p with rfl | ⟨front, last, rfl⟩
  · simp [childOf]
  · simp [childOf, Prod.ext_iff, and_assoc]

theorem children_eq (disk : Disk) (place : Place) : disk.children place =
      (disk.nodes.filterMap (childOf place)).mergeSort fun a b => a.1 ≤ b.1 := by
  rw [children]
  congr
  funext pair
  obtain ⟨p, node⟩ := pair
  simp only [childOf]
  cases p.getLast? <;> rfl

theorem mem_children_iff {place : Place} {name : String} {node : Node} :
    (name, node) ∈ disk.children place ↔ (place ++ [name], node) ∈ disk.nodes := by
  simp [children_eq, mem_filterMap, childOf_eq_some_iff]

/-- The names in each directory are listed in ascending order. -/
def InOrder (disk : Disk) : Prop :=
  disk.nodes.Pairwise fun a b => ∀ child ∈ childOf a.1.dropLast a,
    ∀ child' ∈ childOf a.1.dropLast b, child.1 ≤ child'.1

instance : Decidable disk.InOrder := inferInstanceAs (Decidable (List.Pairwise _ _))

theorem InOrder.children_eq (h : disk.InOrder) (place : Place) :
    disk.children place = disk.nodes.filterMap (childOf place) := by
  rw [Disk.children_eq]
  refine mergeSort_of_pairwise (pairwise_filterMap.2 (h.imp ?_))
  intro a b hab child hchild child' hchild'
  have hplace : a.1.dropLast = place := by simp [childOf_eq_some_iff.1 hchild]
  rw [hplace] at hab
  exact decide_eq_true (hab child hchild child' hchild')

/-- The disk with further nodes. -/
def adding (disk : Disk) (added : List (Place × Node)) : Disk :=
  { disk with nodes := added ++ disk.nodes }

/-- Everything on the first disk stands on the second at the same place. -/
structure Keeps (disk later : Disk) : Prop where
  here_eq : later.here = disk.here
  nodes_subset : disk.nodes ⊆ later.nodes
  at_eq : ∀ {place : Place} {node : Node}, disk.at? place = some node →
    later.at? place = some node

theorem keeps_adding {added : List (Place × Node)}
    (hnew : ∀ place node, (place, node) ∈ added → disk.at? place = none) :
    disk.Keeps (disk.adding added) where
  here_eq := rfl
  nodes_subset := subset_append_right added disk.nodes
  at_eq := by
    intro place node hnode
    cases place with
    | nil => exact hnode
    | cons part parts =>
      have hnone : added.lookup (part :: parts) = none := by
        refine lookup_eq_none_iff.2 fun pair hpair => ?_
        rw [bne_iff_ne]
        intro hsame
        have hempty := hnew pair.1 pair.2 hpair
        rw [← hsame, hnode] at hempty
        cases hempty
      have hold : disk.nodes.lookup (part :: parts) = some node := hnode
      simp [at?, adding, lookup_append, hnone, hold]

namespace Keeps

variable {disk later : Disk} (h : disk.Keeps later) {path : Path} {place : Place}
include h

theorem mem_children {name : String} {node : Node} (hmem : (name, node) ∈ disk.children place) :
    (name, node) ∈ later.children place :=
  mem_children_iff.2 (h.nodes_subset (mem_children_iff.1 hmem))

theorem locate_eq (hlocate : disk.locate path = .ok place) : later.locate path = .ok place :=
  locate_of_directories h.here_eq (fun _ => h.at_eq) (.inr ⟨place, rfl⟩) hlocate

theorem read_eq {bytes : List UInt8} (hread : disk.read path = .ok bytes) :
    later.read path = .ok bytes := by
  unfold read at hread ⊢
  cases hlocate : disk.locate path with
  | error cause => simp [hlocate] at hread
  | ok place =>
    simp only [hlocate, h.locate_eq hlocate] at hread ⊢
    cases hat : disk.at? place with
    | none => simp [hat] at hread
    | some node =>
      rw [hat] at hread
      rw [h.at_eq hat]
      exact hread

theorem isDirectory_eq (hdirectory : disk.isDirectory path = .ok true) :
    later.isDirectory path = .ok true := by
  obtain ⟨node, hnode, hsome⟩ := bind_eq_ok_iff.1 hdirectory
  obtain rfl : node = some .directory := by simpa [pure, Except.pure] using hsome
  have hlater : later.node? path = .ok (some .directory) := by
    unfold node? at hnode ⊢
    cases hlocate : disk.locate path with
    | error cause => cases cause <;> simp [hlocate] at hnode
    | ok place =>
      simp only [hlocate, Except.ok.injEq] at hnode
      simp only [h.locate_eq hlocate, h.at_eq hnode]
  rw [isDirectory, hlater]
  rfl

end Keeps

end Disk

/-! ## Walks -/

namespace Walk

variable {walk : Walk} {disk : Disk} {base place : Place} {path : String} {found : List String}

/-- The path is that of a candidate below a place: it stands in the directory itself, or below one
of the directories there that is not left out. -/
inductive Finds (walk : Walk) (disk : Disk) (base : Place) (path : String) : Place → Prop
  | file {place : Place} {name : String} {bytes : List UInt8}
      (mem : (name, .file bytes) ∈ disk.children place)
      (found : walk.candidate? (pathOf base place) name = .ok (some path)) :
      Finds walk disk base path place
  | deeper {place : Place} {name : String} (mem : (name, .directory) ∈ disk.children place)
      (entered : walk.excluder.leavesOutDirectory (Relative.child (pathOf base place) name) = false)
      (finds : Finds walk disk base path (place ++ [name])) : Finds walk disk base path place

/-- The candidates among the entries of a directory that are files. -/
def fileEntry (walk : Walk) (directory : String) : String × Node → Except Fault (List String)
  | (_, .directory) => pure []
  | (name, .file _) => do return (← walk.candidate? directory name).toList

theorem filesAt_eq : walk.filesAt disk base place = (do
    return (← (disk.children place).mapM (walk.fileEntry (pathOf base place))).flatten) := by
  rw [filesAt]
  generalize disk.children place = children
  -- the files that are found so far are carried along
  suffices hall : ∀ before : List String, children.foldlM _ before = (do
      return before ++ (← children.mapM (walk.fileEntry (pathOf base place))).flatten) from
    hall []
  induction children with
  | nil => simp
  | cons entry children ih =>
    intro before
    obtain ⟨name, _ | bytes⟩ := entry
    · rw [foldlM_cons, mapM_cons]
      exact (ih before).trans (by simp [fileEntry])
    · simp only [foldlM_cons, ih, mapM_cons, fileEntry, bind_assoc, pure_bind, flatten_cons,
        append_assoc]

theorem mem_filesAt_iff (h : walk.filesAt disk base place = .ok found) : path ∈ found ↔
    ∃ name bytes, (name, .file bytes) ∈ disk.children place ∧
      walk.candidate? (pathOf base place) name = .ok (some path) := by
  rw [filesAt_eq] at h
  obtain ⟨parts, hparts, h⟩ := bind_eq_ok_iff.1 h
  cases h
  rw [mapM_eq_ok_iff] at hparts
  rw [mem_flatten]
  constructor
  · rintro ⟨part, hpart, hpath⟩
    obtain ⟨⟨name, _ | bytes⟩, hmem, hresult⟩ := exists_of_forall₂_right hparts hpart
    · cases hresult
      cases hpath
    · obtain ⟨candidate, hcandidate, hresult⟩ := bind_eq_ok_iff.1 hresult
      cases hresult
      exact ⟨name, bytes, hmem, hcandidate.trans (congrArg _ (Option.mem_toList.1 hpath))⟩
  · rintro ⟨name, bytes, hmem, hfound⟩
    obtain ⟨part, hpart, hresult⟩ := exists_of_forall₂_left hparts hmem
    rw [fileEntry, hfound] at hresult
    cases hresult
    exact ⟨_, hpart, mem_singleton.2 rfl⟩

/-- What is found by an entry of a directory, given what is found below the directories in it. -/
def belowEntry (walk : Walk) (base place : Place)
    (deeper : Place → Except Fault (List String)) : String × Node → Except Fault (List String)
  | (_, .file _) => .ok []
  | (name, .directory) =>
    if walk.excluder.leavesOutDirectory (Relative.child (pathOf base place) name) then .ok []
    else deeper (place ++ [name])

/-- One step of the walk: the files of a directory, then what is below its directories. -/
theorem below_eq : walk.below disk base place = (do
    let files ← walk.filesAt disk base place
    let deeper ← (disk.children place).mapM (walk.belowEntry base place (walk.below disk base))
    return files ++ deeper.flatten) := by
  rw [below]
  congr 1
  funext files
  congr 1
  rw [mapM_subtype (g := walk.belowEntry base place (walk.below disk base)), unattach_attach]
  rintro ⟨name, node⟩ -
  cases node <;> rfl

theorem depth_sub_lt {name : String} {node : Node} (h : (name, node) ∈ disk.children place) :
    disk.depth - (place ++ [name]).length < disk.depth - place.length := by
  have := Disk.length_lt_depth h
  rw [length_append, length_singleton]
  omega

/-- What is found by an entry is found below it, if it is a directory that is not left out. -/
theorem belowEntry_cases {entry : String × Node} {part : List String}
    (h : walk.belowEntry base place (walk.below disk base) entry = .ok part) :
    part = [] ∨ ∃ name, entry = (name, .directory) ∧
      walk.excluder.leavesOutDirectory (Relative.child (pathOf base place) name) = false ∧
      walk.below disk base (place ++ [name]) = .ok part := by
  obtain ⟨name, _ | bytes⟩ := entry
  · rw [belowEntry] at h
    split at h
    · exact .inl (Except.ok.inj h).symm
    · rename_i hentered
      exact .inr ⟨name, rfl, by simpa using hentered, h⟩
  · exact .inl (Except.ok.inj h).symm

/-- A walk that succeeds has found all candidates below the place and nothing else. -/
theorem mem_below_iff (h : walk.below disk base place = .ok found) :
    path ∈ found ↔ walk.Finds disk base path place := by
  induction hn : disk.depth - place.length using Nat.strongRecOn generalizing place found with
  | ind n ih =>
    rw [below_eq] at h
    obtain ⟨files, hfiles, h⟩ := bind_eq_ok_iff.1 h
    obtain ⟨deeper, hdeeper, h⟩ := bind_eq_ok_iff.1 h
    cases h
    rw [mapM_eq_ok_iff] at hdeeper
    rw [mem_append, mem_filesAt_iff hfiles, mem_flatten]
    constructor
    · rintro (⟨name, bytes, hmem, hfound⟩ | ⟨part, hpart, hpath⟩)
      · exact .file hmem hfound
      · obtain ⟨entry, hmem, hresult⟩ := exists_of_forall₂_right hdeeper hpart
        rcases belowEntry_cases hresult with rfl | ⟨name, rfl, hentered, hresult⟩
        · cases hpath
        · exact .deeper hmem hentered ((ih _ (hn ▸ depth_sub_lt hmem) hresult rfl).1 hpath)
    · intro hfinds
      cases hfinds with
      | file hmem hfound => exact .inl ⟨_, _, hmem, hfound⟩
      | @deeper _ name hmem hentered hfinds =>
        obtain ⟨part, hpart, hresult⟩ := exists_of_forall₂_left hdeeper hmem
        simp only [belowEntry, hentered] at hresult
        exact .inr ⟨part, hpart, (ih _ (hn ▸ depth_sub_lt hmem) hresult rfl).2 hfinds⟩

/-- The candidates below a directory as far down as `depth`, in the order of the disk. -/
def listed (walk : Walk) (disk : Disk) (base : Place) :
    (depth : Nat) → (place : Place) → Except Fault (List String)
  | 0, _ => .ok []
  | depth + 1, place => do
    let entries := disk.nodes.filterMap (Disk.childOf place)
    let files ← entries.mapM (walk.fileEntry (pathOf base place))
    let deeper ← entries.mapM (walk.belowEntry base place (walk.listed disk base depth))
    return files.flatten ++ deeper.flatten

/-- A disk in order is walked without sorting. -/
theorem below_eq_listed (horder : disk.InOrder) {depth : Nat}
    (h : disk.depth - place.length < depth) :
    walk.below disk base place = walk.listed disk base depth place := by
  induction depth generalizing place with
  | zero => omega
  | succ depth ih =>
    have hdeeper : ∀ entry ∈ disk.children place,
        walk.belowEntry base place (walk.below disk base) entry =
          walk.belowEntry base place (walk.listed disk base depth) entry := by
      rintro ⟨name, _ | bytes⟩ hentry
      · have := depth_sub_lt hentry
        rw [belowEntry, belowEntry, ih (by omega)]
      · rfl
    rw [below_eq, filesAt_eq, mapM_congr hdeeper, horder.children_eq, listed]
    simp only [bind_assoc, pure_bind]

theorem paths_eq_listed (horder : disk.InOrder) (hroot : disk.locate walk.root = .ok base)
    (hstart : disk.locate (walk.root.child (Relative.normalize walk.start)) = .ok place)
    (hdirectory : disk.at? place = some .directory) :
    walk.paths disk = ofFault (walk.listed disk base (disk.depth + 1) place) := by
  simp only [paths, hroot, hstart, hdirectory, if_true]
  rw [below_eq_listed horder (Nat.lt_succ_of_le (Nat.sub_le _ _))]

end Walk

namespace Disk.Keeps

variable {disk later : Disk} (h : disk.Keeps later)
include h

variable {walk : Walk} {path : String}

theorem finds {base place : Place} (hfinds : walk.Finds disk base path place) :
    walk.Finds later base path place := by
  induction hfinds with
  | file hmem hfound => exact .file (h.mem_children hmem) hfound
  | deeper hmem hentered _ ih => exact .deeper (h.mem_children hmem) hentered ih

/-- A candidate stays a candidate. -/
theorem mem_paths {found foundLater : List String} (hfound : walk.paths disk = .ok found)
    (hlater : walk.paths later = .ok foundLater) (hmem : path ∈ found) : path ∈ foundLater := by
  unfold Walk.paths at hfound
  dsimp only at hfound
  split at hfound
  · cases hfound
  · cases hfound
  · rename_i base place hbase hplace
    split at hfound
    · rename_i hdirectory
      simp only [Walk.paths, h.locate_eq hbase, h.locate_eq hplace, h.at_eq hdirectory,
        if_true] at hlater
      have hfinds := (Walk.mem_below_iff (ofFault_eq_ok_iff.1 hfound)).1 hmem
      exact (Walk.mem_below_iff (ofFault_eq_ok_iff.1 hlater)).2 (h.finds hfinds)
    · cases hfound
      cases hmem
  · cases hfound
    cases hmem

end Disk.Keeps

/-! ## Mentions -/

namespace Reference.Corpus

variable {disk : Disk} {root : Path} {excluder : Ignore.Excluder} {corpus : Corpus}

/-- The walk through a directory with documents, tests or tools. -/
def walkThrough (root : Path) (excluder : Ignore.Excluder) (directory : String) : Walk :=
  { root, excluder, extensions := [], start := Relative.normalize directory }

/-- The directory exists and is not the root itself. -/
def Enters (disk : Disk) (root : Path) (directory : String) : Prop :=
  Relative.normalize directory ≠ "" ∧
    disk.isDirectory (root.child (Relative.normalize directory)) = .ok true

variable {directory path : String} {text : List Char}

/-- What is searched for mentions below a directory. -/
theorem mem_loadDirectory_iff (h : loadDirectory disk root excluder directory = .ok corpus) :
    (path, text) ∈ corpus ↔
      Enters disk root directory ∧ textOf? disk (root.child path) = some text ∧ ∃ found,
        (walkThrough root excluder directory).paths disk = .ok found ∧ path ∈ found := by
  unfold loadDirectory at h
  unfold Enters
  by_cases hempty : Relative.normalize directory = ""
  · obtain rfl : [] = corpus := by simpa [hempty, pure, Except.pure] using h
    simp [hempty]
  · simp only [String.isEmpty_iff, hempty, if_false] at h
    obtain ⟨isDirectory, hdirectory, h⟩ := bind_eq_ok_iff.1 h
    rw [ofDisk_eq_ok_iff] at hdirectory
    cases isDirectory with
    | false =>
      cases h
      simp [hdirectory]
    | true =>
      obtain ⟨found, hfound, h⟩ := bind_eq_ok_iff.1 h
      cases h
      rw [mem_filterMap]
      constructor
      · rintro ⟨other, hmem, hpair⟩
        obtain ⟨content, hcontent, heq⟩ := Option.map_eq_some_iff.1 hpair
        cases heq
        exact ⟨⟨hempty, hdirectory⟩, hcontent, found, hfound, hmem⟩
      · rintro ⟨-, htext, other, hother, hmem⟩
        obtain rfl := Except.ok.inj (hfound.symm.trans hother)
        exact ⟨path, hmem, by rw [htext]; rfl⟩

theorem exists_walk_of_loadDirectory (h : loadDirectory disk root excluder directory = .ok corpus)
    (henters : Enters disk root directory) :
    ∃ found, (walkThrough root excluder directory).paths disk = .ok found := by
  unfold loadDirectory at h
  simp only [String.isEmpty_iff, henters.1, if_false, henters.2] at h
  obtain ⟨isDirectory, hdirectory, h⟩ := bind_eq_ok_iff.1 h
  cases hdirectory
  obtain ⟨found, hfound, -⟩ := bind_eq_ok_iff.1 h
  exact ⟨found, hfound⟩

theorem mem_load_iff {directories : List String}
    (h : load disk root excluder directories = .ok corpus) :
    (path, text) ∈ corpus ↔ ∃ directory ∈ directories, ∃ part,
      loadDirectory disk root excluder directory = .ok part ∧ (path, text) ∈ part := by
  obtain ⟨parts, hparts, h⟩ := bind_eq_ok_iff.1 h
  cases h
  rw [mapM_eq_ok_iff] at hparts
  -- the text of a file does not depend on the directory through which it is reached
  have hvalue : ∀ pair ∈ parts.flatten,
      pair.2 = (textOf? disk (root.child pair.1)).getD [] := by
    rintro ⟨path, text⟩ hpair
    obtain ⟨part, hpart, hmem⟩ := mem_flatten.1 hpair
    obtain ⟨directory, -, hload⟩ := exists_of_forall₂_right hparts hpart
    obtain ⟨-, htext, -⟩ := (mem_loadDirectory_iff hload).1 hmem
    simp [htext]
  rw [Keyed.mem_ofPairs_iff (fun path => (textOf? disk (root.child path)).getD []) hvalue,
    mem_flatten]
  constructor
  · rintro ⟨part, hpart, hmem⟩
    obtain ⟨directory, hdirectory, hload⟩ := exists_of_forall₂_right hparts hpart
    exact ⟨directory, hdirectory, part, hload, hmem⟩
  · rintro ⟨directory, hdirectory, part, hload, hmem⟩
    obtain ⟨other, hother, hsame⟩ := exists_of_forall₂_left hparts hdirectory
    obtain rfl := Except.ok.inj (hload.symm.trans hsame)
    exact ⟨part, hother, hmem⟩

end Reference.Corpus

namespace Disk.Keeps

open Reference

variable {disk later : Disk} (h : disk.Keeps later)
include h

variable {text : List Char}

theorem textOf?_eq {path : Path} (htext : Corpus.textOf? disk path = some text) :
    Corpus.textOf? later path = some text := by
  unfold Corpus.textOf? at htext ⊢
  cases hread : disk.read path with
  | error e => simp [hread] at htext
  | ok bytes =>
    rw [hread] at htext
    rw [h.read_eq hread]
    exact htext

/-- A file that is searched for mentions stays one, with the same text. -/
theorem mem_corpus {root : Path} {excluder : Ignore.Excluder} {directories : List String}
    {corpus corpusLater : Corpus} (hload : Corpus.load disk root excluder directories = .ok corpus)
    (hlater : Corpus.load later root excluder directories = .ok corpusLater) {path : String}
    (hmem : (path, text) ∈ corpus) : (path, text) ∈ corpusLater := by
  obtain ⟨directory, hdirectory, part, hpart, hmem⟩ := (Corpus.mem_load_iff hload).1 hmem
  obtain ⟨henters, htext, found, hfound, hpath⟩ := (Corpus.mem_loadDirectory_iff hpart).1 hmem
  have hentersLater : Corpus.Enters later root directory := ⟨henters.1, h.isDirectory_eq henters.2⟩
  obtain ⟨parts, hparts, -⟩ := bind_eq_ok_iff.1 hlater
  obtain ⟨partLater, -, hpartLater⟩ :=
    exists_of_forall₂_left (mapM_eq_ok_iff.1 hparts) hdirectory
  obtain ⟨foundLater, hfoundLater⟩ := Corpus.exists_walk_of_loadDirectory hpartLater hentersLater
  refine (Corpus.mem_load_iff hlater).2 ⟨directory, hdirectory, partLater, hpartLater, ?_⟩
  exact (Corpus.mem_loadDirectory_iff hpartLater).2 ⟨hentersLater, h.textOf?_eq htext, foundLater,
    hfoundLater, h.mem_paths hfound hfoundLater hpath⟩

end Disk.Keeps

end Deadwood

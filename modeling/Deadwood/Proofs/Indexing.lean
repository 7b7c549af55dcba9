import Deadwood.Project
import Mathlib.Data.List.Forall2
import Mathlib.Logic.Relation

/-!
# What an index holds

An index is built in one pass over the candidates, while the resolver gathers its answers.
`Faithful` says what comes of it without the order of the pass: a path names one candidate, a
candidate says what its text says, and there is an edge exactly where a statement of a candidate
asks for a file that the resolver found and that is not the candidate itself. The index of every
project that can be opened is faithful (`faithful_of_load`).
-/

set_option autoImplicit false

namespace Deadwood

open List

/-! ## Computations that may fail -/

theorem bind_eq_ok_iff {ε α β : Type} {x : Except ε α} {f : α → Except ε β} {b : β} :
    (x >>= f) = .ok b ↔ ∃ a, x = .ok a ∧ f a = .ok b := by
  cases x with
  | error e => simp [bind, Except.bind]
  | ok a => simp [bind, Except.bind]

theorem exists_ok_of_any {ε α : Type} {x : Except ε α} {p : α → Bool}
    (h : x.toOption.any p) : ∃ a, x = .ok a ∧ p a := by
  cases x with
  | error e => cases h
  | ok a => exact ⟨a, rfl, h⟩

theorem mapM_congr {ε α β : Type} {f g : α → Except ε β} {as : List α} (h : ∀ a ∈ as, f a = g a) :
    as.mapM f = as.mapM g := by
  induction as with
  | nil => rfl
  | cons a as ih =>
    rw [mapM_cons, mapM_cons, h a mem_cons_self, ih fun b hb => h b (mem_cons_of_mem a hb)]

theorem mapM_eq_ok_iff {ε α β : Type} {f : α → Except ε β} {as : List α} {bs : List β} :
    as.mapM f = .ok bs ↔ List.Forall₂ (fun a b => f a = .ok b) as bs := by
  induction as generalizing bs with
  | nil => cases bs <;> simp [pure, Except.pure]
  | cons a as ih =>
    simp only [mapM_cons, bind_eq_ok_iff, ih, pure, Except.pure, Except.ok.injEq,
      forall₂_cons_left_iff]
    constructor
    · rintro ⟨b, hb, bs, hbs, rfl⟩
      exact ⟨b, bs, hb, hbs, rfl⟩
    · rintro ⟨b, bs, hb, hbs, rfl⟩
      exact ⟨b, hb, bs, hbs, rfl⟩

section

variable {α β : Type} {R : α → β → Prop} {as : List α} {bs : List β} (h : List.Forall₂ R as bs)
include h

/-- Every result of a traversal comes from one of the items. -/
theorem exists_of_forall₂_right {b : β} (hb : b ∈ bs) : ∃ a ∈ as, R a b := by
  induction h with
  | nil => cases hb
  | cons hab _ ih =>
    rcases mem_cons.1 hb with rfl | hb
    · exact ⟨_, mem_cons_self, hab⟩
    · obtain ⟨a, ha, hR⟩ := ih hb
      exact ⟨a, mem_cons_of_mem _ ha, hR⟩

/-- Every item of a traversal has a result. -/
theorem exists_of_forall₂_left {a : α} (ha : a ∈ as) : ∃ b ∈ bs, R a b := by
  obtain ⟨b, hb, hR⟩ := exists_of_forall₂_right h.flip ha
  exact ⟨b, hb, hR⟩

end

/-! ## Resolving -/

namespace Alias.Resolver

/-- The second resolver gives every answer of the first. -/
def Extends (resolver later : Resolver) : Prop :=
  ∀ specifier directory answer, resolver.answer? specifier directory = some answer →
    later.answer? specifier directory = some answer

theorem Extends.refl (resolver : Resolver) : resolver.Extends resolver :=
  fun _ _ _ h => h

theorem Extends.trans {a b c : Resolver} (h : a.Extends b) (h' : b.Extends c) : a.Extends c :=
  fun specifier directory answer ha => h' _ _ _ (h specifier directory answer ha)

/-- A resolver remembers the answer that it gives, and forgets none. -/
theorem resolve_spec {resolver later : Resolver} {disk : Disk} {specifier directory : String}
    {answer : Option String} (h : resolver.resolve disk specifier directory = .ok (answer, later)) :
    later.answer? specifier directory = some answer ∧ resolver.Extends later := by
  unfold resolve at h
  split at h
  · rename_i found hfound
    obtain ⟨rfl, rfl⟩ : found = answer ∧ resolver = later := by simpa using h
    exact ⟨hfound, .refl _⟩
  · rename_i hnone
    obtain ⟨found, -, hfound⟩ := bind_eq_ok_iff.1 h
    obtain ⟨rfl, rfl⟩ : found = answer ∧ _ = later := by simpa [pure, Except.pure] using hfound
    constructor
    · rw [answer?] at hnone ⊢
      rw [lookup_append, hnone]
      simp
    · intro specifier' directory' answer' hanswer
      rw [answer?] at hanswer ⊢
      rw [lookup_append, hanswer]
      rfl

/-- The second resolver is what the first becomes by being asked, perhaps several times. -/
def Asked (disk : Disk) : Resolver → Resolver → Prop :=
  Relation.ReflTransGen fun resolver later => ∃ specifier directory answer,
    resolver.resolve disk specifier directory = .ok (answer, later)

theorem Asked.extends {resolver later : Resolver} {disk : Disk} (h : Asked disk resolver later) :
    resolver.Extends later := by
  induction h with
  | refl => exact .refl _
  | tail _ hstep ih =>
    obtain ⟨specifier, directory, answer, hresolve⟩ := hstep
    exact ih.trans (resolve_spec hresolve).2

end Alias.Resolver

namespace Index

open Alias

/-- The edge of a request in the module at `path`, if the resolver has found a file for it that is
not the module itself. -/
def edge? (resolver : Resolver) (path : String) (request : Request) : Option Edge :=
  match (resolver.answer? request.specifier (Relative.parent path)).join with
  | some target => if target = path then none else some ⟨path, target, request.kind, request.names⟩
  | none => none

variable {path : String} {edge : Edge} {disk : Disk} {later : Resolver} {candidate : Candidate}

theorem edge?_eq_some_iff {resolver : Resolver} {request : Request} :
    edge? resolver path request = some edge ↔ ∃ target,
      (resolver.answer? request.specifier (Relative.parent path)).join = some target ∧
      target ≠ path ∧ edge = ⟨path, target, request.kind, request.names⟩ := by
  unfold edge?
  cases (resolver.answer? request.specifier (Relative.parent path)).join with
  | none => simp
  | some target =>
    by_cases heq : target = path
    · simp [heq]
    · simp only [heq, if_false, Option.some.injEq]
      constructor
      · rintro rfl
        exact ⟨target, rfl, heq, rfl⟩
      · rintro ⟨-, rfl, -, rfl⟩
        rfl

/-- What a module asks for becomes an edge where a file is found and is not the module itself. The
answers are those of every resolver that knows as much as the one that is left at the end. -/
theorem edgesFrom_spec {resolver : Resolver} {requests : List Request} {edges : List Edge}
    (h : edgesFrom disk path resolver requests = .ok (edges, later)) :
    Resolver.Asked disk resolver later ∧ ∀ final : Resolver, later.Extends final →
      edges = requests.filterMap (edge? final path) := by
  induction requests generalizing resolver edges with
  | nil =>
    obtain ⟨rfl, rfl⟩ : [] = edges ∧ resolver = later := by simpa [edgesFrom] using h
    exact ⟨.refl, by simp⟩
  | cons request requests ih =>
    rw [edgesFrom] at h
    obtain ⟨⟨target, next⟩, hresolve, h⟩ := bind_eq_ok_iff.1 h
    obtain ⟨⟨more, last⟩, hmore, h⟩ := bind_eq_ok_iff.1 h
    have hanswer := (Resolver.resolve_spec hresolve).1
    obtain ⟨rfl, hedges⟩ :
        last = later ∧ edges = (edge? next path request).toList ++ more := by
      rw [edge?, hanswer]
      cases target with
      | none => simpa [pure, Except.pure, eq_comm, and_comm] using h
      | some target =>
        by_cases heq : target = path
        · simpa [pure, Except.pure, heq, eq_comm, and_comm] using h
        · simpa [pure, Except.pure, heq, eq_comm, and_comm] using h
    obtain ⟨hlast, hmore⟩ := ih hmore
    refine ⟨.head ⟨_, _, _, hresolve⟩ hlast, fun final hfinal => ?_⟩
    have hsame : edge? next path request = edge? final path request := by
      rw [edge?, edge?, hanswer, hfinal _ _ _ (hlast.extends _ _ _ hanswer)]
    rw [hedges, hsame, hmore final hfinal]
    cases hedge : edge? final path request with
    | none => rw [filterMap_cons_none hedge]; rfl
    | some edge => rw [filterMap_cons_some hedge]; rfl

/-- The edges of some candidates are those of their requests, in the same order. -/
theorem edgesOf_spec {resolver : Resolver} {candidates : List Candidate} {edges : List Edge}
    (h : edgesOf disk resolver candidates = .ok (edges, later)) :
    Resolver.Asked disk resolver later ∧ ∀ final : Resolver, later.Extends final →
      edges = candidates.flatMap fun candidate =>
        candidate.module.requests.filterMap (edge? final candidate.path) := by
  induction candidates generalizing resolver edges with
  | nil =>
    obtain ⟨rfl, rfl⟩ : [] = edges ∧ resolver = later := by simpa [edgesOf] using h
    exact ⟨.refl, by simp⟩
  | cons candidate candidates ih =>
    rw [edgesOf] at h
    obtain ⟨⟨first, next⟩, hfirst, h⟩ := bind_eq_ok_iff.1 h
    obtain ⟨⟨more, last⟩, hmore, h⟩ := bind_eq_ok_iff.1 h
    obtain ⟨rfl, rfl⟩ : first ++ more = edges ∧ last = later := by
      simpa [pure, Except.pure] using h
    obtain ⟨hnext, hfirst⟩ := edgesFrom_spec hfirst
    obtain ⟨hlast, hmore⟩ := ih hmore
    refine ⟨hnext.trans hlast, fun final hfinal => ?_⟩
    rw [hfirst final (hlast.extends.trans hfinal), hmore final hfinal, flatMap_cons]

/-! ## Indexes -/

/-- An index says what the texts of the candidates say. -/
structure Faithful (index : Index) : Prop where
  /-- A path names one candidate. -/
  unique : ∀ a ∈ index.files, ∀ b ∈ index.files, a.path = b.path → a = b
  /-- A candidate that says something says what its text says. -/
  module_eq : ∀ candidate ∈ index.files,
    Module.parse candidate.text = .ok candidate.module ∨ candidate.module = {}
  /-- Edges come from the statements of candidates. -/
  mem_edges_iff : ∀ edge, edge ∈ index.edges ↔
    ∃ candidate ∈ index.files, ∃ request ∈ candidate.module.requests, ∃ target,
      index.target? candidate.path request.specifier = some target ∧ target ≠ candidate.path ∧
      edge = ⟨candidate.path, target, request.kind, request.names⟩

theorem load_spec {root : Path} (h : Candidate.load disk root path = .ok candidate) :
    candidate.path = path ∧
      (Module.parse candidate.text = .ok candidate.module ∨ candidate.module = {}) := by
  unfold Candidate.load at h
  split at h
  · rename_i text htext
    cases h
    unfold Candidate.ofText
    split
    · rename_i module hmodule
      exact ⟨rfl, .inl hmodule⟩
    · exact ⟨rfl, .inr rfl⟩
  · cases h
  · cases h
    exact ⟨rfl, .inr rfl⟩

/-- The index of paths that are in order and distinct. -/
def buildOrdered (disk : Disk) (root : Path) (paths : List String) (resolver : Resolver) :
    Except Failure Index := do
  let files ← paths.mapM (Candidate.load disk root)
  let (edges, resolver) ← edgesOf disk { resolver with known := paths } files
  return ⟨files, edges, resolver⟩

theorem build_of_sorted {root : Path} {paths ordered : List String} {resolver : Resolver}
    (hsorted : paths.Pairwise fun a b => decide (a ≤ b) = true)
    (hdistinct : paths.eraseDups = ordered) :
    build disk root paths resolver = buildOrdered disk root ordered resolver := by
  rw [build, mergeSort_of_pairwise hsorted, hdistinct]
  rfl

section

variable {root : Path} {paths : List String} {resolver : Resolver} {index : Index}
  (h : build disk root paths resolver = .ok index)
include h

/-- The edges of an index are those of its candidates' requests, in the same order. -/
theorem edges_of_build : index.edges = index.files.flatMap fun candidate =>
      candidate.module.requests.filterMap (edge? index.resolver candidate.path) := by
  obtain ⟨files, -, h⟩ := bind_eq_ok_iff.1 h
  obtain ⟨⟨edges, later⟩, hedges, h⟩ := bind_eq_ok_iff.1 h
  cases h
  exact (edgesOf_spec hedges).2 later (.refl later)

theorem faithful_of_build : index.Faithful := by
  have hedges := edges_of_build h
  obtain ⟨files, hfiles, h⟩ := bind_eq_ok_iff.1 h
  obtain ⟨⟨edges, later⟩, -, h⟩ := bind_eq_ok_iff.1 h
  cases h
  rw [mapM_eq_ok_iff] at hfiles
  have hload : ∀ candidate ∈ files, ∃ path, Candidate.load disk root path = .ok candidate := by
    intro candidate hmem
    obtain ⟨path, -, hpath⟩ := exists_of_forall₂_right hfiles hmem
    exact ⟨path, hpath⟩
  refine ⟨?_, ?_, fun edge => ?_⟩
  · -- the candidate at a path is what is loaded from it
    intro a ha b hb hab
    obtain ⟨path, hpath⟩ := hload a ha
    obtain ⟨path', hpath'⟩ := hload b hb
    have heq : path = path' := by rw [← (load_spec hpath).1, hab, (load_spec hpath').1]
    rw [heq, hpath'] at hpath
    exact (Except.ok.inj hpath).symm
  · intro candidate hmem
    obtain ⟨path, hpath⟩ := hload candidate hmem
    exact (load_spec hpath).2
  · rw [hedges, mem_flatMap]
    simp only [mem_filterMap, edge?_eq_some_iff]
    rfl

end

variable {index : Index}

/-- A candidate is found at its path. -/
theorem Faithful.find?_eq (h : index.Faithful) (hmem : candidate ∈ index.files) :
    index.find? candidate.path = some candidate := by
  unfold find?
  cases hfind : index.files.find? (·.path == candidate.path) with
  | none =>
    have := find?_eq_none.1 hfind candidate hmem
    simp at this
  | some found =>
    have hpath : found.path = candidate.path := by simpa using find?_some hfind
    rw [h.unique found (mem_of_find?_eq_some hfind) candidate hmem hpath]

theorem Faithful.textOf_eq (h : index.Faithful) (hmem : candidate ∈ index.files) :
    index.textOf candidate.path = candidate.text := by
  simp [textOf, h.find?_eq hmem]

/-- The importer of an edge is a candidate. -/
theorem Faithful.exists_importer (h : index.Faithful) (hedge : edge ∈ index.edges) :
    ∃ candidate ∈ index.files, candidate.path = edge.importer := by
  obtain ⟨candidate, hmem, request, -, target, -, -, rfl⟩ := (h.mem_edges_iff edge).1 hedge
  exact ⟨candidate, hmem, rfl⟩

/-- The edges to a file are the edges with it as target. -/
theorem Faithful.mem_edgesTo_iff (h : index.Faithful) :
    edge ∈ index.edgesTo path ↔ edge ∈ index.edges ∧ edge.target = path := by
  simp only [edgesTo, mem_filter, Bool.and_eq_true, beq_iff_eq]
  refine and_congr_right fun hedge => and_iff_left_of_imp fun _ => ?_
  obtain ⟨candidate, hmem, hpath⟩ := h.exists_importer hedge
  rw [← hpath, h.find?_eq hmem]
  rfl

end Index

/-- The index of a project that has been opened is faithful. -/
theorem Project.faithful_of_load {disk : Disk} {directory : Path} {options : OpenOptions}
    {project : Project} (h : Project.load disk directory options = .ok project) :
    project.index.Faithful := by
  simp only [Project.load, bind_eq_ok_iff] at h
  obtain ⟨root, -, config, -, allowlist, -, workers, -, aliases, -, table, -, extra, -, excluder, -,
    extensions, -, paths, -, -, -, index, hindex, directories, -, corpus, -, h⟩ := h
  cases h
  exact Index.faithful_of_build hindex

end Deadwood

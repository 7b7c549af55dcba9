import Deadwood.Index.Providers
import Deadwood.Proofs.Tables
import Mathlib.Logic.Relation

/-!
# What chains of re-exports bring in

A re-export of everything passes on the names of another module, among them those that the other
module passes on in the same way. The search for them never visits a module twice on one chain, so a
module that is reached along a chain with a loop must be found along a chain without one. `Leads` is
such a chain; every module that can be reached at all is at the end of one
(`leads_of_reflTransGen`). Hence the exported names of a module are its own names and, apart from
the default, the own names of every module that chains of such re-exports lead to.

An index keeps its answers. Only what is found on a chain of its own is kept (`Sound`), so an answer
does not depend on what was asked for before (`exportedNames_eq_closure`).
-/

set_option autoImplicit false

namespace Deadwood

open List

namespace Index

open Deadwood.Module

variable {index : Index} {chain : List String} {path file name : String}

theorem mem_keys_supply {table more : Suppliers} : name ∈ (supply table more).map Prod.fst ↔
    name ∈ table.map Prod.fst ∨ name ∈ more.map Prod.fst := by
  induction more generalizing table with
  | nil => simp [supply]
  | cons pair more ih =>
    have hstep : supply table (pair :: more) = supply (Keyed.putNew pair.1 pair.2 table) more := rfl
    rw [hstep, ih, Keyed.mem_keys_putNew, map_cons, mem_cons, or_assoc]

theorem nodup_keys_supply {table more : Suppliers} (h : (table.map Prod.fst).Nodup) :
    ((supply table more).map Prod.fst).Nodup := by
  induction more generalizing table with
  | nil => exact h
  | cons pair more ih => exact ih (Keyed.nodup_keys_putNew h)

section Statements

variable {statements : List Reexport} {table : Suppliers} {passed : Reexport → Suppliers}

theorem mem_keys_foldl_supply :
    name ∈ (statements.foldl (fun table s => supply table (passed s)) table).map Prod.fst ↔
      name ∈ table.map Prod.fst ∨ ∃ s ∈ statements, name ∈ (passed s).map Prod.fst := by
  induction statements generalizing table with
  | nil => simp
  | cons s statements ih =>
    rw [foldl_cons, ih, mem_keys_supply, or_assoc]
    simp only [mem_cons, exists_eq_or_imp]

theorem nodup_keys_foldl_supply (h : (table.map Prod.fst).Nodup) :
    ((statements.foldl (fun table s => supply table (passed s)) table).map Prod.fst).Nodup := by
  induction statements generalizing table with
  | nil => exact h
  | cons s statements ih => exact ih (nodup_keys_supply h)

end Statements

/-- A re-export passes on the names that it writes out, and those of its target if it passes on
everything. -/
theorem mem_keys_passedOn {target : Option String} {inner : Suppliers} {passage : Passage} :
    name ∈ (passedOn target inner passage).map Prod.fst ↔ name ∈ passage.exportedNames ∨
      passage = .everything ∧ name ≠ "default" ∧ name ∈ inner.map Prod.fst := by
  cases passage with
  | everything =>
    simp only [passedOn, Passage.exportedNames, map_map, mem_map, mem_filter,
      bne_iff_ne, Function.comp_apply, not_mem_nil, false_or, true_and]
    constructor
    · rintro ⟨pair, ⟨hmem, hdefault⟩, rfl⟩
      exact ⟨hdefault, pair, hmem, rfl⟩
    · rintro ⟨hdefault, pair, hmem, rfl⟩
      exact ⟨pair, ⟨hmem, hdefault⟩, rfl⟩
  | whole whole => simp [passedOn, Passage.exportedNames]
  | listed entries => simp [passedOn, Passage.exportedNames, mem_map]

/-! ## Indexes that agree -/

/-- The second index has every candidate of the first, and what the candidates pass on comes from
the same files, which are candidates of the one exactly if they are candidates of the other. -/
structure Agrees (index other : Index) : Prop where
  find_eq : ∀ {path : String} {candidate : Candidate}, index.find? path = some candidate →
    other.find? path = some candidate
  target_eq : ∀ {path : String} {candidate : Candidate}, index.find? path = some candidate →
    ∀ statement ∈ candidate.module.reexports,
      other.target? path statement.specifier = index.target? path statement.specifier
  find_target : ∀ {path : String} {candidate : Candidate}, index.find? path = some candidate →
    ∀ statement ∈ candidate.module.reexports, ∀ file,
      index.target? path statement.specifier = some file → other.find? file = index.find? file

/-- What a file exports and where it comes from depends on nothing else. -/
theorem Agrees.suppliersFrom_eq {other : Index} (h : Agrees index other)
    (hpath : other.find? path = index.find? path) :
    other.suppliersFrom chain path = index.suppliersFrom chain path := by
  fun_induction suppliersFrom index chain path with
  | case1 chain path hfound =>
    rw [hfound] at hpath
    rw [suppliersFrom]
    split
    · rfl
    · simp_all
  | case2 chain path candidate hfound hfresh own ih =>
    rw [hfound] at hpath
    rw [suppliersFrom]
    split
    · simp_all
    · rename_i found hother
      obtain rfl : found = candidate := Option.some.inj (hother.symm.trans hpath)
      rw [dif_pos hfresh]
      refine foldl_ext _ _ _ fun table statement hstatement => ?_
      have htarget := h.target_eq hfound statement hstatement
      rw [htarget]
      cases hfile : index.target? path statement.specifier with
      | none => cases statement.passage <;> rfl
      | some file =>
        have hinner := ih file (h.find_target hfound statement hstatement file hfile)
        cases hpassage : statement.passage with
        | everything | whole | listed => simp only [hinner]
  | case3 chain path candidate hfound hseen =>
    rw [suppliersFrom]
    split
    · rfl
    · rw [dif_neg hseen]

/-! ## One module on a chain -/

/-- The candidate at `path` declares `name` or writes it in a list or a re-export of its own. -/
def Offers (index : Index) (path name : String) : Prop :=
  ∃ candidate, index.find? path = some candidate ∧ name ∈ candidate.module.exportedNames

/-- The candidate at `path` passes on everything of `file`. -/
def PassesOn (index : Index) (path file : String) : Prop :=
  ∃ candidate, index.find? path = some candidate ∧ ∃ statement ∈ candidate.module.reexports,
    statement.passage = .everything ∧ index.target? path statement.specifier = some file

theorem mem_ownNames_or {m : Module} : name ∈ m.exportedNames ↔
    name ∈ ownNames m ∨ ∃ statement ∈ m.reexports, name ∈ statement.passage.exportedNames := by
  rw [Module.exportedNames, mem_eraseDups, mem_append, mem_flatMap]
  rfl

/-- What the search finds at a module that is not on the chain yet: the module's own names, and what
it finds behind the module's re-exports of everything with the module on the chain. -/
theorem mem_keys_suppliersFrom : name ∈ (index.suppliersFrom chain path).map Prod.fst ↔
    path ∉ chain ∧ (index.Offers path name ∨ name ≠ "default" ∧ ∃ file,
      index.PassesOn path file ∧
      name ∈ (index.suppliersFrom (path :: chain) file).map Prod.fst) := by
  rw [suppliersFrom]
  split
  next hfound => simp [Offers, PassesOn, hfound]
  next candidate hfound =>
    by_cases hseen : path ∈ chain
    · rw [dif_neg (by simpa using hseen)]
      simp [hseen]
    · rw [dif_pos (by simpa using hseen), mem_keys_foldl_supply, mem_keys_supply]
      simp only [hseen, not_false_eq_true, true_and, map_nil, not_mem_nil, false_or,
        map_map, Function.comp_def, map_id', mem_keys_passedOn, Offers, PassesOn, hfound,
        Option.some.injEq, exists_eq_left', mem_ownNames_or]
      constructor
      · rintro (hown | ⟨statement, hmem, hwritten | ⟨hall, hdefault, hinner⟩⟩)
        · exact .inl (.inl hown)
        · exact .inl (.inr ⟨statement, hmem, hwritten⟩)
        · rw [hall] at hinner
          cases htarget : index.target? path statement.specifier with
          | none => simp [htarget] at hinner
          | some file =>
            rw [htarget] at hinner
            exact .inr ⟨hdefault, file, ⟨statement, hmem, hall, htarget⟩, hinner⟩
      · rintro ((hown | ⟨statement, hmem, hwritten⟩) |
          ⟨hdefault, file, ⟨statement, hmem, hall, htarget⟩, hinner⟩)
        · exact .inl hown
        · exact .inr ⟨statement, hmem, .inl hwritten⟩
        · refine .inr ⟨statement, hmem, .inr ⟨hall, hdefault, ?_⟩⟩
          rw [hall, htarget]
          exact hinner

theorem nodup_keys_suppliersFrom : ((index.suppliersFrom chain path).map Prod.fst).Nodup := by
  rw [suppliersFrom]
  split
  · simp
  · split
    · exact nodup_keys_foldl_supply (nodup_keys_supply (by simp))
    · simp

/-! ## Chains without a loop -/

/-- Re-exports of everything lead from `path` to `file` through modules that are neither in `chain`
nor met twice. -/
inductive Leads (index : Index) (file : String) : List String → String → Prop
  | here {chain : List String} (fresh : file ∉ chain) : Leads index file chain file
  | step {chain : List String} {path next : String} (fresh : path ∉ chain)
      (passes : index.PassesOn path next) (leads : Leads index file (path :: chain) next) :
      Leads index file chain path

namespace Leads

/-- A chain may always be allowed to pass through more modules. -/
theorem mono {chain' : List String} (h : Leads index file chain path) (sub : chain' ⊆ chain) :
    Leads index file chain' path := by
  induction h generalizing chain' with
  | here fresh => exact here fun hmem => fresh (sub hmem)
  | step fresh passes _ ih =>
    exact step (fun hmem => fresh (sub hmem)) passes (ih (cons_subset_cons _ sub))

/-- A chain avoids a given module, or a part of it leads on from that module. -/
theorem avoid_or (other : String) (h : Leads index file chain path) :
    Leads index file (other :: chain) path ∨ Leads index file chain other := by
  induction h with
  | @here chain fresh =>
    by_cases hsame : file = other
    · exact .inr (hsame ▸ here fresh)
    · exact .inl (here (by simp [hsame, fresh]))
  | @step chain path next fresh passes leads ih =>
    by_cases hsame : path = other
    · exact .inr (hsame ▸ step fresh passes leads)
    · rcases ih with havoid | hfrom
      · -- `path` and `other` are both avoided behind `path`, in whichever order they are listed
        have hswap : Leads index file (path :: other :: chain) next :=
          havoid.mono (List.Perm.swap other path chain).subset
        exact .inl (step (by simp [hsame, fresh]) passes hswap)
      · exact .inr (hfrom.mono (subset_cons_self _ _))

/-- A chain can be entered one module earlier: if that module is on the chain already, the loop is
cut off. -/
theorem head {next : String} (fresh : path ∉ chain) (passes : index.PassesOn path next)
    (h : Leads index file chain next) : Leads index file chain path := by
  rcases h.avoid_or path with havoid | hfrom
  · exact step fresh passes havoid
  · exact hfrom

/-- The search finds every name but the default that a module at the end of the chain offers. -/
theorem mem_keys (h : Leads index file chain path) (hdefault : name ≠ "default")
    (hoffers : index.Offers file name) : name ∈ (index.suppliersFrom chain path).map Prod.fst := by
  induction h with
  | here fresh => exact mem_keys_suppliersFrom.2 ⟨fresh, .inl hoffers⟩
  | @step _ _ next fresh passes _ ih =>
    exact mem_keys_suppliersFrom.2 ⟨fresh, .inr ⟨hdefault, next, passes, ih⟩⟩

end Leads

/-- Whatever can be reached is reached along a chain without a loop. -/
theorem leads_of_reflTransGen (h : Relation.ReflTransGen index.PassesOn path file) :
    Leads index file [] path := by
  induction h using Relation.ReflTransGen.head_induction_on with
  | refl => exact .here (not_mem_nil)
  | head passes _ ih => exact .head not_mem_nil passes ih

/-- Every name that the search finds is offered by the module itself or, if it is not the default,
by a module that re-exports of everything lead to. -/
theorem offers_of_mem_keys (h : name ∈ (index.suppliersFrom chain path).map Prod.fst) :
    index.Offers path name ∨ name ≠ "default" ∧ ∃ file,
      Relation.TransGen index.PassesOn path file ∧ index.Offers file name := by
  -- the search ends because each call has one more candidate on its chain
  induction hn : (index.unseen chain).length using Nat.strongRecOn generalizing chain path with
  | ind n ih =>
    obtain ⟨hfresh, hown | ⟨hdefault, next, hpasses, hnext⟩⟩ := mem_keys_suppliersFrom.1 h
    · exact .inl hown
    · obtain ⟨candidate, hfound, -⟩ := id hpasses
      have hless := length_unseen_lt hfound (by simpa using hfresh : chain.contains path = false)
      refine .inr ⟨hdefault, ?_⟩
      rcases ih _ (hn ▸ hless) hnext rfl with hoffers | ⟨-, file, hreach, hoffers⟩
      · exact ⟨next, .single hpasses, hoffers⟩
      · exact ⟨file, .head hpasses hreach, hoffers⟩

/-- The names that the search finds are those that the module offers itself
together with every name but the default that is offered by a module which one or more re-exports of
everything lead to. -/
theorem mem_suppliers_iff : name ∈ (index.suppliers path).map Prod.fst ↔
    index.Offers path name ∨ name ≠ "default" ∧ ∃ file,
      Relation.TransGen index.PassesOn path file ∧ index.Offers file name := by
  refine ⟨offers_of_mem_keys, ?_⟩
  rintro (hown | ⟨hdefault, file, hreach, hoffers⟩)
  · exact mem_keys_suppliersFrom.2 ⟨not_mem_nil, .inl hown⟩
  · exact (leads_of_reflTransGen hreach.to_reflTransGen).mem_keys hdefault hoffers

/-! ## Answers that are kept -/

/-- Every answer that is kept is what the search finds. -/
def Sound (index : Index) (answers : Answers) : Prop :=
  ∀ path exports, answers.lookup path = some exports → exports = index.suppliers path

theorem sound_nil : index.Sound [] := fun _ _ h => by cases h

/-- A question is answered with what the search finds, and the answers stay sound. -/
theorem Sound.ask {answers : Answers} (h : index.Sound answers) :
    (index.ask path answers).1 = index.suppliers path ∧ index.Sound (index.ask path answers).2 := by
  unfold Index.ask
  split
  · rename_i exports hlookup
    exact ⟨h path exports hlookup, h⟩
  · refine ⟨rfl, fun other exports hlookup => ?_⟩
    rw [Keyed.lookup_put] at hlookup
    split at hlookup
    · rename_i hsame
      rw [eq_of_beq hsame, Option.some.inj hlookup]
    · exact h other exports hlookup

/-- The answers that an index keeps after the exports of some files have been asked for. -/
def answersAfter (index : Index) (asked : List String) : Answers :=
  asked.foldl (fun answers path => (index.ask path answers).2) []

theorem sound_answersAfter (index : Index) (asked : List String) :
    index.Sound (index.answersAfter asked) := by
  suffices hall : ∀ answers, index.Sound answers →
      index.Sound (asked.foldl (fun answers path => (index.ask path answers).2) answers) from
    hall [] sound_nil
  induction asked with
  | nil => exact fun _ h => h
  | cons path asked ih => exact fun answers h => ih _ h.ask.2

/-- Whatever was asked for before, the exported names of a module, each listed once, are those that
it offers itself together with every name but the default that is offered by a module which one or
more re-exports of everything lead to, however these run in circles. -/
theorem exportedNames_eq_closure (index : Index) (asked : List String) (path : String) :
    (((index.ask path (index.answersAfter asked)).1).map Prod.fst).Nodup ∧
      ∀ name, name ∈ ((index.ask path (index.answersAfter asked)).1).map Prod.fst ↔
        index.Offers path name ∨ name ≠ "default" ∧ ∃ file,
          Relation.TransGen index.PassesOn path file ∧ index.Offers file name := by
  rw [(index.sound_answersAfter asked).ask.1]
  exact ⟨nodup_keys_suppliersFrom, fun name => mem_suppliers_iff⟩

end Index

end Deadwood

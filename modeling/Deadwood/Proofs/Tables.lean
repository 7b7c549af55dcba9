import Deadwood.Keyed
import Mathlib.Data.List.Basic
import Mathlib.Data.List.Nodup

/-!
# Tables

What a keyed list holds after a key is written to it, in the place of an earlier value (`put`) or
only if the key is new (`putNew`), and after many keys are (`putAll`, `ofPairs`). Keys stay
distinct.
-/

set_option autoImplicit false

namespace Deadwood

open List

theorem nodup_eraseDups {α : Type} [BEq α] [LawfulBEq α] (as : List α) : as.eraseDups.Nodup := by
  induction hn : as.length using Nat.strongRecOn generalizing as with
  | ind n ih =>
    cases as with
    | nil => exact nodup_nil
    | cons a as =>
      rw [eraseDups_cons, nodup_cons]
      refine ⟨by simp [mem_eraseDups], ih _ ?_ _ rfl⟩
      rw [← hn]
      exact Nat.lt_succ_of_le (length_filter_le _ _)

namespace Keyed

variable {κ ν : Type} [BEq κ] [LawfulBEq κ] {key k : κ} {value : ν} {table changes : List (κ × ν)}
  {pair : κ × ν}

/-! ## One key -/

/-- A new key comes last. -/
theorem put_of_not_mem (h : key ∉ table.map Prod.fst) :
    put key value table = table ++ [(key, value)] := by
  induction table with
  | nil => rfl
  | cons first table ih =>
    rw [map_cons, mem_cons, not_or] at h
    have hne : ¬ (first.1 == key) = true := fun heq => h.1 (eq_of_beq heq).symm
    rw [put, if_neg hne, ih h.2, cons_append]

/-- A key that is there keeps its place. -/
theorem keys_put_of_mem (h : key ∈ table.map Prod.fst) :
    (put key value table).map Prod.fst = table.map Prod.fst := by
  induction table with
  | nil => cases h
  | cons first table ih =>
    rw [put]
    split
    · rfl
    · rename_i hne
      rw [map_cons, mem_cons] at h
      rw [map_cons, map_cons, ih (h.resolve_left fun heq => hne (by simp [heq]))]

theorem mem_keys_put : k ∈ (put key value table).map Prod.fst ↔
    k ∈ table.map Prod.fst ∨ k = key := by
  by_cases h : key ∈ table.map Prod.fst
  · rw [keys_put_of_mem h]
    constructor
    · exact .inl
    · rintro (hk | rfl)
      · exact hk
      · exact h
  · rw [put_of_not_mem h]
    simp

theorem nodup_keys_put (h : (table.map Prod.fst).Nodup) :
    ((put key value table).map Prod.fst).Nodup := by
  by_cases hmem : key ∈ table.map Prod.fst
  · rwa [keys_put_of_mem hmem]
  · rw [put_of_not_mem hmem, map_append]
    refine nodup_append.2 ⟨h, by simp, ?_⟩
    rintro k hk _ hkey rfl
    obtain rfl : k = key := by simpa using hkey
    exact hmem hk

theorem lookup_eq_some_iff_mem (h : (table.map Prod.fst).Nodup) :
    table.lookup key = some value ↔ (key, value) ∈ table := by
  induction table with
  | nil => simp
  | cons first table ih =>
    rw [map_cons, nodup_cons] at h
    rw [lookup_cons, mem_cons]
    split
    · rename_i hkey
      obtain rfl := eq_of_beq hkey
      constructor
      · intro hvalue
        exact .inl (Prod.ext rfl (Option.some.inj hvalue).symm)
      · rintro (hfirst | hmem)
        · rw [← hfirst]
        · exact absurd (mem_map.2 ⟨_, hmem, rfl⟩) h.1
    · rename_i hkey
      rw [ih h.2]
      refine ⟨.inr, fun hor => hor.resolve_left ?_⟩
      rintro rfl
      exact absurd hkey (by simp)

theorem lookup_put (key k : κ) (value : ν) (table : List (κ × ν)) :
    (put key value table).lookup k = if k == key then some value else table.lookup k := by
  induction table with
  | nil => simp only [put, lookup_cons, lookup_nil]; split <;> simp_all
  | cons pair table ih =>
    obtain ⟨k', v⟩ := pair
    simp only [put]
    split
    · rename_i heq
      obtain rfl := eq_of_beq heq
      simp only [lookup_cons]
      split <;> simp_all
    · rename_i hne
      simp only [lookup_cons, ih]
      split <;> simp_all

theorem mem_put (h : pair ∈ put key value table) :
    pair ∈ table ∨ pair = (key, value) := by
  induction table with
  | nil => exact .inr (mem_singleton.1 h)
  | cons first table ih =>
    unfold put at h
    split at h
    · rename_i hsame
      rcases mem_cons.1 h with rfl | h
      · exact .inr (by rw [eq_of_beq hsame])
      · exact .inl (mem_cons_of_mem _ h)
    · rcases mem_cons.1 h with rfl | h
      · exact .inl mem_cons_self
      · exact (ih h).imp_left (mem_cons_of_mem _)

theorem put_mem : (key, value) ∈ put key value table := by
  induction table with
  | nil => exact mem_singleton.2 rfl
  | cons first table ih =>
    unfold put
    split
    · rename_i hsame
      rw [eq_of_beq hsame]
      exact mem_cons_self
    · exact mem_cons_of_mem _ ih

theorem mem_put_of_ne (h : pair ∈ table) (hne : pair.1 ≠ key) :
    pair ∈ put key value table := by
  induction table with
  | nil => cases h
  | cons first table ih =>
    unfold put
    split
    · rename_i hsame
      rcases mem_cons.1 h with rfl | h
      · exact absurd (eq_of_beq hsame) hne
      · exact mem_cons_of_mem _ h
    · rcases mem_cons.1 h with rfl | h
      · exact mem_cons_self
      · exact mem_cons_of_mem _ (ih h)

/-! ## A key that may be there -/

theorem mem_keys_putNew :
    k ∈ (putNew key value table).map Prod.fst ↔ k ∈ table.map Prod.fst ∨ k = key := by
  unfold putNew
  by_cases hhas : (table.lookup key).isSome
  · obtain ⟨pair, hmem, hkey⟩ := lookup_isSome_iff.1 hhas
    rw [if_pos hhas]
    constructor
    · exact .inl
    · rintro (hk | rfl)
      · exact hk
      · exact mem_map.2 ⟨pair, hmem, (eq_of_beq hkey).symm⟩
  · rw [if_neg hhas]
    simp

theorem nodup_keys_putNew (h : (table.map Prod.fst).Nodup) :
    ((putNew key value table).map Prod.fst).Nodup := by
  unfold putNew
  by_cases hhas : (table.lookup key).isSome
  · rwa [if_pos hhas]
  · rw [if_neg hhas, map_append]
    refine nodup_append.2 ⟨h, by simp, ?_⟩
    rintro k hk _ hkey rfl
    obtain rfl : k = key := by simpa using hkey
    obtain ⟨pair, hmem, hpair⟩ := mem_map.1 hk
    exact hhas (lookup_isSome_iff.2 ⟨pair, hmem, by simp [hpair]⟩)

theorem lookup_putNew (key k : κ) (value : ν) (table : List (κ × ν)) :
    (putNew key value table).lookup k =
      (table.lookup k).or (if k == key then some value else none) := by
  unfold putNew
  split
  · rename_i hsome
    split
    · rename_i hkey
      rw [eq_of_beq hkey]
      cases hlookup : table.lookup key with
      | none => simp [hlookup] at hsome
      | some found => rfl
    · rw [Option.or_none]
  · rw [lookup_append]
    simp only [lookup_cons, lookup_nil]
    cases k == key <;> rfl

/-! ## Many keys -/

/-- Keys that are all new come one after the other. -/
theorem foldl_put_eq {files : List κ} (assigned : κ → ν) (h : (table.map Prod.fst ++ files).Nodup) :
    files.foldl (fun table file => put file (assigned file) table) table =
      table ++ files.map fun file => (file, assigned file) := by
  induction files generalizing table with
  | nil => simp
  | cons file files ih =>
    have hnew : file ∉ table.map Prod.fst := fun hmem =>
      (nodup_append.1 h).2.2 file hmem file mem_cons_self rfl
    rw [foldl_cons, put_of_not_mem hnew, ih (by simpa using h), map_cons,
      append_assoc, singleton_append]

/-- If the value is determined by the key, a table of pairs holds exactly these pairs. -/
theorem mem_ofPairs_iff {pairs : List (κ × ν)} (value : κ → ν)
    (h : ∀ pair ∈ pairs, pair.2 = value pair.1) : pair ∈ ofPairs pairs ↔ pair ∈ pairs := by
  suffices hall : ∀ table : List (κ × ν), (∀ pair ∈ table, pair.2 = value pair.1) →
      (pair ∈ putAll table pairs ↔ pair ∈ table ∨ pair ∈ pairs) by
    simpa [ofPairs] using hall [] (by simp)
  induction pairs with
  | nil => simp [putAll]
  | cons first pairs ih =>
    intro table htable
    have hfirst := h first mem_cons_self
    have hstep : putAll table (first :: pairs) = putAll (put first.1 first.2 table) pairs := rfl
    rw [hstep, ih fun pair hpair => h pair (mem_cons_of_mem _ hpair)]
    · rw [mem_cons, ← or_assoc]
      refine or_congr_left ⟨mem_put, ?_⟩
      rintro (hmem | rfl)
      · by_cases hsame : pair.1 = first.1
        · have heq : pair = (first.1, first.2) := by
            rw [Prod.ext_iff, hfirst, htable pair hmem, hsame]
            exact ⟨rfl, rfl⟩
          rw [heq]
          exact put_mem
        · exact mem_put_of_ne hmem hsame
      · exact put_mem
    · intro pair hpair
      rcases mem_put hpair with hmem | rfl
      · exact htable pair hmem
      · exact hfirst

/-- Of two tables the one that is laid over the other is asked first. A key that it gives twice
counts with its last value. -/
theorem lookup_putAll (key : κ) : (putAll table changes).lookup key =
    ((ofPairs changes).lookup key).or (table.lookup key) := by
  induction changes generalizing table with
  | nil => rfl
  | cons change changes ih =>
    have hstep : ∀ table, putAll table (change :: changes) =
        putAll (put change.1 change.2 table) changes := fun _ => rfl
    rw [ofPairs, hstep, hstep, ih, ih, lookup_put, lookup_put, Option.or_assoc]
    split <;> rfl

theorem nodup_keys_putAll (h : (table.map Prod.fst).Nodup) :
    ((putAll table changes).map Prod.fst).Nodup := by
  induction changes generalizing table with
  | nil => exact h
  | cons change changes ih => exact ih (nodup_keys_put h)

theorem lookup_ofPairs (h : (table.map Prod.fst).Nodup) (key : κ) :
    (ofPairs table).lookup key = table.lookup key := by
  induction table with
  | nil => rfl
  | cons pair table ih =>
    rw [map_cons, nodup_cons] at h
    have hstep : ofPairs (pair :: table) = putAll [pair] table := rfl
    rw [hstep, lookup_putAll, ih h.2, lookup_cons, lookup_cons]
    cases hkey : key == pair.1 with
    | false => cases table.lookup key <;> rfl
    | true =>
      have hnone : table.lookup key = none := by
        rw [lookup_eq_none_iff]
        intro other hother
        simpa [eq_of_beq hkey] using fun heq => h.1 (mem_map.2 ⟨other, hother, heq.symm⟩)
      rw [hnone]
      rfl

theorem has_ofPairs (key : κ) : has key (ofPairs table) = has key table := by
  induction table with
  | nil => rfl
  | cons pair table ih =>
    change ((putAll [pair] table).lookup key).isSome = _
    rw [lookup_putAll, Option.isSome_or, show ((ofPairs table).lookup key).isSome = _ from ih, has,
      has, lookup_cons, lookup_cons]
    cases key == pair.1 <;> simp

end Keyed

end Deadwood

import Deadwood.Proofs.Tokens
import Mathlib.Data.List.TakeWhile

/-!
# Counts as numbers of runs

Counting looks for a name from left to right and skips what it has counted. What it counts are runs
of token characters: a name of token characters is counted once for each longest run that is the
name (`countTokens_counts_runs`). The edges of a token are those of ASCII, so a name with other
characters may be counted inside of a longer name too, but none of the runs that are the name is
ever missed.
-/

set_option autoImplicit false

namespace Deadwood.Reference

open Text List

/-! ## Runs -/

/-- The longest runs of characters with `p` in a text, in order. -/
def runs (p : Char → Bool) (text : List Char) : List (List Char) :=
  (text.splitOnP fun c => !p c).filter fun run => !run.isEmpty

/-- What is left of a text after the run that goes on from the character `previous`. -/
def unbegun (p : Char → Bool) (previous : Option Char) (text : List Char) : List Char :=
  if previous.any p then text.dropWhile p else text

variable {p : Char → Bool}

theorem runs_cons_of_not {c : Char} (hc : p c = false) (cs : List Char) :
    runs p (c :: cs) = runs p cs := by
  simp [runs, splitOnP_cons_eq_if_modifyHead, hc]

/-- A run reaches up to the first character without `p`. -/
theorem runs_append {run rest : List Char} (hne : run ≠ []) (hrun : ∀ c ∈ run, p c)
    (hrest : rest.head?.any p = false) : runs p (run ++ rest) = run :: runs p rest := by
  have hinside : ∀ c ∈ run, (!p c) = false := fun c hc => by simp [hrun c hc]
  cases rest with
  | nil => simp [runs, splitOnP_eq_singleton hinside, hne]
  | cons c rest =>
    have hc : p c = false := by simpa using hrest
    rw [runs_cons_of_not hc, runs,
      splitOnP_append_cons_of_forall_mem hinside c (by simp [hc])]
    simp [runs, hne]

theorem head?_dropWhile (cs : List Char) : (cs.dropWhile p).head?.any p = false := by
  cases h : cs.dropWhile p with
  | nil => rfl
  | cons c rest => simpa [h] using head?_dropWhile_not p cs

/-- One character further on, a run is over that began there. -/
theorem runs_unbegun_cons (previous : Option Char) (c : Char) (cs : List Char) :
    runs p (unbegun p previous (c :: cs)) =
      (if p c && !previous.any p then [c :: cs.takeWhile p] else []) ++
        runs p (unbegun p (some c) cs) := by
  cases hc : p c with
  | false => cases hprevious : previous.any p <;> simp [unbegun, hprevious, hc, runs_cons_of_not hc]
  | true =>
    cases hprevious : previous.any p with
    | true => simp [unbegun, hprevious, hc]
    | false =>
      have hrun : ∀ d ∈ c :: cs.takeWhile p, p d := by
        rintro d (_ | ⟨_, hd⟩)
        · exact hc
        · exact mem_takeWhile_imp hd
      have hcons := runs_append (cons_ne_nil c _) hrun (head?_dropWhile cs)
      rw [cons_append, takeWhile_append_dropWhile] at hcons
      simp [unbegun, hprevious, hc, hcons]

/-- A run that goes on from its last character is over where it ends. -/
theorem unbegun_getLast? {name : List Char} (hne : name ≠ []) (hname : ∀ c ∈ name, p c)
    (rest : List Char) : unbegun p name.getLast? rest = rest.dropWhile p := by
  have hlast : name.getLast?.any p := by
    rw [getLast?_eq_some_getLast hne]
    exact hname _ (getLast_mem hne)
  rw [unbegun, if_pos hlast]

/-! ## Counting runs -/

variable {name : List Char}

theorem isEdge_of_any_eq_false (htoken : ∀ c, isToken c → p c) {c : Option Char}
    (h : c.any p = false) : isEdge c := by
  cases c with
  | none => rfl
  | some c =>
    rw [isEdge_some, Bool.not_eq_true', Bool.eq_false_iff]
    intro hc
    rw [Option.any_some, htoken c hc] at h
    exact Bool.noConfusion h

/-- Where a name is counted, the search goes on behind it. -/
theorem exists_eq_append_of_match {c : Char} {cs : List Char} {previous : Option Char}
    (hne : name ≠ []) (h : (isEdge previous && name.isPrefixOf (c :: cs) &&
      isEdge ((c :: cs).drop name.length).head?)) :
    ∃ rest, c :: cs = name ++ rest ∧ (c :: cs.take (name.length - 1)).getLast? = name.getLast? ∧
      cs.drop (name.length - 1) = rest ∧ isEdge previous ∧ isEdge rest.head? := by
  simp only [Bool.and_eq_true] at h
  obtain ⟨⟨hprevious, hbegin⟩, hnext⟩ := h
  obtain ⟨rest, hrest⟩ := isPrefixOf_iff_prefix.1 hbegin
  rw [← hrest, drop_left] at hnext
  obtain ⟨d, tail, rfl⟩ := exists_cons_of_ne_nil hne
  obtain ⟨rfl, rfl⟩ := cons.inj hrest
  exact ⟨rest, rfl, by simp, by simp, hprevious, hnext⟩

/-- No run that is the name is missed, whatever characters besides those of tokens a run has. -/
theorem count_runs_le_countFrom (htoken : ∀ c, isToken c → p c) (hne : name ≠ [])
    (hname : ∀ c ∈ name, p c) (previous : Option Char) (text : List Char) :
    (runs p (unbegun p previous text)).count name ≤ countFrom name previous text := by
  fun_induction countFrom name previous text with
  | case1 previous h => simp [unbegun, runs]
  | case2 previous h => simp [unbegun, runs]
  | case3 previous c cs hmatch more ih =>
    obtain ⟨rest, htext, hlast, hdrop, -, -⟩ := exists_eq_append_of_match hne hmatch
    rw [hlast, hdrop, unbegun_getLast? hne hname] at ih
    rw [htext, hlast, hdrop]
    cases hprevious : previous.any p with
    | true =>
      rw [unbegun, if_pos hprevious, dropWhile_append_of_pos hname]
      omega
    | false =>
      have hrun : ∀ d ∈ name ++ rest.takeWhile p, p d := fun d hd =>
        (mem_append.1 hd).elim (hname d) mem_takeWhile_imp
      have hcount := count_cons (a := name) (b := name ++ rest.takeWhile p)
        (l := runs p (rest.dropWhile p))
      rw [← runs_append (by simp [hne]) hrun (head?_dropWhile rest), append_assoc,
        takeWhile_append_dropWhile] at hcount
      rw [unbegun, if_neg (by simp [hprevious]), hcount]
      split <;> omega
  | case4 previous c cs hmatch ih =>
    rw [runs_unbegun_cons, count_append]
    split
    · rename_i hbegins
      simp only [Bool.and_eq_true, Bool.not_eq_true'] at hbegins
      -- a run that begins here and is the name would have been counted
      have hother : name ≠ c :: cs.takeWhile p := by
        intro heq
        have htext : c :: cs = name ++ cs.dropWhile p := by
          rw [heq, cons_append, takeWhile_append_dropWhile]
        refine hmatch ?_
        rw [htext, drop_left, isEdge_of_any_eq_false htoken hbegins.2,
          isEdge_of_any_eq_false htoken (head?_dropWhile cs)]
        simp
      rwa [count_singleton, if_neg (by simpa using hother.symm), Nat.zero_add]
    · simpa using ih

/-- A name of token characters is counted only where a run is the name. -/
theorem countFrom_le_count_runs (hne : name ≠ []) (hname : ∀ c ∈ name, isToken c)
    (previous : Option Char) (text : List Char) : countFrom name previous text ≤
      (runs isToken (unbegun isToken previous text)).count name := by
  fun_induction countFrom name previous text with
  | case1 previous h => simp [hne] at h
  | case2 previous h => exact Nat.zero_le _
  | case3 previous c cs hmatch more ih =>
    obtain ⟨rest, htext, hlast, hdrop, hprevious, hnext⟩ := exists_eq_append_of_match hne hmatch
    have hover : rest.head?.any isToken = false := by simpa [isEdge] using hnext
    have hstop : rest.dropWhile isToken = rest := by
      cases rest with
      | nil => rfl
      | cons d rest => exact dropWhile_cons_of_neg (by simpa using hover)
    rw [hlast, hdrop, unbegun_getLast? hne hname, hstop] at ih
    rw [htext, hlast, hdrop, unbegun, if_neg (by simpa [isEdge] using hprevious),
      runs_append hne hname hover, count_cons_self]
    omega
  | case4 previous c cs hmatch ih =>
    rw [runs_unbegun_cons, count_append]
    omega

/-- A name of token characters is counted as often as a longest run of token characters is the
name. Any other name is counted at least as often as a longest run of characters of names is the
name. -/
theorem countTokens_counts_runs (name : String) (text : List Char) (hne : name ≠ "") :
    ((∀ c ∈ name.toList, isToken c = true) →
      countTokens name text = (runs isToken text).count name.toList) ∧
    ((∀ c ∈ name.toList, isIdent c = true) →
      (runs isIdent text).count name.toList ≤ countTokens name text) := by
  have hne' : name.toList ≠ [] := by simpa using hne
  rw [countTokens_eq]
  refine ⟨fun hname => ?_, fun hname => ?_⟩
  · exact Nat.le_antisymm (countFrom_le_count_runs hne' hname none text)
      (count_runs_le_countFrom (fun _ => id) hne' hname none text)
  · exact count_runs_le_countFrom (fun _ => isIdent_of_isToken) hne' hname none text

/-- Counting where the name touches itself, a longer name and a letter outside of ASCII. -/
theorem countTokens_counts_runs_aa : countTokens "aa" "aaa aa.aa aaé".toList = 3 ∧
      (runs isToken "aaa aa.aa aaé".toList).count "aa".toList = 3 ∧
      (runs isIdent "aaa aa.aa aaé".toList).count "aa".toList = 2 ∧
      2 ≤ countTokens "aa" "aaa aa.aa aaé".toList := by
  have hruns := countTokens_counts_runs "aa" "aaa aa.aa aaé".toList (by decide)
  have htokens : (runs isToken "aaa aa.aa aaé".toList).count "aa".toList = 3 := by decide +kernel
  have hidents : (runs isIdent "aaa aa.aa aaé".toList).count "aa".toList = 2 := by decide +kernel
  exact ⟨(hruns.1 (all_eq_true.1 rfl)).trans htokens, htokens, hidents,
    hidents ▸ hruns.2 (all_eq_true.1 rfl)⟩

end Deadwood.Reference

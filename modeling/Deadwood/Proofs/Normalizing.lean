import Deadwood.Proofs.Naming

/-!
# Normal forms of paths

A path in normal form has at most two slashes in front, then steps up, which only a relative path
has, and then names (`Normal`). Normalising gives such a path and leaves one alone
(`normalize_normal`), so a path is in normal form exactly if normalising does not change it. A path
in normal form that does not lead out is empty or spelled by names, and so is whatever is joined to
a directory.
-/

set_option autoImplicit false

namespace Deadwood.Relative

open List

/-- The path leads to a place below the directory that it starts from. -/
structure Confined (path : String) : Prop where
  unrooted : path.toList.head? ≠ some '/'
  level : ".." ∉ segments path

instance (path : String) : Decidable (Confined path) :=
  decidable_of_iff (path.toList.head? ≠ some '/' ∧ ".." ∉ segments path)
    ⟨fun h => ⟨h.1, h.2⟩, fun h => ⟨h.1, h.2⟩⟩

/-- The path goes up first, or it is rooted. -/
def leadsOut (path : String) : Bool := escapes path || path.startsWith "/"

theorem leadsOut_iff {path : String} :
    leadsOut path ↔ path = ".." ∨ "../".toList <+: path.toList ∨ ['/'] <+: path.toList := by
  simp [leadsOut, escapes, String.startsWith_string_iff, or_assoc]

variable {names : List String} {path base file : String} {slashes ups : Nat}

/-- The path has slashes in front, two at most, or some steps up, and then names. -/
structure Normal (slashes ups : Nat) (names : List String) (path : String) : Prop where
  slashes_le : slashes ≤ 2
  level : slashes ≠ 0 → ups = 0
  isPlain : ∀ name ∈ names, IsPlain name
  text_eq : path.toList =
    replicate slashes '/' ++ (ofSegments (replicate ups ".." ++ names)).toList

/-! ## Normalising gives a normal form -/

/-- What is left of segments: some steps up, unless they are rooted, and then names. -/
theorem exists_collapse (rooted : Bool) (parts : List String) :
    ∃ ups names, collapse rooted parts = replicate ups ".." ++ names ∧
      (rooted → ups = 0) ∧ ∀ name ∈ names, IsName name := by
  -- the stack is read from its top: names lie on the steps up, and a step up takes a name away
  suffices hstack : ∃ names ups, parts.foldl (push rooted) [] =
      names ++ replicate ups ".." ∧ (rooted → ups = 0) ∧
      ∀ name ∈ names, IsName name by
    obtain ⟨names, ups, hfold, hlevel, hnames⟩ := hstack
    refine ⟨ups, names.reverse, by simp [collapse, hfold], hlevel, ?_⟩
    exact fun name hname => hnames name (mem_reverse.1 hname)
  induction parts using reverseRecOn with
  | nil => exact ⟨[], 0, rfl, fun _ => rfl, by simp⟩
  | append_singleton parts part ih =>
    obtain ⟨names, ups, hfold, hlevel, hnames⟩ := ih
    rw [foldl_concat, hfold]
    rcases push_cases part with hskip | rfl | hname
    · exact ⟨names, ups, push_of_skipped hskip, hlevel, hnames⟩
    · cases names with
      | cons top names =>
        exact ⟨names, ups, push_up_cons (hnames top mem_cons_self).2.2, hlevel,
          fun name hname => hnames name (mem_cons_of_mem _ hname)⟩
      | nil =>
        cases rooted with
        | true =>
          obtain rfl := hlevel rfl
          exact ⟨[], 0, rfl, hlevel, by simp⟩
        | false =>
          refine ⟨[], ups + 1, ?_, by simp, by simp⟩
          cases ups <;> rfl
    · refine ⟨part :: names, ups, push_of_isName hname, hlevel, ?_⟩
      rintro name (_ | ⟨_, hmem⟩)
      · exact hname
      · exact hnames name hmem

theorem mem_of_mem_dropHere {c : Char} {cs : List Char} (h : c ∈ dropHere cs) : c ∈ cs := by
  fun_induction dropHere cs with
  | case1 cs ih => exact mem_cons_of_mem _ (mem_cons_of_mem _ (ih h))
  | case2 cs _ => exact h

theorem leadingSlashes_le (cs : List Char) : leadingSlashes cs ≤ 2 := by
  unfold leadingSlashes
  split <;> omega

theorem exists_normal (path : String) :
    ∃ slashes ups names, Normal slashes ups names (normalize path) := by
  let cs := dropHere (path.toList.map fun c => if c = '\\' then '/' else c)
  obtain ⟨ups, names, hcollapse, hlevel, hnames⟩ :=
    exists_collapse (leadingSlashes cs != 0) (segments (String.ofList cs))
  refine ⟨leadingSlashes cs, ups, names, leadingSlashes_le cs,
    fun hne => hlevel (by simpa using hne),
    fun name hname => ?_, by rw [← hcollapse, normalize, String.toList_ofList]⟩
  have hmem : name ∈ segments (String.ofList cs) :=
    mem_of_mem_collapse (hcollapse ▸ mem_append_right _ hname)
  refine ⟨⟨hnames name hname, not_mem_of_mem_segments hmem⟩, fun hback => ?_⟩
  -- no backslash is left in the text that is cut into segments
  obtain ⟨piece, hpiece, rfl⟩ := mem_map.1 hmem
  rw [String.toList_ofList] at hback hpiece
  obtain ⟨c, -, heq⟩ := mem_map.1 (mem_of_mem_dropHere (Text.mem_of_mem_splitOn hpiece hback).1)
  split at heq
  · exact absurd heq (by decide)
  · rename_i hne
    exact hne heq

/-! ## A normal form is left alone -/

section Normal

variable (h : Normal slashes ups names path)
include h

theorem Normal.isPart : ∀ part ∈ replicate ups ".." ++ names, IsPart part := by
  intro part hpart
  rcases mem_append.1 hpart with hup | hname
  · obtain rfl := eq_of_mem_replicate hup
    exact ⟨by decide, by decide, by decide⟩
  · exact (h.isPlain part hname).isPart

theorem Normal.backslash_not_mem : '\\' ∉ path.toList := by
  rw [h.text_eq, mem_append]
  rintro (hslash | hmem)
  · exact absurd (eq_of_mem_replicate hslash) (by decide)
  · rcases mem_ofSegments hmem with hslash | ⟨part, hpart, hc⟩
    · exact absurd hslash (by decide)
    · rcases mem_append.1 hpart with hup | hname
      · rw [eq_of_mem_replicate hup] at hc
        exact absurd hc (by decide)
      · exact (h.isPlain part hname).backslash hc

theorem Normal.collapse_eq (rooted : Bool) (hrooted : rooted → ups = 0) :
    collapse rooted (replicate ups ".." ++ names) = replicate ups ".." ++ names := by
  have hups : (replicate ups "..").foldl (push rooted) [] = replicate ups ".." := by
    cases rooted with
    | true => rw [hrooted rfl]; rfl
    | false =>
      clear h hrooted
      induction ups with
      | zero => rfl
      | succ ups ih =>
        rw [replicate_succ', foldl_concat, ih, ← replicate_succ']
        cases ups <;> rfl
  rw [collapse, foldl_append, hups,
    foldl_push_of_isName fun name hname => (h.isPlain name hname).isName]
  simp

/-- After the slashes in front the path begins neither with a slash nor with `./`. -/
theorem Normal.begins : (ofSegments (replicate ups ".." ++ names)).toList.head? ≠ some '/' ∧
      dropHere (ofSegments (replicate ups ".." ++ names)).toList =
        (ofSegments (replicate ups ".." ++ names)).toList := by
  rcases eq_or_ne (replicate ups ".." ++ names) [] with hnil | hne
  · rw [hnil]
    decide
  · exact ofSegments_begins hne h.isPart

theorem Normal.leadingSlashes_eq : leadingSlashes path.toList = slashes := by
  have hle := h.slashes_le
  rw [h.text_eq]
  obtain ⟨hhead, -⟩ := h.begins
  generalize (ofSegments (replicate ups ".." ++ names)).toList = rest at hhead ⊢
  obtain rfl | rfl | rfl : slashes = 0 ∨ slashes = 1 ∨ slashes = 2 := by omega
  · exact leadingSlashes_eq_zero_iff.2 hhead
  all_goals cases rest <;> simp_all [leadingSlashes, replicate_succ]

theorem Normal.collapse_segments :
    collapse (slashes != 0) (segments path) = replicate ups ".." ++ names := by
  have hrest : collapse (slashes != 0) (segments (ofSegments (replicate ups ".." ++ names))) =
      replicate ups ".." ++ names := by
    rcases eq_or_ne (replicate ups ".." ++ names) [] with hnil | hne
    · rw [hnil]
      rfl
    · rw [segments_ofSegments hne fun part hpart => (h.isPart part hpart).slash]
      exact h.collapse_eq _ fun hrooted => h.level (by simpa using hrooted)
  -- the empty segments before the slashes are skipped
  have hskip : (replicate slashes "").filter (fun part => part != "" && part != ".") = [] := by
    simp
  rw [← String.ofList_toList (s := path), h.text_eq, segments_replicate_append,
    String.ofList_toList, ← collapse_filter, filter_append, hskip, nil_append, collapse_filter,
    hrest]

theorem Normal.normalize_eq : normalize path = path := by
  have hdrop : dropHere path.toList = path.toList := by
    rw [h.text_eq]
    cases slashes with
    | zero => exact h.begins.2
    | succ slashes => rfl
  rw [normalize, map_slash_of_not_mem h.backslash_not_mem, hdrop, h.leadingSlashes_eq,
    String.ofList_toList, h.collapse_segments, ← h.text_eq, String.ofList_toList]

end Normal

/-! ## Joined paths -/

/-- A path in normal form that does not lead out is empty or spelled by names. -/
theorem Normal.spells (h : Normal slashes ups names path) (hinside : leadsOut path = false) :
    path = "" ∨ Spells names path := by
  have htext := h.text_eq
  rw [Bool.eq_false_iff, ne_eq, leadsOut_iff, not_or, not_or] at hinside
  obtain ⟨hup, hbelow, hrooted⟩ := hinside
  -- neither a slash nor a step up can begin the path, so only the names are left
  cases slashes with
  | succ slashes => exact absurd ⟨_, by rw [htext]; rfl⟩ hrooted
  | zero =>
    have hpath := String.toList_inj.1 htext
    cases ups with
    | zero =>
      rcases eq_or_ne names [] with rfl | hne
      · exact .inl hpath
      · exact .inr ⟨hne, fun name hname => (h.isPlain name hname).toIsSegment, hpath⟩
    | succ ups =>
      rw [replicate_succ, cons_append] at hpath
      rcases eq_or_ne (replicate ups ".." ++ names) [] with hnil | hne
      · rw [hnil] at hpath
        exact absurd hpath hup
      · rw [ofSegments_cons hne] at hpath
        exact absurd ⟨_, by rw [hpath, String.toList_append]; rfl⟩ hbelow

theorem spells_of_leadsOut_eq_false (h : leadsOut (normalize path) = false) :
    normalize path = "" ∨ ∃ names, Spells names (normalize path) := by
  obtain ⟨_, _, names, hnormal⟩ := exists_normal path
  exact (hnormal.spells h).imp_right fun hspells => ⟨names, hspells⟩

theorem spells_of_join? {directory : String} (h : join? directory path = some base) :
    base = "" ∨ ∃ names, Spells names base := by
  rw [join?] at h
  split at h
  · cases h
  · rename_i hstays
    cases h
    exact spells_of_leadsOut_eq_false (by simpa [leadsOut] using hstays)

theorem Spells.confined (h : Spells names file) : Confined file := by
  refine ⟨fun hhead => ?_, fun hmem => ?_⟩
  · rw [h.path_eq] at hhead
    exact (ofSegments_begins h.ne_nil fun name hname => (h.isSegment name hname).isPart).1 hhead
  · rw [h.segments_eq] at hmem
    exact (h.isSegment _ hmem).isName.2.2 rfl

/-- Normalising gives a path in normal form, without backslashes, and changes no path in normal
form. A path that is joined to a directory does not lead out. -/
theorem normalize_normal (path : String) :
    (∃ slashes ups names, Normal slashes ups names (normalize path)) ∧
    '\\' ∉ (normalize path).toList ∧ normalize (normalize path) = normalize path ∧
    (normalize path = path ↔ ∃ slashes ups names, Normal slashes ups names path) ∧
    ∀ base, ∀ joined ∈ join? base path, Confined joined := by
  obtain ⟨slashes, ups, names, hnormal⟩ := exists_normal path
  refine ⟨⟨slashes, ups, names, hnormal⟩, hnormal.backslash_not_mem, hnormal.normalize_eq,
    ⟨fun heq => ⟨slashes, ups, names, heq ▸ hnormal⟩, ?_⟩, fun base joined hjoined => ?_⟩
  · rintro ⟨slashes, ups, names, hpath⟩
    exact hpath.normalize_eq
  · rcases spells_of_join? hjoined with rfl | ⟨names, hspells⟩
    · decide
    · exact hspells.confined

example : normalize ".//a\\..//../b/./c" = "/b/c" ∧ normalize "a/../../..\\b//" = "../../b" ∧
    normalize "//a/.." = "//" := by decide +kernel

end Deadwood.Relative

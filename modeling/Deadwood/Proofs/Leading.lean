import Deadwood.Proofs.Confining

/-!
# Specifiers that lead to a file

From the directory of a module a file is reached by going up to where the two part, and then down
to the file (`specifier`). Joined to the directory this gives back the file, whatever the depths
(`join?_specifier`), so a resolver that knows the file finds it. It also finds it without the ending
of its name, if nothing that is tried before is there. What is left of the name must still be a name
that does not end in a blank, since blanks around a specifier do not count
(`resolve_specifier`). A specifier is joined segment by segment (`join?_relative`), but for one that
looks rooted from the root (`hidden_root_is_refused`).
-/

set_option autoImplicit false

namespace Deadwood

open Text List

namespace Relative

/-! ## Canonical paths -/

/-- A path in normal form that leads to something in the project. -/
structure Canonical (path : String) : Prop where
  normal : normalize path = path
  inside : leadsOut path = false
  ne_empty : path ≠ ""

instance (path : String) : Decidable (Canonical path) :=
  decidable_of_iff (normalize path = path ∧ leadsOut path = false ∧ path ≠ "")
    ⟨fun h => ⟨h.1, h.2.1, h.2.2⟩, fun h => ⟨h.1, h.2, h.3⟩⟩

variable {path file directory extension : String} {front names common down tail : List String}

variable {part last module : String}

theorem mem_of_mem_segments {c : Char} (hpart : part ∈ segments path) (hc : c ∈ part.toList) :
    c ∈ path.toList := by
  obtain ⟨piece, hpiece, rfl⟩ := mem_map.1 hpart
  rw [String.toList_ofList] at hc
  exact (mem_of_mem_splitOn hpiece hc).1

theorem Canonical.exists_spells (h : Canonical path) :
    ∃ front last, Spells (front ++ [last]) path ∧ ∀ name ∈ front ++ [last], IsPlain name := by
  obtain ⟨_, _, names, hnormal⟩ := exists_normal path
  rw [h.normal] at hnormal
  have hspells := (hnormal.spells h.inside).resolve_left h.ne_empty
  obtain ⟨front, last, rfl⟩ := (eq_nil_or_concat' names).resolve_left hspells.ne_nil
  exact ⟨front, last, hspells, hnormal.isPlain⟩

/-- The directory of a file is spelled by all names but the last. -/
theorem parent_of_spells (h : Spells (front ++ [last]) path) : parent path = ofSegments front := by
  have hlast : ∀ c ∈ last.toList.reverse, (c != '/') = true := by
    intro c hc
    rw [bne_iff_ne]
    rintro rfl
    exact (h.isSegment last (by simp)).slash (mem_reverse.1 hc)
  unfold parent
  rcases eq_or_ne front [] with rfl | hne
  · have hpath : path = last := by rw [h.path_eq, nil_append, ofSegments_singleton]
    rw [hpath, dropWhile_eq_nil_iff.2 hlast]
    rfl
  · have hfront : Spells front (ofSegments front) :=
      ⟨hne, fun name hname => h.isSegment name (mem_append_left _ hname), rfl⟩
    have hpath : path.toList.reverse =
        last.toList.reverse ++ '/' :: (ofSegments front).toList.reverse := by
      rw [h.path_eq, ofSegments_concat hne]
      simp
    have hkeep : (ofSegments front).toList ≠ [] := by simpa using hfront.ne_empty
    rw [hpath, dropWhile_append_of_pos hlast, dropWhile_cons_of_neg (by simp)]
    simp [hfront.dropWhile_slash, hkeep]

/-! ## The way between two places -/

/-- The steps from a directory to a file: up to where they part, and then down. -/
def way : (directory file : List String) → List String
  | here :: directory, next :: after :: file =>
    if here = next then way directory (after :: file)
    else replicate (directory.length + 1) ".." ++ next :: after :: file
  | directory, file => replicate directory.length ".." ++ file

/-- The relative specifier of a file in the modules of a directory. -/
def specifier (directory file : String) : String :=
  let steps := way (Path.ofString directory).parts (Path.ofString file).parts
  ofSegments (if ".." ∈ steps then steps else "." :: steps)

/-- A way goes up from what the directory does not share with the file. The name of the file is the
last step, whatever it is. -/
theorem exists_way (directory front : List String) : ∃ common down rest,
    directory = common ++ down ∧ front = common ++ rest ∧
      ∀ last, way directory (front ++ [last]) = replicate down.length ".." ++ (rest ++ [last]) := by
  induction front generalizing directory with
  | nil =>
    refine ⟨[], directory, [], rfl, rfl, fun last => ?_⟩
    cases directory <;> rfl
  | cons next front ih =>
    have hsplit : ∀ last : String, ∃ after rest, front ++ [last] = after :: rest :=
      fun last => exists_cons_of_ne_nil (by simp)
    cases directory with
    | nil => exact ⟨[], [], next :: front, rfl, rfl, fun last => rfl⟩
    | cons here directory =>
      by_cases heq : here = next
      · obtain ⟨common, down, rest, rfl, rfl, hway⟩ := ih directory
        refine ⟨here :: common, down, rest, rfl, by rw [heq]; rfl, fun last => ?_⟩
        obtain ⟨after, file, hafter⟩ := hsplit last
        rw [← hway last, cons_append, hafter, way, if_pos heq]
      · refine ⟨[], here :: directory, next :: front, rfl, rfl, fun last => ?_⟩
        obtain ⟨after, file, hafter⟩ := hsplit last
        rw [cons_append, hafter, way, if_neg heq]
        rfl

/-- The first steps of a specifier: up as often as there are names to leave, or nowhere. -/
def lead (down : List String) : List String :=
  if down = [] then ["."] else replicate down.length ".."

theorem dot_of_mem_lead {step : String} (h : step ∈ lead down) :
    step ≠ "" ∧ ∀ c ∈ step.toList, c = '.' := by
  unfold lead at h
  split at h
  · obtain rfl := mem_singleton.1 h
    simp
  · obtain rfl := eq_of_mem_replicate h
    simp

/-- A specifier is relative. -/
theorem exists_text_lead (down : List String) (hne : tail ≠ []) :
    ∃ more, ofSegments (lead down ++ tail) = "./" ++ more ∨
      ofSegments (lead down ++ tail) = "../" ++ more := by
  cases down with
  | nil => exact ⟨_, .inl (ofSegments_cons hne ".")⟩
  | cons first down =>
    exact ⟨_, .inr (ofSegments_cons (append_ne_nil_of_right_ne_nil _ hne) "..")⟩

/-- The specifier of a file goes up, then down, and ends in the name of the file, whatever it is. -/
theorem exists_specifier (hmodule : Canonical module) (hfile : Canonical file) :
    ∃ common down rest last, parent module = ofSegments (common ++ down) ∧
      (∀ name ∈ common ++ down, IsPlain name) ∧ Spells (common ++ rest ++ [last]) file ∧
      (∀ name ∈ common ++ rest ++ [last], IsPlain name) ∧ ∀ last, IsSegment last →
        specifier (parent module) (ofSegments (common ++ rest ++ [last])) =
          ofSegments (lead down ++ rest ++ [last]) := by
  obtain ⟨names, own, hown, hnames⟩ := hmodule.exists_spells
  obtain ⟨front, last, hspells, hplain⟩ := hfile.exists_spells
  obtain ⟨common, down, rest, rfl, rfl, hway⟩ := exists_way names front
  have hdirectory : ∀ name ∈ common ++ down, IsPlain name :=
    fun name hname => hnames name (mem_append_left _ hname)
  refine ⟨common, down, rest, last, parent_of_spells hown, hdirectory, hspells, hplain, ?_⟩
  intro last hlast
  have hsegment : ∀ name ∈ common ++ rest ++ [last], IsSegment name := by
    intro name hname
    rcases mem_append.1 hname with hfront | hend
    · exact (hplain name (mem_append_left _ hfront)).toIsSegment
    · exact mem_singleton.1 hend ▸ hlast
  have hparts : (Path.ofString (ofSegments (common ++ down))).parts = common ++ down := by
    rcases eq_or_ne (common ++ down) [] with hnil | hne
    · rw [hnil]
      decide
    · rw [ofString_ofSegments hne fun name hname => (hdirectory name hname).isPart]
  have hdown : ".." ∉ rest ++ [last] := by
    intro hmem
    rw [append_assoc] at hsegment
    exact (hsegment ".." (mem_append_right _ hmem)).isName.2.2 rfl
  rw [parent_of_spells hown, specifier, hparts, ofString_ofSegments (by simp)
    fun name hname => (hsegment name hname).isPart, hway, lead, append_assoc]
  cases down with
  | nil => rw [if_neg (by simpa using hdown), if_pos rfl]; rfl
  | cons first down => rw [if_pos (by simp), if_neg (by simp)]

theorem ofSegments_concat_append (front : List String) (last extension : String) :
    ofSegments (front ++ [last ++ extension]) = ofSegments (front ++ [last]) ++ extension := by
  rcases eq_or_ne front [] with rfl | hne
  · simp only [nil_append, ofSegments_singleton]
  · simp only [ofSegments_concat hne, String.append_assoc]

/-- The specifier of a file ends as the file does. -/
theorem specifier_append {bare : String} (hmodule : Canonical module) (hbare : Canonical bare)
    (hslash : '/' ∉ extension.toList) : specifier (parent module) (bare ++ extension) =
      specifier (parent module) bare ++ extension := by
  obtain ⟨common, down, rest, last, -, -, hspells, -, hspecifier⟩ := exists_specifier hmodule hbare
  have hlast := hspells.isSegment last (by simp)
  rw [hspells.path_eq, ← ofSegments_concat_append, hspecifier last hlast,
    hspecifier _ (hlast.append hslash), ofSegments_concat_append]

/-! ## Joining -/

/-- Where a segment leads from a place, which is the stack of the names on the way to it. From the
root there is no way up. -/
def step? (stack : List String) (segment : String) : Option (List String) :=
  if segment = "" ∨ segment = "." then some stack
  else if segment = ".." then stack.tail?
  else some (segment :: stack)

/-- The names of the place that segments lead to from the place with the given names. -/
def follow? (names parts : List String) : Option (List String) :=
  (parts.foldlM step? names.reverse).map reverse

theorem step?_of_isName {stack : List String} (h : IsName part) :
    step? stack part = some (part :: stack) := by
  rw [step?, if_neg (not_or.2 ⟨h.1, h.2.1⟩), if_neg h.2.2]

/-- Once there was no way up, a step up lies at the bottom of the stack for good. -/
theorem getLast?_foldl_push {stack : List String} (h : stack.getLast? = some "..")
    (parts : List String) : (parts.foldl (push false) stack).getLast? = some ".." := by
  have hup : ∀ low : List String, low.getLast? = some ".." →
      (push false low "..").getLast? = some ".." := by
    intro low hlow
    cases low with
    | nil => rfl
    | cons top low =>
      by_cases htop : top = ".."
      · simpa [push, htop] using hlow
      · cases low with
        | nil => simp_all
        | cons next low => simpa [push, htop] using hlow
  obtain ⟨below, hbelow, hfold⟩ := foldl_push_above false _ hup h parts
  rw [hfold, getLast?_append, hbelow, Option.some_or]

/-- Segments collapse to the place that they lead to, if there is one. -/
theorem foldl_push_cases {stack : List String} (hstack : ∀ name ∈ stack, IsName name)
    (parts : List String) :
    (∃ last, parts.foldlM step? stack = some last ∧ parts.foldl (push false) stack = last ∧
      ∀ name ∈ last, IsName name) ∨
    parts.foldlM step? stack = none ∧ (parts.foldl (push false) stack).getLast? = some ".." := by
  induction parts generalizing stack with
  | nil => exact .inl ⟨stack, rfl, rfl, hstack⟩
  | cons part parts ih =>
    rw [foldlM_cons, foldl_cons]
    rcases push_cases part with hskip | rfl | hname
    · rw [step?, if_pos hskip, push_of_skipped hskip]
      exact ih hstack
    · cases stack with
      | nil => exact .inr ⟨rfl, getLast?_foldl_push rfl parts⟩
      | cons top stack =>
        rw [push_up_cons (hstack top mem_cons_self).2.2]
        exact ih fun name hname => hstack name (mem_cons_of_mem _ hname)
    · rw [step?_of_isName hname, push_of_isName hname]
      exact ih (forall_mem_cons.2 ⟨hname, hstack⟩)

/-- The path with slashes for backslashes. -/
def slashed (path : String) : String :=
  String.ofList (path.toList.map fun c => if c = '\\' then '/' else c)

theorem slashed_of_not_mem (h : '\\' ∉ path.toList) : slashed path = path := by
  rw [slashed, map_slash_of_not_mem h, String.ofList_toList]

/-- What the path begins with, after any `./`, is a slash. -/
def HidesRoot (path : String) : Prop := (dropHere (slashed path).toList).head? = some '/'

instance (path : String) : Decidable (HidesRoot path) := inferInstanceAs (Decidable (_ = _))

/-- A path without a hidden slash is normalised by collapsing its segments. -/
theorem normalize_of_unrooted (h : ¬ HidesRoot path) :
    normalize path = ofSegments (collapse false (segments (slashed path))) := by
  have hroot := leadingSlashes_eq_zero_iff.2 h
  have hsegments := filter_segments_dropHere (slashed path).toList
  rw [slashed, String.toList_ofList] at hroot hsegments
  simp only [normalize, hroot, bne_self_eq_false, replicate_zero, nil_append, String.ofList_toList]
  rw [← collapse_filter, hsegments, collapse_filter, slashed]

theorem leadsOut_of_hidesRoot (h : HidesRoot path) : leadsOut (normalize path) := by
  obtain ⟨slashes, hslashes⟩ :=
    Nat.exists_eq_succ_of_ne_zero fun hzero => leadingSlashes_eq_zero_iff.1 hzero h
  rw [slashed, String.toList_ofList] at hslashes
  rw [leadsOut_iff]
  simp only [normalize, hslashes, String.toList_ofList]
  exact .inr (.inr ⟨_, rfl⟩)

theorem leadsOut_ofSegments {parts : List String} (h : parts.head? = some "..") :
    leadsOut (ofSegments parts) := by
  obtain ⟨rest, rfl⟩ := head?_eq_some_iff.1 h
  rcases eq_or_ne rest [] with rfl | hne
  · decide
  · rw [leadsOut_iff, ofSegments_cons hne, String.toList_append]
    exact .inr (.inl (prefix_append _ _))

theorem Confined.leadsOut_eq_false (h : Confined path) : leadsOut path = false := by
  rw [Bool.eq_false_iff, ne_eq, leadsOut_iff]
  rintro (rfl | ⟨rest, hrest⟩ | ⟨rest, hrest⟩)
  · exact h.level (by decide)
  · refine h.level ?_
    rw [← String.ofList_toList (s := path), ← hrest]
    exact segments_append_slash ['.', '.'] rest ▸ mem_append_left _ (by decide)
  · exact h.unrooted (by rw [← hrest]; rfl)

/-- What is joined to a directory other than the root follows it after a slash. -/
theorem append_of_spells (hspells : Spells names directory) (hbegin : ¬ ['/'] <+: path.toList) :
    append directory path = directory ++ "/" ++ path := by
  rw [append, if_neg (by rwa [String.startsWith_string_iff]), if_neg]
  intro hend
  rw [Bool.or_eq_true, String.isEmpty_iff, String.endsWith_eq_endsWith_toSlice,
    String.Slice.endsWith_string_iff, String.copy_toSlice] at hend
  rcases hend with hempty | ⟨init, hinit⟩
  · exact hspells.ne_empty hempty
  · have hslash := hspells.dropWhile_slash
    rw [← hinit, reverse_append] at hslash
    have hlength := congrArg length hslash
    have hle := (dropWhile_suffix (l := init.reverse) (· == '/')).length_le
    simp at hlength hle
    omega

theorem append_empty (hbegin : ¬ ['/'] <+: path.toList) : append "" path = path := by
  rw [append, if_neg (by rwa [String.startsWith_string_iff])]
  exact String.empty_append

/-- The segments of a path that is joined to a directory follow the names of the directory. -/
theorem normalize_append (hnames : ∀ name ∈ names, IsPlain name) (hbegin : ¬ ['/'] <+: path.toList)
    (hroot : names = [] → ¬ HidesRoot path) : normalize (append (ofSegments names) path) =
      ofSegments (collapse false (names ++ segments (slashed path))) := by
  cases names with
  | nil =>
    exact (congrArg normalize (append_empty hbegin)).trans (normalize_of_unrooted (hroot rfl))
  | cons first others =>
    have hspells : Spells (first :: others) (ofSegments (first :: others)) :=
      ⟨by simp, fun name hname => (hnames name hname).toIsSegment, rfl⟩
    have hslashed : slashed (ofSegments (first :: others) ++ "/" ++ path) =
        String.ofList ((ofSegments (first :: others)).toList ++ '/' :: (slashed path).toList) := by
      simp [slashed, map_slash_of_not_mem (backslash_not_mem_ofSegments hnames)]
    have hsegments : segments (slashed (ofSegments (first :: others) ++ "/" ++ path)) =
        first :: others ++ segments (slashed path) := by
      rw [hslashed, segments_append_slash, String.ofList_toList, String.ofList_toList,
        hspells.segments_eq]
    rw [append_of_spells hspells hbegin, normalize_of_unrooted, hsegments]
    have hbegins := begins_of_isPart (congrArg head? hsegments) (hnames first mem_cons_self).isPart
    rw [HidesRoot, hbegins.2]
    exact hbegins.1

theorem join?_eq_ite (directory path : String) : join? directory path =
    if leadsOut (normalize (append directory path)) then none
    else some (normalize (append directory path)) := rfl

/-- What is joined to a directory leads on from there, segment by segment. -/
theorem join?_eq_follow? (hnames : ∀ name ∈ names, IsPlain name)
    (hbegin : ¬ ['/'] <+: path.toList) (hroot : names = [] → ¬ HidesRoot path) :
    join? (ofSegments names) path = (follow? names (segments (slashed path))).map ofSegments := by
  have hstack : names.foldl (push false) [] = names.reverse := by
    rw [foldl_push_of_isName fun name hname => (hnames name hname).isName, append_nil]
  rw [join?_eq_ite, normalize_append hnames hbegin hroot, follow?, collapse, foldl_append, hstack]
  rcases foldl_push_cases (fun name hname => (hnames name (mem_reverse.1 hname)).isName)
    (segments (slashed path)) with ⟨last, hfollow, hfold, hlast⟩ | ⟨hfollow, hup⟩
  · have hinside : leadsOut (ofSegments last.reverse) = false := by
      rcases eq_or_ne last.reverse [] with hnil | hne
      · rw [hnil]
        decide
      · refine (Spells.confined ⟨hne, fun name hname => ⟨hlast name (mem_reverse.1 hname), ?_⟩,
          rfl⟩).leadsOut_eq_false
        have hmem : name ∈ collapse false (names ++ segments (slashed path)) := by
          rwa [collapse, foldl_append, hstack, hfold]
        rcases mem_append.1 (mem_of_mem_collapse hmem) with hname | hsegment
        · exact (hnames name hname).slash
        · exact not_mem_of_mem_segments hsegment
    rw [hfollow, hfold, hinside]
    rfl
  · rw [hfollow, leadsOut_ofSegments (by rwa [head?_reverse])]
    rfl

/-- A relative specifier is joined to a directory segment by segment, and there is no answer exactly
if it goes up from the root. Only at the root a specifier is refused in which another slash follows
the `./` that it begins with. -/
theorem join?_relative {base specifier : String} (hbase : base = "" ∨ Canonical base)
    (hrelative : Alias.Resolver.isRelative specifier = true) :
    join? base specifier = if base = "" ∧ HidesRoot specifier then none
      else (follow? (Path.ofString base).parts (segments (slashed specifier))).map ofSegments := by
  have hbegin : ¬ ['/'] <+: specifier.toList := by
    rintro ⟨rest, hrest⟩
    obtain rfl : specifier = String.ofList ('/' :: rest) := by
      rw [← String.toList_inj, String.toList_ofList, ← hrest]
      rfl
    simp [Alias.Resolver.isRelative, String.startsWith_string_iff, ← String.toList_inj] at hrelative
  split
  · rename_i h
    rw [h.1, join?_eq_ite, append_empty hbegin, leadsOut_of_hidesRoot h.2, if_pos rfl]
  · rename_i h
    obtain ⟨names, hnames, hparts, rfl, hempty⟩ : ∃ names, (∀ name ∈ names, IsPlain name) ∧
        (Path.ofString base).parts = names ∧ base = ofSegments names ∧
          (names = [] → base = "") := by
      rcases hbase with rfl | hcanonical
      · exact ⟨[], by simp, by decide, rfl, fun _ => rfl⟩
      · obtain ⟨front, last, hspells, hnames⟩ := hcanonical.exists_spells
        exact ⟨_, hnames, by rw [hspells.ofString_eq], hspells.path_eq, by simp⟩
    rw [hparts]
    exact join?_eq_follow? hnames hbegin fun hnil hhides => h ⟨hempty hnil, hhides⟩

theorem join?_relative_deep : join? "src/lib" "..//./..//a/./b\\../c" = some "a/c" :=
  (join?_relative (.inr (by decide +kernel)) (by decide +kernel)).trans (by decide +kernel)

/-- From the root a specifier is refused that leads to a file of the project, and that is joined to
any other directory. -/
theorem hidden_root_is_refused : join? "" ".//a" = none ∧
    follow? [] (segments ".//a") = some ["a"] ∧ join? "src" ".//a" = some "src/a" := by
  decide +kernel

/-- As many steps up as there are names take all of them off. -/
theorem foldlM_step?_up (down low : List String) :
    (replicate down.length "..").foldlM step? (down.reverse ++ low) = some low := by
  induction down using reverseRecOn with
  | nil => rfl
  | append_singleton down last ih =>
    rw [length_append, length_singleton, replicate_succ, reverse_concat, cons_append]
    exact ih

theorem follow?_lead (common down : List String) (htail : ∀ name ∈ tail, IsName name) :
    follow? (common ++ down) (lead down ++ tail) = some (common ++ tail) := by
  have hlead : (lead down).foldlM step? (common ++ down).reverse = some common.reverse := by
    rw [reverse_append, lead]
    split
    · rename_i hnil
      rw [hnil]
      rfl
    · exact foldlM_step?_up down common.reverse
  have hnames : ∀ stack, tail.foldlM step? stack = some (tail.reverse ++ stack) := by
    clear hlead
    induction tail with
    | nil => exact fun stack => rfl
    | cons name tail ih =>
      intro stack
      rw [foldlM_cons, step?_of_isName (htail name mem_cons_self)]
      exact (ih (fun other hother => htail other (mem_cons_of_mem _ hother)) _).trans (by simp)
  rw [follow?, foldlM_append, hlead]
  exact (congrArg _ (hnames common.reverse)).trans (by simp)

/-- A path that goes up from a directory and then down leads to where it goes down to. -/
theorem join?_lead (hnames : ∀ name ∈ common ++ down, IsPlain name)
    (htail : ∀ name ∈ tail, IsPlain name) (hne : tail ≠ []) :
    join? (ofSegments (common ++ down)) (ofSegments (lead down ++ tail)) =
      some (ofSegments (common ++ tail)) := by
  have hparts : ∀ part ∈ lead down ++ tail, '/' ∉ part.toList ∧ '\\' ∉ part.toList := by
    intro part hpart
    rcases mem_append.1 hpart with hlead | hname
    · have hdots := (dot_of_mem_lead hlead).2
      exact ⟨fun hc => absurd (hdots _ hc) (by decide), fun hc => absurd (hdots _ hc) (by decide)⟩
    · exact ⟨(htail part hname).slash, (htail part hname).backslash⟩
  have hslashed : slashed (ofSegments (lead down ++ tail)) = ofSegments (lead down ++ tail) := by
    refine slashed_of_not_mem fun hmem => ?_
    rcases mem_ofSegments hmem with hslash | ⟨part, hpart, hc⟩
    · exact absurd hslash (by decide)
    · exact (hparts part hpart).2 hc
  rw [join?_eq_follow? hnames, hslashed, segments_ofSegments (by simp [hne])
    fun part hpart => (hparts part hpart).1, follow?_lead common down fun name hname =>
    (htail name hname).isName, Option.map_some]
  · obtain ⟨more, heq | heq⟩ := exists_text_lead down hne <;> simp [heq]
  · intro hnil
    obtain ⟨-, rfl⟩ := append_eq_nil_iff.1 hnil
    rw [HidesRoot, hslashed, lead, if_pos rfl, singleton_append, ofSegments_cons hne,
      String.toList_append]
    have hbegins := ofSegments_begins hne fun name hname => (htail name hname).isPart
    exact (congrArg head? hbegins.2).trans_ne hbegins.1

/-! ## Texts that stay as they are -/

/-- The text does not end in a blank. -/
def endsPlain (text : String) : Bool := text.toList.getLast?.all fun c => !isBlank c

/-- A path ends where its last part ends. -/
theorem getLast?_ofSegments_concat (front : List String) (hne : last ≠ "") :
    (ofSegments (front ++ [last])).toList.getLast? = last.toList.getLast? := by
  have hsplit := ofSegments_concat_append front "" last
  rw [String.empty_append] at hsplit
  rw [hsplit, String.toList_append, getLast?_append_of_ne_nil _ (by simpa using hne)]

theorem trim_of_ends {text : List Char} (hfirst : text.head?.all (fun c => !isBlank c) = true)
    (hlast : text.getLast?.all (fun c => !isBlank c) = true) : trim text = text := by
  have hskip : ∀ {cs : List Char}, cs.head?.all (fun c => !isBlank c) = true →
      cs.dropWhile isBlank = cs := by
    intro cs hcs
    cases cs with
    | nil => rfl
    | cons c cs => rw [dropWhile_cons_of_neg (by simpa using hcs)]
  rw [trim, trimStart, hskip hfirst, trimEnd, hskip (by simpa using hlast), reverse_reverse]

end Relative

open Relative

namespace Alias.Resolver

variable {resolver : Resolver} {disk : Disk} {table : Table} {module file bare extension : String}

variable {text directory : String}

/-- A relative specifier without a query, a fragment or blanks around it is taken as it is. -/
theorem base?_of_relative (hrelative : isRelative text)
    (hmarks : ∀ c ∈ ['\\', '?', '#'], c ∉ text.toList) (htrim : trim text.toList = text.toList)
    (hne : text ≠ "") : base? table text directory = .ok (join? directory text) := by
  have hbefore : ∀ c ∈ ['\\', '?', '#'], before c text.toList = text.toList := by
    intro mark hmark
    refine takeWhile_eq_self_iff.2 fun c hc => ?_
    rw [bne_iff_ne]
    rintro rfl
    exact hmarks c hmark hc
  have hclean : clean text = text := by
    simp only [clean, htrim, map_slash_of_not_mem (hmarks '\\' (by simp)), hbefore '?' (by simp),
      hbefore '#' (by simp), String.ofList_toList]
  have hempty : ¬ text.isEmpty := by rwa [String.isEmpty_iff]
  simp only [base?, hclean, if_neg hempty, if_pos hrelative]
  rfl

/-- The specifier of a file stands for the file. -/
theorem base?_specifier (table : Table) (hmodule : Canonical module) (hfile : Canonical file)
    (hquery : '?' ∉ file.toList) (hfragment : '#' ∉ file.toList) (hend : endsPlain file) :
    base? table (specifier (parent module) file) (parent module) = .ok (some file) := by
  obtain ⟨common, down, rest, last, hparent, hnames, hspells, hplain, hspecifier⟩ :=
    exists_specifier hmodule hfile
  have hlast := hspells.isSegment last (by simp)
  have htext := hspecifier last hlast
  rw [← hspells.path_eq, append_assoc] at htext
  have hstart := exists_text_lead down (append_ne_nil_of_right_ne_nil rest (cons_ne_nil last []))
  rw [← htext] at hstart
  rw [base?_of_relative, htext, hparent]
  · have hpath := hspells.path_eq
    rw [append_assoc] at hpath hplain
    rw [join?_lead hnames (fun name hname => hplain name (mem_append_right _ hname)) (by simp),
      hpath]
  · obtain ⟨more, heq | heq⟩ := hstart <;> simp [heq, isRelative, String.startsWith_string_iff]
  · -- the specifier holds dots, slashes and characters of the file
    have hmem : ∀ c ∈ (ofSegments (lead down ++ (rest ++ [last]))).toList,
        c = '/' ∨ c = '.' ∨ c ∈ file.toList := by
      intro c hc
      rcases mem_ofSegments hc with hslash | ⟨part, hpart, hc⟩
      · exact .inl hslash
      rcases mem_append.1 hpart with hlead | htail
      · exact .inr (.inl ((dot_of_mem_lead hlead).2 c hc))
      · have hpart : part ∈ common ++ rest ++ [last] := by
          rw [append_assoc]
          exact mem_append_right common htail
        exact .inr (.inr (mem_of_mem_segments (hspells.segments_eq ▸ hpart) hc))
    have hback : '\\' ∉ file.toList := by
      obtain ⟨_, _, _, hnormal⟩ := exists_normal file
      exact hfile.normal ▸ hnormal.backslash_not_mem
    intro mark hmark hc
    rw [htext] at hc
    rcases hmem mark hc with rfl | rfl | hfile
    · simp at hmark
    · simp at hmark
    · simp only [mem_cons, not_mem_nil, or_false] at hmark
      rcases hmark with rfl | rfl | rfl
      · exact hback hfile
      · exact hquery hfile
      · exact hfragment hfile
  · apply trim_of_ends
    · obtain ⟨more, heq | heq⟩ := hstart <;> rw [heq, String.toList_append] <;> rfl
    · -- the specifier ends as the file does
      rw [endsPlain, hspells.path_eq, getLast?_ofSegments_concat _ hlast.isName.1] at hend
      rwa [htext, ← append_assoc, getLast?_ofSegments_concat _ hlast.isName.1]
  · obtain ⟨more, heq | heq⟩ := hstart <;> simp [heq]

/-- The first known file is found, if the files before it are neither known nor there. -/
theorem firstFile?_of_known {skipped : List String} (hknown : file ∈ resolver.known)
    (hskip : ∀ tried ∈ skipped,
      tried ∉ resolver.known ∧ disk.isFile (resolver.root.child tried) = .ok false)
    (others : List String) :
    resolver.firstFile? disk (skipped ++ file :: others) = .ok (some file) := by
  induction skipped with
  | nil => rw [nil_append, firstFile?, if_pos (contains_iff_mem.2 hknown)]; rfl
  | cons tried skipped ih =>
    obtain ⟨hunknown, hmissing⟩ := hskip tried mem_cons_self
    have hcontains : ¬ resolver.known.contains tried := by rwa [contains_iff_mem]
    rw [cons_append, firstFile?, if_neg hcontains, hmissing]
    exact ih fun other hother => hskip other (mem_cons_of_mem _ hother)

theorem resolve_of_base? {base : String} (hfresh : resolver.answers = [])
    (hbase : base? resolver.table text directory = .ok (some base))
    (hfirst : resolver.firstFile? disk (candidates resolver.extensions base) = .ok (some file)) :
    ∃ later, resolver.resolve disk text directory = .ok (some file, later) := by
  have hnew : resolver.answer? text directory = none := by rw [answer?, hfresh]; rfl
  refine ⟨{ resolver with answers := resolver.answers ++ [((directory, text), some file)] }, ?_⟩
  rw [Resolver.resolve, hnew, lookUp?_of_base? hbase, hfirst]
  rfl

/-- A new resolver that knows a file finds it by its specifier. It finds it as well by the specifier
without an ending, if the ending is an extension, and neither what is left of the file nor this with
an earlier extension is known or there, as long as what is left is a canonical path that does not
end in a blank. -/
theorem resolve_specifier (hmodule : Canonical module) (hfile : Canonical file)
    (hquery : '?' ∉ file.toList) (hfragment : '#' ∉ file.toList) (hend : endsPlain file = true)
    (hfresh : resolver.answers = []) (hknown : file ∈ resolver.known) :
    (∃ later, resolver.resolve disk (specifier (parent module) file) (parent module) =
      .ok (some file, later)) ∧
    ∀ bare extension earlier others, file = bare ++ extension → '/' ∉ extension.toList →
      resolver.extensions = earlier ++ extension :: others → Canonical bare →
      endsPlain bare = true →
      (∀ tried ∈ bare :: earlier.map (bare ++ ·), tried ∉ resolver.known ∧
        disk.isFile (resolver.root.child tried) = .ok false) →
      ∃ stem later, specifier (parent module) file = stem ++ extension ∧
        resolver.resolve disk stem (parent module) = .ok (some file, later) := by
  constructor
  · obtain ⟨front, last, hspells, -⟩ := hfile.exists_spells
    refine resolve_of_base? hfresh (base?_specifier _ hmodule hfile hquery hfragment hend) ?_
    rw [candidates_eq hspells]
    exact firstFile?_of_known hknown (forall_mem_nil _) _
  · rintro bare extension earlier others rfl hslash hextensions hbare hbareEnd hskip
    rw [String.toList_append, mem_append, not_or] at hquery hfragment
    obtain ⟨later, hresolve⟩ : ∃ later, resolver.resolve disk (specifier (parent module) bare)
        (parent module) = .ok (some (bare ++ extension), later) := by
      obtain ⟨front, last, hspells, -⟩ := hbare.exists_spells
      refine resolve_of_base? hfresh
        (base?_specifier _ hmodule hbare hquery.1 hfragment.1 hbareEnd) ?_
      rw [candidates_eq hspells, hextensions, map_append, map_cons, ← cons_append,
        append_assoc]
      exact firstFile?_of_known hknown hskip _
    exact ⟨_, later, specifier_append hmodule hbare hslash, hresolve⟩

/-- A resolver that knows a file in a directory and two files with odd names. -/
def collector : Resolver where
  root := ⟨1, ["proj"]⟩
  known := ["src/lib/util.js", "a .ts", "..ts"]

theorem resolve_specifier_deep :
    specifier (parent "src/app/main.ts") "src/lib/util.js" = "../lib/util" ++ ".js" ∧
      ∃ stem later, specifier (parent "src/app/main.ts") "src/lib/util.js" = stem ++ ".js" ∧
        collector.resolve shelf stem (parent "src/app/main.ts") =
          .ok (some "src/lib/util.js", later) := by
  refine ⟨by decide +kernel, ?_⟩
  refine (@resolve_specifier collector shelf "src/app/main.ts" "src/lib/util.js" (by decide +kernel)
    (by decide +kernel) (by decide) (by decide) (by decide) rfl mem_cons_self).2
    "src/lib/util" ".js" [".ts", ".tsx"] [".jsx"] rfl (by decide) rfl (by decide +kernel)
      (by decide) ?_
  decide +kernel

/-- Without its ending a specifier may end in a blank, which is dropped, or stand for a directory.
-/
theorem bare_specifier_misses : (specifier (parent "b.ts") "a .ts" = "./a " ++ ".ts" ∧
      (Canonical "a .ts" ∧ endsPlain "a .ts" = true ∧ "a .ts" ∈ collector.known) ∧
      ("a " ∉ collector.known ∧ shelf.isFile (collector.root.child "a ") = .ok false) ∧
      ∃ later, collector.resolve shelf "./a " (parent "b.ts") = .ok (none, later)) ∧
    specifier (parent "b.ts") "..ts" = "./." ++ ".ts" ∧
      (Canonical "..ts" ∧ "..ts" ∈ collector.known) ∧
      ∃ later, collector.resolve shelf "./." (parent "b.ts") = .ok (none, later) := by
  refine ⟨⟨?_, ?_, ?_, exists_resolve_eq (by decide +kernel)⟩, ?_, ?_,
    exists_resolve_eq (by decide +kernel)⟩
  all_goals decide +kernel

end Alias.Resolver

end Deadwood

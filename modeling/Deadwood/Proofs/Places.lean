import Deadwood.Ignore.Excluder
import Deadwood.Proofs.Tokens
import Mathlib.Tactic.Tauto

/-!
# Where a path leads

A path is taken apart in three ways: its text is normalised, its segments are collapsed, and the
disk follows it one segment at a time. All three push segments onto a stack and take one off for
every `..`; they differ in what lies below. `foldl_push_above` says it once: what a path leaves on
the stack is what it leaves on the empty one, above some of what lay there before. So a path that
the disk follows leads to where its segments collapse to (`Disk.eq_collapse_of_locate`), and what a
place shows below a root is the end of the normalised text (`mem_segments_normalize`).
-/

set_option autoImplicit false

namespace Deadwood

open List

namespace Relative

/-! ## Stacks of segments -/

/-- A segment that is pushed as it is. -/
def IsName (segment : String) : Prop := segment ≠ "" ∧ segment ≠ "." ∧ segment ≠ ".."

instance (segment : String) : Decidable (IsName segment) := inferInstanceAs (Decidable (_ ∧ _ ∧ _))

variable {rooted : Bool} {stack low parts : List String} {segment : String}

theorem push_of_isName (h : IsName segment) : push rooted stack segment = segment :: stack := by
  simp [push, h.1, h.2.1, h.2.2]

theorem push_of_skipped (h : segment = "" ∨ segment = ".") : push rooted stack segment = stack := by
  unfold push
  rw [if_pos h]

/-- A segment is skipped, takes one off, or is pushed. -/
theorem push_cases (segment : String) :
    (segment = "" ∨ segment = ".") ∨ segment = ".." ∨ IsName segment := by
  unfold IsName
  tauto

theorem push_up_cons {top : String} (h : top ≠ "..") : push rooted (top :: stack) ".." = stack := by
  simp [push, h]

/-- Segments pushed onto an empty stack leave names only, if nothing stays for a `..`. -/
theorem isName_of_mem_foldl (h : segment ∈ parts.foldl (push true) []) : IsName segment := by
  induction parts using reverseRecOn generalizing segment with
  | nil => cases h
  | append_singleton parts part ih =>
    rw [foldl_concat] at h
    rcases push_cases part with hskip | rfl | hname
    · rw [push_of_skipped hskip] at h
      exact ih h
    · cases hstack : parts.foldl (push true) [] with
      | nil =>
        rw [hstack] at h
        cases h
      | cons top rest =>
        rw [hstack] at h ih
        rw [push_up_cons (ih mem_cons_self).2.2] at h
        exact ih (mem_cons_of_mem _ h)
    · rw [push_of_isName hname, mem_cons] at h
      rcases h with rfl | h
      · exact hname
      · exact ih h

theorem isName_of_mem_collapse (h : segment ∈ collapse true parts) : IsName segment :=
  isName_of_mem_foldl (mem_reverse.1 h)

/-- What is left on a stack: what would be left on an empty one, above something that `..` may have
made of what lay there. -/
theorem foldl_push_above (rooted : Bool) (keeps : List String → Prop)
    (hup : ∀ low, keeps low → keeps (push rooted low "..")) (hlow : keeps low)
    (parts : List String) :
    ∃ below, keeps below ∧ parts.foldl (push rooted) low = parts.foldl (push true) [] ++ below := by
  induction parts using reverseRecOn with
  | nil => exact ⟨low, hlow, rfl⟩
  | append_singleton parts part ih =>
    obtain ⟨below, hbelow, hfold⟩ := ih
    rw [foldl_concat, foldl_concat, hfold]
    rcases push_cases part with hskip | rfl | hname
    · rw [push_of_skipped hskip, push_of_skipped hskip]
      exact ⟨below, hbelow, rfl⟩
    · cases hstack : parts.foldl (push true) [] with
      | nil => exact ⟨_, hup below hbelow, rfl⟩
      | cons top rest =>
        have htop : top ≠ ".." := (isName_of_mem_foldl (hstack ▸ mem_cons_self)).2.2
        rw [cons_append, push_up_cons htop, push_up_cons htop]
        exact ⟨below, hbelow, rfl⟩
    · rw [push_of_isName hname, push_of_isName hname]
      exact ⟨below, hbelow, rfl⟩

/-- Names collapse to themselves. -/
theorem foldl_push_of_isName (h : ∀ part ∈ parts, IsName part) (stack : List String) :
    parts.foldl (push rooted) stack = parts.reverse ++ stack := by
  induction parts generalizing stack with
  | nil => rfl
  | cons part parts ih =>
    rw [foldl_cons, push_of_isName (h part mem_cons_self),
      ih fun other hother => h other (mem_cons_of_mem _ hother)]
    simp

theorem collapse_of_isName (h : ∀ part ∈ parts, IsName part) : collapse rooted parts = parts := by
  rw [collapse, foldl_push_of_isName h, append_nil, reverse_reverse]

variable {root rest : List String} {text : List Char} {path part : String}

/-- A path seen from a directory with names only leads to some directory above it, and then to what
the path alone collapses to. -/
theorem exists_collapse_append (hroot : ∀ part ∈ root, IsName part) (parts : List String) :
    ∃ front, front <+: root ∧ collapse true (root ++ parts) = front ++ collapse true parts := by
  have hup : ∀ low, low <:+ root.reverse → push true low ".." <:+ root.reverse := by
    intro low hlow
    cases low with
    | nil => exact nil_suffix
    | cons top rest =>
      have htop : top ∈ root := mem_reverse.1 (hlow.mem mem_cons_self)
      rw [push_up_cons (hroot top htop).2.2]
      exact (suffix_cons top rest).trans hlow
  obtain ⟨below, hbelow, hfold⟩ :=
    foldl_push_above true (· <:+ root.reverse) hup (suffix_refl root.reverse) parts
  refine ⟨below.reverse, reverse_suffix.1 (by rwa [reverse_reverse]), ?_⟩
  rw [collapse, foldl_append, foldl_push_of_isName hroot, append_nil, hfold,
    reverse_append]
  rfl

/-- What a path shows below a directory that it leads into is the end of what it collapses to. -/
theorem suffix_collapse (hroot : ∀ part ∈ root, IsName part)
    (h : collapse true (root ++ parts) = root ++ rest) : rest <:+ collapse true parts := by
  obtain ⟨front, ⟨back, rfl⟩, hcollapse⟩ := exists_collapse_append hroot parts
  rw [hcollapse, append_assoc, append_cancel_left_eq] at h
  rw [h]
  exact suffix_append back rest

/-- A relative path may leave some `..` in front. -/
theorem collapse_suffix (rooted : Bool) (parts : List String) :
    collapse true parts <:+ collapse rooted parts := by
  cases rooted with
  | true => exact suffix_refl _
  | false =>
    have hfold :
        ∃ below, True ∧ parts.foldl (push false) [] = parts.foldl (push true) [] ++ below :=
      foldl_push_above false (fun _ => True) (fun _ _ => trivial) trivial parts
    obtain ⟨below, -, hfold⟩ := hfold
    rw [collapse, collapse, hfold, reverse_append]
    exact suffix_append _ _

/-- The segments that are skipped may be left out. -/
theorem collapse_filter (rooted : Bool) (parts : List String) :
    collapse rooted (parts.filter fun part => part != "" && part != ".") =
      collapse rooted parts := by
  have hfold : ∀ stack, (parts.filter fun part => part != "" && part != ".").foldl (push rooted)
      stack = parts.foldl (push rooted) stack := by
    induction parts with
    | nil => intro stack; rfl
    | cons part parts ih =>
      intro stack
      rw [filter_cons]
      split
      · rw [foldl_cons, foldl_cons, ih]
      · rename_i hskip
        have hout : part = "" ∨ part = "." := by
          by_contra hin
          exact hskip (by simpa [not_or] using hin)
        rw [foldl_cons, push_of_skipped hout, ih]
  rw [collapse, collapse, hfold]

/-! ## Segments of texts -/

theorem slash_not_mem_of_mem_splitOn {piece : List Char} (h : piece ∈ text.splitOn '/') :
    '/' ∉ piece :=
  fun hmem => (Text.mem_of_mem_splitOn h hmem).2 rfl

theorem not_mem_of_mem_segments (h : part ∈ segments path) : '/' ∉ part.toList := by
  obtain ⟨piece, hpiece, rfl⟩ := mem_map.1 h
  rw [String.toList_ofList]
  exact slash_not_mem_of_mem_splitOn hpiece

/-- A text without slashes is one segment. -/
theorem segments_of_slashless {name : String} (h : '/' ∉ name.toList) : segments name = [name] := by
  rw [segments, splitOn_eq_singleton h, map_singleton, String.ofList_toList]

theorem leadingSlashes_eq_zero_iff {cs : List Char} :
    leadingSlashes cs = 0 ↔ cs.head? ≠ some '/' := by
  unfold leadingSlashes
  split <;> simp_all [head?_eq_some_iff]

theorem segments_ofSegments (hne : parts ≠ []) (hslash : ∀ part ∈ parts, '/' ∉ part.toList) :
    segments (ofSegments parts) = parts := by
  have hsplit : splitOn '/' (['/'].intercalate (parts.map String.toList)) =
      parts.map String.toList := by
    refine splitOn_intercalate '/' ?_ (by simpa using hne)
    intro piece hpiece
    obtain ⟨part, hpart, rfl⟩ := mem_map.1 hpiece
    exact hslash part hpart
  rw [segments, ofSegments, String.toList_ofList, hsplit, map_map]
  simp

/-- Slashes at the beginning make empty segments. -/
theorem segments_replicate_append (n : Nat) (text : List Char) :
    segments (String.ofList (replicate n '/' ++ text)) =
      replicate n "" ++ segments (String.ofList text) := by
  induction n with
  | zero => simp
  | succ n ih =>
    simp only [segments, String.toList_ofList] at ih ⊢
    rw [replicate_succ, cons_append, splitOn_cons_eq_if_modifyHead, if_pos (by simp),
      map_cons, ih, replicate_succ, cons_append]

/-- Leaving out `./` at the beginning leaves out segments that are skipped. -/
theorem filter_segments_dropHere (cs : List Char) :
    (segments (String.ofList (dropHere cs))).filter (fun part => part != "" && part != ".") =
      (segments (String.ofList cs)).filter fun part => part != "" && part != "." := by
  fun_induction dropHere cs with
  | case1 cs ih =>
    rw [ih]
    simp only [segments, String.toList_ofList]
    have hsplit : splitOn '/' ('.' :: '/' :: cs) = ['.'] :: splitOn '/' cs :=
      splitOn_append_cons_self ['.'] cs
    rw [hsplit, map_cons, filter_cons_of_neg (by decide)]
  | case2 cs hcs => rfl

theorem map_slash_of_not_mem (h : '\\' ∉ text) :
    text.map (fun c => if c = '\\' then '/' else c) = text := by
  rw [map_congr_left (g := id), map_id]
  intro c hc
  have hne : c ≠ '\\' := fun heq => h (heq ▸ hc)
  simp [hne]

theorem segments_normalize (hslash : '\\' ∉ path.toList) : ∃ n rooted, segments (normalize path) =
      replicate n "" ++ segments (ofSegments (collapse rooted (Path.ofString path).parts)) := by
  have hparts : ∀ rooted, collapse rooted (segments (String.ofList (dropHere path.toList))) =
      collapse rooted (Path.ofString path).parts := by
    intro rooted
    rw [← collapse_filter, filter_segments_dropHere, String.ofList_toList]
    rfl
  refine ⟨leadingSlashes (dropHere path.toList), leadingSlashes (dropHere path.toList) != 0, ?_⟩
  simp only [normalize, map_slash_of_not_mem hslash, hparts, segments_replicate_append,
    String.ofList_toList]

theorem not_mem_of_mem_parts (h : part ∈ (Path.ofString path).parts) : '/' ∉ part.toList :=
  not_mem_of_mem_segments (mem_of_mem_filter h)

theorem mem_push (h : segment ∈ push rooted stack part) : segment ∈ stack ∨ segment = part := by
  rcases push_cases part with hskip | rfl | hname
  · rw [push_of_skipped hskip] at h
    exact .inl h
  · cases stack with
    | nil =>
      cases rooted with
      | true => cases h
      | false => exact .inr (mem_singleton.1 h)
    | cons top rest =>
      by_cases htop : top = ".."
      · subst htop
        exact (mem_cons.1 h).symm
      · rw [push_up_cons htop] at h
        exact .inl (mem_cons_of_mem _ h)
  · rw [push_of_isName hname, mem_cons] at h
    exact h.symm

theorem mem_of_mem_foldl (h : segment ∈ parts.foldl (push rooted) stack) :
    segment ∈ stack ∨ segment ∈ parts := by
  induction parts generalizing stack with
  | nil => exact .inl h
  | cons part parts ih =>
    rcases ih h with hpush | hmem
    · rcases mem_push hpush with hstack | rfl
      · exact .inl hstack
      · exact .inr mem_cons_self
    · exact .inr (mem_cons_of_mem _ hmem)

theorem mem_of_mem_collapse (h : segment ∈ collapse rooted parts) : segment ∈ parts :=
  (mem_of_mem_foldl (mem_reverse.1 h)).resolve_left (by simp)

/-- The directories at the end of what a path collapses to are directories of its normal form. -/
theorem mem_segments_normalize (hslash : '\\' ∉ path.toList)
    (hrest : rest <:+ collapse true (Path.ofString path).parts) {name : String}
    (hname : name ∈ rest.dropLast) : name ∈ (segments (normalize path)).dropLast := by
  obtain ⟨n, rooted, hsegments⟩ := segments_normalize hslash
  obtain ⟨front, hfront⟩ := hrest.trans (collapse_suffix rooted _)
  have hne : rest ≠ [] := by
    rintro rfl
    cases hname
  have hcollapse : collapse rooted (Path.ofString path).parts ≠ [] := by
    rw [← hfront]
    exact append_ne_nil_of_right_ne_nil front hne
  rw [hsegments, segments_ofSegments hcollapse fun part hpart =>
    not_mem_of_mem_parts (mem_of_mem_collapse hpart), dropLast_append_of_ne_nil hcollapse,
    ← hfront, dropLast_append_of_ne_nil hne]
  simp [hname]

theorem ofString_of_isName {name : String} (hname : IsName name) (hslash : '/' ∉ name.toList) :
    Path.ofString name = ⟨0, [name]⟩ := by
  unfold Path.ofString
  have hroot := leadingSlashes_eq_zero_iff.2 fun hhead => hslash (mem_of_head? hhead)
  rw [segments_of_slashless hslash, hroot, filter_cons_of_pos]
  · rfl
  · simp [hname.1, hname.2.1]

/-- A single name is in no directory, so in no protected one. -/
theorem isProtected_of_isName {name : String} (hname : IsName name) (hslash : '/' ∉ name.toList)
    (hback : '\\' ∉ name.toList) : Ignore.isProtected name = false := by
  obtain ⟨n, rooted, hsegments⟩ := segments_normalize hback
  have hsingle : ∀ part ∈ [name], IsName part := by simpa using hname
  rw [ofString_of_isName hname hslash, collapse_of_isName hsingle,
    segments_ofSegments (by simp) (by simpa using hslash)] at hsegments
  rw [Ignore.isProtected, hsegments, dropLast_concat, any_eq_false]
  intro part hpart
  rw [eq_of_mem_replicate hpart]
  decide

end Relative

/-! ## Paths below a root -/

namespace Path

open Relative

/-- The path of a directory that has been resolved: absolute, with names only. -/
structure IsResolved (root : Path) : Prop where
  slashes_eq : root.slashes = 1
  names : ∀ part ∈ root.parts, IsName part

theorem isResolved_resolve (path : Path) (here : List String) : (path.resolve here).IsResolved :=
  ⟨rfl, fun _ h => isName_of_mem_collapse h⟩

variable {root : Path} {file : String} {here : List String}

theorem isResolved_of_resolved {directory : Path} (h : directory.resolved here = .ok root) :
    root.IsResolved := by
  unfold resolved at h
  split at h
  · cases h
  · cases h
    exact isResolved_resolve directory here

theorem IsResolved.isAbsolute_eq (h : root.IsResolved) : root.isAbsolute := by
  rw [isAbsolute, h.slashes_eq]
  rfl

theorem resolve_of_isResolved (h : root.IsResolved) : root.resolve here = root := by
  obtain ⟨slashes, parts⟩ := root
  obtain ⟨rfl, hnames⟩ := h
  exact congrArg (Path.mk 1) (collapse_of_isName hnames)

variable {part : String} {rest : List String}

theorem ne_of_mem_ofString (h : part ∈ (ofString file).parts) : part ≠ "" ∧ part ≠ "." := by
  have hkept := of_mem_filter h
  simpa using hkept

/-- A file as seen from a root: the root comes first, unless the file is absolute itself. -/
theorem child_cases (root : Path) (file : String) :
    (ofString file).isAbsolute ∧ root.child file = ofString file ∨
      (ofString file).isAbsolute = false ∧
        root.child file = ⟨root.slashes, root.parts ++ (ofString file).parts⟩ := by
  cases h : (ofString file).isAbsolute with
  | true => exact .inl ⟨rfl, if_pos h⟩
  | false => exact .inr ⟨rfl, if_neg (by simp [h])⟩

section

variable (h : root.IsResolved)
include h

theorem isAbsolute_child (file : String) : (root.child file).isAbsolute := by
  rcases child_cases root file with ⟨habsolute, heq⟩ | ⟨-, heq⟩
  · rw [heq, habsolute]
  · rw [heq]
    exact h.isAbsolute_eq

theorem ne_of_mem_child (hpart : part ∈ (root.child file).parts) : part ≠ "" ∧ part ≠ "." := by
  rcases child_cases root file with ⟨-, heq⟩ | ⟨-, heq⟩
  · rw [heq] at hpart
    exact ne_of_mem_ofString hpart
  · rw [heq] at hpart
    rcases mem_append.1 hpart with hroot | hfile
    · exact ⟨(h.names part hroot).1, (h.names part hroot).2.1⟩
    · exact ne_of_mem_ofString hfile

/-- What a file shows below a root is the end of what its own path collapses to. -/
theorem suffix_of_child (hplace : collapse true (root.child file).parts = root.parts ++ rest) :
    rest <:+ collapse true (ofString file).parts := by
  rcases child_cases root file with ⟨-, heq⟩ | ⟨-, heq⟩
  · rw [heq] at hplace
    rw [hplace]
    exact suffix_append _ _
  · rw [heq] at hplace
    exact suffix_collapse h.names hplace

/-- A file of a project: its place begins with that of the root, and its path from the root is what
follows. -/
theorem exists_rest_of_inProject? {inside : String}
    (hinside : (root.child file).inProject? root here = some inside) :
    ∃ rest, collapse true (root.child file).parts = root.parts ++ rest ∧
      inside = normalize (Path.toString ⟨0, rest⟩) := by
  rw [inProject?, if_pos (isAbsolute_child h file)] at hinside
  split at hinside
  · cases hinside
  · obtain ⟨rest, hrest, rfl⟩ := Option.map_eq_some_iff.1 hinside
    rw [resolve_of_isResolved h] at hrest
    unfold relativeTo? at hrest
    split at hrest
    · rename_i hleads
      obtain ⟨back, hback⟩ := isPrefixOf_iff_prefix.1 hleads.2
      have hparts :
          ((root.child file).resolve here).parts = collapse true (root.child file).parts := by
        rw [resolve, if_pos (isAbsolute_child h file)]
      rw [hparts] at hback
      rw [hparts, ← hback, drop_left] at hrest
      cases hrest
      exact ⟨back, hback.symm, rfl⟩
    · cases hrest

/-- A file of a project that lies in no protected directory shows none below the root. -/
theorem not_mem_protectedNames (hslash : '\\' ∉ file.toList)
    (hprotected : Ignore.isProtected file = false)
    (hplace : collapse true (root.child file).parts = root.parts ++ rest) {name : String}
    (hname : name ∈ rest.dropLast) : name ∉ Ignore.protectedNames := by
  intro hmem
  have hsegment := mem_segments_normalize hslash (suffix_of_child h hplace) hname
  have hany : Ignore.isProtected file :=
    any_eq_true.2 ⟨name, hsegment, contains_iff_mem.2 hmem⟩
  rw [hprotected] at hany
  cases hany

end

end Path

/-! ## What stands at a place -/

namespace Disk

variable {disk : Disk} {place other : Place} {node : Node}

theorem lookup_filter_ne (nodes : List (Place × Node)) (place other : Place) :
    (nodes.filter fun (p, _) => p != place).lookup other =
      if other = place then none else nodes.lookup other := by
  induction nodes with
  | nil => simp
  | cons pair nodes ih =>
    obtain ⟨p, node⟩ := pair
    by_cases hp : p = place
    · subst hp
      rw [filter_cons_of_neg (by simp), ih, lookup_cons]
      by_cases ho : other = p
      · simp [ho]
      · simp [ho, beq_false_of_ne ho]
    · rw [filter_cons_of_pos (by simpa using hp), lookup_cons, lookup_cons, ih]
      by_cases ho : other = p
      · subst ho
        simp [hp]
      · simp [beq_false_of_ne ho]

theorem at?_of_ne_nil (disk : Disk) (h : place ≠ []) :
    disk.at? place = disk.nodes.lookup place := by
  cases place with
  | nil => exact absurd rfl h
  | cons name place => rfl

theorem at?_erase (h : place ≠ []) (other : Place) :
    (disk.erase place).at? other = if other = place then none else disk.at? other := by
  by_cases hnil : other = []
  · subst hnil
    rw [if_neg (Ne.symm h)]
    rfl
  · rw [at?_of_ne_nil _ hnil, at?_of_ne_nil _ hnil]
    exact lookup_filter_ne disk.nodes place other

theorem at?_put (h : place ≠ []) (node : Node) (other : Place) :
    (disk.put place node).at? other = if other = place then some node else disk.at? other := by
  by_cases hnil : other = []
  · subst hnil
    rw [if_neg (Ne.symm h)]
    rfl
  · rw [at?_of_ne_nil _ hnil, at?_of_ne_nil _ hnil, put, lookup_cons, lookup_filter_ne]
    by_cases ho : other = place
    · simp [ho]
    · simp [ho, beq_false_of_ne ho]

theorem mem_of_at? {node : Node} (hne : place ≠ []) (h : disk.at? place = some node) :
    (place, node) ∈ disk.nodes := by
  rw [at?_of_ne_nil disk hne] at h
  obtain ⟨front, back, hnodes, -⟩ := lookup_eq_some_iff.1 h
  simp [hnodes]

/-- The top of a disk is no file. -/
theorem ne_nil_of_file {bytes : List UInt8} (h : disk.at? place = some (.file bytes)) :
    place ≠ [] := by
  rintro rfl
  cases h

/-! ## Following a path -/

open Relative

theorem descend_append (disk : Disk) (place : Place) (parts others : List String) :
    disk.descend place (parts ++ others) =
      (disk.descend place parts).bind fun middle => disk.descend middle others := by
  induction parts generalizing place with
  | nil => rfl
  | cons part parts ih =>
    rw [cons_append, descend, descend]
    split
    · split
      · exact ih place.dropLast
      · split
        · rfl
        · exact ih (place ++ [part])
    · rfl
    · rfl

/-- A path leads through directories. If these all stand on another disk as well, it leads to the
same place there, and it is too long there if it is too long here. -/
theorem descend_of_directories {later : Disk} {result : Except Cause Place} {parts : List String}
    (hkept : ∀ place, disk.at? place = some .directory → later.at? place = some .directory)
    (hresult : result = .error .tooLong ∨ ∃ target, result = .ok target)
    (h : disk.descend place parts = result) : later.descend place parts = result := by
  induction parts generalizing place with
  | nil => exact h
  | cons part parts ih =>
    rw [descend] at h
    split at h
    · rename_i hat
      rw [descend, hkept place hat]
      dsimp only
      split_ifs at h ⊢
      · exact ih h
      · exact h
      · exact ih h
    · rcases hresult with rfl | ⟨target, rfl⟩ <;> cases h
    · rcases hresult with rfl | ⟨target, rfl⟩ <;> cases h

theorem locate_of_directories {later : Disk} {result : Except Cause Place} {path : Path}
    (hhere : later.here = disk.here)
    (hkept : ∀ place, disk.at? place = some .directory → later.at? place = some .directory)
    (hresult : result = .error .tooLong ∨ ∃ target, result = .ok target)
    (h : disk.locate path = result) : later.locate path = result := by
  unfold locate at h ⊢
  rw [hhere]
  split_ifs at h ⊢ with hzero hlong
  · exact h
  · exact h
  · exact descend_of_directories hkept hresult h
  · exact descend_of_directories hkept hresult h

theorem eq_foldl_of_descend {parts : List String} {target : Place} (hplace : ".." ∉ place)
    (hparts : ∀ part ∈ parts, part ≠ "" ∧ part ≠ ".") (h : disk.descend place parts = .ok target) :
    target = (parts.foldl (push true) place.reverse).reverse := by
  induction parts generalizing place with
  | nil =>
    cases h
    simp
  | cons part parts ih =>
    have hrest : ∀ other ∈ parts, other ≠ "" ∧ other ≠ "." :=
      fun other hother => hparts other (mem_cons_of_mem _ hother)
    rw [descend] at h
    split at h
    · split at h
      · -- a step up takes the last name off
        rename_i hup
        obtain rfl := eq_of_beq hup
        have hshort : ".." ∉ place.dropLast := fun hmem => hplace (dropLast_subset _ hmem)
        rw [ih hshort hrest h, foldl_cons]
        cases place using reverseRecOn with
        | nil => rfl
        | append_singleton place last =>
          have hlast : last ≠ ".." := by
            rintro rfl
            simp at hplace
          rw [dropLast_concat, reverse_concat, push_up_cons hlast]
      · rename_i hup
        have hname : IsName part := by
          obtain ⟨hempty, hdot⟩ := hparts part mem_cons_self
          exact ⟨hempty, hdot, fun heq => hup (by simp [heq])⟩
        split at h
        · cases h
        · have hlong : ".." ∉ place ++ [part] := by
            simp [hplace, Ne.symm hname.2.2]
          rw [ih hlong hrest h, foldl_cons, push_of_isName hname, reverse_concat]
    · cases h
    · cases h

variable {path : Path}

/-- An absolute path that the disk follows leads to where its segments collapse to. -/
theorem eq_collapse_of_locate (habsolute : path.isAbsolute)
    (hparts : ∀ part ∈ path.parts, part ≠ "" ∧ part ≠ ".") (h : disk.locate path = .ok place) :
    place = collapse true path.parts := by
  unfold locate at h
  split at h
  · cases h
  · split at h
    · cases h
    · exact eq_foldl_of_descend (by simp) hparts h

/-- A resolved path leads to its own parts. -/
theorem eq_parts_of_locate (hpath : path.IsResolved) (h : disk.locate path = .ok place) :
    place = path.parts := by
  rw [eq_collapse_of_locate hpath.isAbsolute_eq (fun part hpart => ?_) h,
    collapse_of_isName hpath.names]
  exact ⟨(hpath.names part hpart).1, (hpath.names part hpart).2.1⟩

/-- Where names lead depends only on what stands on the way. -/
theorem descend_congr {later : Disk} {names : List String} (hnames : ∀ name ∈ names, IsName name)
    (h : ∀ front, front <+: names → later.at? (place ++ front) = disk.at? (place ++ front)) :
    later.descend place names = disk.descend place names := by
  induction names generalizing place with
  | nil => rfl
  | cons name names ih =>
    have hhere := h [] List.nil_prefix
    rw [append_nil] at hhere
    have hup : (name == "..") = false := by simpa using (hnames name mem_cons_self).2.2
    have hdeeper :
        later.descend (place ++ [name]) names = disk.descend (place ++ [name]) names := by
      refine ih (fun part hpart => hnames part (mem_cons_of_mem _ hpart)) fun front hleads => ?_
      rw [append_assoc]
      exact h (name :: front) (cons_prefix_cons.2 ⟨rfl, hleads⟩)
    simp only [descend, hhere, hup, hdeeper, Bool.false_eq_true, if_false]

/-- What is read at a path depends only on what stands on the way to it and there. -/
theorem read_congr {later : Disk} (hpath : path.IsResolved)
    (h : ∀ front, front <+: path.parts → later.at? front = disk.at? front) :
    later.read path = disk.read path := by
  have hlocate : later.locate path = disk.locate path := by
    simp only [locate, hpath.isAbsolute_eq, if_true]
    rw [descend_congr hpath.names h]
  simp only [read, hlocate]
  cases hplace : disk.locate path with
  | error cause => rfl
  | ok place =>
    obtain rfl := eq_parts_of_locate hpath hplace
    simp only [h path.parts (prefix_refl _)]

/-- Directories lead to a place, and a file with the bytes stands there. -/
structure ReachesFile (disk : Disk) (place : Place) (bytes : List UInt8) : Prop where
  directory : ∀ front, front <+: place → front ≠ place → disk.at? front = some .directory
  isFile : disk.at? place = some (.file bytes)

/-- A file is read alike on all disks that lead to it. -/
theorem ReachesFile.readText_eq {later : Disk} {place : Place} {bytes : List UInt8}
    (h : disk.ReachesFile place bytes) (hlater : later.ReachesFile place bytes)
    (hpath : path.IsResolved) (hparts : path.parts = place) :
    later.readText path = disk.readText path := by
  have hread : later.read path = disk.read path := by
    refine read_congr hpath fun front hleads => ?_
    rw [hparts] at hleads
    rcases eq_or_ne front place with rfl | hne
    · rw [h.isFile, hlater.isFile]
    · rw [h.directory front hleads hne, hlater.directory front hleads hne]
  simp only [readText, hread]

end Disk

end Deadwood

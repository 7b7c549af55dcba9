import Deadwood.Outline.Records
import Deadwood.Proofs.Naming
import Mathlib.Data.String.Basic

/-!
# Records under their directories

The nodes of an outline are visited in depth-first order, each with the names that lead to it
(`visit`). An item whose branches are either new or the last ones that were entered comes last in
this order (`exists_visit_insert`). Paths that are sorted as texts fulfil this, since all paths
below a directory begin with the same text and so stand together. The trees that are displayed have
the nodes of the outline (`visits_displayAll`). So they have one node for each directory, and the
nodes of the records stand under those of their directories and in order (`recordTrees_grouped`).
-/

set_option autoImplicit false

namespace Deadwood.Outline

open List Relative

variable {α : Type}

/-! ## Visits -/

/-- A node as it is seen from above a branch. -/
def under (name : String) (node : List String × Option α) : List String × Option α :=
  (name :: node.1, node.2)

mutual

/-- The nodes of an outline in depth-first order, each with the names that lead to it. A branch has
no item, and its own name is the last of its names. -/
def visitNode : Outline α → List (List String × Option α)
  | .branch name children => ([name], none) :: (visit children).map (under name)
  | .leaf item => [([], some item)]

/-- The nodes of outlines in depth-first order. -/
def visit : List (Outline α) → List (List String × Option α)
  | [] => []
  | node :: nodes => visitNode node ++ visit nodes

end

/-- The names that lead to the branches among the nodes that were visited. -/
def branches (visited : List (List String × Option α)) : List (List String) :=
  visited.filterMap fun node => if node.2.isNone then some node.1 else none

/-- The items among the nodes that were visited, each with the names of the branches that it is
under. -/
def leaves (visited : List (List String × Option α)) : List (List String × α) :=
  visited.filterMap fun node => node.2.map (node.1, ·)

variable {nodes : List (Outline α)} {name : String} {way p : List String} {item : α}

theorem mem_branches {visited : List (List String × Option α)} :
    p ∈ branches visited ↔ (p, none) ∈ visited := by
  simp [branches]

theorem mem_visitNode_branch {other : String} {children : List (Outline α)} :
    (other :: p, none) ∈ visitNode (.branch name children) ↔
      other = name ∧ (p = [] ∨ (p, none) ∈ visit children) := by
  simp only [visitNode, mem_cons, mem_map, under, Prod.exists, Prod.mk.injEq, cons.injEq]
  grind

theorem visit_append (nodes others : List (Outline α)) :
    visit (nodes ++ others) = visit nodes ++ visit others := by
  induction nodes with
  | nil => simp [visit]
  | cons node nodes ih => simp [visit, ih]

/-- What is visited first after a branch is over is not under it, or is a branch of its name. -/
theorem eq_nil_of_under (h : ∀ node ∈ visit nodes, [name] <+: node.1 ∧ node ≠ ([name], none)) :
    nodes = [] := by
  cases nodes with
  | nil => rfl
  | cons node nodes =>
    cases node with
    | leaf item => simpa using (h ([], some item) (by simp [visit, visitNode])).1
    | branch other children =>
      obtain ⟨hname, hne⟩ := h ([other], none) (by simp [visit, visitNode])
      obtain rfl : name = other := by simpa using hname
      exact absurd rfl hne

/-- Whatever is visited after a branch on the way is under this branch. -/
def EndsOn (way : List String) (nodes : List (Outline α)) : Prop :=
  (visit nodes).Pairwise fun x y => x.2 = none → x.1 <+: way → x.1 <+: y.1 ∧ y ≠ x

/-- An item is visited last if the branches on its way are. Before it come the branches that are
made for it, from the outermost to the innermost. -/
theorem exists_visit_insert (item : α) (h : EndsOn way nodes) : ∃ fresh : List (List String),
      visit (insert item way nodes) = visit nodes ++ (fresh.map (·, none) ++ [(way, some item)]) ∧
      fresh.Pairwise (fun p q => p <+: q ∧ q ≠ p) ∧
      ∀ p, p ∈ fresh ↔ p ≠ [] ∧ p <+: way ∧ (p, none) ∉ visit nodes := by
  induction way generalizing nodes with
  | nil =>
    refine ⟨[], by simp [insert, visit_append, visit, visitNode], .nil, fun p => ?_⟩
    simp +contextual
  | cons name way ih =>
    induction nodes with
    | nil =>
      obtain ⟨fresh, hvisit, hfresh, hmem⟩ := @ih [] .nil
      refine ⟨[name] :: fresh.map (name :: ·), ?_, ?_, fun p => ?_⟩
      · simp [insert, within, visit, visitNode, hvisit, under]
      · simp only [pairwise_cons, mem_map, pairwise_map, forall_exists_index, and_imp,
          forall_apply_eq_imp_iff₂, cons_prefix_cons, true_and, ne_eq, cons.injEq]
        exact ⟨fun q hq => ⟨ nil_prefix, ((hmem q).1 hq).1⟩, hfresh⟩
      · cases p with
        | nil => simp
        | cons other p => by_cases hp : p = [] <;> simp [hmem, visit, hp, eq_comm, and_comm]
    | cons node nodes ihn =>
      rw [EndsOn, visit, pairwise_append] at h
      cases node with
      | leaf other =>
        obtain ⟨fresh, hvisit, hfresh, hmem⟩ := ihn h.2.1
        refine ⟨fresh, ?_, hfresh, fun p => ?_⟩
        · simp only [insert] at hvisit
          simp [insert, within, visit, visitNode, hvisit]
        · simp [hmem, visit, visitNode]
      | branch other children =>
        by_cases hname : other = name
        · subst hname
          rw [visitNode, pairwise_cons] at h
          obtain ⟨⟨hfirst, hchildren⟩, -, hlast⟩ := h
          obtain rfl : nodes = [] := eq_nil_of_under fun node hnode =>
            hlast _ mem_cons_self node hnode rfl (by simp)
          rw [pairwise_map] at hchildren
          have hends : EndsOn way children := by
            refine hchildren.imp fun {x y} hxy hnone hway => ?_
            obtain ⟨hfront, hne⟩ := hxy hnone (cons_prefix_cons.2 ⟨rfl, hway⟩)
            exact ⟨(cons_prefix_cons.1 hfront).2, fun heq => hne (congrArg _ heq)⟩
          obtain ⟨fresh, hvisit, hfresh, hmem⟩ := ih hends
          refine ⟨fresh.map (other :: ·), ?_, by simpa [pairwise_map] using hfresh, fun p => ?_⟩
          · simp [insert, within, visit, visitNode, hvisit, under]
          · cases p with
            | nil => simp
            | cons c p =>
              simp only [mem_map, cons.injEq, hmem, visit, append_nil, mem_visitNode_branch,
                cons_prefix_cons]
              grind
        · obtain ⟨fresh, hvisit, hfresh, hmem⟩ := ihn h.2.1
          refine ⟨fresh, ?_, hfresh, fun p => ?_⟩
          · simp only [insert] at hvisit
            simp [insert, within, visit, hvisit, hname]
          · cases p with
            | nil => simp [hmem]
            | cons c p =>
              simp only [hmem, visit, mem_append, mem_visitNode_branch, cons_prefix_cons]
              grind

/-! ## Items in order -/

/-- Items stand together: between two items under a branch there are only items under it. -/
def Gathered (way : α → List String) (items : List α) : Prop :=
  ∀ a b c p, [a, b, c] <+ items → p <+: way a → p <+: way c → p <+: way b

/-- The outline has the items in order, each under its own branches, and no other branches. -/
structure Lays (way : α → List String) (items : List α) (nodes : List (Outline α)) : Prop where
  leaves_eq : leaves (visit nodes) = items.map fun item => (way item, item)
  nodup : (branches (visit nodes)).Nodup
  mem_iff : ∀ p, p ∈ branches (visit nodes) ↔ p ≠ [] ∧ ∃ item ∈ items, p <+: way item

theorem Lays.insert {way : α → List String} {items : List α} (h : Lays way items nodes)
    (hends : EndsOn (way item) nodes) : Lays way (items ++ [item]) (insert item (way item) nodes) ∧
      EndsOn (way item) (insert item (way item) nodes) := by
  obtain ⟨fresh, hvisit, hfresh, hmem⟩ := exists_visit_insert item hends
  have hbranches : branches (visit (Outline.insert item (way item) nodes)) =
      branches (visit nodes) ++ fresh := by
    simp [branches, hvisit]
  refine ⟨⟨?_, ?_, fun p => ?_⟩, ?_⟩
  · have hleaves := h.leaves_eq
    simp only [leaves] at hleaves
    simp [leaves, hvisit, hleaves]
  · rw [hbranches, nodup_append]
    refine ⟨h.nodup, hfresh.imp fun hpq => hpq.2.symm, ?_⟩
    rintro p hp q hq rfl
    exact ((hmem p).1 hq).2.2 (mem_branches.1 hp)
  · rw [hbranches, mem_append, h.mem_iff, hmem, ← mem_branches, h.mem_iff]
    grind
  · rw [EndsOn, hvisit, pairwise_append, pairwise_append, pairwise_map]
    refine ⟨hends, ⟨hfresh.imp fun hpq _ _ => ⟨hpq.1, by simpa using hpq.2⟩, by simp, ?_⟩, ?_⟩
    · simp +contextual
    · rintro ⟨p, _⟩ hp node hnode rfl hway
      rcases mem_append.1 hnode with hnode | hnode
      · obtain ⟨q, hq, rfl⟩ := mem_map.1 hnode
        obtain ⟨hne, hq, hnew⟩ := (hmem q).1 hq
        refine ⟨( prefix_or_prefix_of_prefix hway hq).resolve_right fun hqp => hnew ?_,
          fun heq => hnew (heq ▸ hp)⟩
        -- a branch above one that is there is there as well
        obtain ⟨-, other, hother, hpother⟩ := (h.mem_iff p).1 (mem_branches.2 hp)
        exact mem_branches.1 ((h.mem_iff q).2 ⟨hne, other, hother, hqp.trans hpother⟩)
      · simp [mem_singleton.1 hnode, hway]

/-- Items that stand together are laid out in their order. -/
theorem lays_ofItems {way : α → List String} {items : List α} (h : Gathered way items) :
    Lays way items (ofItems way items) ∧
      ∀ last ∈ items.getLast?, EndsOn (way last) (ofItems way items) := by
  induction items using reverseRecOn with
  | nil => exact ⟨⟨rfl, .nil, by simp [ofItems, branches, visit]⟩, by simp⟩
  | append_singleton items item ih =>
    obtain ⟨hlays, hlast⟩ := ih fun a b c p hsub => h a b c p (hsub.trans (sublist_append_left _ _))
    have hends : EndsOn (way item) (ofItems way items) := by
      cases hitems : items.getLast? with
      | none =>
        obtain rfl := getLast?_eq_none_iff.1 hitems
        exact .nil
      | some last =>
        obtain ⟨front, rfl⟩ := getLast?_eq_some_iff.1 hitems
        refine (hlast last hitems).imp_of_mem fun {x y} hx _ hxy hnone hway => hxy hnone ?_
        -- an item under the branch came before, so the last one is under it too
        obtain ⟨p, _⟩ := x
        obtain rfl : _ = none := hnone
        obtain ⟨-, other, hother, hp⟩ := (hlays.mem_iff p).1 (mem_branches.2 hx)
        rcases mem_append.1 hother with hother | hother
        · exact h other last item p (by
            simpa using (singleton_sublist.2 hother).append_right [last, item]) hp hway
        · rwa [← mem_singleton.1 hother]
    have hstep := hlays.insert hends
    rw [ofItems, foldl_concat]
    refine ⟨hstep.1, fun last hlast => ?_⟩
    obtain rfl : item = last := by simpa using hlast
    exact hstep.2

/-! ## Paths in order -/

/-- A text between two texts with the same beginning has this beginning. -/
theorem prefix_of_le_of_le {front a b c : List Char} (hab : a ≤ b) (hbc : b ≤ c)
    (ha : front <+: a) (hc : front <+: c) : front <+: b := by
  induction front generalizing a b c with
  | nil => exact nil_prefix
  | cons x front ih =>
    obtain ⟨a, rfl⟩ := ha
    obtain ⟨c, rfl⟩ := hc
    cases b with
    | nil => exact absurd hab (not_le.2 .nil)
    | cons y b =>
      have hfirst : x = y := le_antisymm (not_lt.1 fun hlt => absurd hab (not_le.2 (.rel hlt)))
        (not_lt.1 fun hlt => absurd hbc (not_le.2 (.rel hlt)))
      subst hfirst
      have hab' : front ++ a ≤ b := not_lt.1 fun hlt => absurd hab (not_le.2 (.cons hlt))
      have hbc' : b ≤ front ++ c := not_lt.1 fun hlt => absurd hbc (not_le.2 (.cons hlt))
      exact cons_prefix_cons.2 ⟨rfl, ih hab' hbc' (prefix_append _ _) (prefix_append _ _)⟩

variable {path : String}

theorem ofSegments_segments (path : String) : ofSegments (segments path) = path := by
  simp [ofSegments, segments, Function.comp_def, intercalate_splitOn]

/-- The directories that a path leads through are the beginnings of its text up to a slash. -/
theorem prefix_dropLast_segments_iff (hne : p ≠ []) (hslash : ∀ part ∈ p, '/' ∉ part.toList) :
    p <+: (segments path).dropLast ↔ (ofSegments p).toList ++ ['/'] <+: path.toList := by
  constructor
  · rintro ⟨rest, hrest⟩
    have hsegments : segments path ≠ [] := by simp [segments]
    have hparts := dropLast_append_getLast hsegments
    rw [← hrest, append_assoc] at hparts
    rw [← ofSegments_segments path, ← hparts, ofSegments_append p (by simp), ofSegments_concat hne]
    exact ⟨(ofSegments (rest ++ [(segments path).getLast hsegments])).toList, by simp⟩
  · rintro ⟨back, hback⟩
    have htext : path = String.ofList ((ofSegments p).toList ++ '/' :: back) := by
      rw [← String.ofList_toList (s := path), ← hback]
      simp
    rw [htext, segments_append_slash, String.ofList_toList, segments_ofSegments hne hslash,
      dropLast_append_of_ne_nil (by simp [segments])]
    exact prefix_append _ _

/-- A relative path without needless segments: none is empty, and none is `.`. -/
def IsCanonical (path : String) : Prop := ∀ part ∈ segments path, part ≠ "" ∧ part ≠ "."

instance (path : String) : Decidable (IsCanonical path) :=
  inferInstanceAs (Decidable (∀ part ∈ segments path, _))

theorem directories_eq (h : IsCanonical path) : directories path = (segments path).dropLast := by
  have hparts : ∀ part ∈ segments path, IsPart part := fun part hpart =>
    ⟨(h part hpart).1, (h part hpart).2, not_mem_of_mem_segments hpart⟩
  have hread := ofString_ofSegments (by simp [segments]) hparts
  rw [ofSegments_segments] at hread
  simp [directories, steps, hread, Path.isAbsolute]

/-- Paths that are sorted as texts stand together below their directories. -/
theorem gathered_of_pairwise {records : List (Record String)}
    (hpaths : ∀ record ∈ records, IsCanonical record.path)
    (hsorted : records.Pairwise (·.path ≤ ·.path)) :
    Gathered (fun record => directories record.path) records := by
  intro a b c p hsub ha hc
  have hmem : ∀ record ∈ [a, b, c], directories record.path = (segments record.path).dropLast :=
    fun record hrecord => directories_eq (hpaths record (hsub.subset hrecord))
  obtain ⟨⟨hab, -⟩, hbc, -⟩ : (a.path ≤ b.path ∧ a.path ≤ c.path) ∧ b.path ≤ c.path ∧ True := by
    simpa using hsorted.sublist hsub
  simp only [mem_cons, not_mem_nil, or_false, forall_eq_or_imp, forall_eq] at hmem
  simp only [hmem] at ha hc ⊢
  rcases eq_or_ne p [] with rfl | hne
  · exact nil_prefix
  have hslash : ∀ part ∈ p, '/' ∉ part.toList := fun part hpart =>
    not_mem_of_mem_segments (mem_of_mem_dropLast (ha.subset hpart))
  rw [prefix_dropLast_segments_iff hne hslash] at ha hc ⊢
  exact prefix_of_le_of_le (String.le_iff_toList_le.1 hab) (String.le_iff_toList_le.1 hbc) ha hc

/-! ## Trees of records -/

/-- Trees below the directories `way` are read in depth-first order. Each node is a directory, which
adds its name to the way for all that is below it, or a file with the rows that belong to it. -/
inductive Visits (verbose : Bool) :
    List String → List Tree → List (List String × Option (Record String)) → Prop
  | nil (way : List String) : Visits verbose way [] []
  | directory {way : List String} {name : String} {below trees : List Tree}
      {inner visited : List (List String × Option (Record String))}
      (hbelow : Visits verbose (way ++ [name]) below inner)
      (htrees : Visits verbose way trees visited) :
      Visits verbose way (.node (directoryLabel name) below :: trees)
        ((way ++ [name], none) :: (inner ++ visited))
  | file {way : List String} {record : Record String} {trees : List Tree}
      {visited : List (List String × Option (Record String))}
      (htrees : Visits verbose way trees visited) :
      Visits verbose way (recordTree verbose record :: trees) ((way, some record) :: visited)

/-- The trees of an outline have its nodes. -/
theorem visits_displayAll (verbose : Bool) (nodes : List (Outline (Record String)))
    (way : List String) : Visits verbose way (displayAll directoryLabel (recordTree verbose) nodes)
      ((visit nodes).map fun node => (way ++ node.1, node.2)) := by
  match nodes with
  | [] =>
    rw [displayAll, visit]
    exact .nil way
  | .leaf record :: nodes =>
    rw [displayAll, display, visit, visitNode]
    simpa using (visits_displayAll verbose nodes way).file
  | .branch name children :: nodes =>
    rw [displayAll, display, visit, visitNode]
    simpa [under, Function.comp_def] using Visits.directory
      (visits_displayAll verbose children (way ++ [name])) (visits_displayAll verbose nodes way)

/-- Among the nodes there is one for each directory that leads to a record, and one for each record,
under its directory and in ascending order of the paths. -/
structure Grouped (records : List (Record String))
    (visited : List (List String × Option (Record String))) : Prop where
  nodup : (branches visited).Nodup
  mem_branches : ∀ way, way ∈ branches visited ↔
    way ≠ [] ∧ ∃ record ∈ records, way <+: (segments record.path).dropLast
  perm : ((leaves visited).map Prod.snd).Perm records
  directory : ∀ leaf ∈ leaves visited, leaf.1 = (segments leaf.2.path).dropLast
  sorted : (leaves visited).Pairwise (·.2.path ≤ ·.2.path)

/-- The outline of records groups them, whatever their order. -/
theorem grouped_ofRecords {records : List (Record String)}
    (hpaths : ∀ record ∈ records, IsCanonical record.path) :
    Grouped records (visit (ofRecords records)) := by
  have hperm : (records.mergeSort fun a b => a.path ≤ b.path).Perm records := mergeSort_perm _ _
  have hsorted : (records.mergeSort fun a b => a.path ≤ b.path).Pairwise (·.path ≤ ·.path) := by
    refine (pairwise_mergeSort ?_ ?_ _).imp fun h => of_decide_eq_true h
    · simpa using fun a b c : Record String => le_trans
    · simpa using fun a b : Record String => le_total a.path b.path
  have hpaths' := fun record hrecord => hpaths record (hperm.mem_iff.1 hrecord)
  obtain ⟨hleaves, hnodup, hmem⟩ := (lays_ofItems (gathered_of_pairwise hpaths' hsorted)).1
  have hdirectories :
      ∀ record ∈ records, directories record.path = (segments record.path).dropLast :=
    fun record hrecord => directories_eq (hpaths record hrecord)
  rw [← ofRecords] at hleaves hnodup hmem
  refine ⟨hnodup, fun way => ?_, ?_, ?_, ?_⟩
  · rw [hmem]
    refine and_congr_right fun _ => exists_congr fun record => ?_
    rw [hperm.mem_iff]
    exact and_congr_right fun hrecord => by rw [hdirectories record hrecord]
  · simpa [hleaves, Function.comp_def] using hperm
  · rw [hleaves]
    simpa [hperm.mem_iff] using hdirectories
  · rw [hleaves, pairwise_map]
    exact hsorted

/-- The trees in which records are shown group them by directories: a depth-first visit of their
nodes meets every directory and every record once, and the records in order. -/
theorem recordTrees_grouped {records : List (Record String)}
    (hpaths : ∀ record ∈ records, IsCanonical record.path) (project : String) (verbose : Bool) :
    ∃ visited, Visits verbose [] (recordTrees records project verbose).children visited ∧
      Grouped records visited := by
  have hvisits := visits_displayAll verbose (ofRecords records) []
  simp only [nil_append, map_id'] at hvisits
  exact ⟨_, hvisits, grouped_ofRecords hpaths⟩

/-- As texts, `a-b/c.ts` and `a.ts` come before the paths below `a`. -/
theorem recordTrees_grouped_hyphen :
    ∃ visited, Visits false [] (recordTrees [⟨"a/x/b.ts", [], [], [], []⟩,
        ⟨"a-b/c.ts", [], [], [], []⟩, ⟨"a/c.ts", [], [], [], []⟩, ⟨"a.ts", [], [], [], []⟩]
        "p" false).children visited ∧
      Grouped [⟨"a/x/b.ts", [], [], [], []⟩, ⟨"a-b/c.ts", [], [], [], []⟩,
        ⟨"a/c.ts", [], [], [], []⟩, ⟨"a.ts", [], [], [], []⟩] visited :=
  recordTrees_grouped (by decide) "p" false

end Deadwood.Outline

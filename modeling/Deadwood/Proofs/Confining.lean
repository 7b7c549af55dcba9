import Deadwood.Proofs.Normalizing

/-!
# Where specifiers lead

A specifier that is joined to a directory never leads out of the project: what is joined is spelled
by names (`Spells`), and so is every file that is tried for it. This covers relative specifiers,
alias rules and the prefix for the base directory. Only a specifier that is taken as a path from the
root is not joined to anything, and it may lead out if its normal form does (`resolve_confined`).
-/

set_option autoImplicit false

namespace Deadwood

open List

/-- A path is looked at in vain only if it is too long. -/
theorem Disk.tooLong_of_isFile_eq_error (disk : Disk) {path : Path} {e : Disk.Error}
    (h : disk.isFile path = .error e) :
    disk.locate path = .error .tooLong ∧ e = ⟨.tooLong, path.toString⟩ := by
  unfold Disk.isFile Disk.node? at h
  split at h
  · simp only [bind, Except.bind] at h
    split at h <;> cases h
  · rename_i hlocate
    exact ⟨hlocate, (Except.error.inj h).symm⟩
  · cases h

namespace Relative

variable {parts names : List String} {base file extension : String}

/-! ## Endings -/

theorem Spells.ne_empty (h : Spells names base) : base ≠ "" := by
  rintro rfl
  exact (h.isSegment "" (h.segments_eq ▸ mem_singleton_self _)).isName.1 rfl

/-- No slash stands at the end of a path that is spelled by names. -/
theorem Spells.dropWhile_slash (h : Spells names base) :
    base.toList.reverse.dropWhile (· == '/') = base.toList.reverse := by
  obtain ⟨init, c, hc⟩ := (eq_nil_or_concat' base.toList).resolve_left (by simpa using h.ne_empty)
  rw [hc, reverse_concat, dropWhile_cons_of_neg]
  intro hslash
  obtain rfl := eq_of_beq hslash
  -- the empty text after the last slash would be a name
  have hmem : "" ∈ segments base := by
    rw [← String.ofList_toList (s := base), hc, segments_append_slash]
    exact mem_append_right _ (mem_singleton_self _)
  exact (h.isSegment "" (h.segments_eq ▸ hmem)).isName.1 rfl

theorem IsSegment.append {name : String} (h : IsSegment name) (hext : '/' ∉ extension.toList) :
    IsSegment (name ++ extension) := by
  refine ⟨?_, by simp [h.slash, hext]⟩
  obtain ⟨hempty, hhere, hup⟩ := h.isName
  -- what begins `.` or `..` is one of them or empty
  have hdots : ∀ text, text ∈ ["", ".", ".."] → name ++ extension ≠ text := by
    intro text htext heq
    have hinits : ∀ text ∈ ["", ".", ".."], ∀ start ∈ text.toList.inits,
        String.ofList start ∈ ["", ".", ".."] := by decide
    have hname := hinits text htext name.toList (by simp [← heq])
    simp [hempty, hhere, hup] at hname
  exact ⟨hdots _ (by simp), hdots _ (by simp), hdots _ (by simp)⟩

theorem Spells.concat (h : Spells names base) {name : String} (hname : IsSegment name) :
    Spells (names ++ [name]) (base ++ "/" ++ name) := by
  refine ⟨by simp, ?_, by rw [ofSegments_concat h.ne_nil, h.path_eq]⟩
  simpa [or_imp, forall_and, hname] using h.isSegment

/-- The last name of a path may be replaced by another one. -/
theorem Spells.exists_last (h : Spells names base) : ∃ lead last, base = lead ++ last ∧
    IsSegment last ∧ ∀ next, IsSegment next → ∃ names, Spells names (lead ++ next) := by
  obtain ⟨front, last, rfl⟩ := (eq_nil_or_concat' names).resolve_left h.ne_nil
  have hlast := h.isSegment last (by simp)
  rcases eq_or_ne front [] with rfl | hne
  · refine ⟨"", last, by simp [h.path_eq, ofSegments_singleton], hlast, fun next hnext => ?_⟩
    exact ⟨[next], by simpa using hnext.spells⟩
  · have hfront : Spells front (ofSegments front) :=
      ⟨hne, fun name hname => h.isSegment name (mem_append_left _ hname), rfl⟩
    exact ⟨ofSegments front ++ "/", last, by rw [h.path_eq, ofSegments_concat hne], hlast,
      fun next hnext => ⟨_, hfront.concat hnext⟩⟩

end Relative

open Relative

namespace Alias.Resolver

variable {resolver later start : Resolver} {table : Table} {disk : Disk} {extensions : List String}
  {specifier directory base file : String}

/-! ## Files that are tried -/

/-- For a path that is spelled by names the path itself is tried first, then the path with each
extension, and then the index files below it. -/
theorem candidates_eq {names : List String} (h : Spells names base) (extensions : List String) :
    candidates extensions base = base :: extensions.map (base ++ ·) ++
      extensions.map (base ++ "/index" ++ ·) := by
  have hne : base.isEmpty = false := by simpa [String.isEmpty_iff] using h.ne_empty
  simp [candidates, h.dropWhile_slash, hne]

/-- Every file that is tried for a path spelled by names is spelled by names. -/
theorem confined_of_mem_candidates (hslash : ∀ extension ∈ extensions, '/' ∉ extension.toList)
    (hbase : base = "" ∨ ∃ names, Spells names base) (h : file ∈ candidates extensions base) :
    Confined file := by
  have hindex : ∀ extension ∈ extensions, IsSegment ("index" ++ extension) :=
    fun extension hmem => (by decide : IsPlain "index").toIsSegment.append (hslash extension hmem)
  rcases hbase with rfl | ⟨names, hspells⟩
  · obtain ⟨extension, hmem, rfl⟩ : ∃ extension ∈ extensions, "index" ++ extension = file := by
      simpa [candidates] using h
    exact (hindex extension hmem).spells.confined
  · obtain ⟨lead, last, rfl, hlast, hnext⟩ := hspells.exists_last
    simp only [candidates_eq hspells, mem_append, mem_cons, mem_map] at h
    rcases h with (rfl | ⟨extension, hmem, rfl⟩) | ⟨extension, hmem, rfl⟩
    · exact hspells.confined
    · obtain ⟨names', hnames'⟩ := hnext _ (hlast.append (hslash extension hmem))
      exact String.append_assoc ▸ hnames'.confined
    · have hsplit : lead ++ last ++ "/index" ++ extension =
          lead ++ last ++ "/" ++ ("index" ++ extension) := by
        simp [← String.toList_inj]
      exact hsplit ▸ (hspells.concat (hindex extension hmem)).confined

/-- A file that is tried, or a path that is too long to be looked at. -/
theorem firstFile?_cases (resolver : Resolver) (disk : Disk) (files : List String) :
    (∃ tried ∈ files, disk.locate (resolver.root.child tried) = .error .tooLong ∧
      resolver.firstFile? disk files = .error ⟨.tooLong, (resolver.root.child tried).toString⟩) ∨
    ∃ answer, resolver.firstFile? disk files = .ok answer ∧ ∀ file ∈ answer, file ∈ files := by
  induction files with
  | nil => exact .inr ⟨none, rfl, by simp⟩
  | cons first files ih =>
    rw [firstFile?]
    split
    · exact .inr ⟨some first, rfl, by simp⟩
    · cases hfile : disk.isFile (resolver.root.child first) with
      | error e =>
        obtain ⟨hlocate, rfl⟩ := disk.tooLong_of_isFile_eq_error hfile
        exact .inl ⟨first, mem_cons_self, hlocate, rfl⟩
      | ok found =>
        cases found with
        | true => exact .inr ⟨some first, rfl, by simp⟩
        | false =>
          rcases ih with ⟨tried, hmem, hlocate, heq⟩ | ⟨answer, heq, hmem⟩
          · exact .inl ⟨tried, mem_cons_of_mem _ hmem, hlocate, heq⟩
          · exact .inr ⟨answer, heq, fun file hfile => mem_cons_of_mem _ (hmem file hfile)⟩

/-! ## Ways to a path -/

/-- The specifier is taken as a path from the root, and this path leads out: it is not relative, no
alias rule gives a path for it, and it does not begin with the prefix for the base directory. -/
structure LeadsOut (table : Table) (specifier : String) : Prop where
  unrelated : isRelative (clean specifier) = false
  unmapped : table.map? (clean specifier) = .ok none
  unmarked : ¬ ['@', '/'] <+: (clean specifier).toList
  out : leadsOut (normalize (clean specifier)) = true

/-- Every target of a rule is a text. -/
def Textual (rules : List Rule) : Prop := ∀ rule ∈ rules, ∃ text, rule.target = .text text

theorem exists_target? {rules : List Rule} (h : Textual rules) (specifier : String) :
    ∃ target, Table.target? specifier rules = .ok target ∧
      ∀ value ∈ target, ∃ text, value = .text text := by
  induction rules with
  | nil => exact ⟨none, rfl, by simp⟩
  | cons rule rules ih =>
    obtain ⟨text, htext⟩ := h rule mem_cons_self
    obtain ⟨rest, hrest, htexts⟩ := ih fun rule hrule => h rule (mem_cons_of_mem _ hrule)
    have hrule : ∃ value, rule.map? specifier = .ok value ∧
        ∀ target ∈ value, ∃ text, target = .text text := by
      unfold Rule.map? Rule.target?
      rw [htext]
      split
      · cases Rule.middle? rule.pattern.toList specifier.toList <;> simp
      · split <;> simp
    obtain ⟨value, hvalue, hvalues⟩ := hrule
    rw [Table.target?, hvalue]
    cases value with
    | none => exact ⟨rest, hrest, htexts⟩
    | some value => exact ⟨some value, rfl, hvalues⟩

theorem place?_text (base text : String) :
    Table.place? base (.text text) = .ok (join? base text) := by
  unfold Table.place?
  split <;> rfl

theorem exists_map? (h : Textual table.rules) (specifier : String) :
    ∃ mapped, table.map? specifier = .ok mapped ∧
      ∀ base ∈ mapped, base = "" ∨ ∃ names, Spells names base := by
  obtain ⟨target, htarget, htexts⟩ := exists_target? h specifier
  rw [Table.map?, htarget]
  cases target with
  | none => exact ⟨none, rfl, by simp⟩
  | some target =>
    obtain ⟨text, rfl⟩ := htexts target rfl
    exact ⟨join? table.base text, place?_text _ _, fun base hbase => spells_of_join? hbase⟩

/-- A specifier stands for a path, if any, that is spelled by names, unless it leads out. -/
theorem exists_base? (h : Textual table.rules) (specifier directory : String) :
    ∃ found, base? table specifier directory = .ok found ∧
      (¬ LeadsOut table specifier → ∀ base ∈ found, base = "" ∨ ∃ names, Spells names base) := by
  obtain ⟨mapped, hmapped, hspells⟩ := exists_map? h (clean specifier)
  simp only [base?]
  split
  · exact ⟨none, rfl, by simp⟩
  · split
    · exact ⟨_, rfl, fun _ base hbase => spells_of_join? hbase⟩
    · rename_i hrelative
      rw [hmapped]
      cases mapped with
      | some mapped => exact ⟨some mapped, rfl, fun _ => hspells⟩
      | none =>
        split
        · exact ⟨_, rfl, fun _ base hbase => spells_of_join? hbase⟩
        · rename_i hmark
          refine ⟨_, rfl, fun hstays base hbase => ?_⟩
          obtain rfl := Option.some.inj hbase
          refine spells_of_leadsOut_eq_false (Bool.eq_false_iff.2 fun hout => hstays ?_)
          refine ⟨by simpa using hrelative, hmapped, ?_, hout⟩
          rintro ⟨rest, heq⟩
          exact hmark rest heq.symm

/-! ## Answers -/

/-- A file that is tried for the specifier has a path that is too long to be looked at. -/
def Overlong (resolver : Resolver) (disk : Disk) (specifier directory : String) (e : Failure) :
    Prop :=
  ∃ base, base? resolver.table specifier directory = .ok (some base) ∧
    ∃ tried ∈ candidates resolver.extensions base,
      disk.locate (resolver.root.child tried) = .error .tooLong ∧
        e = .disk ⟨.tooLong, (resolver.root.child tried).toString⟩

theorem lookUp?_of_base? (h : base? resolver.table specifier directory = .ok (some base)) :
    resolver.lookUp? disk specifier directory =
      ofDisk (resolver.firstFile? disk (candidates resolver.extensions base)) := by
  simp only [Resolver.lookUp?, h, ofFault, Except.mapError, bind, Except.bind, probe?]

/-- What a resolver needs to keep the files that it finds inside. -/
structure Guarded (resolver : Resolver) : Prop where
  texts : Textual resolver.table.rules
  extensions : ∀ extension ∈ resolver.extensions, '/' ∉ extension.toList
  answers : ∀ specifier directory file,
    resolver.answer? specifier directory = some (some file) →
      ¬ LeadsOut resolver.table specifier → Confined file

theorem Guarded.lookUp? (h : resolver.Guarded) (disk : Disk) (specifier directory : String) :
    (∃ e, resolver.Overlong disk specifier directory e ∧
      resolver.lookUp? disk specifier directory = .error e) ∨
    ∃ answer, resolver.lookUp? disk specifier directory = .ok answer ∧
      (¬ LeadsOut resolver.table specifier → ∀ file ∈ answer, Confined file) := by
  obtain ⟨found, hfound, hspells⟩ := exists_base? h.texts specifier directory
  cases found with
  | none => exact .inr ⟨none, by rw [Resolver.lookUp?, hfound]; rfl, by simp⟩
  | some base =>
    rw [lookUp?_of_base? hfound]
    rcases firstFile?_cases resolver disk (candidates resolver.extensions base) with
      ⟨tried, hmem, hlocate, heq⟩ | ⟨answer, heq, hmem⟩
    · exact .inl ⟨_, ⟨base, hfound, tried, hmem, hlocate, rfl⟩, by rw [heq]; rfl⟩
    · exact .inr ⟨answer, by rw [heq]; rfl, fun hstays file hfile =>
        confined_of_mem_candidates h.extensions (hspells hstays base rfl) (hmem file hfile)⟩

/-- A guarded resolver stays guarded, and its answer lies inside unless the specifier leads out. -/
theorem Guarded.resolve (h : resolver.Guarded) (disk : Disk) (specifier directory : String) :
    (∃ e, resolver.Overlong disk specifier directory e ∧
      resolver.resolve disk specifier directory = .error e) ∨
    ∃ answer later, resolver.resolve disk specifier directory = .ok (answer, later) ∧
      later.table = resolver.table ∧ later.Guarded ∧
      (¬ LeadsOut resolver.table specifier → ∀ file ∈ answer, Confined file) := by
  unfold Resolver.resolve
  split
  · rename_i answer hanswer
    exact .inr ⟨answer, resolver, rfl, rfl, h, fun hstays file hfile =>
      h.answers specifier directory file (hfile ▸ hanswer) hstays⟩
  · rcases h.lookUp? disk specifier directory with ⟨e, hlong, heq⟩ | ⟨answer, heq, hinside⟩
    · exact .inl ⟨e, hlong, by rw [heq]; rfl⟩
    · refine .inr ⟨answer, { resolver with
        answers := resolver.answers ++ [((directory, specifier), answer)] },
        by rw [heq]; rfl, rfl, ⟨h.texts, h.extensions, ?_⟩, hinside⟩
      intro specifier' directory' file hanswer
      rw [answer?, lookup_append, Option.or_eq_some_iff] at hanswer
      rcases hanswer with hold | ⟨-, hnew⟩
      · exact h.answers _ _ _ hold
      · rw [lookup_cons] at hnew
        split at hnew
        · rename_i hkey
          obtain ⟨rfl, rfl⟩ := Prod.mk.inj (beq_iff_eq.1 hkey)
          exact fun hstays => hinside hstays file (Option.some.inj hnew)
        · cases hnew

/-- What comes of a resolver by resolving specifiers one after the other, on whatever disks. -/
inductive Reached (start : Resolver) : Resolver → Prop
  | start : Reached start start
  | step {resolver later : Resolver} {disk : Disk} {specifier directory : String}
    {answer : Option String} : Reached start resolver →
    resolver.resolve disk specifier directory = .ok (answer, later) → Reached start later

theorem Reached.guarded (h : Reached start resolver) (hstart : start.Guarded) :
    resolver.table = start.table ∧ resolver.Guarded := by
  induction h with
  | start => exact ⟨rfl, hstart⟩
  | @step resolver later disk specifier directory _ _ hresolve ih =>
    rcases ih.2.resolve disk specifier directory with ⟨e, -, heq⟩ |
      ⟨answer, later', heq, htable, hguarded, -⟩
    · rw [heq] at hresolve
      cases hresolve
    · obtain ⟨-, rfl⟩ := Prod.mk.inj (Except.ok.inj (heq.symm.trans hresolve))
      exact ⟨htable.trans ih.1, hguarded⟩

/-- A resolver that comes of a new one, with texts as targets and extensions without slashes, gives
no file or a file inside of the project, unless the specifier is taken as a path from the root and
this path leads out. It fails only where a path is too long to be looked at. -/
theorem resolve_confined {specifier directory : String} (hfresh : start.answers = [])
    (htexts : Textual start.table.rules)
    (hslash : ∀ extension ∈ start.extensions, '/' ∉ extension.toList)
    (hreached : Reached start resolver) : (∃ e, resolver.Overlong disk specifier directory e ∧
      resolver.resolve disk specifier directory = .error e) ∨
    ∃ answer later, resolver.resolve disk specifier directory = .ok (answer, later) ∧
      (¬ LeadsOut start.table specifier → ∀ file ∈ answer, Confined file) := by
  obtain ⟨htable, hguarded⟩ := hreached.guarded ⟨htexts, hslash, by simp [answer?, hfresh]⟩
  rcases hguarded.resolve disk specifier directory with hlong |
    ⟨answer, later, heq, -, -, hinside⟩
  · exact .inl hlong
  · exact .inr ⟨answer, later, heq, htable ▸ hinside⟩

/-- An answer that a computation shows is what the resolver gives. -/
theorem exists_resolve_eq {specifier directory : String} {answer : Option String}
    (h : (resolver.resolve disk specifier directory).toOption.any (·.1 == answer) = true) :
    ∃ later, resolver.resolve disk specifier directory = .ok (answer, later) := by
  obtain ⟨⟨found, later⟩, heq, hfound⟩ := exists_ok_of_any h
  exact ⟨later, beq_iff_eq.1 hfound ▸ heq⟩

/-- A disk with a file in a project and a file beside it. -/
def shelf : Disk where
  nodes := [(["proj"], .directory), (["proj", "lib"], .directory),
    (["proj", "lib", "x.ts"], .file []), (["y.ts"], .file [])]

/-- A resolver with a rule that climbs out of the base directory. -/
def climber : Resolver where
  root := ⟨1, ["proj"]⟩
  table := ⟨"src", [⟨"~*", .text "../lib*"⟩], none⟩

/-- A target that climbs, but not out of the project. -/
theorem resolve_confined_climbing : ∃ later,
    climber.resolve shelf "~/x?raw" "" = .ok (some "lib/x.ts", later) ∧ Confined "lib/x.ts" := by
  obtain ⟨later, hresolve⟩ : ∃ later, climber.resolve shelf "~/x?raw" "" =
    .ok (some "lib/x.ts", later) := exists_resolve_eq (by decide +kernel)
  have hstays : ¬ LeadsOut climber.table "~/x?raw" := fun hout =>
    absurd hout.out (by decide +kernel)
  rcases @resolve_confined climber climber shelf "~/x?raw" "" rfl
      (by simp [Textual, climber]) (by decide) .start with ⟨e, -, heq⟩ | ⟨answer, next, heq, h⟩
  · cases hresolve.symm.trans heq
  · obtain ⟨rfl, -⟩ := Prod.mk.inj (Except.ok.inj (hresolve.symm.trans heq))
    exact ⟨later, hresolve, h hstays "lib/x.ts" rfl⟩

/-- A path from the root may lead to a file beside the project. -/
theorem bare_path_leads_out : ∃ later,
    climber.resolve shelf "a/../../y" "" = .ok (some "../y.ts", later) ∧ ¬ Confined "../y.ts" := by
  obtain ⟨later, hresolve⟩ : ∃ later, climber.resolve shelf "a/../../y" "" =
    .ok (some "../y.ts", later) := exists_resolve_eq (by decide +kernel)
  exact ⟨later, hresolve, fun h => h.level (by decide +kernel)⟩

end Alias.Resolver

end Deadwood

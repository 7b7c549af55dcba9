import Deadwood.Proofs.Tables
import Deadwood.Proofs.Unexporting
import Deadwood.Proofs.Verdicts

/-!
# Names that are taken out

A run takes names out one after the other and counts each of them only when its turn comes. What
makes the counts hold at the end of the run is that no edit brings in a name: every text of the
final session holds only names that the same text held before (`Shrinks`). So a name that was unused
when it was taken out is unused when the run ends, although other files have been edited since.
-/

set_option autoImplicit false

namespace Deadwood.Trim

open Text Deadwood.Module Reference List

/-! ## One edit -/

variable {text masked edited : List Char} {action : Action} {file : String} {entry : Entry String}
  {targets : List (Record String)} {disk' : Disk}

/-- Writing the entries that are left brings in no names. -/
theorem within_keepEntries {start stop : Nat} {kept : List Module.Entry}
    (hmasks : Masks text masked) (hplaced : Placed masked start stop)
    (hkept : ∀ entry ∈ kept, Within entry.text.toList text)
    (h : keepEntries text start stop kept = .ok edited) : Within edited text := by
  unfold keepEntries at h
  split at h
  · unfold removeStatement at h
    split at h
    · cases h
    · cases h
      exact within_removeSpan hplaced hmasks
  · split at h
    · rename_i edited' hedited
      cases h
      exact within_writeEntries hkept hedited
    · cases h

/-- Taking a name out of the exports of a module, without removing a declaration, brings in no
names. -/
theorem within_edit {m : Module} {name : String} (hparse : parse text = .ok m)
    (h : edit .strip text m name = .ok (edited, action)) : Within edited text := by
  obtain ⟨masked, hshape, rfl⟩ := parse_eq_ok_iff.1 hparse
  have hmasks := masks_of_shape hshape
  rcases edit_cases .strip text _ name with
    ⟨start, stop, list, done, hlist, -, -, -, hedit⟩ | ⟨declaration, hmem, -, -, hedit⟩ | hedit <;>
    rw [hedit] at h
  · cases hkeep : keepEntries text start stop (without name list) with
    | error e => rw [hkeep] at h; cases h
    | ok kept =>
      rw [hkeep] at h
      cases h
      refine within_keepEntries hmasks (hlist.placed rfl rfl)
        (fun entry hentry name hname hstands => ?_) hkeep
      -- what stands in an entry of a list stands in the shape, and so in the text
      obtain ⟨front, rest, inside, hsplit, -, hshows, rfl⟩ := hlist.exists_showsList rfl rfl
      exact hmasks.stands (isName_iff.1 hname).1 (isName_iff.1 hname).2 (hshows.stands hsplit
        (stands_of_mem_entries (mem_of_mem_filter hentry) hname hstands))
  · unfold editDeclaration at h
    split at h
    · cases h
    · split at h
      · rename_i hdelete
        exact absurd hdelete.1 (by decide)
      · cases h
        exact within_stripExport (placed_of_mem_declarationsOf hmem) hmasks
  · cases h

/-! ## The texts of a session -/

/-- Every text of the session `next` holds only names that the same text of `session` held. -/
def Session.Shrinks (disk : Disk) (root : Path) (session next : Session) : Prop :=
  ∀ path, Within (next.textOf disk root path) (session.textOf disk root path)

variable {disk : Disk} {root : Path} {session next final : Session}

theorem Session.Shrinks.refl (session : Session) : session.Shrinks disk root session :=
  fun _ => Within.refl _

theorem Session.Shrinks.trans (h : session.Shrinks disk root next)
    (h' : next.Shrinks disk root final) : session.Shrinks disk root final :=
  fun path => (h' path).trans (h path)

/-- A session that writes one text anew shrinks if that text does. -/
theorem Session.shrinks_put {initial : List (String × List Char)}
    (hread : session.read disk root file = .ok text) (h : Within edited text) :
    session.Shrinks disk root
      { session with working := Keyed.put file edited session.working, initial } := by
  intro path
  by_cases hpath : path = file
  · subst hpath
    have htext : session.textOf disk root path = text := by rw [Session.textOf, hread]
    rw [htext]
    simpa [Session.textOf, Session.read, Keyed.lookup_put] using h
  · have hne : (path == file) = false := beq_false_of_ne hpath
    simp [Session.textOf, Session.read, Keyed.lookup_put, hne, Within.refl]

/-- No name that was unused comes into use when the texts shrink. -/
theorem Session.Shrinks.countIn_eq_zero {name owner : String} {skipped paths : List String}
    (h : session.Shrinks disk root next) (hname : isName name.toList)
    (hunused : countIn name owner skipped (session.textOf disk root) paths = 0) :
    countIn name owner skipped (next.textOf disk root) paths = 0 := by
  have hne := (isName_iff.1 hname).1
  refine Nat.eq_zero_of_not_pos fun hpos => ?_
  obtain ⟨path, hpath, howner, hskipped, htokens⟩ := countIn_pos_iff.1 hpos
  have hstands := h path _ hname ((countTokens_pos_iff hne _).1 htokens)
  have hused : 0 < countIn name owner skipped (session.textOf disk root) paths :=
    countIn_pos_iff.2 ⟨path, hpath, howner, hskipped, (countTokens_pos_iff hne _).2 hstands⟩
  omega

/-! ## A run -/

/-- What holds of a session and the results so far, if every step keeps it, holds at the end. -/
theorem Session.each_induction {α β : Type} {step : Session → α → Except Failure (β × Session)}
    (holds : List β → Session → Prop) {items : List α}
    (hstep : ∀ {s s' : Session} {a b done}, a ∈ items → holds done s → step s a = .ok (b, s') →
      holds (done ++ [b]) s') {results : List β} (hstart : holds [] session)
    (h : session.each step items = .ok (results, final)) : holds results final := by
  -- the results of the steps that are done already come first
  suffices hall : ∀ done, holds done session → holds (done ++ results) final from hall [] hstart
  clear hstart
  induction items generalizing session results with
  | nil =>
    obtain ⟨rfl, rfl⟩ : [] = results ∧ session = final := by simpa [Session.each] using h
    intro done hdone
    rwa [append_nil]
  | cons item items ih =>
    rw [Session.each] at h
    obtain ⟨⟨b, middle⟩, hfirst, h⟩ := bind_eq_ok_iff.1 h
    obtain ⟨⟨rest, last⟩, hrest, h⟩ := bind_eq_ok_iff.1 h
    obtain ⟨rfl, rfl⟩ : b :: rest = results ∧ last = final := by simpa [pure, Except.pure] using h
    intro done hdone
    have hall := ih (fun ha => hstep (mem_cons_of_mem item ha)) hrest (done ++ [b])
      (hstep mem_cons_self hdone hfirst)
    rwa [append_assoc, singleton_append] at hall

/-- An entry whose name has been taken out is settled in a session if the name, which is one that
can be counted, is used in none of the files that are searched. -/
def Settled (project : Project) (disk : Disk) (paths : Except Failure (List String))
    (session : Session) (entry : Entry String) : Prop :=
  entry.outcome ≠ .skipped → isName entry.name.toList = true →
    ∃ searched, paths = .ok searched ∧ countIn entry.name entry.file
      (((project.index.suppliers entry.file).lookup entry.name).getD [])
      (session.textOf disk project.root) searched = 0

variable {project : Project} {options : Options} {paths : Except Failure (List String)}

theorem Settled.keep (hshrinks : session.Shrinks disk project.root next)
    (h : Settled project disk paths session entry) : Settled project disk paths next entry := by
  intro houtcome hname
  obtain ⟨searched, hpaths, hunused⟩ := h houtcome hname
  exact ⟨searched, hpaths, hshrinks.countIn_eq_zero hname hunused⟩

/-- An entry that is left has nothing to settle. -/
theorem settled_leave {name : String} {obstacle : Obstacle} {refs : Nat} :
    Settled project disk paths session (leave file name obstacle refs) :=
  fun houtcome => absurd rfl houtcome

/-- Taking an unused name out of a text shrinks the session. -/
theorem trimText_spec {name : String} (hmode : options.mode = .strip)
    (hread : session.read disk root file = .ok text)
    (h : trimText options file session name text = (entry, next)) : session.Shrinks disk root next ∧
      (entry.outcome ≠ .skipped → entry.file = file ∧ entry.name = name) := by
  unfold trimText at h
  split at h
  · cases h
    exact ⟨.refl _, fun houtcome => absurd rfl houtcome⟩
  · rename_i m hparse
    rw [hmode] at h
    split at h
    · cases h
      exact ⟨.refl _, fun houtcome => absurd rfl houtcome⟩
    · rename_i edited action hedit
      cases h
      exact ⟨Session.shrinks_put hread (within_edit hparse hedit), fun _ => ⟨rfl, rfl⟩⟩

/-- One step of a run: the session shrinks, and the entry is settled after it. -/
theorem trimName_spec {name : String} (hmode : options.mode = .strip)
    (h : trimName project disk options paths file session name = .ok (entry, next)) :
    session.Shrinks disk project.root next ∧ Settled project disk paths next entry := by
  have hleave : ∀ {obstacle refs}, (pure (leave file name obstacle refs, session) :
      Except Failure (Entry String × Session)) = .ok (entry, next) →
      session.Shrinks disk project.root next ∧ Settled project disk paths next entry := by
    intro obstacle refs h
    cases h
    exact ⟨.refl _, settled_leave⟩
  unfold trimName at h
  split at h
  · exact hleave h
  split at h
  · exact hleave h
  obtain ⟨searched, hpaths, h⟩ := bind_eq_ok_iff.1 h
  simp only at h
  split at h
  · exact hleave h
  · rename_i hunused
    obtain ⟨text, hread, h⟩ := bind_eq_ok_iff.1 h
    obtain ⟨hshrinks, hentry⟩ := trimText_spec hmode hread (Except.ok.inj h)
    refine ⟨hshrinks, fun houtcome hname => ⟨searched, hpaths, ?_⟩⟩
    obtain ⟨hfile, rfl⟩ := hentry houtcome
    rw [hfile]
    exact hshrinks.countIn_eq_zero hname (Nat.eq_zero_of_not_pos hunused)

/-- A whole plan: what holds of a session and the entries so far holds at the end, if entries that
are left keep it and the step for every name does. -/
theorem plan_induction {entries : List (Entry String)}
    (holds : List (Entry String) → Session → Prop)
    (hskip : ∀ {s done more}, holds done s → (∀ entry ∈ more, entry.outcome = .skipped) →
      holds (done ++ more) s) (hstep : ∀ {s s' record name entry done}, record ∈ targets →
      Ignore.isProtected record.path = false → holds done s →
      trimName project disk options (session.searched project disk) record.path s name =
        .ok (entry, s') → holds (done ++ [entry]) s') (hstart : holds [] session)
    (h : plan project disk options session targets = .ok (entries, final)) :
    holds entries final := by
  obtain ⟨⟨lists, last⟩, heach, h⟩ := bind_eq_ok_iff.1 h
  cases h
  refine Session.each_induction (fun done s => holds done.flatten s) ?_ hstart heach
  intro s s' record more done hrecord hdone hfile
  rw [flatten_append, flatten_singleton]
  unfold trimFile at hfile
  split at hfile
  · cases hfile
    refine hskip hdone fun entry hentry => ?_
    obtain ⟨name, -, rfl⟩ := mem_map.1 hentry
    rfl
  · rename_i hprotected
    refine Session.each_induction (fun more s => holds (done.flatten ++ more) s) ?_
      (by simpa using hdone) hfile
    intro t t' name entry more _ hmore hname
    rw [← append_assoc]
    exact hstep hrecord (by simpa using hprotected) hmore hname

/-- A whole run: the texts shrink, and every entry is settled at its end. -/
theorem plan_spec {entries : List (Entry String)} (hmode : options.mode = .strip)
    (h : plan project disk options session targets = .ok (entries, final)) :
    session.Shrinks disk project.root final ∧
      ∀ entry ∈ entries, Settled project disk (session.searched project disk) final entry := by
  refine plan_induction (fun done s => session.Shrinks disk project.root s ∧
    ∀ entry ∈ done, Settled project disk (session.searched project disk) s entry)
    ?_ ?_ ⟨.refl _, forall_mem_nil _⟩ h
  · rintro s done more ⟨hshrinks, hdone⟩ hmore
    refine ⟨hshrinks, forall_mem_append.2 ⟨hdone, fun entry hentry houtcome => ?_⟩⟩
    exact absurd (hmore entry hentry) houtcome
  · rintro s s' record name entry done - - ⟨hshrinks, hdone⟩ hname
    obtain ⟨hshrinks', hentry⟩ := trimName_spec hmode hname
    exact ⟨hshrinks.trans hshrinks', forall_mem_append.2
      ⟨fun entry hmem => (hdone entry hmem).keep hshrinks', forall_mem_singleton.2 hentry⟩⟩

/-! ## The results of a run -/

theorem run_bind {α β : Type} (act : Act α) (go : α → Act β) (disk : Disk) :
    (act >>= go).run disk = match act.run disk with
      | (.ok a, middle) => (go a).run middle
      | (.error e, middle) => (.error e, middle) := by
  simp only [Act.run, bind, ExceptT.bind, ExceptT.mk, StateT.bind]
  rcases act disk with ⟨_ | a, middle⟩ <;> rfl

/-- An action that goes on after another one gives a result only if both do. -/
theorem run_bind_eq_ok_iff {α β : Type} {act : Act α} {go : α → Act β} {b : β} :
    (act >>= go).run disk = (.ok b, disk') ↔
      ∃ a middle, act.run disk = (.ok a, middle) ∧ (go a).run middle = (.ok b, disk') := by
  rw [run_bind]
  rcases act.run disk with ⟨e | a, middle⟩ <;> simp

theorem run_change_eq_ok_iff {change : Disk → Except Disk.Error Disk} {u : Unit} :
    (Act.change change).run disk = (.ok u, disk') ↔ change disk = .ok disk' := by
  simp only [Act.run, Act.change, ExceptT.mk]
  cases change disk with
  | error e => simp
  | ok changed => simp

/-- What every snapshot and every writing of a file keeps holds of the results and the disk at the
end. -/
theorem flushFiles_induction {ν : Type} {results results' : Results ν}
    (holds : Results ν → Disk → Prop) {files : List (String × List Char)}
    (hsnapshot : ∀ {r d d' pair snap}, pair ∈ files → options.backup → holds r d →
      (snapshot root session.name pair.1).run d = (.ok snap, d') → holds r d')
    (hwrite : ∀ {r d d' bytes pair} backups written, pair ∈ files → holds r d →
      d.write (root.child pair.1) bytes = .ok d' →
        holds { r with backups := backups, written := written } d')
    (hstart : holds results disk)
    (h : (flushFiles root options session results files).run disk = (.ok results', disk')) :
    holds results' disk' := by
  induction files generalizing results disk with
  | nil =>
    cases h
    exact hstart
  | cons pair files ih =>
    obtain ⟨file, text⟩ := pair
    have hrest : ∀ {r d}, holds r d →
        (flushFiles root options session r files).run d = (.ok results', disk') →
          holds results' disk' :=
      fun hd => ih (fun hpair => hsnapshot (mem_cons_of_mem _ hpair))
        (fun _ _ hpair => hwrite _ _ (mem_cons_of_mem _ hpair)) hd
    rw [flushFiles] at h
    split at h
    · -- a text that has not changed is not written
      exact hrest hstart h
    · simp only at h
      split at h
      · rename_i hbackup
        obtain ⟨snap, shelved, hshelved, h⟩ := run_bind_eq_ok_iff.1 h
        obtain ⟨backups, _, hbackups, h⟩ := run_bind_eq_ok_iff.1 h
        cases hbackups
        obtain ⟨_, _, hwritten, h⟩ := run_bind_eq_ok_iff.1 h
        exact hrest (hwrite _ _ mem_cons_self (hsnapshot mem_cons_self hbackup hstart hshelved)
          (run_change_eq_ok_iff.1 hwritten)) h
      · obtain ⟨backups, _, hbackups, h⟩ := run_bind_eq_ok_iff.1 h
        cases hbackups
        obtain ⟨_, _, hwritten, h⟩ := run_bind_eq_ok_iff.1 h
        exact hrest (hwrite _ _ mem_cons_self hstart (run_change_eq_ok_iff.1 hwritten)) h

/-- Writing files leaves the entries as they are. -/
theorem flushFiles_entries {ν : Type} {files : List (String × List Char)}
    {results results' : Results ν}
    (h : (flushFiles root options session results files).run disk = (.ok results', disk')) :
    results'.entries = results.entries :=
  flushFiles_induction (fun r _ => r.entries = results.entries) (fun _ _ hr _ => hr)
    (fun _ _ _ hr _ => hr) rfl h

/-- Files that are in order and distinct are searched as they are. -/
theorem searched_of_sorted {paths all : List String} (hpaths : project.walk.paths disk = .ok paths)
    (hall : paths ++ session.working.map Prod.fst = all)
    (hsorted : all.Pairwise fun a b => decide (a ≤ b) = true) (hdistinct : all.eraseDups = all) :
    session.searched project disk = .ok all := by
  rw [Session.searched, hpaths]
  change Except.ok ((paths ++ session.working.map Prod.fst).mergeSort _).eraseDups = _
  rw [hall, mergeSort_of_pairwise hsorted, hdistinct]

/-! A module with a used and an unused export. -/

def pairDisk : Disk where
  nodes := [(["pair.ts"], .file (Text.Utf8.encode
    "export const used = 1;\nexport const idle = 2;\n".toList))]

def pairProject : Project := Analysis.smallProject ⟨[], [], { root := Analysis.smallRoot }⟩

def pairReport : Report String where
  records := [{ path := "pair.ts", reasons := [.exportReferenced]
                exportRefs := [⟨"used", 1⟩, ⟨"idle", 0⟩] }]

end Deadwood.Trim

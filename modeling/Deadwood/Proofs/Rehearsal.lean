import Deadwood.Proofs.Trimming
import Deadwood.Trim.Stored

/-!
# A dry run rehearses the run that writes

Whether a run writes decides nothing before its last step. Two runs that differ in nothing else pass
through sessions with the same texts, so they come upon the same names, the same references and the
same obstacles, and fail for the same reason if they fail. `Alike` relates their steps, and
`Session.each_alike` carries the relation from one step to all of them. The disk is read throughout
and written only at the end, and the dry run leaves that out.
-/

set_option autoImplicit false

namespace Deadwood.Trim

variable {ν μ : Type}

/-! ## Steps that go alike -/

/-- Two steps end alike: both fail for the same reason, or their results are related. -/
inductive Alike {α β : Type} (R : α → β → Prop) : Except Failure α → Except Failure β → Prop
  | error (e : Failure) : Alike R (.error e) (.error e)
  | ok {a : α} {b : β} (h : R a b) : Alike R (.ok a) (.ok b)

theorem Alike.refl {α : Type} (x : Except Failure α) : Alike Eq x x := by
  cases x with
  | error e => exact .error e
  | ok a => exact .ok rfl

section

variable {α β : Type} {R : α → β → Prop} {x : Except Failure α} {y : Except Failure β}
  (h : Alike R x y)
include h

theorem Alike.bind {γ δ : Type} {S : γ → δ → Prop} {f : α → Except Failure γ}
    {g : β → Except Failure δ} (hgo : ∀ {a b}, R a b → Alike S (f a) (g b)) :
    Alike S (x >>= f) (y >>= g) := by
  cases h with
  | error e => exact .error e
  | ok hab => exact hgo hab

theorem Alike.map {γ δ : Type} {S : γ → δ → Prop} {f : α → γ} {g : β → δ}
    (hmap : ∀ {a b}, R a b → S (f a) (g b)) : Alike S (x.map f) (y.map g) := by
  cases h with
  | error e => exact .error e
  | ok hab => exact .ok (hmap hab)

end

/-- The sessions hold the same texts, whatever their names are. -/
structure Session.SameTexts (session session' : Session) : Prop where
  working_eq : session.working = session'.working
  initial_eq : session.initial = session'.initial

/-- What two steps give is related, and they leave the same texts. -/
structure Steps {α β : Type} (R : α → β → Prop) (first : α × Session) (second : β × Session) :
    Prop where
  related : R first.1 second.1
  texts : first.2.SameTexts second.2

variable {session session' : Session}

/-- The step lemma lifts to runs: steps that go alike one by one go alike one after the other. -/
theorem Session.each_alike {α β γ : Type} {R : β → γ → Prop}
    {step : Session → α → Except Failure (β × Session)}
    {step' : Session → α → Except Failure (γ × Session)}
    (hstep : ∀ {s s' : Session} (a : α), s.SameTexts s' → Alike (Steps R) (step s a) (step' s' a))
    (htexts : session.SameTexts session') (items : List α) :
    Alike (Steps (List.Forall₂ R)) (session.each step items) (session'.each step' items) := by
  induction items generalizing session session' with
  | nil => exact .ok ⟨.nil, htexts⟩
  | cons item items ih =>
    rw [Session.each, Session.each]
    apply (hstep item htexts).bind
    rintro ⟨b, s⟩ ⟨c, s'⟩ ⟨hbc, hs⟩
    apply (ih hs).bind
    rintro ⟨bs, t⟩ ⟨cs, t'⟩ ⟨hall, ht⟩
    exact .ok ⟨.cons hbc hall, ht⟩

/-! ## Entries -/

/-- An entry of a dry run agrees with one of a run that writes: they say the same, but what was
applied in the second would be applied in the first. -/
structure Entry.Agrees (dry wet : Entry ν) : Prop where
  file_eq : dry.file = wet.file
  name_eq : dry.name = wet.name
  action_eq : dry.action = wet.action
  reason_eq : dry.reason = wet.reason
  refs_eq : dry.refs = wet.refs
  outcome : dry.outcome = .dryRun ∧ wet.outcome = .applied ∨
    dry.outcome = .skipped ∧ wet.outcome = .skipped

theorem Entry.Agrees.map {dry wet : Entry ν} (h : dry.Agrees wet) (f : ν → μ) :
    (dry.map f).Agrees (wet.map f) where
  file_eq := congrArg f h.file_eq
  name_eq := congrArg f h.name_eq
  action_eq := h.action_eq
  reason_eq := h.reason_eq
  refs_eq := h.refs_eq
  outcome := h.outcome

/-- A name that is left is left in both runs. -/
theorem agrees_leave (file name : ν) (obstacle : Obstacle) (refs : Nat) :
    (leave file name obstacle refs).Agrees (leave file name obstacle refs) :=
  ⟨rfl, rfl, rfl, rfl, rfl, .inr ⟨rfl, rfl⟩⟩

theorem forall₂_leave (names : List ν) (file : ν) (obstacle : Obstacle) :
    List.Forall₂ Entry.Agrees (names.map (leave file · obstacle))
      (names.map (leave file · obstacle)) := by
  rw [List.forall₂_map_left_iff, List.forall₂_map_right_iff, List.forall₂_same]
  intro name _
  exact agrees_leave file name obstacle 0

/-! ## One name -/

/-- The second way to do a run writes, and the first does not; they take declarations out in the
same way. -/
structure Options.Rehearse (dry wet : Options) : Prop where
  write_dry : dry.write = false
  write_wet : wet.write = true
  mode_eq : dry.mode = wet.mode

variable {project : Project} {disk : Disk} {dry wet : Options}
  {paths : Except Failure (List String)}

theorem Session.SameTexts.read_eq (h : session.SameTexts session') (disk : Disk) (root : Path)
    (path : String) : session.read disk root path = session'.read disk root path := by
  simp only [Session.read, h.working_eq]

theorem Session.SameTexts.textOf_eq (h : session.SameTexts session') (disk : Disk) (root : Path) :
    session.textOf disk root = session'.textOf disk root := by
  funext path
  simp only [Session.textOf, h.read_eq]

theorem trimText_steps (hoptions : dry.Rehearse wet) (h : session.SameTexts session')
    (file name : String) (text : List Char) :
    Steps Entry.Agrees (trimText dry file session name text)
      (trimText wet file session' name text) := by
  unfold trimText
  cases Module.parse text with
  | error e => exact ⟨agrees_leave .., h⟩
  | ok m =>
    simp only [hoptions.mode_eq]
    cases edit wet.mode text m name with
    | error obstacle => exact ⟨agrees_leave .., h⟩
    | ok edited =>
      refine ⟨⟨rfl, rfl, rfl, rfl, rfl, .inl ?_⟩, ?_⟩
      · simp [hoptions.write_dry, hoptions.write_wet]
      · exact ⟨by simp only [h.working_eq], by simp only [h.initial_eq]⟩

theorem trimName_alike (hoptions : dry.Rehearse wet) (file name : String)
    (h : session.SameTexts session') :
    Alike (Steps Entry.Agrees) (trimName project disk dry paths file session name)
      (trimName project disk wet paths file session' name) := by
  unfold trimName
  split
  · exact .ok ⟨agrees_leave .., h⟩
  split
  · exact .ok ⟨agrees_leave .., h⟩
  -- both count the name in the same texts
  apply (Alike.refl paths).bind
  rintro searched _ rfl
  simp only [h.textOf_eq]
  split
  · exact .ok ⟨agrees_leave .., h⟩
  · rw [h.read_eq]
    apply (Alike.refl _).bind
    rintro text _ rfl
    exact .ok (trimText_steps hoptions h file name text)

/-! ## All names -/

theorem trimFile_alike (hoptions : dry.Rehearse wet) (record : Record String)
    (h : session.SameTexts session') :
    Alike (Steps (List.Forall₂ Entry.Agrees)) (trimFile project disk dry paths session record)
      (trimFile project disk wet paths session' record) := by
  unfold trimFile
  split
  · exact .ok ⟨forall₂_leave _ _ _, h⟩
  · exact Session.each_alike (trimName_alike hoptions record.path) h record.unusedExports

theorem plan_alike (hoptions : dry.Rehearse wet) (h : session.SameTexts session')
    (targets : List (Record String)) :
    Alike (Steps (List.Forall₂ Entry.Agrees)) (plan project disk dry session targets)
      (plan project disk wet session' targets) := by
  have hpaths : session.searched project disk = session'.searched project disk := by
    simp only [Session.searched, h.working_eq]
  unfold plan trimFiles
  rw [hpaths]
  apply (Session.each_alike (trimFile_alike hoptions) h targets).bind
  rintro ⟨lists, s⟩ ⟨lists', s'⟩ ⟨hlists, hs⟩
  exact .ok ⟨List.rel_flatten hlists, hs⟩

/-! ## Stored reports -/

/-- A name that is no text is never taken out, so nothing depends on the way a run is done. -/
theorem trimOdd_alike (file name : Value) (h : session.SameTexts session') :
    Alike (Steps Entry.Agrees) (trimOdd project disk paths file session name)
      (trimOdd project disk paths file session' name) := by
  unfold trimOdd
  split
  · exact .ok ⟨agrees_leave .., h⟩
  split
  · exact .ok ⟨agrees_leave .., h⟩
  split
  · exact .error _
  apply (Alike.refl paths).bind
  rintro searched _ rfl
  rw [h.textOf_eq]
  apply (Alike.refl _).bind
  rintro refs _ rfl
  split
  · exact .ok ⟨agrees_leave .., h⟩
  · apply (Alike.refl _).bind
    rintro path _ rfl
    rw [h.read_eq]
    apply (Alike.refl _).bind
    rintro text _ rfl
    exact .ok ⟨agrees_leave .., h⟩

theorem trimStoredName_alike (hoptions : dry.Rehearse wet) (file name : Value)
    (h : session.SameTexts session') :
    Alike (Steps Entry.Agrees) (trimStoredName project disk dry paths file session name)
      (trimStoredName project disk wet paths file session' name) := by
  unfold trimStoredName
  split
  · apply (trimName_alike hoptions _ _ h).map
    rintro ⟨entry, s⟩ ⟨entry', s'⟩ ⟨hentry, hs⟩
    exact ⟨hentry.map _, hs⟩
  · exact trimOdd_alike file name h

theorem trimStoredFile_alike (hoptions : dry.Rehearse wet) (record : Record Value)
    (h : session.SameTexts session') : Alike (Steps (List.Forall₂ Entry.Agrees))
      (trimStoredFile project disk dry paths session record)
      (trimStoredFile project disk wet paths session' record) := by
  unfold trimStoredFile
  split
  · exact .ok ⟨forall₂_leave _ _ _, h⟩
  split
  · exact .error _
  · exact Session.each_alike (trimStoredName_alike hoptions record.path) h record.unusedExports

theorem planStored_alike (hoptions : dry.Rehearse wet) (h : session.SameTexts session')
    (targets : List (Record Value)) :
    Alike (Steps (List.Forall₂ Entry.Agrees)) (planStored project disk dry session targets)
      (planStored project disk wet session' targets) := by
  have hpaths : session.searched project disk = session'.searched project disk := by
    simp only [Session.searched, h.working_eq]
  unfold planStored
  rw [hpaths]
  apply (Session.each_alike (trimStoredFile_alike hoptions) h targets).bind
  rintro ⟨lists, s⟩ ⟨lists', s'⟩ ⟨hlists, hs⟩
  exact .ok ⟨List.rel_flatten hlists, hs⟩

/-! ## Whole runs -/

/-- The action `dry` rehearses the action `wet` on a disk: it changes nothing, and whenever `wet`
comes to its end it does so too, with entries that agree one by one. -/
structure Rehearses (dry wet : Act (Results ν)) (disk : Disk) : Prop where
  disk_eq : (dry.run disk).2 = disk
  nothing_written : ∀ results, (dry.run disk).1 = .ok results →
    results.written = [] ∧ results.backups = []
  agrees : ∀ results disk', wet.run disk = (.ok results, disk') →
    ∃ rehearsed, (dry.run disk).1 = .ok rehearsed ∧
      List.Forall₂ Entry.Agrees rehearsed.entries results.entries

/-- Finishing a run leaves the entries as they are. -/
theorem finish_entries {options : Options} {now : Stamp} {entries : List (Entry ν)}
    {results : Results ν} {disk' : Disk}
    (h : (finish project options session now entries).run disk = (.ok results, disk')) :
    results.entries = entries := by
  simp only [finish] at h
  split at h
  · exact flushFiles_entries h
  · rw [← Except.ok.inj (Prod.mk.inj h).1]

/-- A run without writing rehearses one with writing if their plans go alike. -/
theorem rehearses_of_alike {planDry planWet : Disk → Except Failure (List (Entry ν) × Session)}
    (hoptions : dry.Rehearse wet) (now now' : Stamp)
    (h : Alike (Steps (List.Forall₂ Entry.Agrees)) (planDry disk) (planWet disk)) :
    Rehearses (Act.look planDry >>= fun (entries, s) => finish project dry s now entries)
      (Act.look planWet >>= fun (entries, s) => finish project wet s now' entries) disk := by
  -- a run looks at the disk once, and then finishes
  have hlook : ∀ (options : Options) (now : Stamp)
      (plan : Disk → Except Failure (List (Entry ν) × Session)),
      (Act.look plan >>= fun (entries, s) => finish project options s now entries).run disk =
        match plan disk with
        | .ok (entries, s) => (finish project options s now entries).run disk
        | .error e => (.error e, disk) := by
    intro options now plan
    simp only [Act.look, Act.run, bind, ExceptT.bind, ExceptT.mk, StateT.bind]
    cases plan disk <;> rfl
  have hfinish : ∀ (entries : List (Entry ν)) (s : Session),
      (finish project dry s now entries).run disk =
        (.ok { metadata := metadata project dry s now, entries }, disk) := by
    intro entries s
    simp only [finish, hoptions.write_dry]
    rfl
  have hdry := hlook dry now planDry
  have hwet := hlook wet now' planWet
  generalize planDry disk = planned at h hdry
  generalize planWet disk = planned' at h hwet
  cases h with
  | error e =>
    refine ⟨by rw [hdry], fun results hresults => ?_, fun results disk' hresults => ?_⟩
    · rw [hdry] at hresults
      cases hresults
    · rw [hwet] at hresults
      cases hresults
  | @ok first second hsteps =>
    simp only [hfinish] at hdry
    refine ⟨by rw [hdry], fun results hresults => ?_, fun results disk' hresults => ?_⟩
    · rw [hdry] at hresults
      cases hresults
      exact ⟨rfl, rfl⟩
    · rw [hwet] at hresults
      rw [hdry, finish_entries hresults]
      exact ⟨_, rfl, hsteps.related⟩

/-- A dry run rehearses the run that writes, on every disk, for every report and for every stored
report, whatever the runs are called and whenever they are made. -/
theorem dryRun_rehearses (project : Project) (mode : Mode) (backup backup' : Bool)
    (name name' : String) (now now' : Stamp) (disk : Disk) (report : Report String)
    (stored : Report Value) :
    Rehearses (run project { write := false, mode, backup } { name } now report)
        (run project { write := true, mode, backup := backup' } { name := name' } now' report)
        disk ∧
      Rehearses (runStored project { write := false, mode, backup } { name } now stored)
        (runStored project { write := true, mode, backup := backup' } { name := name' } now' stored)
        disk := by
  have hoptions : Options.Rehearse { write := false, mode, backup }
      { write := true, mode, backup := backup' } := ⟨rfl, rfl, rfl⟩
  have htexts : Session.SameTexts { name } { name := name' } := ⟨rfl, rfl⟩
  exact ⟨rehearses_of_alike hoptions now now' (plan_alike hoptions htexts report.partlyUsed),
    rehearses_of_alike hoptions now now' (planStored_alike hoptions htexts stored.partlyUsed)⟩

theorem dryRun_rehearses_pair : ∃ wet dry disk',
    (run pairProject { write := true } { name := "two" } Analysis.smallNow pairReport).run
      pairDisk = (.ok wet, disk') ∧
    (run pairProject {} { name := "one" } Analysis.smallNow pairReport).run pairDisk =
      (.ok dry, pairDisk) ∧
    wet.written = ["pair.ts"] ∧ wet.entries.map Entry.outcome = [.applied] ∧
    dry.written = [] ∧ dry.backups = [] ∧ List.Forall₂ Entry.Agrees dry.entries wet.entries := by
  obtain ⟨wet, hwet, hcheck⟩ := exists_ok_of_any
    (x := ((run pairProject { write := true } { name := "two" } Analysis.smallNow
      pairReport).run pairDisk).1)
    (p := fun wet => decide (wet.written = ["pair.ts"] ∧
      wet.entries.map Entry.outcome = [.applied]))
    (by decide +kernel)
  obtain ⟨hwritten, houtcome⟩ := of_decide_eq_true hcheck
  obtain ⟨hdisk, hnothing, hagrees⟩ := (dryRun_rehearses pairProject .strip true true "one" "two"
    Analysis.smallNow Analysis.smallNow pairDisk pairReport { records := [] }).1
  obtain ⟨dry, hdry, hentries⟩ := hagrees wet _ (Prod.ext hwet rfl)
  obtain ⟨hnone, hbackups⟩ := hnothing dry hdry
  exact ⟨wet, dry, _, Prod.ext hwet rfl, Prod.ext hdry hdisk, hwritten, houtcome, hnone, hbackups,
    hentries⟩

end Deadwood.Trim

import Deadwood.Proofs.Encoding
import Deadwood.Verdict.Store

/-!
# Failures of loading

Reports, configurations, project files and compiler configurations are written by people, so a file
may hold any bytes. Loading it should give a value or a configuration error; a failure of any other
form *escapes*. `loading_escapes_iff` says for which bytes that happens. An encoding other than
UTF-8 escapes everywhere but from compiler configurations, and a document that goes beyond what can
be read escapes everywhere. Values of a wrong kind escape from reports (`Report.IsKinded`), and from
project files if they stand in place of the table of tools. A JSON document does not go beyond what
can be read if its brackets are nested at most `Json.maxNesting` deep and no run of digits in it is
longer than `Number.maxDigits` (`Json.IsModest.not_isExcessive`).
-/

set_option autoImplicit false

namespace Deadwood

open Text List

/-! ## Documents that go beyond what can be read -/

namespace Json

/-- The document goes beyond what can be read. -/
def IsExcessive (text : List Char) : Prop := ∃ e, read text = .error (.excess e)

/-- How many brackets are open after a token. -/
def level (depth : Nat) : Token → Nat
  | .openTable | .openList => depth + 1
  | .closeTable | .closeList => depth - 1
  | _ => depth

/-- The most brackets that are open at a time. -/
def deepest (depth : Nat) : List Token → Nat
  | [] => depth
  | token :: tokens => max depth (deepest (level depth token) tokens)

/-- More digits stand next to each other than a number may have. -/
def IsOverlong (text : List Char) : Prop :=
  ∃ digits, digits <:+: text ∧ (∀ c ∈ digits, c.isDigit = true) ∧ Number.maxDigits < digits.length

/-- Brackets outside of texts in quotes are nested no deeper than can be read, and no more digits
stand next to each other than a number may have. -/
structure IsModest (text : List Char) : Prop where
  shallow : deepest 0 (tokens text) ≤ maxNesting
  short : ¬ IsOverlong text

/-- How many lists and tables are open. A table without the key of a member is not on the stack. -/
def depthOf (stack : List Frame) : Mode → Nat
  | .firstKey | .nextKey _ | .colon _ _ => stack.length + 1
  | _ => stack.length

theorem le_deepest (depth : Nat) (tokens : List Token) : depth ≤ deepest depth tokens := by
  cases tokens with
  | nil => exact Nat.le_refl _
  | cons token tokens => exact Nat.le_max_left ..

variable {stack later : List Frame} {mode next : Mode} {token : Token} {e : Excess}

theorem beginValue_depthOf (h : beginValue stack token = .ok (later, next)) :
    depthOf later next = level stack.length token := by
  cases token <;> simp only [beginValue, reduceCtorEq, Except.ok.injEq, Prod.mk.injEq] at h
  case openTable | openList =>
    split at h
    · cases h
      rfl
    · cases h
  case text | atom =>
    obtain ⟨rfl, rfl⟩ := h
    rfl

theorem afterValue_depthOf {v : Value} (h : afterValue v stack token = .ok (later, next)) :
    depthOf later next = level stack.length token := by
  fun_cases afterValue v stack token
  all_goals simp_all only [afterValue, Except.ok.injEq, Prod.mk.injEq, reduceCtorEq]
  all_goals
    obtain ⟨rfl, rfl⟩ := h
    rfl

/-- Every bracket opens or closes one list or table of the machine. -/
theorem step_depthOf (h : step stack mode token = .ok (later, next)) :
    depthOf later next = level (depthOf stack mode) token := by
  fun_cases step stack mode token
  case case1 => exact beginValue_depthOf h
  case case2 =>
    -- An empty list closes, and its frame is dropped.
    cases h
    exact length_drop
  case case3 hne =>
    rw [step.eq_3 stack token hne] at h
    exact beginValue_depthOf h
  case case8 => exact afterValue_depthOf h
  case case9 => simp_all [step]
  all_goals
    cases h
    rfl

/-- The machine stops for an excess only at a number that is one or at a bracket too deep. -/
theorem excess_of_step (h : step stack mode token = .error (.excess e)) :
    token = .excess e ∨ token = .broken (.excess e) ∨
      maxNesting < level (depthOf stack mode) token := by
  have hbegin : beginValue stack token = .error (.excess e) → token = .excess e ∨
      token = .broken (.excess e) ∨ maxNesting < level stack.length token := by
    intro h
    cases token <;> simp_all only [beginValue, level, reduceCtorEq, Except.error.injEq,
      Error.excess.injEq, true_or, or_true, false_or]
    case openTable | openList =>
      split at h
      · cases h
      · omega
  fun_cases step stack mode token
  case case1 => exact hbegin h
  case case3 hne => exact hbegin (by rwa [step.eq_3 stack token hne] at h)
  case case8 v =>
    unfold step afterValue at h
    split at h <;> cases h
  all_goals simp_all [step]

/-- What holds of a step holds of a run: deeper brackets come from tokens that follow. -/
theorem excess_of_run {tokens : List Token} (h : run stack mode tokens = .error (.excess e)) :
    .excess e ∈ tokens ∨ .broken (.excess e) ∈ tokens ∨
      maxNesting < deepest (depthOf stack mode) tokens := by
  induction tokens generalizing stack mode with
  | nil =>
    unfold run at h
    split at h <;> cases h
  | cons token tokens ih =>
    unfold run at h
    cases hstep : step stack mode token with
    | error error =>
      rw [hstep] at h
      cases h
      rcases excess_of_step hstep with rfl | rfl | hdeep
      · exact .inl mem_cons_self
      · exact .inr (.inl mem_cons_self)
      · have hle := le_deepest (level (depthOf stack mode) token) tokens
        exact .inr (.inr (Nat.lt_of_lt_of_le hdeep (Nat.le_trans hle (Nat.le_max_right ..))))
    | ok result =>
      obtain ⟨later, next⟩ := result
      rw [hstep] at h
      rcases ih h with hmem | hmem | hdeep
      · exact .inl (mem_cons_of_mem _ hmem)
      · exact .inr (.inl (mem_cons_of_mem _ hmem))
      · rw [step_depthOf hstep] at hdeep
        exact .inr (.inr (Nat.lt_of_lt_of_le hdeep (Nat.le_max_right ..)))

theorem IsOverlong.mono {part text : List Char} (h : IsOverlong part) (hpart : part <:+: text) :
    IsOverlong text := by
  obtain ⟨digits, hdigits, hrun⟩ := h
  exact ⟨digits, hdigits.trans hpart, hrun⟩

/-- A word names an excess only for digits in it. -/
theorem isOverlong_of_wordToken {word : List Char}
    (h : wordToken word = .excess e ∨ wordToken word = .broken (.excess e)) : IsOverlong word := by
  have hexcess : excess? word = some e := by
    unfold wordToken at h
    split at h <;> simp_all
  have hinfix : (if word.head? = some '-' then word.drop 1 else word) <:+: word := by
    split
    · exact (drop_suffix 1 word).isInfix
    · exact infix_refl word
  simp only [excess?, Excess.ofDigits?] at hexcess
  generalize (if word.head? = some '-' then word.drop 1 else word) = cs at hinfix hexcess
  split at hexcess
  · cases hexcess
  · split at hexcess
    · rename_i hlong
      have hall : ∀ c ∈ cs.takeWhile Char.isDigit, c.isDigit :=
        all_eq_true.1 all_takeWhile
      exact ⟨_, (List.takeWhile_prefix _).isInfix.trans hinfix, hall, hlong⟩
    · cases hexcess

theorem isOverlong_of_mem_tokens {text : List Char} (h : token ∈ tokens text)
    (hexcess : token = .excess e ∨ token = .broken (.excess e)) : IsOverlong text := by
  fun_induction tokens text with
  | case1 => cases h
  | case2 c cs _ ih => exact (ih h).mono (suffix_cons c cs).isInfix
  | case3 c cs _ mark hmark ih =>
    rcases mem_cons.1 h with rfl | h
    · unfold mark? at hmark
      rcases hexcess with rfl | rfl <;> split at hmark <;> cases hmark
    · exact (ih h).mono (suffix_cons c cs).isInfix
  | case4 => simp_all
  | case5 cs units taken _ _ _ ih =>
    rcases mem_cons.1 h with rfl | h
    · simp_all
    · exact (ih h).mono ((drop_suffix taken cs).trans (suffix_cons '"' cs)).isInfix
  | case6 c cs _ _ _ ih =>
    rcases mem_cons.1 h with rfl | h
    · exact (isOverlong_of_wordToken hexcess).mono
        ((prefix_cons_inj c).2 (List.takeWhile_prefix _)).isInfix
    · exact (ih h).mono ((dropWhile_suffix _).trans (suffix_cons c cs)).isInfix

theorem IsModest.not_isExcessive {text : List Char} (h : IsModest text) : ¬ IsExcessive text := by
  rintro ⟨e, he⟩
  rcases excess_of_run he with hmem | hmem | hdeep
  · exact h.short (isOverlong_of_mem_tokens hmem (.inl rfl))
  · exact h.short (isOverlong_of_mem_tokens hmem (.inr rfl))
  · exact absurd h.shallow (Nat.not_le.2 hdeep)

end Json

/-! ## Values of a wrong kind -/

/-- A value of another kind was needed. -/
def Fault.isKind : Fault → Bool
  | .notTable | .notText | .wrongKind | .unbounded => true
  | _ => false

/-- The condition keeps a computation from failing for a value of a wrong kind, and the computation
does not succeed without it. -/
structure Judges {α : Type} (kinds : Prop) (x : Except Fault α) : Prop where
  fits : kinds → ∀ fault, x = .error fault → fault.isKind = false
  kinded : ∀ a, x = .ok a → kinds

namespace Judges

variable {α β : Type} {kinds more : Prop} {x : Except Fault α} {f : α → Except Fault β}

theorem of_iff (h : Judges kinds x) (hiff : kinds ↔ more) : Judges more x :=
  ⟨fun hmore => h.fits (hiff.2 hmore), fun a ha => hiff.1 (h.kinded a ha)⟩

theorem ok (h : kinds) (a : α) : Judges kinds (.ok a) := ⟨nofun, fun _ _ => h⟩

theorem error {fault : Fault} (h : fault.isKind = false) :
    Judges kinds (.error fault : Except Fault α) := by
  refine ⟨?_, nofun⟩
  rintro - _ ⟨⟩
  exact h

theorem bind (h : Judges kinds x) (hf : ∀ a, x = .ok a → Judges more (f a)) :
    Judges (kinds ∧ more) (x >>= f) := by
  cases x with
  | error fault =>
    refine ⟨?_, nofun⟩
    rintro ⟨hkinds, -⟩ _ ⟨⟩
    exact h.fits hkinds fault rfl
  | ok a =>
    have hmore := hf a rfl
    exact ⟨fun hboth => hmore.fits hboth.2, fun b hb => ⟨h.kinded a rfl, hmore.kinded b hb⟩⟩

/-- No kind matters to the first step. -/
theorem andThen (h : Judges True x) (hf : ∀ a, x = .ok a → Judges more (f a)) :
    Judges more (x >>= f) :=
  (h.bind hf).of_iff (iff_of_eq (true_and more))

/-- No kind matters after the first step. -/
theorem bind_true (h : Judges kinds x) (hf : ∀ a, x = .ok a → Judges True (f a)) :
    Judges kinds (x >>= f) :=
  (h.bind hf).of_iff (iff_of_eq (and_true kinds))

theorem mapM {kindsOf : α → Prop} {as : List α} (h : ∀ a ∈ as, Judges (kindsOf a) (f a)) :
    Judges (∀ a ∈ as, kindsOf a) (as.mapM f) := by
  induction as with
  | nil => exact ok (forall_mem_nil kindsOf) []
  | cons a as ih =>
    rw [mapM_cons]
    have hrest := ih fun a ha => h a (mem_cons_of_mem _ ha)
    refine Judges.of_iff ((h a mem_cons_self).bind fun b _ => ?_) forall_mem_cons.symm
    exact hrest.bind_true fun bs _ => ok trivial (b :: bs)

end Judges

namespace Value

variable {v : Value} {key : String}

/-- The value has elements. -/
def isIterable : Value → Bool
  | .list _ | .text _ | .table _ => true
  | _ => false

/-- The value is a text. -/
def isText : Value → Bool
  | .text _ => true
  | _ => false

/-- The value may stand for a count: it is a number other than an infinite one, a truth value or a
text. -/
def isCountable : Value → Bool
  | .int _ | .bool _ | .text _ => true
  | .real (.infinite _) => false
  | .real _ => true
  | _ => false

/-- A member, if it is there, is of a kind. -/
def IsKindAt (v : Value) (key : String) (kind : Value → Bool) : Prop :=
  ∀ member, v.member? key = some member → kind member = true

/-- The elements of a member, if it is there and has some. -/
def partsAt (v : Value) (key : String) : List Value :=
  ((v.member? key).getD (.list [])).elements.toOption.getD []

variable {default member : Value}

theorem isKindAt_iff {kind : Value → Bool} (h : kind default) :
    kind ((v.member? key).getD default) ↔ v.IsKindAt key kind := by
  unfold IsKindAt
  cases v.member? key with
  | none => simp [h]
  | some member => simp

theorem judges_get (default : Value) : Judges (v.isTable) (v.get key default) := by
  cases v with
  | table members => exact Judges.ok rfl _
  | _ => exact ⟨nofun, nofun⟩

theorem eq_of_get (h : v.get key default = .ok member) : (v.member? key).getD default = member := by
  cases v with
  | table members => exact Except.ok.inj h
  | _ => cases h

theorem judges_need : Judges (v.isTable) (v.need key) := by
  cases v with
  | table members =>
    unfold need
    dsimp only
    split
    · exact Judges.ok rfl _
    · exact Judges.error rfl
  | _ => exact ⟨nofun, nofun⟩

theorem member?_of_need (h : v.need key = .ok member) : v.member? key = some member := by
  cases v with
  | table members =>
    unfold need at h
    unfold member?
    cases hmember : members.lookup key <;> simp_all
  | _ => cases h

theorem judges_elements : Judges (v.isIterable) v.elements := by
  cases v with
  | list _ | text _ | table _ => exact Judges.ok rfl _
  | _ => exact ⟨nofun, nofun⟩

theorem judges_asText : Judges (v.isText) v.asText := by
  cases v with
  | text s => exact Judges.ok rfl s
  | _ => exact ⟨nofun, nofun⟩

theorem judges_count : Judges (v.isCountable) v.count := by
  cases v with
  | null | list _ | table _ => exact ⟨nofun, nofun⟩
  | int _ | bool _ => exact Judges.ok rfl _
  | real x =>
    cases x with
    | nan => exact Judges.error rfl
    | infinite _ => exact ⟨nofun, nofun⟩
    | _ => exact Judges.ok rfl _
  | text s =>
    unfold count
    dsimp only
    split
    · exact Judges.ok rfl _
    · exact Judges.error rfl
    · exact Judges.error rfl

end Value

/-- A family of words fails only for what a value says. -/
theorem judges_ofWord {α : Type} (family : String) (word : α → String) (all : List α) (v : Value) :
    Judges True (ofWord family word all v) := by
  unfold ofWord
  dsimp only
  split
  · exact Judges.ok trivial _
  · exact Judges.error rfl

namespace Record

open Value

variable {v : Value}

/-- The use of an export has members of the right kinds. -/
def IsKindedRef (v : Value) : Prop := v.isTable = true ∧ v.IsKindAt "refs" isCountable

/-- A record has members of the right kinds. -/
def IsKinded (v : Value) : Prop :=
  v.isTable = true ∧ v.IsKindAt "reasons" isIterable ∧ v.IsKindAt "exportRefs" isIterable ∧
    (∀ ref ∈ v.partsAt "exportRefs", IsKindedRef ref) ∧ v.IsKindAt "importers" isIterable ∧
    v.IsKindAt "notes" isIterable

theorem judges_elementsOf (h : v.isTable) (key : String) :
    Judges (v.IsKindAt key isIterable) (elementsOf v key) := by
  refine Judges.andThen ((judges_get _).of_iff (by simp [h])) fun member hmember => ?_
  rw [← eq_of_get hmember]
  exact judges_elements.of_iff (isKindAt_iff rfl)

theorem partsAt_of_elementsOf {key : String} {parts : List Value}
    (h : elementsOf v key = .ok parts) : v.partsAt key = parts := by
  obtain ⟨member, hmember, hparts⟩ := bind_eq_ok_iff.1 h
  unfold partsAt
  rw [eq_of_get hmember, hparts]
  rfl

theorem judges_exportRefOf : Judges (IsKindedRef v) (exportRefOf v) := by
  refine judges_need.bind fun name hname => ?_
  have htable := judges_need.kinded name hname
  refine Judges.andThen ((judges_get _).of_iff (by simp [htable])) fun refs hrefs => ?_
  rw [← eq_of_get hrefs]
  exact (judges_count.bind_true fun n _ => Judges.ok trivial _).of_iff (isKindAt_iff rfl)

theorem judges_ofValue : Judges (IsKinded v) (ofValue v) := by
  refine judges_need.bind fun path hpath => ?_
  have htable := judges_need.kinded path hpath
  refine (judges_elementsOf htable _).bind fun words _ => ?_
  have hwords : Judges True (words.mapM Reason.ofValue) :=
    (Judges.mapM fun word _ => judges_ofWord _ _ _ word).of_iff (by simp)
  refine hwords.andThen fun reasons _ => ?_
  refine (judges_elementsOf htable _).bind fun refs hrefs => ?_
  rw [partsAt_of_elementsOf hrefs]
  refine (Judges.mapM fun ref _ => judges_exportRefOf).bind fun exportRefs _ => ?_
  refine (judges_elementsOf htable _).bind fun importers _ => ?_
  refine (judges_elementsOf htable _).bind_true fun notes _ => ?_
  refine Judges.andThen ((judges_get _).of_iff (by simp [htable])) fun stored _ => ?_
  -- The status is compared with the reasons: a contradiction is one of content.
  split
  · exact Judges.ok trivial _
  · refine (judges_ofWord _ _ _ stored).andThen fun status _ => ?_
    split
    · exact Judges.ok trivial _
    · refine Judges.andThen ((judges_get _).of_iff (by simp [htable])) fun words _ => ?_
      exact Judges.error rfl

end Record

namespace Report

open Value

variable {v : Value}

/-- Metadata have members of the right kinds. -/
def IsKindedMetadata (v : Value) : Prop := v.isTable = true ∧ v.IsKindAt "analyzed_at" isText

/-- A report has members of the right kinds. Metadata that are not set are passed over. -/
def IsKinded (v : Value) : Prop :=
  v.isTable = true ∧ v.IsKindAt "files" isIterable ∧
    (∀ record ∈ v.partsAt "files", Record.IsKinded record) ∧
    ∀ metadata, v.member? "metadata" = some metadata → metadata.isSet = true →
      IsKindedMetadata metadata

theorem judges_metadataOf : Judges (IsKindedMetadata v) (metadataOf v) := by
  refine (judges_get _).bind fun project hproject => ?_
  have htable := (judges_get _).kinded project hproject
  have hget : ∀ key default, Judges True (v.get key default) :=
    fun key default => (judges_get default).of_iff (by simp [htable])
  refine Judges.andThen (judges_need.of_iff (by simp [htable])) fun stamp hstamp => ?_
  have hkind : stamp.isText ↔ v.IsKindAt "analyzed_at" isText := by
    simp [IsKindAt, member?_of_need hstamp]
  refine (judges_asText.of_iff hkind).bind_true fun text _ => ?_
  have hread : Judges True ((Stamp.read text).mapError Fault.stamp) := by
    cases Stamp.read text with
    | error fault => exact Judges.error rfl
    | ok stamp => exact Judges.ok trivial stamp
  refine hread.andThen fun analyzedAt _ => ?_
  refine (hget _ _).andThen fun version _ => ?_
  refine (hget _ _).andThen fun duration _ => ?_
  exact (hget _ _).andThen fun source _ => Judges.ok trivial _

/-- A report of the right kinds fails for nothing but its content, and no other report is read. -/
theorem judges_ofValue : Judges (IsKinded v) (ofValue v) := by
  refine (judges_get _).bind fun metadata hmetadata => ?_
  have htable := (judges_get _).kinded metadata hmetadata
  refine (Record.judges_elementsOf htable _).bind fun files hfiles => ?_
  rw [Record.partsAt_of_elementsOf hfiles]
  refine (Judges.mapM fun record _ => Record.judges_ofValue).bind fun records _ => ?_
  have hset := eq_of_get hmetadata
  by_cases h : metadata.isSet
  · rw [if_pos h]
    refine Judges.of_iff (judges_metadataOf.bind_true fun _ _ => Judges.ok trivial _) ?_
    cases hmember : v.member? "metadata" with
    | none =>
      rw [← hset, hmember] at h
      cases h
    | some member => simp_all
  · rw [if_neg h]
    refine Judges.ok ?_ _
    intro member hmember hisSet
    simp_all

end Report

/-! ## Loading -/

/-- A computation fails, and not with a configuration error. -/
def Escapes {α : Type} (result : Except Failure α) : Prop :=
  ∃ failure, result = .error failure ∧ ∀ e, failure ≠ .config e

@[simp]
theorem not_escapes_ok {α : Type} (a : α) : ¬ Escapes (.ok a) := by
  rintro ⟨_, h, -⟩
  cases h

@[simp]
theorem not_escapes_failConfig {α : Type} (e : ConfigError) :
    ¬ Escapes (failConfig e : Except Failure α) := by
  rintro ⟨_, ⟨⟩, h⟩
  exact h e rfl

theorem escapes_failJson_iff {α : Type} {error : Json.Error} {e : ConfigError} :
    Escapes (failJson error e : Except Failure α) ↔ ∃ excess, error = .excess excess := by
  unfold failJson
  split
  · simp [Escapes]
  · simp_all [Escapes]

theorem escapes_bind_iff {α β : Type} {x : Except Failure α} {f : α → Except Failure β} :
    Escapes (x >>= f) ↔ Escapes x ∨ ∃ a, x = .ok a ∧ Escapes (f a) := by
  cases x with
  | error failure => simp [Escapes, bind, Except.bind]
  | ok a => simp [bind, Except.bind]

theorem escapes_get_iff {v default : Value} {key : String} :
    Escapes (ofFault (v.get key default)) ↔ v.isTable = false := by
  cases v <;> simp [Escapes, ofFault, Value.get, Value.isTable, Except.mapError]

section Files

variable {disk : Disk} {path : Path} {bytes : List UInt8}

section

variable (h : disk.read path = .ok bytes)
include h

theorem readText_cases :
    (∃ text, bytes = Utf8.encode text ∧ disk.readText path = .ok (unifyLineEnds text)) ∨
    (∀ text, bytes ≠ Utf8.encode text) ∧ ∃ e, disk.readText path = .error (.encoding e) := by
  unfold Disk.readText
  rw [h]
  rcases Utf8.decode_cases bytes with ⟨text, htext, hdecode⟩ | ⟨hno, e, hdecode⟩
  · exact .inl ⟨text, htext, by simp only [hdecode]⟩
  · exact .inr ⟨hno, e, by simp only [hdecode]⟩

theorem escapes_readTable_iff :
    Escapes (Alias.readTable disk path) ↔ ∃ text, bytes = Utf8.encode text ∧
      Json.IsExcessive (Json.dropCommas (Json.dropComments (unifyLineEnds text))) := by
  unfold Alias.readTable Json.readRelaxed Json.IsExcessive
  rcases readText_cases h with ⟨text, rfl, hread⟩ | ⟨hno, e, hread⟩
  · rw [hread]
    simp only [Utf8.encode_inj, exists_eq_left']
    cases hjson : Json.read (Json.dropCommas (Json.dropComments (unifyLineEnds text))) with
    | error e => simp [escapes_failJson_iff]
    | ok v => cases v <;> simp
  · rw [hread]
    simp [hno]

theorem escapes_loadFile_iff : Escapes (Config.loadFile disk path) ↔
      ∀ text, bytes = Utf8.encode text → Json.IsExcessive (unifyLineEnds text) := by
  unfold Config.loadFile Json.IsExcessive
  rcases readText_cases h with ⟨text, rfl, hread⟩ | ⟨hno, e, hread⟩
  · rw [hread]
    simp only [Utf8.encode_inj, forall_eq']
    cases hjson : Json.read (unifyLineEnds text) with
    | error e => simp [escapes_failJson_iff]
    | ok v => cases v <;> simp
  · rw [hread]
    simp [hno, Escapes]

theorem escapes_load_iff : Escapes (Report.load disk path) ↔ ∀ text, bytes = Utf8.encode text →
      Json.IsExcessive (unifyLineEnds text) ∨ ∃ v fault, Json.read (unifyLineEnds text) = .ok v ∧
        Report.ofValue v = .error fault ∧ fault.isKind := by
  unfold Report.load Json.IsExcessive
  rcases readText_cases h with ⟨text, rfl, hread⟩ | ⟨hno, e, hread⟩
  · rw [hread]
    simp only [Utf8.encode_inj, forall_eq']
    cases hjson : Json.read (unifyLineEnds text) with
    | error e => simp [escapes_failJson_iff]
    | ok v =>
      cases hvalue : Report.ofValue v with
      | ok report => simp [hvalue]
      | error fault =>
        cases fault <;> simp [hvalue, Fault.isContent, Fault.isKind, Escapes, failConfig]
  · rw [hread]
    simp [hno, Escapes]

theorem node?_of_read : disk.node? path = .ok (some (.file bytes)) := by
  unfold Disk.read at h
  unfold Disk.node?
  cases hplace : disk.locate path with
  | error cause =>
    rw [hplace] at h
    cases h
  | ok place =>
    rw [hplace] at h
    dsimp only at h ⊢
    split at h
    · rename_i hat
      rw [hat, Except.ok.inj h]
    · cases h
    · cases h

end

theorem exists_table_of_read {text : List Char} {document : Value}
    (h : Toml.read text = .ok document) : ∃ members, document = .table members := by
  unfold Toml.read at h
  cases hmembers : Toml.statements {} 0 (Toml.unifyLineEnds text) with
  | error e =>
    rw [hmembers] at h
    cases h
  | ok members =>
    rw [hmembers] at h
    exact ⟨members, (Except.ok.inj h).symm⟩

theorem escapes_loadProjectFile_iff {root : Path}
    (h : disk.read (root.child "pyproject.toml") = .ok bytes) :
    Escapes (Config.loadProjectFile disk root) ↔ ∀ text, bytes = Utf8.encode text →
      (∃ e, Toml.read text = .error (.excess e)) ∨ ∃ document tool, Toml.read text = .ok document ∧
        document.member? "tool" = some tool ∧ tool.isTable = false := by
  unfold Config.loadProjectFile
  dsimp only
  rw [node?_of_read h]
  change Escapes (Config.readProjectFile _ bytes >>= _) ↔ _
  unfold Config.readProjectFile
  rcases Utf8.decode_cases bytes with ⟨text, rfl, hdecode⟩ | ⟨hno, e, hdecode⟩
  · simp only [Utf8.encode_inj, forall_eq', hdecode]
    cases htoml : Toml.read text with
    | error e => cases e <;> simp [Escapes, failConfig, bind, Except.bind]
    | ok document =>
      obtain ⟨members, rfl⟩ := exists_table_of_read htoml
      change Escapes (ofFault (((members.lookup "tool").getD (.table [])).get _ _) >>= _) ↔ _
      refine (escapes_bind_iff.trans (or_iff_left ?_)).trans (escapes_get_iff.trans ?_)
      · rintro ⟨settings, -, hsettings⟩
        cases settings <;> exact not_escapes_ok _ hsettings
      · cases htool : members.lookup "tool" with
        | none => simp [Value.member?, htool, Value.isTable]
        | some tool => simp [Value.member?, htool]
  · simp [hno, hdecode, Escapes, bind, Except.bind]

/-- For which bytes the loading of a compiler configuration, a configuration, a project file and a
report escapes. A report of the right kinds does not escape for its content, and no report of other
kinds is loaded; a modest JSON document is not excessive. -/
theorem loading_escapes_iff {root : Path} {settings : List UInt8}
    (hfile : disk.read path = .ok bytes)
    (hsettings : disk.read (root.child "pyproject.toml") = .ok settings) :
    (Escapes (Alias.readTable disk path) ↔ ∃ text, bytes = Utf8.encode text ∧
      Json.IsExcessive (Json.dropCommas (Json.dropComments (unifyLineEnds text)))) ∧
    (Escapes (Config.loadFile disk path) ↔
      ∀ text, bytes = Utf8.encode text → Json.IsExcessive (unifyLineEnds text)) ∧
    (Escapes (Config.loadProjectFile disk root) ↔ ∀ text, settings = Utf8.encode text →
      (∃ e, Toml.read text = .error (.excess e)) ∨ ∃ document tool, Toml.read text = .ok document ∧
        document.member? "tool" = some tool ∧ tool.isTable = false) ∧
    (Escapes (Report.load disk path) ↔ ∀ text, bytes = Utf8.encode text →
      Json.IsExcessive (unifyLineEnds text) ∨ ∃ v fault, Json.read (unifyLineEnds text) = .ok v ∧
        Report.ofValue v = .error fault ∧ fault.isKind = true) ∧
    (∀ v fault, Report.IsKinded v → Report.ofValue v = .error fault → fault.isKind = false) ∧
    (∀ v report, Report.ofValue v = .ok report → Report.IsKinded v) ∧
    ∀ text, Json.IsModest text → ¬ Json.IsExcessive text :=
  ⟨escapes_readTable_iff hfile, escapes_loadFile_iff hfile, escapes_loadProjectFile_iff hsettings,
    escapes_load_iff hfile, fun _ fault hkinds => Report.judges_ofValue.fits hkinds fault,
    fun _ report => Report.judges_ofValue.kinded report, fun _ => Json.IsModest.not_isExcessive⟩

end Files

/-- A disk with a file and a project file of one byte that no text starts with. -/
def strayDisk : Disk :=
  { nodes := [(["r.json"], .file [0xff]), (["pyproject.toml"], .file [0xff])] }

theorem loading_escapes_iff_stray : strayDisk.read (.ofString "r.json") = .ok [0xff] ∧
    strayDisk.read (Path.child (.ofString "") "pyproject.toml") = .ok [0xff] ∧
    ¬ Escapes (Alias.readTable strayDisk (.ofString "r.json")) ∧
    Escapes (Config.loadFile strayDisk (.ofString "r.json")) ∧
    Escapes (Config.loadProjectFile strayDisk (.ofString "")) ∧
    Escapes (Report.load strayDisk (.ofString "r.json")) := by
  have hfile : strayDisk.read (.ofString "r.json") = .ok [0xff] := by decide +kernel
  have hsettings : strayDisk.read (Path.child (.ofString "") "pyproject.toml") = .ok [0xff] := by
    decide +kernel
  have hno : ∀ text, [0xff] ≠ Utf8.encode text := by
    intro text htext
    have hdecode : (Utf8.decode [0xff]).toOption = none := by decide +kernel
    rw [Utf8.decode_eq_ok_iff.2 htext] at hdecode
    cases hdecode
  obtain ⟨htable, hconfig, hproject, hreport, -⟩ := loading_escapes_iff hfile hsettings
  refine ⟨hfile, hsettings, ?_, ?_, ?_, ?_⟩
  · rw [htable]
    rintro ⟨text, htext, -⟩
    exact hno text htext
  · exact hconfig.2 fun text htext => absurd htext (hno text)
  · exact hproject.2 fun text htext => absurd htext (hno text)
  · exact hreport.2 fun text htext => absurd htext (hno text)

/-- A disk with a list in place of a report. -/
def listDisk : Disk := { nodes := [(["r.json"], .file (Utf8.encode ['[', ']']))] }

/-- A list in place of a report is no configuration error. -/
theorem list_report_escapes : Escapes (Report.load listDisk (.ofString "r.json")) := by
  have hfile : listDisk.read (.ofString "r.json") = .ok (Utf8.encode ['[', ']']) := by
    decide +kernel
  refine (escapes_load_iff hfile).2 fun text htext => .inr ?_
  rw [← Utf8.encode_inj.1 htext]
  have htokens : Json.tokens ['[', ']'] = [.openList, .closeList] := by
    simp [Json.tokens, Json.isGap, Json.mark?]
  refine ⟨.list [], .notTable, ?_, rfl, rfl⟩
  change Json.run [] .value (Json.tokens ['[', ']']) = _
  rw [htokens]
  rfl

end Deadwood

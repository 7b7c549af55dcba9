import Deadwood.Proofs.Decorating
import Deadwood.Proofs.Extending
import Deadwood.Proofs.Tables

/-!
# Settings that override others

Settings come from several files, of which a later one is laid over the earlier ones: the table that
is laid over another is asked first, and a key that it gives twice counts with its last value
(`Keyed.lookup_putAll`).

A project's settings come from a table of its project file and from a JSON file. They are laid over
each other key by key at the top only: a section of the JSON file hides the whole section of the
project file (`Config.resolve_reads`), even the settings that it does not give itself
(`section_hides_settings`). The options of a compiler configuration come from all configurations in
its tree, and the last one that sets an option decides (`Alias.collect_overrides`), for the value
and for the directory that it is seen from.
-/

set_option autoImplicit false

namespace Deadwood

open List

namespace Config

/-! ## The settings of a project -/

/-- The settings that a project may give. -/
inductive Setting where
  | allowlist | exclude | extensions | routeDirectories | routeNames | referenceDirectories
  | skipBarrels | workers | trimMode | backup | aliasConfig

namespace Setting

/-- The section in which the setting stands, if it stands in one, and its key. -/
def place : Setting → Option String × String
  | .allowlist => (none, "allowlist")
  | .exclude => (none, "exclude")
  | .extensions => (none, "extensions")
  | .routeDirectories => (some "routes", "directories")
  | .routeNames => (some "routes", "basenames")
  | .referenceDirectories => (none, "reference_dirs")
  | .skipBarrels => (none, "skip_index_barrels")
  | .workers => (none, "workers")
  | .trimMode => (some "trim", "mode")
  | .backup => (some "trim", "backup")
  | .aliasConfig => (none, "tsconfig")

/-- The value that counts if none is given. -/
def default : Setting → Value
  | .allowlist | .exclude => .list []
  | .extensions => .texts Module.extensions
  | .routeDirectories => .texts defaultRouteDirectories
  | .routeNames => .texts defaultRouteNames
  | .referenceDirectories => .texts defaultReferenceDirectories
  | .skipBarrels => .bool false
  | .workers | .aliasConfig => .null
  | .trimMode => .text "strip"
  | .backup => .bool true

/-- What is made of the value of a setting: most are taken as they are. -/
def check : Setting → Value → Except Failure Value
  | .allowlist, v => return .list (← ofFault (do distinct (← v.elements)))
  | .workers, .null => .ok .null
  | .workers, .bool true => .ok (.bool true)
  | .workers, .int n => if 1 ≤ n then .ok (.int n) else failConfig (.workers (.int n))
  | .workers, v => failConfig (.workers v)
  | .trimMode, v =>
    match v with
    | .text "strip" | .text "delete" => .ok v
    | _ => failConfig (.trimMode v)
  | _, v => .ok v

/-- What the program takes a setting to be. -/
def read (config : Config) : Setting → Except Failure Value
  | .allowlist => return .list (← ofFault config.allowlist)
  | .exclude => .ok config.exclude
  | .extensions => .ok config.extensions
  | .routeDirectories => ofFault config.routeDirectories
  | .routeNames => ofFault config.routeNames
  | .referenceDirectories => .ok config.referenceDirectories
  | .skipBarrels => .ok config.skipBarrels
  | .workers => config.workers
  | .trimMode => return .text (← config.trimMode)
  | .backup => ofFault config.backup
  | .aliasConfig => .ok config.aliasConfig

/-- The key at the top under which the setting stands. -/
def top (s : Setting) : String := s.place.1.getD s.place.2

/-- What a configuration gives for the setting. -/
def given? (s : Setting) (config : Config) : Option Value :=
  if s.place.1.isSome then (config.lookup s.top).bind (Value.member? s.place.2)
  else config.lookup s.top

/-- The section in which the setting stands is a table, if it is there. -/
def isPlaced (s : Setting) (config : Config) : Bool :=
  s.place.1.isNone || (config.lookup s.top).all Value.isTable

variable {config table pairs : Config}

theorem sectionSetting_eq (config : Config) (part key : String) (default : Value) :
    config.sectionSetting part key default = if (config.lookup part).all Value.isTable then
      .ok (((config.lookup part).bind (Value.member? key)).getD default) else .error .notTable := by
  unfold sectionSetting setting
  cases config.lookup part with
  | none => rfl
  | some v =>
    cases v with
    | table members => rfl
    | _ => rfl

theorem trimMode_eq {v : Value} (h : config.sectionSetting "trim" "mode" (.text "strip") = .ok v) :
    read config .trimMode = check .trimMode v := by
  unfold read Config.trimMode
  rw [h]
  cases v with
  | text mode =>
    by_cases hstrip : mode = "strip"
    · subst hstrip
      rfl
    by_cases hdelete : mode = "delete"
    · subst hdelete
      rfl
    simp [check, hstrip, hdelete, ofFault, Except.mapError, bind, Except.bind, failConfig]
  | _ => rfl

theorem workers_eq : read config .workers = check .workers (config.setting "workers" .null) := by
  unfold read Config.workers
  cases config.setting "workers" .null with
  | bool b => cases b <;> rfl
  | _ => rfl

/-- A setting is what is given for it, or else its default. -/
theorem read_eq (s : Setting) (config : Config) :
    s.read config = if s.isPlaced config then s.check ((s.given? config).getD s.default)
      else .error (.data .notTable) := by
  split
  · rename_i h
    cases s
    case routeDirectories | routeNames | backup =>
      exact congrArg ofFault ((sectionSetting_eq config _ _ _).trans (if_pos h))
    case trimMode => exact trimMode_eq ((sectionSetting_eq config _ _ _).trans (if_pos h))
    case workers => exact workers_eq
    all_goals rfl
  · rename_i h
    cases s
    case routeDirectories | routeNames | backup =>
      exact congrArg ofFault ((sectionSetting_eq config _ _ _).trans (if_neg h))
    case trimMode =>
      have hmode : config.sectionSetting "trim" "mode" (.text "strip") = .error .notTable :=
        (sectionSetting_eq config _ _ _).trans (if_neg h)
      unfold read Config.trimMode
      rw [hmode]
      rfl
    all_goals exact absurd rfl h

/-- A section that is given hides the one below it. -/
theorem given?_putAll (s : Setting) : s.given? (Keyed.putAll table pairs) =
    (s.given? (Keyed.ofPairs pairs)).or
      (if Keyed.has s.top (Keyed.ofPairs pairs) then none else s.given? table) := by
  unfold given? Keyed.has
  rw [Keyed.lookup_putAll]
  cases (Keyed.ofPairs pairs).lookup s.top <;> simp

end Setting

/-- The settings of the JSON file that counts: the one that is asked for, or else the one of the
project, if there is one. -/
def loadOver (disk : Disk) (root : Path) : Option Path → Except Failure Config
  | some path => return Keyed.ofPairs (← loadFile disk path)
  | none => do
    if ← ofDisk (disk.isFile (Layout.config root)) then
      return Keyed.ofPairs (← loadFile disk (Layout.config root))
    else return []

variable {disk : Disk} {root : Path} {asked : Option Path} {found : Option Config} {json : Config}

theorem exists_resolve (hroot : disk.isDirectory root = .ok true)
    (hfound : loadProjectFile disk root = .ok found) (hjson : loadOver disk root asked = .ok json) :
    ∃ pairs, json = Keyed.ofPairs pairs ∧
      resolve disk root asked = .ok (Keyed.putAll (found.getD []) pairs) := by
  unfold resolve
  rw [hroot, hfound]
  cases asked with
  | some path =>
    obtain ⟨pairs, hload, hjson⟩ := bind_eq_ok_iff.1 hjson
    cases hjson
    refine ⟨pairs, rfl, ?_⟩
    change (loadFile disk path >>= _) = _
    rw [hload]
    rfl
  | none =>
    obtain ⟨isFile, hfile, hjson⟩ := bind_eq_ok_iff.1 hjson
    change ∃ pairs, _ ∧ (ofDisk (disk.isFile (Layout.config root)) >>= _) = _
    rw [hfile]
    cases isFile with
    | false =>
      cases hjson
      exact ⟨[], rfl, rfl⟩
    | true =>
      obtain ⟨pairs, hload, hjson⟩ := bind_eq_ok_iff.1 hjson
      cases hjson
      refine ⟨pairs, rfl, ?_⟩
      change (loadFile disk (Layout.config root) >>= _) = _
      rw [hload]
      rfl

/-- The JSON file is laid over the project file key by key. Every setting is what the JSON file
gives, or else what the project file gives if the JSON file has nothing under the same key at the
top, or else its default. A setting in a section fails if the section is no table. -/
theorem resolve_reads (hroot : disk.isDirectory root = .ok true)
    (hfound : loadProjectFile disk root = .ok found) (hjson : loadOver disk root asked = .ok json) :
    ∃ config, resolve disk root asked = .ok config ∧
      (∀ key, config.lookup key = (json.lookup key).or ((found.getD []).lookup key)) ∧
      ∀ s : Setting, s.read config = if s.isPlaced config then
        s.check (((s.given? json).or
          (if Keyed.has s.top json then none else s.given? (found.getD []))).getD s.default)
        else .error (.data .notTable) := by
  obtain ⟨pairs, rfl, hresolve⟩ := exists_resolve hroot hfound hjson
  refine ⟨_, hresolve, Keyed.lookup_putAll, fun s => ?_⟩
  rw [s.read_eq, s.given?_putAll]

/-- A project with settings in both files, which share a section. -/
def layered : Disk where
  nodes := [(["pyproject.toml"], .file (Text.Utf8.encode
      "[tool.orphanprune]\nworkers = 2\ntrim.backup = false".toList)),
    ([".orphanprune"], .directory),
    ([".orphanprune", "config.json"], .file (Text.Utf8.encode
      "\x7b\"workers\": 3, \"trim\": \x7b\"mode\": \"delete\"\x7d\x7d".toList))]

/-- What the two files of `layered` say. -/
def saysLayered : Option (List (String × Value)) → List (String × Value) → Bool
  | some [("workers", .int 2), ("trim", .table [("backup", .bool false)])],
    [("workers", .int 3), ("trim", .table [("mode", .text "delete")])] => true
  | _, _ => false

theorem load_layered : loadProjectFile layered ⟨1, []⟩ =
      .ok (some [("workers", .int 2), ("trim", .table [("backup", .bool false)])]) ∧
    loadOver layered ⟨1, []⟩ none =
      .ok [("workers", .int 3), ("trim", .table [("mode", .text "delete")])] := by
  obtain ⟨found, hfound, hjson⟩ := exists_ok_of_any (x := loadProjectFile layered ⟨1, []⟩)
    (p := fun found => (loadOver layered ⟨1, []⟩ none).toOption.any (saysLayered found))
    (by decide +kernel)
  obtain ⟨json, hjson, hsays⟩ := exists_ok_of_any hjson
  unfold saysLayered at hsays
  split at hsays
  · exact ⟨hfound, hjson⟩
  · cases hsays

theorem resolve_reads_layered : ∃ config, resolve layered ⟨1, []⟩ none = .ok config ∧
    Setting.read config .workers = .ok (.int 3) ∧
    Setting.read config .trimMode = .ok (.text "delete") := by
  obtain ⟨config, hconfig, hlookup, hreads⟩ :=
    resolve_reads (by rfl) load_layered.1 load_layered.2
  refine ⟨_, hconfig, hreads .workers, (hreads .trimMode).trans (if_pos ?_)⟩
  simp [Setting.isPlaced, Setting.top, Setting.place, hlookup, lookup_cons, Value.isTable]

/-- A section of the JSON file hides settings that only the project file gives. -/
theorem section_hides_settings : ∃ found json config,
    loadProjectFile layered ⟨1, []⟩ = .ok (some found) ∧
    loadOver layered ⟨1, []⟩ none = .ok json ∧ resolve layered ⟨1, []⟩ none = .ok config ∧
    Setting.backup.given? json = none ∧ Setting.backup.given? found = some (.bool false) ∧
    Setting.read config .backup = .ok (.bool true) := by
  obtain ⟨pairs, hpairs, hresolve⟩ := exists_resolve (by rfl) load_layered.1 load_layered.2
  refine ⟨_, _, _, load_layered.1, load_layered.2, hresolve, rfl, rfl, ?_⟩
  rw [Setting.read_eq, Setting.given?_putAll, ← hpairs, if_pos]
  · rfl
  · simp [Setting.isPlaced, Setting.top, Setting.place, Keyed.lookup_putAll, ← hpairs, lookup_cons,
      Value.isTable]

end Config

namespace Alias

/-! ## The options of a compiler configuration -/

/-- The options that a configuration file sets itself. -/
def ownTable (disk : Disk) (file : Path) : List (String × Value) :=
  match (readTable disk file).toOption.bind (Value.member? "compilerOptions") with
  | some (.table members) => Keyed.ofPairs members
  | _ => []

/-- What a configuration file has as its options is a table, or counts as nothing. -/
def hasTable (disk : Disk) (file : Path) : Bool :=
  ((readTable disk file).toOption.bind (Value.member? "compilerOptions")).all fun own =>
    !own.isSet || own.isTable

/-- The order in which configurations override each other: what a configuration extends comes before
it, each file after those that it extends itself. -/
def lineage (disk : Disk) : (depth : Nat) → Path → List Path
  | 0, _ => []
  | depth + 1, path => (parents disk path).flatMap (lineage disk depth) ++ [path]

/-- The last file of an order that sets an option, with the value. -/
def lastSetting? (disk : Disk) (order : List Path) (key : String) : Option (Path × Value) :=
  order.reverse.findSome? fun file => ((ownTable disk file).lookup key).map (file, ·)

/-- The options are what the last of the files that set them sets, seen from its directory. -/
structure Sets (disk : Disk) (order : List Path) (options : Options) : Prop where
  lookup_eq : ∀ key, (Keyed.ofPairs options.values).lookup key =
    (lastSetting? disk order key).map Prod.snd
  base_eq : options.baseDirectory = (lastSetting? disk order "baseUrl").map (·.1.parent)
  paths_eq : options.pathsDirectory = (lastSetting? disk order "paths").map (·.1.parent)

/-- Besides, no option comes twice. -/
structure Gathers (disk : Disk) (order : List Path) (options : Options) : Prop
    extends Sets disk order options where
  nodup : (options.values.map Prod.fst).Nodup

variable {disk : Disk} {path : Path} {order order' : List Path} {options next : Options}
  {config : Value} {fuel depth : Nat} {seen files : List Path}

theorem Gathers.over (h : Gathers disk order options) (hnext : Sets disk order' next) :
    Gathers disk (order ++ order') (options.over next) := by
  have hnodup : ((options.over next).values.map Prod.fst).Nodup := Keyed.nodup_keys_putAll h.nodup
  have hlast : ∀ key, lastSetting? disk (order ++ order') key =
      (lastSetting? disk order' key).or (lastSetting? disk order key) := by
    intro key
    rw [lastSetting?, reverse_append, findSome?_append]
    rfl
  refine ⟨⟨fun key => ?_, ?_, ?_⟩, hnodup⟩
  · rw [Keyed.lookup_ofPairs hnodup, Options.over, Keyed.lookup_putAll, hnext.lookup_eq,
      ← Keyed.lookup_ofPairs h.nodup, h.lookup_eq, hlast, Option.map_or]
  · rw [hlast, Option.map_or, ← hnext.base_eq, ← h.base_eq]
    exact Option.orElse_eq_or ..
  · rw [hlast, Option.map_or, ← hnext.paths_eq, ← h.paths_eq]
    exact Option.orElse_eq_or ..

/-- A configuration whose options are a table sets its members itself. -/
theorem exists_ownTable (hread : readTable disk path = .ok config)
    (htable : hasTable disk path) (h : ownOptions path config = .ok options) :
    ∃ members, ownTable disk path = Keyed.ofPairs members ∧
      options = ⟨members, if Keyed.has "baseUrl" members then some path.parent else none,
        if Keyed.has "paths" members then some path.parent else none⟩ := by
  simp only [hasTable, hread, Except.toOption, Option.bind_some] at htable
  simp only [ownTable, hread, Except.toOption, Option.bind_some]
  unfold ownOptions at h
  cases hown : config.member? "compilerOptions" with
  | none =>
    rw [hown] at h
    cases h
    exact ⟨[], rfl, rfl⟩
  | some own =>
    rw [hown] at h htable
    cases own with
    | table members =>
      refine ⟨members, rfl, ?_⟩
      cases members <;> cases h <;> rfl
    | _ =>
      simp only [Option.all_some, Value.isTable, Bool.or_false, Bool.not_eq_true'] at htable
      dsimp only [Option.getD_some] at h
      rw [htable] at h
      cases h
      exact ⟨[], rfl, rfl⟩

theorem sets_own (hread : readTable disk path = .ok config) (htable : hasTable disk path)
    (h : ownOptions path config = .ok options) : Sets disk [path] options := by
  obtain ⟨members, hmembers, rfl⟩ := exists_ownTable hread htable h
  have hlast : ∀ key, lastSetting? disk [path] key =
      ((Keyed.ofPairs members).lookup key).map (path, ·) := by
    intro key
    rw [← hmembers]
    simp [lastSetting?]
  have hdirectory : ∀ key, (if Keyed.has key members then some path.parent else none) =
      (lastSetting? disk [path] key).map (·.1.parent) := by
    intro key
    rw [hlast, ← Keyed.has_ofPairs, Keyed.has]
    cases (Keyed.ofPairs members).lookup key <;> rfl
  refine ⟨fun key => ?_, hdirectory _, hdirectory _⟩
  rw [hlast, Option.map_map]
  exact (Option.map_id' ..).symm

/-- The files that a configuration reads first if it extends others by these names. -/
def forebears (disk : Disk) (depth : Nat) (path : Path) (names : List String) : List Path :=
  (names.filterMap fun name => (parentPath disk.here path name).toOption).flatMap
    (lineage disk depth)

/-- Reading what a configuration extends, one after the other. -/
theorem gathers_parents {names : List String} {start result : Options × List Path}
    {f : Options × List Path → String → Except Failure (Options × List Path)}
    (hf : ∀ {start name result}, f start name = .ok result → ∃ parent inherited,
      parentPath disk.here path name = .ok parent ∧ result.1 = start.1.over inherited ∧
      collect disk fuel start.2 parent = .ok (inherited, result.2))
    (hcollect : ∀ {seen parent options files},
      collect disk fuel seen parent = .ok (options, files) →
      (∀ file ∈ lineage disk depth parent, hasTable disk file) →
      Gathers disk (lineage disk depth parent) options)
    (hstart : Gathers disk order start.1) (h : names.foldlM f start = .ok result)
    (htables : ∀ file ∈ forebears disk depth path names, hasTable disk file) :
    Gathers disk (order ++ forebears disk depth path names) result.1 := by
  induction names generalizing start order with
  | nil =>
    cases h
    rwa [forebears, filterMap_nil, flatMap_nil, append_nil]
  | cons name names ih =>
    rw [foldlM_cons] at h
    obtain ⟨middle, hstep, h⟩ := bind_eq_ok_iff.1 h
    obtain ⟨parent, inherited, hparent, hmiddle, hinherited⟩ := hf hstep
    have hsplit : forebears disk depth path (name :: names) =
        lineage disk depth parent ++ forebears disk depth path names := by
      rw [forebears, filterMap_cons, hparent]
      rfl
    rw [hsplit, forall_mem_append] at htables
    have hover := hstart.over (hcollect hinherited htables.1).toSets
    rw [← hmiddle] at hover
    rw [hsplit, ← append_assoc]
    exact ih hover h htables.2

/-- Reading a configuration lays the files of its tree over each other. -/
theorem gathers_collect (hdepth : fuel ≤ depth)
    (h : collect disk fuel seen path = .ok (options, files))
    (htables : ∀ file ∈ lineage disk depth path, hasTable disk file) :
    Gathers disk (lineage disk depth path) options := by
  induction fuel generalizing depth seen path options files with
  | zero => cases h
  | succ fuel ih =>
    obtain ⟨depth, rfl⟩ := Nat.exists_eq_add_of_le' (Nat.lt_of_lt_of_le fuel.succ_pos hdepth)
    rw [collect] at h
    split at h
    · cases h
    obtain ⟨config, hread, h⟩ := bind_eq_ok_iff.1 h
    obtain ⟨⟨inherited, visited⟩, hparents, h⟩ := bind_eq_ok_iff.1 h
    obtain ⟨own, hown, h⟩ := bind_eq_ok_iff.1 h
    cases h
    have horder : lineage disk (depth + 1) path =
        forebears disk depth path (parentsOf config) ++ [path] := by
      rw [lineage, parents, hread]
      rfl
    rw [horder, forall_mem_append] at htables
    have hempty : Gathers disk [] {} := ⟨⟨fun _ => rfl, rfl, rfl⟩, nodup_nil⟩
    have hinherited : Gathers disk (forebears disk depth path (parentsOf config)) inherited := by
      refine gathers_parents (fun {start name result} hstep => ?_)
        (ih (Nat.le_of_succ_le_succ hdepth)) hempty hparents htables.1
      obtain ⟨parent, hparent, hstep⟩ := bind_eq_ok_iff.1 hstep
      obtain ⟨isFile, -, hstep⟩ := bind_eq_ok_iff.1 hstep
      split at hstep
      · obtain ⟨⟨more, visited⟩, hcollect, hstep⟩ := bind_eq_ok_iff.1 hstep
        cases hstep
        exact ⟨parent, more, hparent, rfl, hcollect⟩
      · cases hstep
    rw [horder]
    exact hinherited.over (sets_own hread (htables.2 path (by simp)) (ofFault_eq_ok_iff.1 hown))

/-- Every option of a configuration is what the last file in the order of overriding sets that sets
it. The directory that the base or the paths are seen from is the one of that very file, and there
is none exactly if they are not set. It does not matter how deep the tree is followed, as long as it
is deep enough to read all files. -/
theorem collect_overrides (h : collect disk fuel seen path = .ok (options, files))
    (hdepth : fuel ≤ depth)
    (htables : ∀ file ∈ lineage disk depth path, hasTable disk file = true) :
    (∀ key, options.values.lookup key =
      (lastSetting? disk (lineage disk depth path) key).map Prod.snd) ∧ options.baseDirectory =
      (lastSetting? disk (lineage disk depth path) "baseUrl").map (·.1.parent) ∧
    options.pathsDirectory =
      (lastSetting? disk (lineage disk depth path) "paths").map (·.1.parent) ∧
    (options.baseDirectory = none ↔ Keyed.has "baseUrl" options.values = false) ∧
    (options.pathsDirectory = none ↔ Keyed.has "paths" options.values = false) := by
  have hgathers := gathers_collect hdepth h htables
  have hlookup : ∀ key, options.values.lookup key =
      (lastSetting? disk (lineage disk depth path) key).map Prod.snd := fun key =>
    (Keyed.lookup_ofPairs hgathers.nodup key).symm.trans (hgathers.lookup_eq key)
  refine ⟨hlookup, hgathers.base_eq, hgathers.paths_eq, ?_, ?_⟩
  · rw [hgathers.base_eq, Keyed.has, hlookup, Option.map_eq_none_iff]
    simp
  · rw [hgathers.paths_eq, Keyed.has, hlookup, Option.map_eq_none_iff]
    simp

/-- A configuration with two parents in different directories, all of which set the paths. -/
def overridden : Disk where
  nodes := [(["tsconfig.json"], .file (Text.Utf8.encode
      "\x7b\"extends\":[\"./lib/a\",\"./b\"],\"compilerOptions\":\x7b\"paths\":1\x7d\x7d".toList)),
    (["lib"], .directory), (["lib", "a.json"], .file (Text.Utf8.encode
      "\x7b\"compilerOptions\":\x7b\"baseUrl\":\".\",\"paths\":2\x7d\x7d".toList)),
    (["b.json"], .file (Text.Utf8.encode "\x7b\"compilerOptions\":\x7b\"paths\":3\x7d\x7d".toList))]

theorem collect_overrides_overridden : ∃ options files,
    collect overridden 3 [] ⟨1, ["tsconfig.json"]⟩ = .ok (options, files) ∧
    options.baseDirectory = some ⟨1, ["lib"]⟩ ∧ options.pathsDirectory = some ⟨1, []⟩ := by
  obtain ⟨⟨options, files⟩, hcollect, -⟩ := exists_ok_of_any
    (x := collect overridden 3 [] ⟨1, ["tsconfig.json"]⟩) (p := fun _ => true) (by decide +kernel)
  obtain ⟨-, hbase, hpaths, -⟩ := collect_overrides hcollect (Nat.le_refl 3) (by decide +kernel)
  exact ⟨options, files, hcollect, hbase.trans (by decide +kernel),
    hpaths.trans (by decide +kernel)⟩

end Alias

end Deadwood

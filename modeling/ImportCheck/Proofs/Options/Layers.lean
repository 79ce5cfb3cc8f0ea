import ImportCheck.Options.Config
import ImportCheck.Proofs.Options.Layer

/-!
# What the layers say

The options that are read from the layers of settings: option by option, the settings over the settings of a file, and
the default where neither says anything. No option is there under two spellings, and what is said about other options
does not matter.
-/

namespace ImportCheck

namespace LoggingConfig

open Value

/-- What a list or a table of settings has for a field, which has its place in a list. -/
def part (field : String) (place : Nat) : Value → Option Value
  | .object fields => Fields.get? fields field
  | .array items => items[place]?
  | _ => none

/-- The fields of the settings that are there by default. -/
def defaults : Fields := [("format", .string "pretty"), ("level", .string "info")]

variable {field : String} {place : Nat} {lower upper : Option Value} {v : Value}

theorem field?_eq_ok_some {α : Type} {fields : Fields} {keys : List String} {key : String} {a : α}
    {read : List String → Value → Except SettingError α} (h : field? fields keys key read = .ok (some a)) :
    ∃ v, fields.get? key = some v ∧ read (keys ++ [key]) v = .ok a := by
  unfold field? at h
  split at h
  · rename_i v hv
    obtain ⟨_, ha, he⟩ := map_eq_ok_iff.mp h
    cases he
    exact ⟨v, hv, ha⟩
  · cases h

theorem ofValue_eq_ok {keys : List String} {c : LoggingConfig} (hv : v.IsSetting) (h : ofValue keys v = .ok c) :
    (∃ level, part "level" 0 v = some level ∧ Spells level c.level) ∧
      ∃ format, part "format" 1 v = some format ∧ Chooses LogFormat.choices format c.format := by
  have hchoice {keys : List String} {w : Value} {format : LogFormat} (hw : w.IsSetting)
      (hok : w.asChoice LogFormat.choices keys = .ok format) : Chooses LogFormat.choices w format :=
    (asChoice_eq_ok_iff_chooses (by decide) hw).mp hok
  cases hv with
  | @object fields ascending hfields =>
      obtain ⟨format?, hformat, h⟩ := bind_eq_ok_iff.mp h
      obtain ⟨level?, hlevel, h⟩ := bind_eq_ok_iff.mp h
      split at h
      · cases h
        obtain ⟨level, hl, hlevel⟩ := field?_eq_ok_some hlevel
        obtain ⟨format, hf, hformat⟩ := field?_eq_ok_some hformat
        have hsetting : format.IsSetting := Fields.AreSettings.of_get? ⟨ascending, hfields⟩ hf
        exact ⟨⟨level, hl, asString_eq_ok_iff.mp hlevel⟩, format, hf, hchoice hsetting hformat⟩
      · cases h
      · cases h
  | @array items hitems =>
      match items with
      | [] => cases h
      | [_] =>
          obtain ⟨level, hlevel, h⟩ := bind_eq_ok_iff.mp h
          cases h
      | level :: format :: _ =>
          obtain ⟨_, hlevel, h⟩ := bind_eq_ok_iff.mp h
          obtain ⟨_, hformat, h⟩ := bind_eq_ok_iff.mp h
          cases h
          exact ⟨⟨level, rfl, asString_eq_ok_iff.mp hlevel⟩, format, rfl, hchoice (hitems format (by simp)) hformat⟩
  | _ => cases h

theorem bind_part_of_isTable (h : ∀ v, lower = some v → v.IsTable) :
    lower.bind (part field place) = (fields? lower).get? field := by
  cases lower with
  | none => rfl
  | some v =>
      obtain ⟨fields, rfl⟩ := h v rfl
      rfl

/-- What two layers over defaults make of a part that is no table. -/
theorem part_of_laid_laid {defaults : Fields} (hdefaults : defaults.AreSettings)
    (hdefault : ∀ k v, defaults.get? k = some v → ¬v.IsTable) (hlower : ∀ v, lower = some v → v.IsSetting)
    (hupper : ∀ v, upper = some v → v.IsSetting)
    (h : part field place (laid (laid (.object defaults) lower) upper) = some v) (hv : ¬v.IsTable) :
    OverField (lower.bind (part field place)) (upper.bind (part field place)) (some v) ∨
      lower.bind (part field place) = none ∧ upper.bind (part field place) = none ∧ defaults.get? field = some v := by
  -- A part that is no table stands over anything.
  have hover (o : Option Value) : OverField o (some v) (some v) := by
    cases o with
    | none => exact .upper v
    | some w => exact .both (.replaced fun ht => hv ht.2)
  by_cases htable : (laid (laid (.object defaults) lower) upper).IsTable
  · obtain ⟨fields, hfields⟩ := id htable
    rw [hfields] at h
    have hfield : Fields.get? fields field = some v := h
    have hupperTable : ∀ w, upper = some w → w.IsTable := by
      rintro w rfl
      simpa using isTable_laid.mp htable
    by_cases hlowerTable : ∀ w, lower = some w → w.IsTable
    · rw [bind_part_of_isTable hlowerTable, bind_part_of_isTable hupperTable, ← hfield]
      exact (get?_of_laid_laid hdefaults hdefault hlower hupper hfields field).imp_right
        fun ⟨hl, hu, hk⟩ => ⟨hl, hu, hk.symm⟩
    · simp only [not_forall] at hlowerTable
      obtain ⟨w, rfl, hw⟩ := hlowerTable
      rw [laid_of_not_isTable hw] at hfields
      rw [bind_part_of_isTable hupperTable, fields_of_laid hw hfields, hfield]
      exact .inl (hover _)
  · cases upper with
    | some w =>
        have hw : ¬w.IsTable := fun ht => htable (isTable_laid.mpr (.inl ⟨w, rfl, ht⟩))
        rw [laid_of_not_isTable hw] at h
        rw [Option.bind_some, h]
        exact .inl (hover _)
    | none =>
        cases lower with
        | none => exact absurd ⟨defaults, rfl⟩ htable
        | some w =>
            have hw : ¬w.IsTable := fun ht =>
              htable (isTable_laid.mpr (.inr ⟨rfl, isTable_laid.mpr (.inl ⟨w, rfl, ht⟩)⟩))
            have hbase : laid (laid (.object defaults) (some w)) none = w := laid_of_not_isTable hw
            rw [hbase] at h
            rw [Option.bind_some, h]
            exact .inl (.lower _)

end LoggingConfig

namespace SessionConfig

open Value CompilerOptions

variable {α : Type} {file environment : Fields} {c : SessionConfig} {k : String} {v : Value}

/-- What the layers say about an option: the one of the variables' keys that wins counts over the settings file. -/
def OptionIs (file environment : Fields) (k : String) (v : Value) : Prop :=
  Layered ((file.table "compiler").get? k) (Winner (environment.table "compiler") k) v

/-- What the layers say about a part of the logging settings. -/
def LoggingIs (file environment : Fields) (field : String) (place : Nat) (v : Value) : Prop :=
  Layered ((file.get? "logging").bind (LoggingConfig.part field place))
    (fun w => (environment.get? "logging").bind (LoggingConfig.part field place) = some w) v

/-- Every option is what the layers say about it, or its default where they say nothing. -/
structure Obeys (file environment : Fields) (c : SessionConfig) : Prop where
  target : Settles (OptionIs file environment "target") (Chooses ScriptTarget.choices) .es3 c.compiler.target
  moduleKind : Settles (OptionIs file environment "module") (Chooses ModuleKind.choices) .commonJs c.compiler.moduleKind
  sourceMap : Settles (OptionIs file environment "sourceMap") Switches true c.compiler.sourceMap
  verbose : Settles (OptionIs file environment "verbose") Switches false c.compiler.verbose
  ascending : Fields.Ascending c.compiler.extra
  extra : ∀ k v, (k, v) ∈ c.compiler.extra ↔ k ∉ typedKeys ∧ ∃ w, OptionIs file environment k w ∧ v = w.plain
  level : Settles (LoggingIs file environment "level" 0) Spells "info" c.logging.level
  format : Settles (LoggingIs file environment "format" 1) (Chooses LogFormat.choices) .pretty c.logging.format

theorem optionIs_iff (h : environment.AreSettings) : OptionIs file environment k v ↔
    OverField ((file.table "compiler").get? k) ((canonicalFields (environment.table "compiler")).get? k) (some v) :=
  layered_iff fun _ => winner_iff (h.table _).ascending

theorem loggingIs_iff {field : String} {place : Nat} : LoggingIs file environment field place v ↔
    OverField ((file.get? "logging").bind (LoggingConfig.part field place))
      ((environment.get? "logging").bind (LoggingConfig.part field place)) (some v) :=
  layered_iff fun _ => Iff.rfl

/-! ## The layers -/

theorem areSettings_canonicalFields {fields : Fields} (h : fields.AreSettings) :
    (canonicalFields fields).AreSettings := by
  refine .ofList fun f hf => ?_
  obtain ⟨g, hg, rfl⟩ := List.mem_map.mp hf
  exact h.isSetting g hg

theorem areSettings_canonicalSettings (h : environment.AreSettings) : (canonicalSettings environment).AreSettings := by
  unfold canonicalSettings
  split
  · rename_i options hoptions
    exact h.set (isSetting_object_iff.mpr (areSettings_canonicalFields (isSetting_object_iff.mp (h.of_get? hoptions))))
  · exact h

theorem get?_canonicalSettings (hk : k ≠ "compiler") : (canonicalSettings environment).get? k = environment.get? k := by
  unfold canonicalSettings
  split
  · rw [Fields.get?_set, if_neg (Ne.symm hk)]
  · rfl

theorem table_canonicalSettings :
    (canonicalSettings environment).table "compiler" = canonicalFields (environment.table "compiler") := by
  unfold canonicalSettings Fields.table
  split
  · rename_i options hoptions
    rw [Fields.get?_set, if_pos rfl, hoptions]
    rfl
  · rename_i hno
    cases hv : environment.get? "compiler" with
    | none => rfl
    | some v =>
        cases v with
        | object options => exact absurd hv (hno options)
        | _ => rfl

/-- What lies under the two layers. -/
def defaults : Fields := [("compiler", CompilerOptions.toValue {}), ("logging", LoggingConfig.toValue {})]

theorem get?_layers {default : Value} (hfile : file.AreSettings) (henvironment : environment.AreSettings)
    (hdefault : defaults.get? k = some default) :
    (layers file environment).get? k = some (laid (laid default (file.get? k)) (environment.get? k)) := by
  change Fields.get? (mergeFields (mergeFields defaults file) environment) k = _
  rw [get?_mergeFields henvironment.ascending, get?_mergeFields hfile.ascending, hdefault]
  cases file.get? k <;> cases environment.get? k <;> rfl

theorem areSettings_toFields : (CompilerOptions.toFields {}).AreSettings := by
  refine .set (.set (.set (.set .nil ?_) ?_) ?_) ?_ <;> constructor

theorem areSettings_loggingDefaults : LoggingConfig.defaults.AreSettings :=
  ⟨by decide, List.forall_mem_cons.mpr ⟨.string _, List.forall_mem_cons.mpr ⟨.string _, nofun⟩⟩⟩

theorem areSettings_layers (hfile : file.AreSettings) (henvironment : environment.AreSettings) :
    (layers file environment).AreSettings := by
  have hdefaults : defaults.AreSettings :=
    ⟨by decide, List.forall_mem_cons.mpr ⟨isSetting_object_iff.mpr areSettings_toFields,
      List.forall_mem_cons.mpr ⟨isSetting_object_iff.mpr areSettings_loggingDefaults, nofun⟩⟩⟩
  exact areSettings_mergeFields (areSettings_mergeFields hdefaults hfile) henvironment

/-! ## Reading the layers -/

theorem OptionIs.unique {w : Value} (h : environment.AreSettings) (hv : OptionIs file environment k v)
    (hw : OptionIs file environment k w) : v = w :=
  Option.some.inj (((optionIs_iff h).mp hv).unique ((optionIs_iff h).mp hw))

/-- An option is what the layers say about it. Where they say nothing it is the default, or it is left out. -/
def Follows (file environment options : Fields) (k : String) : Prop :=
  (∃ v, options.get? k = some v ∧ OptionIs file environment k v) ∨
    (∀ v, ¬OptionIs file environment k v) ∧
      (options.get? k = none ∨ options.get? k = Fields.get? (CompilerOptions.toFields {}) k)

theorem follows_of_layers {options : Fields} (hfile : file.AreSettings) (henvironment : environment.AreSettings)
    (h : (layers file (canonicalSettings environment)).get? "compiler" = some (.object options)) (k : String) :
    Follows file environment options k := by
  have hcanonical := areSettings_canonicalSettings henvironment
  have hleaf (key : String) (v : Value) (hv : Fields.get? (CompilerOptions.toFields {}) key = some v) : ¬v.IsTable := by
    rw [get?_toFields] at hv
    rintro ⟨fields, rfl⟩
    split_ifs at hv <;> cases hv
  rw [get?_layers hfile hcanonical rfl, Option.some.injEq] at h
  have hk := get?_of_laid_laid areSettings_toFields hleaf (fun _ => hfile.of_get?) (fun _ => hcanonical.of_get?) h k
  have htable : fields? ((canonicalSettings environment).get? "compiler") =
      canonicalFields (environment.table "compiler") := table_canonicalSettings
  rw [htable] at hk
  change OverField ((file.table "compiler").get? k) _ _ ∨ (file.table "compiler").get? k = none ∧ _ at hk
  simp only [Follows, optionIs_iff henvironment]
  rcases hk with hover | ⟨hfilek, henvironmentk, hoption⟩
  · cases hv : options.get? k with
    | some v => exact .inl ⟨v, rfl, hv ▸ hover⟩
    | none =>
        rw [hv] at hover
        refine .inr ⟨fun v hgiven => ?_, .inl rfl⟩
        cases hover.unique hgiven
  · rw [hfilek, henvironmentk]
    exact .inr ⟨nofun, .inr hoption⟩

theorem settles_of_typed {key : String} {default a : α} {w : Value} {options : Fields} {reads : Value → α → Prop}
    {read : List String → Value → Except SettingError α} (hoptions : options.AreSettings)
    (hk : Follows file environment options key)
    (hdefault : Fields.get? (CompilerOptions.toFields {}) key = some w) (hw : read ["compiler", key] w = .ok default)
    (hread : ∀ {v}, v.IsSetting → read ["compiler", key] v = .ok a → reads v a)
    (h : typed options ["compiler"] key default read = .ok a) :
    Settles (OptionIs file environment key) reads default a := by
  unfold typed at h
  rcases hk with ⟨v, hv, hgiven⟩ | ⟨hno, hnone | hv⟩
  · rw [hv] at h
    exact .inl ⟨v, hgiven, hread (hoptions.of_get? hv) h⟩
  · rw [hnone] at h
    exact .inr ⟨hno, (Except.ok.inj h).symm⟩
  · rw [hv, hdefault] at h
    exact .inr ⟨hno, (Except.ok.inj (hw.symm.trans h)).symm⟩

/-- What is not typed is kept as the layers say it, but for what no data format can hold. -/
theorem mem_extra_iff {options : Fields} (henvironment : environment.AreSettings) (hoptions : options.AreSettings)
    (hk : Follows file environment options k) :
    (k, v) ∈ plainFields (untyped options) ↔ k ∉ typedKeys ∧ ∃ w, OptionIs file environment k w ∧ v = w.plain := by
  have hmem (w : Value) : (k, w) ∈ untyped options ↔ k ∉ typedKeys ∧ OptionIs file environment k w := by
    rw [Fields.mem_iff_get? (ascending_untyped hoptions.ascending).nodup, get?_untyped]
    by_cases htyped : k ∈ typedKeys
    · simp [htyped]
    · simp only [htyped, if_false, not_false_eq_true, true_and]
      rcases hk with ⟨u, hu, hgiven⟩ | ⟨hno, hnone⟩
      · rw [hu, Option.some.injEq]
        exact ⟨fun he => he ▸ hgiven, hgiven.unique henvironment⟩
      · rw [get?_toFields_of_not_mem htyped] at hnone
        rw [hnone.elim id id]
        exact ⟨nofun, fun hw => absurd hw (hno w)⟩
  rw [plainFields_eq_map, List.mem_map]
  constructor
  · rintro ⟨⟨key, w⟩, hw, he⟩
    cases he
    obtain ⟨htyped, hgiven⟩ := (hmem w).mp hw
    exact ⟨htyped, w, hgiven, rfl⟩
  · rintro ⟨htyped, w, hgiven, rfl⟩
    exact ⟨(k, w), (hmem w).mpr ⟨htyped, hgiven⟩, rfl⟩

theorem readCompiler_eq_ok {fields : Fields} {o : CompilerOptions} {v : Value} (hv : fields.get? "compiler" = some v)
    (h : readCompiler fields = .ok o) :
    ∃ options, v = .object options ∧ CompilerOptions.ofFields ["compiler"] options = .ok o := by
  unfold readCompiler at h
  rw [hv] at h
  cases v with
  | object options => exact ⟨options, rfl, h⟩
  | _ => cases h

theorem readLogging_eq_ok {fields : Fields} {logging : LoggingConfig} {v : Value} (hv : fields.get? "logging" = some v)
    (h : readLogging fields = .ok logging) : LoggingConfig.ofValue ["logging"] v = .ok logging := by
  unfold readLogging at h
  rwa [hv] at h

/-- What is read for a part of the logging settings is what the layers say, or a default. -/
theorem settles_of_part {field : String} {place : Nat} {default a : α} {w : Value} {reads : Value → α → Prop}
    (hfile : file.AreSettings) (henvironment : environment.AreSettings)
    (hv : LoggingConfig.part field place
      (laid (laid (LoggingConfig.toValue {}) (file.get? "logging")) (environment.get? "logging")) = some v)
    (ha : reads v a) (htable : ¬v.IsTable)
    (hdefault : LoggingConfig.defaults.get? field = some w)
    (hw : ∀ {b}, reads w b → b = default) : Settles (LoggingIs file environment field place) reads default a := by
  have hleaf (key : String) (v : Value) (hv : LoggingConfig.defaults.get? key = some v) : ¬v.IsTable := by
    rw [LoggingConfig.defaults, Fields.get?_cons, Fields.get?_cons] at hv
    rintro ⟨fields, rfl⟩
    split_ifs at hv <;> cases hv
  have hpart := LoggingConfig.part_of_laid_laid areSettings_loggingDefaults hleaf (fun _ => hfile.of_get?)
    (fun _ => henvironment.of_get?) hv htable
  unfold Settles
  simp only [loggingIs_iff]
  rcases hpart with hover | ⟨hfilek, henvironmentk, hk⟩
  · exact .inl ⟨v, hover, ha⟩
  · rw [hfilek, henvironmentk]
    cases hdefault.symm.trans hk
    exact .inr ⟨nofun, hw ha⟩

theorem obeys_of_ofFields (hfile : file.AreSettings) (henvironment : environment.AreSettings)
    (h : ofFields (layers file (canonicalSettings environment)) = .ok c) : Obeys file environment c := by
  have hcanonical := areSettings_canonicalSettings henvironment
  obtain ⟨compiler, hcompiler, h⟩ := bind_eq_ok_iff.mp h
  obtain ⟨logging, hlogging, h⟩ := bind_eq_ok_iff.mp h
  obtain rfl : { compiler, logging } = c := by
    split at h
    · exact Except.ok.inj h
    · cases h
  have hlayer : (layers file (canonicalSettings environment)).get? "compiler" = _ := get?_layers hfile hcanonical rfl
  obtain ⟨options, hoptions, hcompiler⟩ := readCompiler_eq_ok hlayer (mapError_eq_ok_iff.mp hcompiler)
  rw [hoptions] at hlayer
  have hk := follows_of_layers hfile henvironment hlayer
  have hsettings : Fields.AreSettings options :=
    isSetting_object_iff.mp ((areSettings_layers hfile hcanonical).of_get? hlayer)
  obtain ⟨htarget, hmodule, hsourceMap, hverbose, hextra⟩ := ofFields_eq_ok_iff.mp hcompiler
  have hloggingLayer : (layers file (canonicalSettings environment)).get? "logging" = _ :=
    get?_layers hfile hcanonical rfl
  have hread := readLogging_eq_ok hloggingLayer (mapError_eq_ok_iff.mp hlogging)
  have hsetting := (areSettings_layers hfile hcanonical).of_get? hloggingLayer
  obtain ⟨⟨level, hlevel, hreadLevel⟩, format, hformat, hreadFormat⟩ := LoggingConfig.ofValue_eq_ok hsetting hread
  rw [get?_canonicalSettings (by decide)] at hlevel hformat
  exact {
    target :=
      settles_of_typed hsettings (hk _) rfl rfl (fun hv => (asChoice_eq_ok_iff_chooses (by decide) hv).mp) htarget
    moduleKind :=
      settles_of_typed hsettings (hk _) rfl rfl (fun hv => (asChoice_eq_ok_iff_chooses (by decide) hv).mp) hmodule
    sourceMap := settles_of_typed hsettings (hk _) rfl rfl (fun _ => asBool_eq_ok_iff.mp) hsourceMap
    verbose := settles_of_typed hsettings (hk _) rfl rfl (fun _ => asBool_eq_ok_iff.mp) hverbose
    ascending := by
      rw [← hextra, plainFields_eq_map]
      exact List.pairwise_map.mpr (ascending_untyped hsettings.ascending)
    extra := fun k v => hextra ▸ mem_extra_iff henvironment hsettings (hk k)
    level := settles_of_part hfile henvironment hlevel hreadLevel hreadLevel.not_isTable rfl fun h => by cases h; rfl
    format := settles_of_part hfile henvironment hformat hreadFormat hreadFormat.not_isTable rfl fun h => by
      cases h with
      | name hm => simpa [LogFormat.choices] using hm }

/-! ## One spelling, and one option at a time -/

theorem canonical_of_optionIs (hfile : ∀ f ∈ file.table "compiler", OptionKey.canonical f.1 = f.1)
    (hsettings : file.AreSettings) (h : OptionIs file environment k v) : OptionKey.canonical k = k := by
  have hwinner {w : Value} (hw : Winner (environment.table "compiler") k w) : OptionKey.canonical k = k := by
    obtain ⟨key, -, rfl, -⟩ := hw
    exact OptionKey.canonical_canonical key
  cases h with
  | lower hv => exact hfile (k, v) ((Fields.mem_iff_get? (hsettings.table _).ascending.nodup).mpr hv)
  | upper _ hw => exact hwinner hw
  | both _ hw => exact hwinner hw

theorem Obeys.settled (h : Obeys file environment c) (hsettings : file.AreSettings)
    (hfile : ∀ f ∈ file.table "compiler", OptionKey.canonical f.1 = f.1) : Settled c.compiler where
  ascending := h.ascending
  untyped := fun f hf => ((h.extra f.1 f.2).mp hf).1
  canonical := fun f hf => by
    obtain ⟨-, w, hw, -⟩ := (h.extra f.1 f.2).mp hf
    exact canonical_of_optionIs hfile hsettings hw
  plain := by
    rw [plainFields_eq_map]
    refine (List.map_congr_left fun f hf => ?_).trans (List.map_id' _)
    obtain ⟨-, w, -, hplain⟩ := (h.extra f.1 f.2).mp hf
    rw [hplain, plain_plain, ← hplain]

/-- No two options, typed or not, are spellings of one. -/
theorem Obeys.nodup_canonical (h : Obeys file environment c) (hsettings : file.AreSettings)
    (hfile : ∀ f ∈ file.table "compiler", OptionKey.canonical f.1 = f.1) :
    (c.compiler.toFields.map fun f => OptionKey.canonical f.1).Nodup := by
  have hsettled := h.settled hsettings hfile
  rw [List.map_congr_left fun f hf => hsettled.canonical_of_mem_toFields hf]
  exact hsettled.ascending_toFields.nodup

/-- What is loaded for an option depends only on what the layers say about it. -/
theorem Obeys.get?_toFields_congr {file' environment' : Fields} {c' : SessionConfig}
    (henvironment : environment.AreSettings) (h : Obeys file environment c) (h' : Obeys file' environment' c')
    (hsame : OptionIs file environment k = OptionIs file' environment' k) :
    Fields.get? c.compiler.toFields k = Fields.get? c'.compiler.toFields k := by
  have hunique {v w : Value} : OptionIs file environment k v → OptionIs file environment k w → v = w :=
    fun hv hw => hv.unique henvironment hw
  by_cases hk : k ∈ typedKeys
  · simp only [typedKeys, List.mem_cons, List.not_mem_nil, or_false] at hk
    simp only [get?_toFields]
    rcases hk with rfl | rfl | rfl | rfl
    · simp [h.moduleKind.unique (hsame ▸ h'.moduleKind) hunique (Chooses.unique (by decide))]
    · simp [h.sourceMap.unique (hsame ▸ h'.sourceMap) hunique Switches.unique]
    · simp [h.target.unique (hsame ▸ h'.target) hunique (Chooses.unique (by decide))]
    · simp [h.verbose.unique (hsame ▸ h'.verbose) hunique Switches.unique]
  · rw [get?_toFields_of_not_mem hk, get?_toFields_of_not_mem hk]
    refine Option.ext fun v => ?_
    rw [← Fields.mem_iff_get? h.ascending.nodup, ← Fields.mem_iff_get? h'.ascending.nodup, h.extra, h'.extra, hsame]

theorem winner_imp {fields fields' : Fields} (h : fields.Ascending) (h' : fields'.Ascending)
    (hsame : ∀ key, OptionKey.canonical key = k → fields.get? key = fields'.get? key) (hv : Winner fields k v) :
    Winner fields' k v := by
  have hmem {key : String} {w : Value} (hk : OptionKey.canonical key = k) : (key, w) ∈ fields ↔ (key, w) ∈ fields' := by
    rw [Fields.mem_iff_get? h.nodup, Fields.mem_iff_get? h'.nodup, hsame key hk]
  obtain ⟨key, hm, hk, hlast⟩ := hv
  exact ⟨key, (hmem hk).mp hm, hk, fun f hf hfk => hlast f ((hmem hfk).mpr hf) hfk⟩

theorem exists_winner_iff {fields : Fields} (h : fields.Ascending) :
    (∃ v, Winner fields k v) ↔ ∃ key, (fields.get? key).isSome ∧ OptionKey.canonical key = k := by
  have hfields : (∃ f ∈ fields, OptionKey.canonical f.1 = k) ↔
      ∃ key, (fields.get? key).isSome ∧ OptionKey.canonical key = k := by
    simp only [Option.isSome_iff_exists, ← Fields.mem_iff_get? h.nodup, Prod.exists, exists_and_right]
  rw [← hfields, ← isSome_get?_canonicalFields_iff, Option.isSome_iff_exists]
  exact exists_congr fun v => winner_iff h

end SessionConfig

end ImportCheck

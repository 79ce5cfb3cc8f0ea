import ImportCheck.Json.Printer
import ImportCheck.Proofs.Options.Envelope
import ImportCheck.Proofs.Options.Layers
import ImportCheck.Proofs.Options.Variable
import ImportCheck.Proofs.Toml.Lines

/-!
# What a session loads

A session loads what is said by the variables over what is said by the settings file. What is said about an option by
the variables is what those of them say that spell it, and what is loaded for it depends on nothing else.
-/

namespace ImportCheck.SessionConfig

open Value CompilerOptions

variable {file file' : Option String} {environment environment' : List (String × String)}
  {said said' given given' : Fields} {c c' : SessionConfig} {k table : String}

/-! ## What is said -/

/-- What is said by a settings file, if there is one: what it holds, with the envelopes opened. -/
inductive FileSays : Option String → Fields → Prop
  | nothing : FileSays none []
  | file {text : String} {raw said : Fields} (hraw : Toml.Holds text raw) (hsaid : Envelope.OpenedEach raw said) :
      FileSays (some text) said

/-- What is said by variables: what they make of nothing in the order of their names, with the envelopes opened. -/
def EnvironmentSays (environment : List (String × String)) (given : Fields) : Prop :=
  ∃ raw, Variable.Says [] (Variable.byName environment) raw ∧ Envelope.OpenedEach raw given

theorem FileSays.areSettings (h : FileSays file said) : said.AreSettings := by
  cases h with
  | nothing => exact .nil
  | file hraw hsaid => exact hsaid.areSettings (Toml.areSettings_document? hraw.read)

theorem FileSays.unique (h : FileSays file said) (h' : FileSays file said') : said = said' := by
  cases h with
  | nothing =>
      cases h'
      rfl
  | file hraw hsaid =>
      cases h' with
      | file hraw' hsaid' =>
          cases hraw.read.symm.trans hraw'.read
          exact hsaid.unique hsaid'

/-- Where sections are written in a file and none is an envelope, it says nothing under other keys than theirs. -/
theorem FileSays.key_mem {text : String} {sections : List (String × List (String × Value))} {name : String}
    {fields : List (String × Value)} {f : String × Value} (h : FileSays (some text) said)
    (hwritten : Toml.WrittenFile sections text.toList) (hsection : (name, fields) ∈ sections)
    (hplain : "___figment_value_value" ∉ fields.map (·.1)) (hf : f ∈ said.table name) : f.1 ∈ fields.map (·.1) := by
  have hget : (said.table name).get? f.1 = some f.2 :=
    (Fields.mem_iff_get? (h.areSettings.table name).ascending.nodup).mp hf
  cases h with
  | @file _ raw _ hraw hsaid =>
      have htable : raw.table name = Fields.ofList fields := by
        have hnames : ((sections.map fun s => (s.1, Value.ofFields s.2)).map (·.1)).Nodup := by
          rw [List.map_map]
          exact hwritten.names
        have hmem := List.mem_map_of_mem (f := fun s => (s.1, Value.ofFields s.2)) hsection
        have hname := (Fields.mem_iff_get?_ofList hnames).mp hmem
        rw [hraw.written sections hwritten, Fields.table, hname]
        rfl
      have hvalue : (raw.table name).get? Envelope.valueKey = none := by
        rw [htable]
        exact Option.eq_none_iff_forall_ne_some.mpr fun v hv =>
          hplain (List.mem_map_of_mem (Fields.mem_of_get?_ofList hv))
      obtain ⟨v, hv⟩ := Option.isSome_iff_exists.mp
        ((hsaid.opens_table name).isSome_of_isSome hvalue (Option.isSome_of_eq_some hget))
      rw [htable] at hv
      exact List.mem_map.mpr ⟨(f.1, v), Fields.mem_of_get?_ofList hv, rfl⟩

theorem fileSays_of_ofFile {text : String} (h : ofFile text = .ok said) : FileSays (some text) said := by
  unfold ofFile at h
  split at h
  · rename_i opened hopened
    cases h
    obtain ⟨raw, hraw, hopen⟩ := Option.map_eq_some_iff.mp hopened
    exact .file (Toml.holds_iff.mpr hraw) (Envelope.openedEach_of_openEach (Toml.areSettings_document? hraw) hopen)
  · cases h

namespace EnvironmentSays

theorem opened (h : EnvironmentSays environment given) :
    Envelope.OpenedEach (Variable.settings environment) given := by
  obtain ⟨raw, hraw, hgiven⟩ := h
  exact hraw.unique (Variable.says_settings environment) ▸ hgiven

theorem areSettings (h : EnvironmentSays environment given) : given.AreSettings :=
  h.opened.areSettings (Variable.areSettings_settings environment)

theorem unique (h : EnvironmentSays environment given) (h' : EnvironmentSays environment given') : given = given' :=
  h.opened.unique h'.opened

end EnvironmentSays

theorem environmentSays_of_openEach (h : Envelope.openEach (Variable.settings environment) = .ok given) :
    EnvironmentSays environment given :=
  ⟨_, Variable.says_settings environment,
    Envelope.openedEach_of_openEach (Variable.areSettings_settings environment) h⟩

theorem load_eq_ok (h : load file environment = .ok c) : ∃ said given, FileSays file said ∧
    EnvironmentSays environment given ∧ ofFields (layers said (canonicalSettings given)) = .ok c := by
  obtain ⟨upper, hupper, h⟩ := bind_eq_ok_iff.mp h
  obtain ⟨given, hopened, hcanonical⟩ := bind_eq_ok_iff.mp hupper
  cases hcanonical
  have hgiven := environmentSays_of_openEach (mapError_eq_ok_iff.mp hopened)
  cases file with
  | none => exact ⟨[], given, .nothing, hgiven, h⟩
  | some text =>
      obtain ⟨said, hsaid, h⟩ := bind_eq_ok_iff.mp h
      exact ⟨said, given, fileSays_of_ofFile hsaid, hgiven, h⟩

/-! ## What is said about an option -/

/-- What is in a table of settings is what the variables make of its keys. -/
structure IsGiven (environment : List (String × String)) (given : Fields) (table : String) : Prop where
  made : ∀ key, ∃ raw, Variable.Makes table key none (Variable.byName environment) raw ∧
    Option.Rel Envelope.Opened raw ((given.table table).get? key)
  leaves : ∀ key, ((given.table table).get? key).isSome ↔ Variable.Leaves environment table key

theorem EnvironmentSays.isGiven (h : EnvironmentSays environment given)
    (hplain : Variable.NoEnvelope table environment) : IsGiven environment given table := by
  have hnone (key : String) (hkey : ['_', '_'] <:+: key.toList)
      (hno : ∀ x ∈ environment, Variable.Names x.1 [table] → ¬Variable.Gives table key x) :
      ((Variable.settings environment).table table).get? key = none := by
    rw [Variable.get?_table_settings, ← Option.not_isSome_iff_eq_none, Variable.isSome_given_iff]
    rintro ⟨before, x, after, hsplit, hgives, -⟩
    have hx : x ∈ environment := List.mem_mergeSort.mp (hsplit ▸ by simp : x ∈ Variable.byName environment)
    exact hno x hx (Variable.names_of_gives hgives hkey) hgives
  have hvalue := hnone Envelope.valueKey (by decide) fun x hx hkeys => (hplain x hx hkeys).1
  have hid := hnone Envelope.idKey (by decide) fun x hx hkeys => (hplain x hx hkeys).2
  have hopened (key : String) : Option.Rel Envelope.Opened
      (((Variable.settings environment).table table).get? key) ((given.table table).get? key) :=
    (h.opened.opens_table table).rel_get? hvalue hid
  refine ⟨fun key => ⟨_, Variable.makes_settings environment table key, hopened key⟩, fun key => ?_⟩
  rw [← Variable.isSome_given_iff, ← Variable.get?_table_settings]
  exact isSome_iff_of_rel (hopened key)

/-- The variable says something about the option, whatever the spelling: it gives it, or an envelope for all options, or
puts something else in place of the table of options. -/
def Concerns (k : String) (x : String × String) : Prop :=
  (∃ key, (OptionKey.canonical key = k ∨ key = "___figment_value_value") ∧ Variable.Gives "compiler" key x) ∨
    Variable.Replaces "compiler" x

theorem winner_congr (h : EnvironmentSays environment given) (h' : EnvironmentSays environment' given')
    (hnames : (environment.map (·.1)).Nodup) (hnames' : (environment'.map (·.1)).Nodup)
    (hsame : ∀ x, Concerns k x → (x ∈ environment ↔ x ∈ environment')) :
    Winner (given.table "compiler") k = Winner (given'.table "compiler") k := by
  have hraw (key : String) (hkey : OptionKey.canonical key = k ∨ key = "___figment_value_value") :
      ((Variable.settings environment).table "compiler").get? key =
        ((Variable.settings environment').table "compiler").get? key := by
    rw [Variable.get?_table_settings, Variable.get?_table_settings]
    exact Variable.given_congr hnames hnames' fun x hx => hsame x (hx.imp_left fun hgives => ⟨key, hkey, hgives⟩)
  have hopened (key : String) (hkey : OptionKey.canonical key = k) :
      (given.table "compiler").get? key = (given'.table "compiler").get? key :=
    (h.opened.opens_table "compiler").get?_congr (h'.opened.opens_table "compiler") (hraw _ (.inr rfl))
      (hraw key (.inl hkey))
  have hgiven := (h.areSettings.table "compiler").ascending
  have hgiven' := (h'.areSettings.table "compiler").ascending
  funext v
  exact propext ⟨winner_imp hgiven hgiven' hopened, winner_imp hgiven' hgiven fun key hkey => (hopened key hkey).symm⟩

/-! ## Loading -/

/-- Every option is what the variables say over what the settings file says, or its default. The variables say something
about an option if and only if one gives it in some spelling and no later one replaces the table. Where the file uses
canonical keys no option is there twice. What is loaded for an option stays the same whatever else is said in the file
and by the variables. -/
theorem load_option_by_option {file : Option String} {environment : List (String × String)} {c : SessionConfig}
    (h : load file environment = .ok c) :
    ∃ said given, FileSays file said ∧ EnvironmentSays environment given ∧ Obeys said given c ∧
    (∀ table, Variable.NoEnvelope table environment → IsGiven environment given table) ∧
    (Variable.NoEnvelope "compiler" environment → ∀ k,
      (∃ v, Winner (given.table "compiler") k v) ↔
        ∃ key, Variable.Leaves environment "compiler" key ∧ OptionKey.canonical key = k) ∧
    ((∀ f ∈ said.table "compiler", OptionKey.canonical f.1 = f.1) →
      (c.compiler.toFields.map fun f => OptionKey.canonical f.1).Nodup) ∧
    ∀ {file' : Option String} {environment' : List (String × String)} {c' : SessionConfig} {said' : Fields},
      load file' environment' = .ok c' → FileSays file' said' →
      (environment.map (·.1)).Nodup → (environment'.map (·.1)).Nodup →
      ∀ k, (said.table "compiler").get? k = (said'.table "compiler").get? k →
        (∀ x, Concerns k x → (x ∈ environment ↔ x ∈ environment')) →
        Fields.get? c.compiler.toFields k = Fields.get? c'.compiler.toFields k := by
  obtain ⟨said, given, hsaid, hgiven, hload⟩ := load_eq_ok h
  have hobeys := obeys_of_ofFields hsaid.areSettings hgiven.areSettings hload
  refine ⟨said, given, hsaid, hgiven, hobeys, fun table => hgiven.isGiven, fun hplain k => ?_,
    hobeys.nodup_canonical hsaid.areSettings, ?_⟩
  · rw [exists_winner_iff (hgiven.areSettings.table _).ascending]
    simp only [(hgiven.isGiven hplain).leaves]
  · intro file' environment' c' said' h' hsaid' hnames hnames' k hfile hsame
    obtain ⟨_, given', hread, hgiven', hload'⟩ := load_eq_ok h'
    cases hread.unique hsaid'
    have hobeys' := obeys_of_ofFields hsaid'.areSettings hgiven'.areSettings hload'
    refine hobeys.get?_toFields_congr hgiven.areSettings hobeys' ?_
    unfold OptionIs
    rw [hfile, winner_congr hgiven hgiven' hnames hnames' hsame]

/-! ## Two spellings over a file -/

namespace Spellings

def text : String :=
  "# The file's own spelling.\n[compiler]\nnoLib = true\npaths = \x7b a = 1, b = \x7b c = 2 \x7d \x7d\n"

def paths : List (String × Value) := [("a", .number (.signed 1)), ("b", .ofFields [("c", .number (.signed 2))])]

/-- Two spellings of one option, of which the last in key order is the one without underscores. -/
def noLib : List (String × String) := [("TSLOADER__COMPILER__NOLIB", "false"), ("TSLOADER__COMPILER__NO_LIB", "true")]

/-- Other options, and a part of one that is a table. -/
def others : List (String × String) :=
  [("TSLOADER__COMPILER__TARGET", "es6"), ("TSLOADER__LOGGING__LEVEL", "debug"),
    ("tsloader__compiler__paths__b__c", "3")]

/-- What is loaded, written out. -/
def loaded : String :=
  "\x7b\"compiler\":\x7b\"module\":\"commonjs\",\"noLib\":false,\"paths\":\x7b\"a\":1,\"b\":\x7b\"c\":3\x7d\x7d," ++
    "\"sourceMap\":true,\"target\":\"es2015\",\"verbose\":false\x7d," ++
    "\"logging\":\x7b\"format\":\"pretty\",\"level\":\"debug\"\x7d\x7d"

theorem isKey (key : String)
    (h : key = "compiler" ∨ key = "noLib" ∨ key = "paths" ∨ key = "a" ∨ key = "b" ∨ key = "c") :
    Toml.IsKey key.toList := by
  rcases h with rfl | rfl | rfl | rfl | rfl | rfl
  all_goals exact ⟨by simp, by simp⟩

theorem writtenFields_paths : Toml.WrittenFields 1 paths "a = 1, b = \x7b c = 2 \x7d".toList :=
  have hnumber (depth n : Nat) (h : n < 2 ^ 63) : Toml.Written depth (.number (.signed n)) (Nat.toDigits 10 n) :=
    .number h
  .more (isKey "a" (by decide)) (hnumber 1 1 (by decide)) <|
    .last (isKey "b" (by decide)) <| .table (by decide) (by decide) <|
      .last (isKey "c" (by decide)) (hnumber 2 2 (by decide))

theorem writtenFile_text :
    Toml.WrittenFile [("compiler", [("noLib", .bool true), ("paths", .ofFields paths)])] text.toList where
  names := by decide
  lines :=
    have hcomment : ∀ c ∈ " The file's own spelling.".toList, c = '\t' ∨ 32 ≤ c.toNat ∧ c.toNat ≠ 127 := by simp
    ⟨_, _, .comment hcomment .done,
      .header (isKey "compiler" (by decide)) (by decide)
        (.assign (isKey "noLib" (by decide)) .yes <|
          .assign (isKey "paths" (by decide)) (.table (by decide) (by decide) writtenFields_paths) .done)
        .done, by decide +kernel⟩

theorem settings_eq {environment : List (String × String)}
    (h : environment.Pairwise fun x y => decide (x.1 ≤ y.1) = true) :
    Variable.settings environment = environment.foldl Variable.apply [] := by
  rw [Variable.settings_eq_foldl, Variable.byName, List.mergeSort_of_pairwise h]

theorem json_load : (load (some text) (noLib ++ others)).toOption.map (·.toValue.json) = some loaded := by
  rw [load, ofEnvironment, settings_eq (by decide)]
  decide +kernel

theorem isSome_load_noLib : (load (some text) noLib).toOption.isSome := by
  rw [load, ofEnvironment, settings_eq (by decide)]
  decide +kernel

theorem eq_ok_of_toOption {x : Except ConfigError SessionConfig} (h : x.toOption = some c) : x = .ok c := by
  cases x with
  | error => cases h
  | ok => exact congrArg Except.ok (Option.some.inj h)

/-- The variables of other options have nothing to do with this one. -/
theorem not_concerns_others {x : String × String} (hx : x ∈ others) : ¬Concerns "noLib" x := by
  have hkeys : ∃ first second rest, Variable.keys? x.1 = some (first :: second :: rest) ∧
      ¬(OptionKey.canonical second = "noLib" ∨ second = "___figment_value_value") := by
    simp only [others, List.mem_cons, List.not_mem_nil, or_false] at hx
    rcases hx with rfl | rfl | rfl
    · exact ⟨"compiler", "target", [], by decide +kernel, by decide +kernel⟩
    · exact ⟨"logging", "level", [], by decide +kernel, by decide +kernel⟩
    · exact ⟨"compiler", "paths", ["b", "c"], by decide +kernel, by decide +kernel⟩
  obtain ⟨first, second, rest, hkeys, hkey⟩ := hkeys
  rintro (⟨key, hgiven, ⟨keys, h⟩ | ⟨h, -⟩⟩ | ⟨h, -⟩)
  · cases hkeys.symm.trans (Variable.names_iff.mp h)
    exact hkey hgiven
  · cases hkeys.symm.trans (Variable.names_iff.mp h)
  · cases hkeys.symm.trans (Variable.names_iff.mp h)

end Spellings

open Spellings in
theorem load_option_by_option_noLib : ∃ c c',
    load (some text) (noLib ++ others) = .ok c ∧ load (some text) noLib = .ok c' ∧ c.toValue.json = loaded ∧
    (c.compiler.toFields.map fun f => OptionKey.canonical f.1).Nodup ∧
    Fields.get? c.compiler.toFields "noLib" = Fields.get? c'.compiler.toFields "noLib" := by
  obtain ⟨c, hc, hjson⟩ := Option.map_eq_some_iff.mp json_load
  obtain ⟨c', hc'⟩ := Option.isSome_iff_exists.mp isSome_load_noLib
  obtain ⟨said, _, hsaid, -, -, -, -, hnodup, hsame⟩ := load_option_by_option (eq_ok_of_toOption hc)
  have hcanonical : ∀ f ∈ said.table "compiler", OptionKey.canonical f.1 = f.1 := by
    intro f hf
    have hkey := hsaid.key_mem writtenFile_text List.mem_cons_self (by decide) hf
    simp only [List.map_cons, List.map_nil, List.mem_cons, List.not_mem_nil, or_false] at hkey
    rcases hkey with hkey | hkey <;> rw [hkey] <;> decide +kernel
  refine ⟨c, c', eq_ok_of_toOption hc, eq_ok_of_toOption hc', hjson, hnodup hcanonical,
    hsame (eq_ok_of_toOption hc') hsaid (by decide) (by decide) "noLib" rfl fun x hx => ?_⟩
  have hothers : x ∉ others := fun hm => not_concerns_others hm hx
  simp [hothers]

end ImportCheck.SessionConfig

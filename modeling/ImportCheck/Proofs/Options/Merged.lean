import ImportCheck.Proofs.Options.Key
import ImportCheck.Proofs.Value.Read

/-!
# Options laid over the defaults

Of the overrides with one canonical key the last in key order wins. The four typed options are read from what wins, and
whatever else wins is kept as it is. Options that have been written out are read back as they were.
-/

namespace ImportCheck

namespace Value

variable {α : Type} {choices : Choices α} {keys : List String} {v : Value}

/-- A choice is made by one of its names, or by an object that has null under a name as its first key. The other fields
of the object do not count. -/
inductive Picks (choices : Choices α) : Value → α → Prop
  | name {s : String} {a : α} : (s, a) ∈ choices.names → Picks choices (.string s) a
  | field {s : String} {a : α} {rest : Fields} :
      (s, a) ∈ choices.names → Picks choices (.object ((s, .null) :: rest)) a

theorem Picks.object_iff {s : String} {a : α} {rest : Fields} :
    Picks choices (.object ((s, v) :: rest)) a ↔ (s, a) ∈ choices.names ∧ v = .null :=
  ⟨fun | .field hm => ⟨hm, rfl⟩, fun ⟨hm, hnull⟩ => hnull ▸ .field hm⟩

inductive Switches : Value → Bool → Prop
  | bool (b : Bool) : Switches (.bool b) b

theorem choose_eq_ok_iff (keys : List String) {s : String} {a : α} (h : (choices.names.map (·.1)).Nodup) :
    choose choices keys s = .ok a ↔ (s, a) ∈ choices.names := by
  rw [mem_iff_find? h]
  unfold choose
  cases choices.names.find? (·.1 == s) <;> simp [fail]

theorem asChoice_eq_ok_iff {a : α} (h : (choices.names.map (·.1)).Nodup) (hv : v.IsData) :
    asChoice choices keys v = .ok a ↔ Picks choices v a := by
  cases v with
  | string s => exact (choose_eq_ok_iff keys h).trans ⟨.name, fun | .name hm => hm⟩
  | object fields =>
      match fields with
      | [] => exact ⟨nofun, nofun⟩
      | (s, w) :: rest =>
          rw [Picks.object_iff, ← choose_eq_ok_iff (keys ++ [s]) h, asChoice]
          cases choose choices (keys ++ [s]) s with
          | error => simp [bind, Except.bind]
          | ok => cases w <;> simp [bind, Except.bind, pure, Except.pure, fail]
  | number n =>
      cases n with
      | place => exact (by simp only [IsData] at hv : False).elim
      | _ => exact ⟨nofun, nofun⟩
  | _ => exact ⟨nofun, nofun⟩

theorem asBool_eq_ok_iff {b : Bool} : asBool keys v = .ok b ↔ Switches v b := by
  cases v with
  | bool c => exact ⟨fun h => by cases h; exact .bool b, fun | .bool _ => rfl⟩
  | _ => exact ⟨nofun, nofun⟩

end Value

namespace CompilerOptions

variable {α : Type} {fields : Fields} {o : CompilerOptions} {k key : String} {v : Value}

/-- The value of the last key, in key order, that has the canonical key. -/
def Winner (fields : Fields) (k : String) (v : Value) : Prop :=
  ∃ key, (key, v) ∈ fields ∧ OptionKey.canonical key = k ∧
    ∀ f ∈ fields, OptionKey.canonical f.1 = k → f.1 ≤ key

/-- The option is what its winner says, or its default where there is none. -/
def Decides (fields : Fields) (k : String) (reads : Value → α → Prop) (default a : α) : Prop :=
  (∃ v, Winner fields k v ∧ reads v a) ∨ (∀ v, ¬Winner fields k v) ∧ a = default

/-- The winner is no value of the option. -/
def Refuses (fields : Fields) (k : String) (reads : Value → α → Prop) : Prop :=
  ∃ v, Winner fields k v ∧ ∀ a, ¬reads v a

theorem Winner.unique {w : Value} (h : Fields.Ascending fields) (hv : Winner fields k v) (hw : Winner fields k w) :
    v = w := by
  obtain ⟨key, hm, hk, hlast⟩ := hv
  obtain ⟨key', hm', hk', hlast'⟩ := hw
  obtain rfl : key = key' := le_antisymm (hlast' _ hm hk) (hlast _ hm' hk')
  rw [Fields.mem_iff_get? h.nodup] at hm hm'
  exact Option.some.inj (hm.symm.trans hm')

theorem get?_canonicalFields : Fields.get? (canonicalFields fields) k =
    (fields.reverse.find? fun f => OptionKey.canonical f.1 == k).map (·.2) := by
  rw [canonicalFields, Fields.get?_ofList, ← List.map_reverse, Fields.get?, List.find?_map, Option.map_map]
  rfl

/-- The first field from the end that has the canonical key wins. -/
theorem winner_of_get? (h : Fields.Ascending fields) (hv : Fields.get? (canonicalFields fields) k = some v) :
    Winner fields k v := by
  rw [get?_canonicalFields] at hv
  obtain ⟨⟨key, v⟩, hf, rfl⟩ := Option.map_eq_some_iff.mp hv
  obtain ⟨hk, later, earlier, hsplit, hlater⟩ := List.find?_eq_some_iff_append.mp hf
  have hdesc : (later ++ (key, v) :: earlier).Pairwise fun f g => g.1 < f.1 :=
    hsplit ▸ List.pairwise_reverse.mpr h
  refine ⟨key, List.mem_reverse.mp (hsplit ▸ by simp), by simpa using hk, fun g hg hgk => ?_⟩
  rw [← List.mem_reverse, hsplit, List.mem_append, List.mem_cons] at hg
  rcases hg with hg | rfl | hg
  · exact absurd hgk (by simpa using hlater g hg)
  · exact le_rfl
  · exact ((List.pairwise_cons.mp (List.pairwise_append.mp hdesc).2.1).1 g hg).le

theorem isSome_get?_canonicalFields_iff :
    (Fields.get? (canonicalFields fields) k).isSome ↔ ∃ f ∈ fields, OptionKey.canonical f.1 = k := by
  rw [get?_canonicalFields, Option.isSome_map, List.find?_isSome]
  simp

theorem winner_iff (h : Fields.Ascending fields) :
    Winner fields k v ↔ Fields.get? (canonicalFields fields) k = some v := by
  refine ⟨fun hv => ?_, winner_of_get? h⟩
  obtain ⟨key, hm, hk, -⟩ := id hv
  obtain ⟨w, hw⟩ := Option.isSome_iff_exists.mp (isSome_get?_canonicalFields_iff.mpr ⟨(key, v), hm, hk⟩)
  rw [hw, (winner_of_get? h hw).unique h hv]

theorem ascending_canonicalFields (fields : Fields) : Fields.Ascending (canonicalFields fields) :=
  Fields.ascending_ofList _

theorem get?_toFields : Fields.get? o.toFields k =
    if "verbose" = k then some (.bool o.verbose) else if "target" = k then some (.string o.target.name)
    else if "sourceMap" = k then some (.bool o.sourceMap) else if "module" = k then some (.string o.moduleKind.name)
    else Fields.get? o.extra k := by
  simp only [toFields, Fields.get?_set]

theorem get?_toFields_of_not_mem (h : k ∉ typedKeys) : Fields.get? o.toFields k = Fields.get? o.extra k := by
  simp only [typedKeys, List.mem_cons, List.not_mem_nil, or_false, not_or] at h
  obtain ⟨hmodule, hsourceMap, htarget, hverbose⟩ := h
  simp only [get?_toFields, Ne.symm hmodule, Ne.symm hsourceMap, Ne.symm htarget, Ne.symm hverbose, if_false]

theorem exists_get?_toFields (o : CompilerOptions) (h : k ∈ typedKeys) : ∃ v, Fields.get? o.toFields k = some v := by
  simp only [typedKeys, List.mem_cons, List.not_mem_nil, or_false] at h
  rcases h with rfl | rfl | rfl | rfl <;> exact ⟨_, get?_toFields⟩

/-- The overrides laid over the defaults. -/
def overlaid (fields : Fields) : Fields := Value.mergeFields (toFields {}) (canonicalFields fields)

theorem ascending_overlaid (fields : Fields) : Fields.Ascending (overlaid fields) :=
  Value.ascending_mergeFields (by decide)

/-- No default is an object, so that an override replaces it. -/
theorem get?_overlaid : Fields.get? (overlaid fields) k =
    (Fields.get? (canonicalFields fields) k).or (Fields.get? (toFields {}) k) := by
  have hreplaced (v : Value) : ((Fields.get? (toFields {}) k).map (Value.merge · v)).getD v = v := by
    rw [get?_toFields]
    split_ifs <;> cases v <;> rfl
  rw [overlaid, Value.get?_mergeFields (ascending_canonicalFields fields)]
  cases Fields.get? (canonicalFields fields) k with
  | none => rfl
  | some v => simp only [hreplaced, Option.some_or]

theorem get?_overlaid_of_not_mem (hk : k ∉ typedKeys) :
    Fields.get? (overlaid fields) k = Fields.get? (canonicalFields fields) k := by
  rw [get?_overlaid, get?_toFields_of_not_mem hk]
  exact Option.or_none

/-! ## Reading -/

/-- The fields of the options that are not typed. -/
def untyped (fields : Fields) : Fields := fields.filter fun f => !typedKeys.contains f.1

theorem ascending_untyped (h : Fields.Ascending fields) : Fields.Ascending (untyped fields) := h.filter _

theorem get?_untyped : Fields.get? (untyped fields) k = if k ∈ typedKeys then none else Fields.get? fields k := by
  rw [untyped, Fields.get?_filter fun key => !typedKeys.contains key]
  by_cases hk : k ∈ typedKeys <;> simp [hk]

theorem ofFields_eq_ok_iff {keys : List String} : ofFields keys fields = .ok o ↔
    typed fields keys "target" .es3 (Value.asChoice ScriptTarget.choices) = .ok o.target ∧
    typed fields keys "module" .commonJs (Value.asChoice ModuleKind.choices) = .ok o.moduleKind ∧
    typed fields keys "sourceMap" true Value.asBool = .ok o.sourceMap ∧
    typed fields keys "verbose" false Value.asBool = .ok o.verbose ∧
    Value.plainFields (untyped fields) = o.extra := by
  unfold ofFields
  obtain ⟨target, moduleKind, sourceMap, verbose, extra⟩ := o
  cases typed fields keys "module" .commonJs (Value.asChoice ModuleKind.choices) <;>
    cases typed fields keys "sourceMap" true Value.asBool <;>
    cases typed fields keys "target" .es3 (Value.asChoice ScriptTarget.choices) <;>
    cases typed fields keys "verbose" false Value.asBool <;>
    simp [bind, Except.bind, pure, Except.pure, untyped]

/-- An option is read from its winner, and from its default where there is none. -/
theorem typed_overlaid {read : List String → Value → Except SettingError α} {reads : Value → α → Prop}
    {default fallback a : α} {w : Value} (h : Fields.Ascending fields)
    (hdefault : Fields.get? (toFields {}) key = some w) (hread : read [key] w = .ok default)
    (hreads : ∀ {v a}, Winner fields key v → (read [key] v = .ok a ↔ reads v a)) :
    typed (overlaid fields) [] key fallback read = .ok a ↔ Decides fields key reads default a := by
  unfold typed Decides
  rw [get?_overlaid, hdefault]
  simp only [winner_iff h] at hreads ⊢
  cases hv : Fields.get? (canonicalFields fields) key with
  | some v => simpa using hreads hv
  | none => simp [hread, eq_comm]

/-- What wins and is not typed is kept under its canonical key. -/
theorem mem_untyped_iff (h : Fields.Ascending fields) :
    (k, v) ∈ untyped (overlaid fields) ↔ k ∉ typedKeys ∧ Winner fields k v := by
  rw [Fields.mem_iff_get? (ascending_untyped (ascending_overlaid fields)).nodup, get?_untyped]
  by_cases hk : k ∈ typedKeys
  · simp [hk]
  · simp [hk, get?_overlaid_of_not_mem hk, winner_iff h]

/-- Options that the overrides give. -/
structure Overridden (fields : Fields) (o : CompilerOptions) : Prop where
  target : Decides fields "target" (Value.Picks ScriptTarget.choices) .es3 o.target
  moduleKind : Decides fields "module" (Value.Picks ModuleKind.choices) .commonJs o.moduleKind
  sourceMap : Decides fields "sourceMap" Value.Switches true o.sourceMap
  verbose : Decides fields "verbose" Value.Switches false o.verbose
  ascending : Fields.Ascending o.extra
  extra : ∀ k v, (k, v) ∈ o.extra ↔ k ∉ typedKeys ∧ Winner fields k v

theorem merged_eq_ok_iff (h : Fields.Ascending fields) (hdata : Value.IsDataFields fields) :
    merged (.object fields) = .ok o ↔ Overridden fields o := by
  have hwinner {k : String} {v : Value} : Winner fields k v → v.IsData :=
    fun ⟨key, hm, _⟩ => Value.isDataFields_iff.mp hdata (key, v) hm
  have hplain : Value.plainFields (untyped (overlaid fields)) = untyped (overlaid fields) :=
    Value.IsDataFields.plainFields_eq _
      (Value.isDataFields_iff.mpr fun f hf => hwinner ((mem_untyped_iff h).mp hf).2)
  have hextra := ascending_untyped (ascending_overlaid fields)
  change ofFields [] (overlaid fields) = .ok o ↔ _
  rw [ofFields_eq_ok_iff, hplain,
    typed_overlaid h rfl rfl fun hw => Value.asChoice_eq_ok_iff (by decide) (hwinner hw),
    typed_overlaid h rfl rfl fun hw => Value.asChoice_eq_ok_iff (by decide) (hwinner hw),
    typed_overlaid h rfl rfl fun _ => Value.asBool_eq_ok_iff,
    typed_overlaid h rfl rfl fun _ => Value.asBool_eq_ok_iff]
  constructor
  · rintro ⟨htarget, hmodule, hsourceMap, hverbose, he⟩
    exact ⟨htarget, hmodule, hsourceMap, hverbose, he ▸ hextra, fun k v => he ▸ mem_untyped_iff h⟩
  · intro ho
    refine ⟨ho.target, ho.moduleKind, ho.sourceMap, ho.verbose, hextra.eq_of_mem_iff ho.ascending fun f => ?_⟩
    exact (mem_untyped_iff h).trans (ho.extra f.1 f.2).symm

theorem refuses_iff {reads : Value → α → Prop} (h : Fields.Ascending fields) (default : α) :
    Refuses fields k reads ↔ ∀ a, ¬Decides fields k reads default a := by
  constructor
  · rintro ⟨v, hv, hno⟩ a (⟨w, hw, ha⟩ | ⟨hnone, -⟩)
    · exact hno a (hv.unique h hw ▸ ha)
    · exact hnone v hv
  · intro hno
    by_cases hv : ∃ v, Winner fields k v
    · obtain ⟨v, hv⟩ := hv
      exact ⟨v, hv, fun a ha => hno a (.inl ⟨v, hv, ha⟩)⟩
    · exact absurd (.inr ⟨not_exists.mp hv, rfl⟩) (hno default)

theorem merged_error_iff (h : Fields.Ascending fields) (hdata : Value.IsDataFields fields) :
    (∃ e, merged (.object fields) = .error e) ↔
      Refuses fields "target" (Value.Picks ScriptTarget.choices) ∨
      Refuses fields "module" (Value.Picks ModuleKind.choices) ∨
      Refuses fields "sourceMap" Value.Switches ∨ Refuses fields "verbose" Value.Switches := by
  have hexcept : (∃ e, merged (.object fields) = .error e) ↔ ∀ o, ¬Overridden fields o := by
    simp only [← merged_eq_ok_iff h hdata]
    cases merged (.object fields) <;> simp
  rw [hexcept, refuses_iff h .es3, refuses_iff h .commonJs, refuses_iff h true, refuses_iff h false]
  constructor
  · intro hno
    by_contra! hall
    obtain ⟨⟨target, htarget⟩, ⟨moduleKind, hmodule⟩, ⟨sourceMap, hsourceMap⟩, ⟨verbose, hverbose⟩⟩ := hall
    exact hno { target, moduleKind, sourceMap, verbose, extra := untyped (overlaid fields) }
      ⟨htarget, hmodule, hsourceMap, hverbose, ascending_untyped (ascending_overlaid fields),
        fun k v => mem_untyped_iff h⟩
  · rintro (hno | hno | hno | hno) o ho
    exacts [hno _ ho.target, hno _ ho.moduleKind, hno _ ho.sourceMap, hno _ ho.verbose]

/-! ## Reading what was written -/

theorem canonical_of_mem_canonicalFields {f : String × Value} (h : f ∈ canonicalFields fields) :
    OptionKey.canonical f.1 = f.1 := by
  obtain ⟨g, -, rfl⟩ := List.mem_map.mp (Fields.mem_of_mem_ofList h)
  exact OptionKey.canonical_canonical g.1

/-- The options that are not typed are under canonical keys and hold plain values. -/
structure Settled (o : CompilerOptions) : Prop where
  ascending : Fields.Ascending o.extra
  untyped : ∀ f ∈ o.extra, f.1 ∉ typedKeys
  canonical : ∀ f ∈ o.extra, OptionKey.canonical f.1 = f.1
  plain : Value.plainFields o.extra = o.extra

theorem settled_of_merged {overrides : Value} (h : merged overrides = .ok o) : Settled o := by
  unfold merged at h
  split at h
  · cases h
    exact ⟨.nil, nofun, nofun, rfl⟩
  · rename_i fields
    change ofFields [] (overlaid fields) = .ok o at h
    obtain ⟨-, -, -, -, he⟩ := ofFields_eq_ok_iff.mp h
    rw [Value.plainFields_eq_map] at he
    have hkey {f : String × Value} (hf : f ∈ o.extra) :
        f.1 ∉ typedKeys ∧ OptionKey.canonical f.1 = f.1 := by
      obtain ⟨⟨key, v⟩, hg, rfl⟩ := List.mem_map.mp (he ▸ hf)
      obtain ⟨hlaid, huntyped⟩ := List.mem_filter.mp hg
      have hk : key ∉ typedKeys := by simpa using huntyped
      rw [Fields.mem_iff_get? (ascending_overlaid fields).nodup, get?_overlaid_of_not_mem hk,
        ← Fields.mem_iff_get? (ascending_canonicalFields fields).nodup] at hlaid
      have hcanonical := canonical_of_mem_canonicalFields hlaid
      exact ⟨hk, hcanonical⟩
    refine ⟨?_, fun f hf => (hkey hf).1, fun f hf => (hkey hf).2, ?_⟩
    · exact he ▸ List.pairwise_map.mpr (ascending_untyped (ascending_overlaid fields))
    · rw [← he, ← Value.plainFields_eq_map, Value.plainFields_plainFields]
  · cases h

namespace Settled

theorem ascending_toFields (h : Settled o) : Fields.Ascending o.toFields := h.ascending.set.set.set.set

theorem get?_extra (h : Settled o) (hk : k ∈ typedKeys) : Fields.get? o.extra k = none := by
  rw [Fields.get?, Option.map_eq_none_iff, List.find?_eq_none]
  exact fun f hf he => h.untyped f hf (by simpa using (beq_iff_eq.mp he) ▸ hk)

theorem canonical_of_mem_toFields (h : Settled o) {f : String × Value} (hf : f ∈ o.toFields) :
    OptionKey.canonical f.1 = f.1 := by
  obtain ⟨key, v⟩ := f
  by_cases hk : key ∈ typedKeys
  · exact (by decide +kernel : ∀ key ∈ typedKeys, OptionKey.canonical key = key) key hk
  · rw [Fields.mem_iff_get? h.ascending_toFields.nodup, get?_toFields_of_not_mem hk,
      ← Fields.mem_iff_get? h.ascending.nodup] at hf
    exact h.canonical _ hf

theorem canonicalFields_toFields (h : Settled o) : canonicalFields o.toFields = o.toFields := by
  rw [canonicalFields, List.map_congr_left fun f hf => by rw [h.canonical_of_mem_toFields hf], List.map_id',
    Fields.ofList_eq_self h.ascending_toFields]

theorem overlaid_toFields (h : Settled o) : overlaid o.toFields = o.toFields := by
  refine (ascending_overlaid _).ext h.ascending_toFields fun k => ?_
  rw [get?_overlaid, h.canonicalFields_toFields]
  by_cases hk : k ∈ typedKeys
  · obtain ⟨v, hv⟩ := exists_get?_toFields o hk
    rw [hv, Option.some_or]
  · rw [get?_toFields_of_not_mem (o := {}) hk]
    exact Option.or_none

theorem untyped_toFields (h : Settled o) : CompilerOptions.untyped o.toFields = o.extra := by
  refine (ascending_untyped h.ascending_toFields).ext h.ascending fun k => ?_
  rw [get?_untyped]
  by_cases hk : k ∈ typedKeys
  · rw [if_pos hk, h.get?_extra hk]
  · rw [if_neg hk, get?_toFields_of_not_mem hk]

end Settled

theorem merged_toValue {overrides : Value} (h : merged overrides = .ok o) : merged o.toValue = .ok o := by
  have ho := settled_of_merged h
  change ofFields [] (overlaid o.toFields) = .ok o
  rw [ho.overlaid_toFields, ofFields_eq_ok_iff, ho.untyped_toFields]
  simp only [typed, get?_toFields, String.reduceEq, if_true, if_false]
  refine ⟨?_, ?_, rfl, rfl, ho.plain⟩
  · cases o.target <;> rfl
  · cases o.moduleKind <;> rfl

/-- Overrides fail if and only if one of the four typed options has a winner that is no value of it. Where they do not
fail, each typed option is what its winner says or else its default, the other options are the other winners, and the
options written out are read back as they are. -/
theorem overrides_win_key_by_key (h : Fields.Ascending fields) (hdata : Value.IsDataFields fields) :
    ((∃ e, merged (.object fields) = .error e) ↔
      Refuses fields "target" (Value.Picks ScriptTarget.choices) ∨
      Refuses fields "module" (Value.Picks ModuleKind.choices) ∨
      Refuses fields "sourceMap" Value.Switches ∨ Refuses fields "verbose" Value.Switches) ∧
    ∀ o, (merged (.object fields) = .ok o ↔ Overridden fields o) ∧
      (merged (.object fields) = .ok o → merged o.toValue = .ok o) :=
  ⟨merged_error_iff h hdata, fun _ => ⟨merged_eq_ok_iff h hdata, merged_toValue⟩⟩

/-! ## Overrides in several spellings -/

namespace Spellings

def quoted (s : String) : StringLiteral := s.toList.map .char

/-- Three spellings of one option, of which the last in key order is null; a typed option in capitals; and an object
that stays as it is. -/
def json : Json := .object [
  (quoted "TARGET", .object [(quoted "es6", .null)]), (quoted "no_lib", .null), (quoted "NO_LIB", .bool true),
  (quoted "paths_of", .object [(quoted "a_b", .array [.null, .number ⟨true, [1], none, none⟩])]),
  (quoted "noLib", .number ⟨false, [1], none, none⟩)]

def overrides : Fields := [
  ("NO_LIB", .bool true), ("TARGET", .object [("es6", .null)]), ("noLib", .ofNat 1), ("no_lib", .null),
  ("paths_of", .object [("a_b", .array [.null, .number (.signed (-1))])])]

def options : CompilerOptions where
  target := .es2015
  extra := [("noLib", .null), ("pathsOf", .object [("a_b", .array [.null, .number (.signed (-1))])])]

theorem value?_json : json.value? = some (.object overrides) := by rfl

end Spellings

open Spellings in
theorem overrides_win_key_by_key_nested :
    Fields.Ascending overrides ∧ Value.IsDataFields overrides ∧ Overridden overrides options ∧
      merged options.toValue = .ok options := by
  obtain ⟨hascending, hdata⟩ := Json.fields_of_value? value?_json
  obtain ⟨hiff, hagain⟩ := (overrides_win_key_by_key hascending hdata).2 options
  exact ⟨hascending, hdata, hiff.mp rfl, hagain rfl⟩

end CompilerOptions

end ImportCheck

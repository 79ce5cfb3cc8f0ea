import ImportCheck.Proofs.Options.Merged
import ImportCheck.Proofs.Value.Setting

/-!
# Settings in layers

A layer of settings over another one and over defaults: what the upper layer says about a key counts, united with what
the lower one says where both say a table; the lower one counts where the upper one says nothing; and a default, which
is no table, is left where neither says anything.
-/

namespace ImportCheck

namespace Value

variable {α : Type} {choices : Choices α} {keys : List String} {v : Value}

/-! ## What a setting is read as -/

/-- A choice is made by one of its names, or by its place with a number of 32 bits from a variable. -/
inductive Chooses (choices : Choices α) : Value → α → Prop
  | name {s : String} {a : α} (h : (s, a) ∈ choices.names) : Chooses choices (.string s) a
  | place {n : UInt32} {a : α} (h : choices.inOrder[n.toNat]? = some a) : Chooses choices (.number (.place n)) a

inductive Spells : Value → String → Prop
  | letter (c : Char) : Spells (.letter c) (String.singleton c)
  | string (s : String) : Spells (.string s) s

theorem asString_eq_ok_iff {s : String} : asString keys v = .ok s ↔ Spells v s := by
  cases v with
  | letter c => exact ⟨fun h => by cases h; exact .letter _, fun | .letter _ => rfl⟩
  | string t => exact ⟨fun h => by cases h; exact .string _, fun | .string _ => rfl⟩
  | _ => exact ⟨nofun, nofun⟩

theorem chooses_string_iff {s : String} {a : α} : Chooses choices (.string s) a ↔ (s, a) ∈ choices.names := by
  constructor
  · intro h
    cases h
    assumption
  · exact .name

theorem chooses_place_iff {n : UInt32} {a : α} :
    Chooses choices (.number (.place n)) a ↔ choices.inOrder[n.toNat]? = some a := by
  constructor
  · intro h
    cases h
    assumption
  · exact .place

/-- A table would have to hold null to make a choice. -/
theorem asChoice_eq_ok_iff_chooses {a : α} (h : (choices.names.map (·.1)).Nodup) (hv : v.IsSetting) :
    asChoice choices keys v = .ok a ↔ Chooses choices v a := by
  cases hv with
  | string s => exact (choose_eq_ok_iff keys h).trans chooses_string_iff.symm
  | number n =>
      cases n with
      | place n =>
          rw [asChoice, chooses_place_iff]
          split
          · rename_i b hb
            rw [hb, Option.some.injEq, Except.ok.injEq]
          · rename_i hnone
            rw [hnone]
            constructor <;> intro h <;> cases h
      | _ => constructor <;> intro h <;> cases h
  | @object fields _ hfields =>
      refine ⟨fun hok => ?_, fun h => by cases h⟩
      cases fields with
      | nil => cases hok
      | cons f rest =>
          obtain ⟨name, w⟩ := f
          obtain ⟨b, -, hok⟩ := bind_eq_ok_iff.mp hok
          cases hfields _ List.mem_cons_self <;> cases hok
  | _ => constructor <;> intro h <;> cases h

theorem Chooses.not_isTable {a : α} (h : Chooses choices v a) : ¬v.IsTable := by
  rintro ⟨fields, rfl⟩
  cases h

theorem Chooses.unique {a b : α} (hnames : (choices.names.map (·.1)).Nodup) (ha : Chooses choices v a)
    (hb : Chooses choices v b) : a = b := by
  cases ha with
  | name ha =>
      cases hb with
      | name hb => exact congrArg Prod.snd (List.inj_on_of_nodup_map hnames ha hb rfl)
  | place ha =>
      cases hb with
      | place hb => exact Option.some.inj (ha.symm.trans hb)

theorem Switches.unique {a b : Bool} (ha : Switches v a) (hb : Switches v b) : a = b := by
  cases ha
  cases hb
  rfl

theorem Spells.not_isTable {s : String} (h : Spells v s) : ¬v.IsTable := by
  rintro ⟨fields, rfl⟩
  cases h

/-! ## Layers -/

/-- What two layers make of a key, from what the lower one has there and from what the upper one gives. -/
inductive Layered (lower : Option Value) (gives : Value → Prop) : Value → Prop
  | lower {v : Value} (hlower : lower = some v) (hno : ∀ w, ¬gives w) : Layered lower gives v
  | upper {v : Value} (hlower : lower = none) (h : gives v) : Layered lower gives v
  | both {old new v : Value} (hlower : lower = some old) (h : gives new) (hover : Over old new v) :
      Layered lower gives v

/-- What is given is read, and the default is there where nothing is given. -/
def Settles (given : Value → Prop) (reads : Value → α → Prop) (default a : α) : Prop :=
  (∃ v, given v ∧ reads v a) ∨ (∀ v, ¬given v) ∧ a = default

theorem Settles.unique {given : Value → Prop} {reads : Value → α → Prop} {default a b : α}
    (ha : Settles given reads default a) (hb : Settles given reads default b)
    (hgiven : ∀ {v w}, given v → given w → v = w) (hreads : ∀ {v a b}, reads v a → reads v b → a = b) : a = b := by
  rcases ha with ⟨v, hv, ha⟩ | ⟨hno, rfl⟩
  · rcases hb with ⟨w, hw, hb⟩ | ⟨hno, -⟩
    · cases hgiven hv hw
      exact hreads ha hb
    · exact absurd hv (hno v)
  · rcases hb with ⟨w, hw, -⟩ | ⟨-, rfl⟩
    · exact absurd hw (hno w)
    · rfl

theorem layered_iff {lower upper : Option Value} {gives : Value → Prop} (hgives : ∀ w, gives w ↔ upper = some w) :
    Layered lower gives v ↔ OverField lower upper (some v) := by
  constructor
  · rintro (⟨rfl, hno⟩ | ⟨rfl, h⟩ | ⟨rfl, h, hover⟩)
    · obtain rfl : upper = none := Option.eq_none_iff_forall_ne_some.mpr fun w hw => hno w ((hgives w).mpr hw)
      exact .lower _
    · rw [(hgives v).mp h]
      exact .upper v
    · rw [(hgives _).mp h]
      exact .both hover
  · intro h
    generalize ho : some v = o at h
    cases h with
    | lower => exact .lower ho.symm fun w hw => nomatch (hgives w).mp hw
    | upper w => exact .upper rfl ((hgives v).mpr ho.symm)
    | both hover =>
        cases ho
        exact .both rfl ((hgives _).mpr rfl) hover

theorem overField_mergeFields {lower upper : Fields} (hlower : lower.AreSettings) (hupper : upper.AreSettings)
    (k : String) : OverField (lower.get? k) (upper.get? k) (Fields.get? (mergeFields lower upper) k) := by
  have hover := over_merge (isSetting_object_iff.mpr hlower) (isSetting_object_iff.mpr hupper)
  generalize hmerge : merge (.object lower) (.object upper) = v at hover
  cases hover with
  | replaced h => exact absurd ⟨⟨_, rfl⟩, ⟨_, rfl⟩⟩ h
  | united _ h =>
      cases hmerge
      exact h k

/-- A value with another one laid over it, if there is one. -/
def laid (base : Value) (upper : Option Value) : Value := (upper.map (merge base ·)).getD base

theorem laid_of_not_isTable {base : Value} (h : ¬v.IsTable) : laid base (some v) = v :=
  merge_of_not_isTable fun ht => h ht.2

theorem OverField.none_left (o : Option Value) : OverField none o o := by
  cases o with
  | none => exact .lower _
  | some v => exact .upper v

/-- What is over a default, which is no table, is as it is over nothing. -/
theorem OverField.of_default {default upper o : Option Value} (hdefault : ∀ v, default = some v → ¬v.IsTable)
    (h : OverField default upper o) : OverField none upper o ∨ upper = none ∧ o = default := by
  cases h with
  | lower => exact .inr ⟨rfl, rfl⟩
  | upper => exact .inl (.upper _)
  | both hover =>
      cases hover with
      | replaced => exact .inl (.upper _)
      | united => exact absurd ⟨_, rfl⟩ (hdefault _ rfl)

/-- The fields of a setting, if it is a table. -/
abbrev fields? (o : Option Value) : Fields := (o.map Value.fields).getD []

theorem get?_of_laid {lower fields : Fields} {upper : Option Value} (hlower : lower.AreSettings)
    (hupper : ∀ v, upper = some v → v.IsSetting) (h : laid (.object lower) upper = .object fields) (k : String) :
    OverField (lower.get? k) ((fields? upper).get? k) (fields.get? k) := by
  cases upper with
  | none =>
      cases h
      exact .lower _
  | some v =>
      cases hupper v rfl with
      | object ascending hv =>
          cases h
          exact overField_mergeFields hlower ⟨ascending, hv⟩ k
      | _ => cases (laid_of_not_isTable (by simp [IsTable])).symm.trans h

theorem fields_of_laid {upper : Option Value} {fields : Fields} (hv : ¬v.IsTable) (h : laid v upper = .object fields) :
    fields? upper = fields := by
  cases upper with
  | none => exact absurd ⟨fields, h⟩ hv
  | some w =>
      have hw : w = .object fields := (merge_of_not_isTable fun ht => hv ht.1).symm.trans h
      rw [hw]
      rfl

/-- What two layers over defaults make of a key. -/
theorem get?_of_laid_laid {defaults fields : Fields} {lower upper : Option Value} (hdefaults : defaults.AreSettings)
    (hdefault : ∀ k v, defaults.get? k = some v → ¬v.IsTable) (hlower : ∀ v, lower = some v → v.IsSetting)
    (hupper : ∀ v, upper = some v → v.IsSetting) (h : laid (laid (.object defaults) lower) upper = .object fields)
    (k : String) :
    OverField ((fields? lower).get? k) ((fields? upper).get? k) (fields.get? k) ∨
      (fields? lower).get? k = none ∧ (fields? upper).get? k = none ∧ fields.get? k = defaults.get? k := by
  cases lower with
  | none =>
      refine ((get?_of_laid hdefaults hupper h k).of_default (hdefault k)).imp_right fun hk => ⟨rfl, hk⟩
  | some v =>
      by_cases hv : v.IsTable
      · obtain ⟨file, rfl⟩ := hv
        have hfile := isSetting_object_iff.mp (hlower _ rfl)
        have hbase := get?_of_laid (areSettings_mergeFields hdefaults hfile) hupper h k
        rcases (overField_mergeFields hdefaults hfile k).of_default (hdefault k) with hk | ⟨hnone, hk⟩
        · have hsame : Fields.get? file k = Fields.get? (mergeFields defaults file) k :=
            (OverField.none_left _).unique hk
          exact .inl (hsame ▸ hbase)
        · rw [hk] at hbase
          refine (hbase.of_default (hdefault k)).imp (fun hover => ?_) fun hupper => ⟨hnone, hupper⟩
          exact hnone.symm ▸ hover
      · have hnone : (fields? (some v)).get? k = none := by
          cases v with
          | object fields => exact absurd ⟨fields, rfl⟩ hv
          | _ => rfl
        rw [laid_of_not_isTable hv] at h
        rw [hnone, fields_of_laid hv h]
        exact .inl (.none_left _)

theorem isTable_laid {base : Value} {upper : Option Value} :
    (laid base upper).IsTable ↔ (∃ v, upper = some v ∧ v.IsTable) ∨ upper = none ∧ base.IsTable := by
  cases upper with
  | none => simp [laid]
  | some v =>
      by_cases hv : v.IsTable
      · obtain ⟨fields, rfl⟩ := hv
        have hmerged : (merge base (.object fields)).IsTable := by cases base <;> exact ⟨_, rfl⟩
        simpa [laid, IsTable] using hmerged
      · rw [laid_of_not_isTable hv]
        simp [hv]

end Value

end ImportCheck

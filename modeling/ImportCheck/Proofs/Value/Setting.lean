import ImportCheck.Options.Setting
import ImportCheck.Proofs.Lemmas.Fields
import Mathlib.Data.Option.Basic

/-!
# Settings

What a settings file or a variable can hold: nothing is null, and objects have their fields in key order, however deep
they stand. Laying one setting over another gives a setting: two tables are united key by key, and anything else is
replaced.
-/

namespace ImportCheck

/-! ## Results -/

section Results

variable {ε ε' α β : Type} {x : Except ε α} {a : α} {b : β}

theorem bind_eq_ok_iff {f : α → Except ε β} : x >>= f = .ok b ↔ ∃ a, x = .ok a ∧ f a = .ok b := by
  cases x <;> simp [bind, Except.bind]

theorem map_eq_ok_iff {f : α → β} : x.map f = .ok b ↔ ∃ a, x = .ok a ∧ f a = b := by
  cases x <;> simp [Except.map]

theorem mapError_eq_ok_iff {f : ε → ε'} : x.mapError f = .ok a ↔ x = .ok a := by
  cases x <;> simp [Except.mapError]

variable {R : α → β → Prop} {o : Option α} {p q : Option β}

theorem rel_unique (hR : ∀ {a b c}, R a b → R a c → b = c) (h : Option.Rel R o p) (h' : Option.Rel R o q) : p = q := by
  cases h with
  | none => cases h'; rfl
  | some hb => cases h' with
    | some hc => rw [hR hb hc]

theorem isSome_iff_of_rel (h : Option.Rel R o p) : p.isSome ↔ o.isSome := by cases h <;> simp

theorem exists_of_rel_some (h : Option.Rel R (some a) p) : ∃ b, p = some b ∧ R a b := by
  cases h with
  | some hb => exact ⟨_, rfl, hb⟩

end Results

/-! ## Values that are settings -/

namespace Value

inductive IsSetting : Value → Prop
  | bool (b : Bool) : IsSetting (.bool b)
  | number (n : Number) : IsSetting (.number n)
  | letter (c : Char) : IsSetting (.letter c)
  | string (s : String) : IsSetting (.string s)
  | array {items : List Value} (h : ∀ v ∈ items, IsSetting v) : IsSetting (.array items)
  | object {fields : Fields} (ascending : fields.Ascending) (h : ∀ f ∈ fields, IsSetting f.2) :
      IsSetting (.object fields)

def IsTable (v : Value) : Prop := ∃ fields, v = .object fields

/-- The fields of a table; anything else has none. -/
def fields : Value → Fields
  | .object fields => fields
  | _ => []

theorem fields_eq_nil {v : Value} (h : ¬v.IsTable) : v.fields = [] := by
  cases v with
  | object fields => exact absurd ⟨fields, rfl⟩ h
  | _ => rfl

end Value

namespace Fields

/-- The fields of a table of settings. -/
structure AreSettings (fields : Fields) : Prop where
  ascending : fields.Ascending
  isSetting : ∀ f ∈ fields, f.2.IsSetting

/-- The fields of the table under a key. -/
def table (fields : Fields) (key : String) : Fields := ((get? fields key).map Value.fields).getD []

variable {fields lower upper : Fields} {key k : String} {v : Value}

namespace AreSettings

theorem nil : AreSettings [] := ⟨.nil, nofun⟩

theorem of_get? (h : fields.AreSettings) (hv : get? fields k = some v) : v.IsSetting :=
  h.isSetting (k, v) ((mem_iff_get? h.ascending.nodup).mpr hv)

theorem of_forall_get? (ascending : fields.Ascending) (h : ∀ k v, get? fields k = some v → v.IsSetting) :
    fields.AreSettings :=
  ⟨ascending, fun f hf => h f.1 f.2 ((mem_iff_get? ascending.nodup).mp hf)⟩

theorem set (h : fields.AreSettings) (hv : v.IsSetting) : (set fields key v).AreSettings :=
  ⟨h.ascending.set, fun f hf => (eq_or_mem_of_mem_set hf).elim (fun he => he ▸ hv) (h.isSetting f)⟩

theorem ofList (h : ∀ f ∈ fields, f.2.IsSetting) : (ofList fields).AreSettings :=
  ⟨ascending_ofList fields, fun f hf => h f (mem_of_mem_ofList hf)⟩

theorem table (h : fields.AreSettings) (key : String) : (fields.table key).AreSettings := by
  unfold Fields.table
  cases hv : get? fields key with
  | none => exact nil
  | some v =>
      cases h.of_get? hv with
      | object ascending h => exact ⟨ascending, h⟩
      | _ => exact nil

end AreSettings

end Fields

namespace Value

variable {lower upper v : Value} {k : String}

theorem isSetting_object_iff {fields : Fields} : IsSetting (.object fields) ↔ fields.AreSettings :=
  ⟨fun | .object ascending h => ⟨ascending, h⟩, fun h => .object h.ascending h.isSetting⟩

/-! ## One setting over another -/

mutual
/-- The second value over the first one makes the third one: two tables are united, and anything else is replaced. -/
inductive Over : Value → Value → Value → Prop
  | replaced {lower upper : Value} (h : ¬(lower.IsTable ∧ upper.IsTable)) : Over lower upper upper
  | united {lower upper fields : Fields} (ascending : fields.Ascending)
      (h : ∀ k, OverField (lower.get? k) (upper.get? k) (fields.get? k)) :
      Over (.object lower) (.object upper) (.object fields)

/-- What is under a key in one of two tables only stays as it is. -/
inductive OverField : Option Value → Option Value → Option Value → Prop
  | lower (v : Option Value) : OverField v none v
  | upper (v : Value) : OverField none (some v) (some v)
  | both {lower upper v : Value} (h : Over lower upper v) : OverField (some lower) (some upper) (some v)
end

mutual
theorem Over.unique : {lower upper v w : Value} → Over lower upper v → Over lower upper w → v = w
  | _, _, _, _, .replaced _, .replaced _ => rfl
  | _, _, _, _, .replaced h, .united _ _ => absurd ⟨⟨_, rfl⟩, ⟨_, rfl⟩⟩ h
  | _, _, _, _, .united _ _, .replaced h => absurd ⟨⟨_, rfl⟩, ⟨_, rfl⟩⟩ h
  | _, _, _, _, .united hv h, .united hw h' => congrArg Value.object (hv.ext hw fun k => OverField.unique (h k) (h' k))

theorem OverField.unique : {lower upper v w : Option Value} → OverField lower upper v → OverField lower upper w → v = w
  | _, _, _, _, .lower _, .lower _ => rfl
  | _, _, _, _, .upper _, .upper _ => rfl
  | _, _, _, _, .both h, .both h' => congrArg some (Over.unique h h')
end

theorem merge_of_not_isTable (h : ¬(lower.IsTable ∧ upper.IsTable)) : merge lower upper = upper := by
  unfold merge
  split
  · exact absurd ⟨⟨_, rfl⟩, ⟨_, rfl⟩⟩ h
  · rfl

theorem over_merge (hlower : lower.IsSetting) (hupper : upper.IsSetting) : Over lower upper (merge lower upper) := by
  induction hupper generalizing lower with
  | @object fields ascending _ ih =>
      cases hlower with
      | @object base hbase h =>
          refine .united (ascending_mergeFields hbase) fun k => ?_
          rw [get?_mergeFields ascending]
          cases hu : Fields.get? fields k with
          | none => exact .lower _
          | some v =>
              cases hl : Fields.get? base k with
              | none => exact .upper v
              | some old =>
                  have hold : old.IsSetting := Fields.AreSettings.of_get? ⟨hbase, h⟩ hl
                  exact .both (ih (k, v) ((Fields.mem_iff_get? ascending.nodup).mpr hu) hold)
      | _ => exact .replaced (by simp [IsTable])
  | _ =>
      rw [merge_of_not_isTable (by simp [IsTable])]
      exact .replaced (by simp [IsTable])

theorem isSetting_merge (hlower : lower.IsSetting) (hupper : upper.IsSetting) : (merge lower upper).IsSetting := by
  induction hupper generalizing lower with
  | @object fields ascending h ih =>
      cases hlower with
      | @object base hbase hlower =>
          have hbase' : Fields.AreSettings base := ⟨hbase, hlower⟩
          refine isSetting_object_iff.mpr (.of_forall_get? (ascending_mergeFields hbase) fun k w hw => ?_)
          rw [get?_mergeFields ascending] at hw
          cases hu : Fields.get? fields k with
          | none =>
              simp only [hu] at hw
              exact hbase'.of_get? hw
          | some v =>
              have hm := (Fields.mem_iff_get? ascending.nodup).mpr hu
              cases hl : Fields.get? base k with
              | none =>
                  simp only [hu, hl, Option.map_none, Option.getD_none, Option.some.injEq] at hw
                  exact hw ▸ h _ hm
              | some old =>
                  simp only [hu, hl, Option.map_some, Option.getD_some, Option.some.injEq] at hw
                  exact hw ▸ ih _ hm (hbase'.of_get? hl)
      | _ => exact .object ascending h
  | _ =>
      rw [merge_of_not_isTable (by simp [IsTable])]
      constructor <;> assumption

theorem areSettings_mergeFields {lower upper : Fields} (hlower : lower.AreSettings) (hupper : upper.AreSettings) :
    Fields.AreSettings (mergeFields lower upper) :=
  isSetting_object_iff.mp (isSetting_merge (isSetting_object_iff.mpr hlower) (isSetting_object_iff.mpr hupper))

end Value

end ImportCheck

import ImportCheck.Options.Envelope
import ImportCheck.Proofs.Value.Setting
import Mathlib.Data.List.Forall2
import Mathlib.Tactic.ByContra

/-!
# Opened envelopes

What a value is without the envelopes in it: an envelope stands for what it holds, and an object that only has the
number of one loses it. What a settings file or a variable can hold is opened to a setting.
-/

namespace ImportCheck.Envelope

/-- A value and what it is without the envelopes in it. -/
inductive Opened : Value → Value → Prop
  | plain {v : Value} (harray : ∀ items, v ≠ .array items) (htable : ¬v.IsTable) : Opened v v
  | array {items out : List Value} (hlength : out.length = items.length)
      (h : ∀ (i : Nat) (v w : Value), items[i]? = some v → out[i]? = some w → Opened v w) :
      Opened (.array items) (.array out)
  | envelope {fields : Fields} {v w : Value} (hv : fields.get? "___figment_value_value" = some v) (h : Opened v w) :
      Opened (.object fields) w
  | table {fields out : Fields} (hno : fields.get? "___figment_value_value" = none) (ascending : out.Ascending)
      (hkeys : ∀ k, (out.get? k).isSome ↔ k ≠ "___figment_value_id" ∧ (fields.get? k).isSome)
      (h : ∀ k v w, fields.get? k = some v → out.get? k = some w → Opened v w) :
      Opened (.object fields) (.object out)

/-- Every field is opened by itself, whatever its key. -/
structure OpenedEach (fields out : Fields) : Prop where
  ascending : out.Ascending
  opened : ∀ k, Option.Rel Opened (fields.get? k) (out.get? k)

/-! ## Opening field by field -/

/-- What is under a key of an object that has been opened, where the keys lead to the object. -/
def openField (keys : List String) (key : String) (v : Value) : Except SettingError Value :=
  if key = idKey then
    if isId v then .ok v else Value.fail (keys ++ [key]) (.wrongType v "a 64-bit metadata id integer")
  else openValue (keysUnder keys key) v

/-- Fields become the other ones under the same keys. -/
def EachField (becomes : String → Value → Value → Prop) (fields out : Fields) : Prop :=
  List.Forall₂ (fun f g => g.1 = f.1 ∧ becomes f.1 f.2 g.2) fields out

variable {becomes : String → Value → Value → Prop} {fields out : Fields} {keys : List String} {k : String}

theorem openFields_eq_mapM (keys : List String) (fields : Fields) :
    openFields keys fields = fields.mapM fun f => (openField keys f.1 f.2).map (f.1, ·) := by
  induction fields with
  | nil => rfl
  | cons f rest ih =>
      obtain ⟨key, v⟩ := f
      rw [openFields, List.mapM_cons, ih]
      unfold openField
      split
      · split <;> rfl
      · cases openValue (keysUnder keys key) v <;> rfl

theorem openEach_eq_mapM (fields : Fields) :
    openEach fields = fields.mapM fun f => (openValue [f.1, valueKey] f.2).map (f.1, ·) := by
  induction fields with
  | nil => rfl
  | cons f rest ih =>
      obtain ⟨key, v⟩ := f
      rw [openEach, List.mapM_cons, ih]
      cases openValue [key, valueKey] v <;> rfl

theorem eachField_of_mapM {change : String → Value → Except SettingError Value}
    (h : fields.mapM (fun f => (change f.1 f.2).map (f.1, ·)) = .ok out) :
    EachField (fun key v w => change key v = .ok w) fields out := by
  induction fields generalizing out with
  | nil =>
      cases h
      exact .nil
  | cons f rest ih =>
      rw [List.mapM_cons, bind_eq_ok_iff] at h
      obtain ⟨g, hg, h⟩ := h
      obtain ⟨w, hw, rfl⟩ := map_eq_ok_iff.mp hg
      obtain ⟨more, hmore, hout⟩ := bind_eq_ok_iff.mp h
      cases hout
      exact .cons ⟨rfl, hw⟩ (ih hmore)

theorem openFields_eq_ok (h : openFields keys fields = .ok out) :
    EachField (fun key v w => openField keys key v = .ok w) fields out :=
  eachField_of_mapM (openFields_eq_mapM keys fields ▸ h)

theorem openEach_eq_ok (h : openEach fields = .ok out) :
    EachField (fun key v w => openValue [key, valueKey] v = .ok w) fields out :=
  eachField_of_mapM (openEach_eq_mapM fields ▸ h)

namespace EachField

theorem keys_eq (h : EachField becomes fields out) : out.map (·.1) = fields.map (·.1) := by
  induction h with
  | nil => rfl
  | cons hf _ ih => rw [List.map_cons, List.map_cons, hf.1, ih]

theorem get? (h : EachField becomes fields out) (k : String) :
    Option.Rel (becomes k) (fields.get? k) (out.get? k) := by
  induction h with
  | nil => exact .none
  | @cons f g _ _ hf _ ih =>
      obtain ⟨key, v⟩ := f
      obtain ⟨key', w⟩ := g
      obtain ⟨rfl, hw⟩ := hf
      rw [Fields.get?_cons, Fields.get?_cons]
      split
      · rename_i hk
        subst hk
        exact .some hw
      · exact ih

theorem ascending (h : EachField becomes fields out) (hfields : fields.Ascending) : out.Ascending := by
  have hkeys : (out.map (·.1)).Pairwise (· < ·) := h.keys_eq ▸ List.pairwise_map.mpr hfields
  exact List.pairwise_map.mp hkeys

end EachField

theorem openItems_eq_ok {place : Nat} {items out : List Value} (h : openItems keys place items = .ok out) :
    out.length = items.length ∧
      ∀ (i : Nat) (v w : Value), items[i]? = some v → out[i]? = some w → ∃ keys, openValue keys v = .ok w := by
  induction items generalizing place out with
  | nil =>
      cases h
      exact ⟨rfl, nofun⟩
  | cons first items ih =>
      rw [openItems, bind_eq_ok_iff] at h
      obtain ⟨w, hw, h⟩ := h
      obtain ⟨ws, hws, hout⟩ := bind_eq_ok_iff.mp h
      cases hout
      obtain ⟨hlength, hitems⟩ := ih hws
      refine ⟨congrArg Nat.succ hlength, fun i v w' hv hw' => ?_⟩
      cases i with
      | zero =>
          cases hv
          cases hw'
          exact ⟨_, hw⟩
      | succ i => exact hitems i v w' hv hw'

/-! ## What opening does -/

theorem opened_content {fields : Fields} (ascending : fields.Ascending) (h : openFields keys fields = .ok out)
    (hfields : ∀ f ∈ fields, ∀ {keys w}, openValue keys f.2 = .ok w → Opened f.2 w) :
    Opened (.object fields) (content out) := by
  have heach := openFields_eq_ok h
  have hfield {k : String} (hk : k ≠ idKey) : Option.Rel (fun v w => openValue (keysUnder keys k) v = .ok w)
      (fields.get? k) (out.get? k) := by
    simpa only [openField, if_neg hk] using heach.get? k
  have hopened {k : String} {v w : Value} (hk : k ≠ idKey) (hv : fields.get? k = some v) (hw : out.get? k = some w) :
      Opened v w := by
    have hrel := hfield hk
    rw [hv, hw] at hrel
    cases hrel with
    | some hw => exact hfields (k, v) ((Fields.mem_iff_get? ascending.nodup).mpr hv) hw
  have hvalue : (out.get? valueKey).isSome ↔ (fields.get? valueKey).isSome := isSome_iff_of_rel (hfield (by decide))
  unfold content
  split
  · rename_i w hw
    obtain ⟨v, hv⟩ := Option.isSome_iff_exists.mp (hvalue.mp (Option.isSome_of_eq_some hw))
    exact .envelope hv (hopened (by decide) hv hw)
  · rename_i hnone
    have hget (k : String) : Fields.get? (Fields.erase out idKey) k = if k != idKey then out.get? k else none :=
      Fields.get?_filter (· != idKey)
    have hno : fields.get? valueKey = none := by simpa [hnone] using hvalue
    refine .table hno ((heach.ascending ascending).filter _) (fun k => ?_) fun k v w hv hw => ?_
    · change (Fields.get? (Fields.erase out idKey) k).isSome ↔ k ≠ idKey ∧ _
      rw [hget]
      by_cases hk : k = idKey
      · simp [hk]
      · simpa [hk] using isSome_iff_of_rel (hfield hk)
    · rw [hget] at hw
      split at hw
      · rename_i hk
        exact hopened (by simpa using hk) hv hw
      · cases hw

theorem opened_of_openValue {v w : Value} (hv : v.IsSetting) (h : openValue keys v = .ok w) : Opened v w := by
  induction hv generalizing keys w with
  | @array items _ ih =>
      obtain ⟨out, hout, rfl⟩ := map_eq_ok_iff.mp (openValue.eq_1 keys items ▸ h)
      obtain ⟨hlength, hitems⟩ := openItems_eq_ok hout
      refine .array hlength fun i v w hv hw => ?_
      obtain ⟨_, hopen⟩ := hitems i v w hv hw
      exact ih v (List.mem_of_getElem? hv) hopen
  | @object fields ascending _ ih =>
      obtain ⟨out, hout, rfl⟩ := map_eq_ok_iff.mp (openValue.eq_2 keys fields ▸ h)
      exact opened_content ascending hout fun f hf => ih f hf
  | _ =>
      cases h
      exact .plain (by simp) (by simp [Value.IsTable])

theorem openedEach_of_openEach (hfields : fields.AreSettings) (h : openEach fields = .ok out) :
    OpenedEach fields out where
  ascending := (openEach_eq_ok h).ascending hfields.ascending
  opened := fun k => by
    have hk := (openEach_eq_ok h).get? k
    cases hv : fields.get? k with
    | none =>
        have hnone : out.get? k = none := by simpa [hv] using isSome_iff_of_rel hk
        rw [hnone]
        exact .none
    | some v =>
        rw [hv] at hk
        obtain ⟨w, hw, hopen⟩ := exists_of_rel_some hk
        exact hw ▸ .some (opened_of_openValue (hfields.of_get? hv) hopen)

/-! ## Opened values -/

namespace Opened

variable {v w w' : Value}

theorem unique (h : Opened v w) (h' : Opened v w') : w = w' := by
  induction h generalizing w' with
  | plain harray htable =>
      cases h' with
      | plain => rfl
      | array => exact absurd rfl (harray _)
      | envelope | table => exact absurd ⟨_, rfl⟩ htable
  | @array items out hlength _ ih =>
      cases h' with
      | plain harray => exact absurd rfl (harray _)
      | @array _ out' hlength' h' =>
          refine congrArg Value.array (List.ext_getElem (hlength.trans hlength'.symm) fun i hi hi' => ?_)
          have hitem : items[i]? = some items[i] := List.getElem?_eq_getElem (hlength ▸ hi)
          exact ih i _ _ hitem (List.getElem?_eq_getElem hi) (h' i _ _ hitem (List.getElem?_eq_getElem hi'))
  | envelope hv _ ih =>
      cases h' with
      | plain _ htable => exact absurd ⟨_, rfl⟩ htable
      | envelope hv' h' =>
          cases hv.symm.trans hv'
          exact ih h'
      | table hno => cases hv.symm.trans hno
  | table hno ascending hkeys _ ih =>
      cases h' with
      | plain _ htable => exact absurd ⟨_, rfl⟩ htable
      | envelope hv' => cases hno.symm.trans hv'
      | table _ ascending' hkeys' h' =>
          refine congrArg Value.object (ascending.ext ascending' fun k => Option.ext fun w => ?_)
          have hboth := (hkeys k).trans (hkeys' k).symm
          constructor
          · intro hw
            obtain ⟨w', hw'⟩ := Option.isSome_iff_exists.mp (hboth.mp (Option.isSome_of_eq_some hw))
            obtain ⟨v, hv⟩ := Option.isSome_iff_exists.mp ((hkeys k).mp (Option.isSome_of_eq_some hw)).2
            rw [hw', ih k v w hv hw (h' k v w' hv hw')]
          · intro hw'
            obtain ⟨w, hw⟩ := Option.isSome_iff_exists.mp (hboth.mpr (Option.isSome_of_eq_some hw'))
            obtain ⟨v, hv⟩ := Option.isSome_iff_exists.mp ((hkeys k).mp (Option.isSome_of_eq_some hw)).2
            rw [hw, ih k v _ hv hw (h' k v _ hv hw')]

theorem isSetting (h : Opened v w) (hv : v.IsSetting) : w.IsSetting := by
  induction h with
  | plain => exact hv
  | @array items out hlength _ ih =>
      cases hv with
      | array hitems =>
          refine .array fun w hw => ?_
          obtain ⟨i, hi, rfl⟩ := List.mem_iff_getElem.mp hw
          have hitem : items[i]? = some items[i] := List.getElem?_eq_getElem (hlength ▸ hi)
          exact ih i _ _ hitem (List.getElem?_eq_getElem hi) (hitems _ (List.mem_of_getElem? hitem))
  | envelope hget _ ih =>
      exact ih ((Value.isSetting_object_iff.mp hv).of_get? hget)
  | table _ ascending hkeys _ ih =>
      refine Value.isSetting_object_iff.mpr (.of_forall_get? ascending fun k w hw => ?_)
      obtain ⟨v, hget⟩ := Option.isSome_iff_exists.mp ((hkeys k).mp (Option.isSome_of_eq_some hw)).2
      exact ih k v w hget hw ((Value.isSetting_object_iff.mp hv).of_get? hget)

end Opened

theorem OpenedEach.areSettings (h : OpenedEach fields out) (hfields : fields.AreSettings) : out.AreSettings := by
  refine .of_forall_get? h.ascending fun k w hw => ?_
  have hk := h.opened k
  rw [hw] at hk
  cases hv : fields.get? k with
  | none =>
      rw [hv] at hk
      cases hk
  | some v =>
      rw [hv] at hk
      cases hk with
      | some hopened => exact hopened.isSetting (hfields.of_get? hv)

theorem OpenedEach.unique {out' : Fields} (h : OpenedEach fields out) (h' : OpenedEach fields out') : out = out' :=
  h.ascending.ext h'.ascending fun k => rel_unique (R := Opened) Opened.unique (h.opened k) (h'.opened k)

/-! ## Opened tables -/

/-- How a table is opened: it is an envelope, or what is under its keys is opened, and the number of an envelope is
dropped. -/
inductive Opens (table : Fields) : Fields → Prop
  | envelope {v w : Value} (hv : table.get? valueKey = some v) (hw : Opened v w) : Opens table w.fields
  | each {out : Fields} (hvalue : table.get? valueKey = none) (hid : out.get? idKey = none)
      (h : ∀ k, k ≠ idKey → Option.Rel Opened (table.get? k) (out.get? k)) : Opens table out

theorem opens_nil : Opens [] [] := .each rfl rfl fun _ _ => .none

theorem Opened.opens {v w : Value} (h : Opened v w) : Opens v.fields w.fields := by
  cases h with
  | plain _ htable =>
      rw [Value.fields_eq_nil htable]
      exact opens_nil
  | array => exact opens_nil
  | envelope hv hw => exact .envelope hv hw
  | @table fields out hno ascending hkeys h =>
      have hid : Fields.get? out idKey = none := by
        by_contra hid
        exact ((hkeys idKey).mp (Option.isSome_iff_ne_none.mpr hid)).1 rfl
      refine .each hno hid fun k hk => ?_
      change Option.Rel Opened (Fields.get? fields k) (Fields.get? out k)
      cases hv : Fields.get? fields k with
      | none =>
          have hnone : Fields.get? out k = none := by simpa [hv] using hkeys k
          rw [hnone]
          exact .none
      | some v =>
          obtain ⟨w, hw⟩ := Option.isSome_iff_exists.mp ((hkeys k).mpr ⟨hk, Option.isSome_of_eq_some hv⟩)
          exact hw ▸ .some (h k v w hv hw)

/-- The tables of settings that have been opened. -/
theorem OpenedEach.opens_table (h : OpenedEach fields out) (key : String) :
    Opens (fields.table key) (out.table key) := by
  have hkey := h.opened key
  unfold Fields.table
  cases hv : fields.get? key with
  | none =>
      have hnone : out.get? key = none := by simpa [hv] using isSome_iff_of_rel hkey
      rw [hnone]
      exact opens_nil
  | some v =>
      rw [hv] at hkey
      obtain ⟨w, hw, hopened⟩ := exists_of_rel_some hkey
      rw [hw]
      exact hopened.opens

namespace Opens

variable {table table' out out' : Fields}

/-- What is under a key after opening depends on what was under it, and on the value of an envelope if there is one. -/
theorem get?_congr (h : Opens table out) (h' : Opens table' out')
    (hvalue : table.get? valueKey = table'.get? valueKey) (hk : table.get? k = table'.get? k) :
    out.get? k = out'.get? k := by
  cases h with
  | envelope hv hw =>
      cases h' with
      | envelope hv' hw' =>
          cases hv.symm.trans (hvalue.trans hv')
          rw [hw.unique hw']
      | each hnone => cases hv.symm.trans (hvalue.trans hnone)
  | each hnone hid heach =>
      cases h' with
      | envelope hv' => cases hnone.symm.trans (hvalue.trans hv')
      | each hnone' hid' heach' =>
          by_cases hne : k = idKey
          · rw [hne, hid, hid']
          · exact rel_unique (R := Opened) Opened.unique (heach k hne) (hk ▸ heach' k hne)

/-- Without an envelope opening gives no new keys. -/
theorem isSome_of_isSome (h : Opens table out) (hvalue : table.get? valueKey = none) (hk : (out.get? k).isSome) :
    (table.get? k).isSome := by
  cases h with
  | envelope hv => cases hvalue.symm.trans hv
  | each _ hid heach =>
      have hne : k ≠ idKey := by
        rintro rfl
        rw [hid] at hk
        cases hk
      exact (isSome_iff_of_rel (heach k hne)).mp hk

/-- Without an envelope each field is opened by itself. -/
theorem rel_get? (h : Opens table out) (hvalue : table.get? valueKey = none) (hid : table.get? idKey = none) :
    Option.Rel Opened (table.get? k) (out.get? k) := by
  cases h with
  | envelope hv => cases hvalue.symm.trans hv
  | each _ hout heach =>
      by_cases hk : k = idKey
      · rw [hk, hid, hout]
        exact .none
      · exact heach k hk

end Opens

end ImportCheck.Envelope

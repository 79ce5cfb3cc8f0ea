import ImportCheck.Proofs.Options.Key
import ImportCheck.Proofs.Options.Name
import ImportCheck.Proofs.Options.Written
import ImportCheck.Proofs.Value.Setting

/-!
# Settings of variables

Variables are applied in the order of their names. What they leave under a key of a table depends only on the variables
that say something about this key, or put something else in place of the table; and there is something under the key if
a variable gives it and no later one replaces the table. No name of a variable spells the keys of an envelope.
-/

namespace ImportCheck.Variable

variable {v : Value} {cs rest : List Char} {n : Nat} {environment environment' : List (String × String)}
  {x : String × String} {table key : String} {fields old new : Fields}

/-! ## Values -/

theorem isSetting_bare (cs : List Char) : (bare cs).IsSetting := by
  unfold bare
  split <;> constructor

theorem isSetting_read?_and (n : Nat) :
    (∀ {cs v rest}, read? n cs = some (v, rest) → v.IsSetting) ∧
    (∀ {cs vs rest}, readItems? n cs = some (vs, rest) → ∀ v ∈ vs, v.IsSetting) ∧
    ∀ {cs fields rest}, readFields? n cs = some (fields, rest) → ∀ f ∈ fields, f.2.IsSetting := by
  induction n with
  | zero => refine ⟨fun h => ?_, fun h => ?_, fun h => ?_⟩ <;> cases h
  | succ n ih =>
      obtain ⟨hread, hitems, hfields⟩ := ih
      refine ⟨fun h => ?_, fun h => ?_, fun h => ?_⟩
      · unfold read? at h
        obtain ⟨⟨v, _⟩, hfound, he⟩ := Option.map_eq_some_iff.mp h
        cases he
        split at hfound
        · cases hfound
          exact .bool true
        · cases hfound
          exact .bool false
        · split at hfound
          · cases hfound
            exact Value.isSetting_object_iff.mpr .nil
          · obtain ⟨⟨fields, _⟩, hf, he⟩ := Option.map_eq_some_iff.mp hfound
            cases he
            exact Value.isSetting_object_iff.mpr (.ofList (hfields hf))
          · cases hfound
            exact .array (by simp)
          · obtain ⟨⟨items, _⟩, hi, he⟩ := Option.map_eq_some_iff.mp hfound
            cases he
            exact .array (hitems hi)
          · obtain ⟨⟨text, _⟩, -, he⟩ := Option.map_eq_some_iff.mp hfound
            cases he
            exact .string _
          · cases hfound
            exact .letter _
          · cases hfound
          · cases hfound
            exact isSetting_bare _
      · unfold readItems? at h
        obtain ⟨⟨v, _⟩, hv, h⟩ := Option.bind_eq_some_iff.mp h
        have hone : ∀ w ∈ [v], w.IsSetting := by simpa using hread hv
        dsimp only at h
        split at h
        · cases h
          exact hone
        · obtain ⟨⟨vs, _⟩, hvs, he⟩ := Option.bind_eq_some_iff.mp h
          cases he
          exact List.forall_mem_cons.mpr ⟨hread hv, hitems hvs⟩
        · cases h
          exact hone
        · cases h
      · unfold readFields? at h
        obtain ⟨⟨name, _⟩, -, h⟩ := Option.bind_eq_some_iff.mp h
        dsimp only at h
        split at h
        · obtain ⟨⟨v, _⟩, hv, h⟩ := Option.bind_eq_some_iff.mp h
          have hone : ∀ f ∈ [(String.ofList name, v)], f.2.IsSetting := by simpa using hread hv
          dsimp only at h
          split at h
          · cases h
            exact hone
          · obtain ⟨⟨fields, _⟩, hf, he⟩ := Option.bind_eq_some_iff.mp h
            cases he
            exact List.forall_mem_cons.mpr ⟨hread hv, hfields hf⟩
          · cases h
            exact hone
          · cases h
        · cases h

theorem isSetting_value (text : String) : (value text).IsSetting := by
  unfold value
  split
  · rename_i hv
    exact (isSetting_read?_and _).1 hv
  · exact .string _

theorem isSetting_nest (keys : List String) (h : v.IsSetting) : (nest keys v).IsSetting := by
  induction keys with
  | nil => exact h
  | cons key keys ih => exact .object (List.pairwise_singleton ..) (by simpa using ih)

/-! ## One variable -/

/-- What the text of a variable says. A value that is written there is what it says. -/
structure Means (text : String) (v : Value) : Prop where
  read : value text = v
  written : ∀ w, Written w text.toList → w = v

theorem means_iff {text : String} : Means text v ↔ value text = v :=
  ⟨Means.read, fun h => ⟨h, fun _ hw => (value_of_written hw).symm.trans h⟩⟩

/-- Keys in front of a value make tables that lead to it. -/
inductive Leads : List String → Value → Value → Prop
  | here (v : Value) : Leads [] v v
  | under {key : String} {keys : List String} {v w : Value} (h : Leads keys v w) :
      Leads (key :: keys) v (.object [(key, w)])

theorem leads_iff {keys : List String} {w : Value} : Leads keys v w ↔ nest keys v = w := by
  constructor
  · intro h
    induction h with
    | here => rfl
    | under _ ih => rw [nest, ih]
  · rintro rfl
    induction keys with
    | nil => exact .here v
    | cons key keys ih => exact .under ih

/-- What a variable makes of the settings before it. -/
inductive Applied (x : String × String) : Fields → Fields → Prop
  | setting {keys : List String} {v w : Value} {old new : Fields} (hkeys : Names x.1 keys) (hv : Means x.2 v)
      (hw : Leads keys v w) (hnew : Value.Over (.object old) w (.object new)) : Applied x old new
  | nothing {fields : Fields} (hno : ∀ keys, ¬Names x.1 keys) : Applied x fields fields

theorem Applied.unique (h : Applied x fields old) (h' : Applied x fields new) : old = new := by
  cases h with
  | setting hkeys hv hw hold =>
      cases h' with
      | setting hkeys' hv' hw' hnew =>
          cases (names_iff.mp hkeys).symm.trans (names_iff.mp hkeys')
          cases (means_iff.mp hv).symm.trans (means_iff.mp hv')
          cases (leads_iff.mp hw).symm.trans (leads_iff.mp hw')
          cases hold.unique hnew
          rfl
      | nothing hno => exact absurd hkeys (hno _)
  | nothing hno =>
      cases h' with
      | setting hkeys => exact absurd hkeys (hno _)
      | nothing => rfl

/-- The fields after a variable has been applied. -/
def apply (fields : Fields) (x : String × String) : Fields :=
  match keys? x.1 with
  | some (key :: keys) => Value.mergeFields fields [(key, nest keys (value x.2))]
  | _ => fields

/-- What a variable puts under a key, if it does. -/
def part? (table : String) (x : String × String) : Option Value :=
  match keys? x.1 with
  | some (key :: keys) => if key = table then some (nest keys (value x.2)) else none
  | _ => none

/-- The variable gives something under the key of the table, by its name or in a table that is its value. -/
def Gives (table key : String) (x : String × String) : Prop :=
  (∃ keys, Names x.1 (table :: key :: keys)) ∨
    Names x.1 [table] ∧ ∃ upper v, Means x.2 (.object upper) ∧ Fields.get? upper key = some v

/-- The variable puts something else in place of the table. -/
def Replaces (table : String) (x : String × String) : Prop := Names x.1 [table] ∧ ∃ v, Means x.2 v ∧ ¬v.IsTable

theorem part?_eq_some_iff :
    part? table x = some v ↔ ∃ keys, Names x.1 (table :: keys) ∧ nest keys (value x.2) = v := by
  simp only [names_iff]
  unfold part?
  split
  · rename_i first keys hkeys
    by_cases h : first = table <;> simp [h, hkeys]
  · rename_i hno
    exact ⟨nofun, fun ⟨keys, hkeys, _⟩ => absurd hkeys (hno table keys)⟩

theorem gives_iff :
    Gives table key x ↔ ∃ upper v, part? table x = some (.object upper) ∧ Fields.get? upper key = some v := by
  simp only [Gives, part?_eq_some_iff, means_iff]
  constructor
  · rintro (⟨keys, hkeys⟩ | ⟨hkeys, upper, v, hvalue, hv⟩)
    · exact ⟨_, nest keys (value x.2), ⟨key :: keys, hkeys, rfl⟩, by rw [Fields.get?_cons, if_pos rfl]⟩
    · exact ⟨upper, v, ⟨[], hkeys, hvalue⟩, hv⟩
  · rintro ⟨upper, v, ⟨keys, hkeys, hnest⟩, hv⟩
    cases keys with
    | nil => exact .inr ⟨hkeys, upper, v, hnest, hv⟩
    | cons second keys =>
        cases hnest
        rw [Fields.get?_cons] at hv
        split at hv
        · rename_i h
          exact .inl ⟨keys, h ▸ hkeys⟩
        · cases hv

theorem replaces_iff : Replaces table x ↔ ∃ v, part? table x = some v ∧ ¬v.IsTable := by
  simp only [Replaces, part?_eq_some_iff, means_iff]
  constructor
  · rintro ⟨hkeys, _, rfl, hno⟩
    exact ⟨_, ⟨[], hkeys, rfl⟩, hno⟩
  · rintro ⟨v, ⟨keys, hkeys, rfl⟩, hno⟩
    cases keys with
    | nil => exact ⟨hkeys, _, rfl, hno⟩
    | cons key keys => exact absurd ⟨_, rfl⟩ hno

theorem areSettings_apply (h : fields.AreSettings) (x : String × String) : (apply fields x).AreSettings := by
  unfold apply
  split
  · refine Value.areSettings_mergeFields h ⟨List.pairwise_singleton .., ?_⟩
    simpa using isSetting_nest _ (isSetting_value x.2)
  · exact h

theorem applied_apply (h : fields.AreSettings) (x : String × String) : Applied x fields (apply fields x) := by
  unfold apply
  split
  · rename_i key keys hkeys
    have hvalue := isSetting_nest (key :: keys) (isSetting_value x.2)
    exact .setting (names_iff.mpr hkeys) (means_iff.mpr rfl) (leads_iff.mpr rfl)
      (Value.over_merge (Value.isSetting_object_iff.mpr h) hvalue)
  · rename_i hno
    refine .nothing fun keys hkeys => ?_
    obtain ⟨key, keys, rfl⟩ := List.exists_cons_of_ne_nil hkeys.ne_nil
    exact hno key keys (names_iff.mp hkeys)

theorem get?_apply : (apply fields x).get? table =
    match part? table x with
    | some v => some (((fields.get? table).map (Value.merge · v)).getD v)
    | none => fields.get? table := by
  unfold apply part?
  split
  · rename_i key keys _
    rw [Value.get?_mergeFields (List.pairwise_singleton ..), Fields.get?_cons]
    by_cases hk : key = table <;> simp [hk, Fields.get?]
  · rfl

theorem isSetting_part? (h : part? table x = some v) : v.IsSetting := by
  unfold part? at h
  split at h
  · split at h
    · cases h
      exact isSetting_nest _ (isSetting_value x.2)
    · cases h
  · cases h

/-- What a variable makes of what is under a key of the table. -/
def change (table key : String) (x : String × String) (old : Option Value) : Option Value :=
  match part? table x with
  | some (.object upper) =>
    match Fields.get? upper key with
    | some v => some ((old.map (Value.merge · v)).getD v)
    | none => old
  | some _ => none
  | none => old

theorem get?_table_apply :
    ((apply fields x).table table).get? key = change table key x ((fields.table table).get? key) := by
  unfold change Fields.table
  rw [get?_apply]
  cases hpart : part? table x with
  | none => rfl
  | some v =>
      have hreplaced (hv : ¬v.IsTable) (o : Option Value) : (o.map (Value.merge · v)).getD v = v := by
        cases o with
        | none => rfl
        | some old => exact Value.merge_of_not_isTable fun h => hv h.2
      cases isSetting_part? hpart with
      | @object upper ascending =>
          cases hold : fields.get? table with
          | none =>
              simp only [Option.map_some, Option.map_none, Option.getD_some, Option.getD_none, Value.fields]
              cases Fields.get? upper key <;> rfl
          | some old =>
              by_cases hbase : old.IsTable
              · obtain ⟨base, rfl⟩ := hbase
                have hmerge : Value.merge (.object base) (.object upper) = .object (Value.mergeFields base upper) := rfl
                cases hu : Fields.get? upper key <;>
                  simp only [Option.map_some, Option.getD_some, hmerge, Value.fields,
                    Value.get?_mergeFields ascending, hu]
              · have hreplace : Value.merge old (.object upper) = .object upper :=
                  Value.merge_of_not_isTable fun h => hbase h.1
                have hnone : old.fields = [] := by
                  cases old with
                  | object base => exact absurd ⟨base, rfl⟩ hbase
                  | _ => rfl
                simp only [Option.map_some, Option.getD_some, hreplace, hnone]
                change Fields.get? upper key = _
                cases Fields.get? upper key <;> rfl
      | _ =>
          simp only [hreplaced (by simp [Value.IsTable]), Option.map_some, Option.getD_some, Value.fields]
          rfl

theorem change_eq_self (hgives : ¬Gives table key x) (hreplaces : ¬Replaces table x) (old : Option Value) :
    change table key x old = old := by
  unfold change
  split
  · rename_i upper hpart
    split
    · rename_i v hv
      exact absurd (gives_iff.mpr ⟨upper, v, hpart, hv⟩) hgives
    · rfl
  · rename_i v hno hpart
    refine absurd (replaces_iff.mpr ⟨v, hpart, ?_⟩) hreplaces
    rintro ⟨upper, rfl⟩
    exact hno upper rfl
  · rfl

theorem isSome_change_iff {old : Option Value} :
    (change table key x old).isSome ↔ Gives table key x ∨ old.isSome ∧ ¬Replaces table x := by
  by_cases hgives : Gives table key x
  · obtain ⟨upper, v, hpart, hv⟩ := gives_iff.mp hgives
    simp [change, hpart, hv, hgives]
  · by_cases hreplaces : Replaces table x
    · obtain ⟨v, hpart, hno⟩ := replaces_iff.mp hreplaces
      have hnone : change table key x old = none := by
        unfold change
        rw [hpart]
        cases v with
        | object upper => exact absurd ⟨upper, rfl⟩ hno
        | _ => rfl
      simp [hnone, hgives, hreplaces]
    · rw [change_eq_self hgives hreplaces]
      simp [hgives, hreplaces]

/-- What a variable makes of what is under a key of a table. -/
inductive Changes (table key : String) (x : String × String) : Option Value → Option Value → Prop
  | named {keys : List String} {v w : Value} {old new : Option Value} (hkeys : Names x.1 (table :: key :: keys))
      (hv : Means x.2 v) (hw : Leads keys v w) (hnew : Value.OverField old (some w) new) : Changes table key x old new
  | within {upper : Fields} {v : Value} {old new : Option Value} (hkeys : Names x.1 [table])
      (hupper : Means x.2 (.object upper)) (hv : upper.get? key = some v) (hnew : Value.OverField old (some v) new) :
      Changes table key x old new
  | replaced {old : Option Value} (h : Replaces table x) : Changes table key x old none
  | other {old : Option Value} (hgives : ¬Gives table key x) (hreplaces : ¬Replaces table x) :
      Changes table key x old old

theorem overField_merge {old : Option Value} (hold : ∀ w, old = some w → w.IsSetting) (hv : v.IsSetting) :
    Value.OverField old (some v) (some ((old.map (Value.merge · v)).getD v)) := by
  cases old with
  | none => exact .upper v
  | some w => exact .both (Value.over_merge (hold w rfl) hv)

theorem changes_change {old : Option Value} (hold : ∀ w, old = some w → w.IsSetting) :
    Changes table key x old (change table key x old) := by
  by_cases hgives : Gives table key x
  · rcases id hgives with ⟨keys, hkeys⟩ | ⟨hkeys, upper, v, hupper, hv⟩
    · obtain ⟨w, hw⟩ : ∃ w, nest keys (value x.2) = w := ⟨_, rfl⟩
      have hpart : part? table x = some (.object [(key, w)]) :=
        part?_eq_some_iff.mpr ⟨key :: keys, hkeys, by rw [nest, hw]⟩
      have hchange : change table key x old = some ((old.map (Value.merge · w)).getD w) := by
        simp [change, hpart, Fields.get?_cons]
      refine .named hkeys (means_iff.mpr rfl) (leads_iff.mpr hw) ?_
      exact hchange ▸ overField_merge hold (hw ▸ isSetting_nest keys (isSetting_value x.2))
    · have hpart := part?_eq_some_iff.mpr ⟨[], hkeys, hupper.read⟩
      refine .within hkeys hupper hv ?_
      have hchange : change table key x old = some ((old.map (Value.merge · v)).getD v) := by
        simp [change, hpart, hv]
      have hsetting := isSetting_part? hpart
      exact hchange ▸ overField_merge hold ((Value.isSetting_object_iff.mp hsetting).of_get? hv)
  · by_cases hreplaces : Replaces table x
    · obtain ⟨v, hpart, hno⟩ := replaces_iff.mp hreplaces
      have hnone : (change table key x old).isSome ↔ Gives table key x ∨ old.isSome ∧ ¬Replaces table x :=
        isSome_change_iff
      simp only [hgives, hreplaces, not_true, and_false, or_false, iff_false, Bool.not_eq_true,
        Option.isSome_eq_false_iff, Option.isNone_iff_eq_none] at hnone
      exact hnone ▸ .replaced hreplaces
    · rw [change_eq_self hgives hreplaces]
      exact .other hgives hreplaces

/-! ## All variables -/

/-- What variables, one after the other, make of settings. -/
inductive Says : Fields → List (String × String) → Fields → Prop
  | nothing {fields : Fields} : Says fields [] fields
  | next {x : String × String} {xs : List (String × String)} {old mid new : Fields} (hx : Applied x old mid)
      (h : Says mid xs new) : Says old (x :: xs) new

/-- What variables, one after the other, make of what is under a key of a table. -/
inductive Makes (table key : String) : Option Value → List (String × String) → Option Value → Prop
  | nothing {o : Option Value} : Makes table key o [] o
  | next {x : String × String} {xs : List (String × String)} {old mid new : Option Value}
      (hx : Changes table key x old mid) (h : Makes table key mid xs new) : Makes table key old (x :: xs) new

theorem Says.unique {xs : List (String × String)} (h : Says fields xs old) (h' : Says fields xs new) : old = new := by
  induction h with
  | nothing =>
      cases h'
      rfl
  | next hx _ ih =>
      cases h' with
      | next hx' h' =>
          cases hx.unique hx'
          exact ih h'

theorem says_foldl (h : fields.AreSettings) (xs : List (String × String)) : Says fields xs (xs.foldl apply fields) := by
  induction xs generalizing fields with
  | nil => exact .nothing
  | cons x xs ih => exact .next (applied_apply h x) (ih (areSettings_apply h x))

/-- The variables in the order of their names. -/
def byName (environment : List (String × String)) : List (String × String) :=
  environment.mergeSort fun a b => decide (a.1 ≤ b.1)

/-- What the variables make of a key of a table, one after the other. -/
def given (environment : List (String × String)) (table key : String) : Option Value :=
  (byName environment).foldl (fun old x => change table key x old) none

/-- A variable gives something under the key, and no later one replaces the table. -/
def Leaves (environment : List (String × String)) (table key : String) : Prop :=
  ∃ before x after, byName environment = before ++ x :: after ∧ Gives table key x ∧ ∀ y ∈ after, ¬Replaces table y

/-- No variable gives the whole table in an envelope. -/
def NoEnvelope (table : String) (environment : List (String × String)) : Prop :=
  ∀ x ∈ environment, Names x.1 [table] →
    ¬Gives table "___figment_value_value" x ∧ ¬Gives table "___figment_value_id" x

theorem settings_eq_foldl (environment : List (String × String)) :
    settings environment = (byName environment).foldl apply [] :=
  rfl

theorem areSettings_settings (environment : List (String × String)) : (settings environment).AreSettings := by
  rw [settings_eq_foldl]
  exact List.foldlRecOn _ _ .nil fun _ h x _ => areSettings_apply h x

theorem get?_table_foldl (xs : List (String × String)) : ((xs.foldl apply fields).table table).get? key =
    xs.foldl (fun old x => change table key x old) ((fields.table table).get? key) := by
  induction xs generalizing fields with
  | nil => rfl
  | cons x xs ih => rw [List.foldl_cons, ih, get?_table_apply, List.foldl_cons]

theorem get?_table_settings (environment : List (String × String)) (table key : String) :
    ((settings environment).table table).get? key = given environment table key := by
  rw [settings_eq_foldl, get?_table_foldl]
  rfl

theorem says_settings (environment : List (String × String)) : Says [] (byName environment) (settings environment) :=
  says_foldl .nil _

theorem makes_foldl (h : fields.AreSettings) (xs : List (String × String)) :
    Makes table key ((fields.table table).get? key) xs (((xs.foldl apply fields).table table).get? key) := by
  induction xs generalizing fields with
  | nil => exact .nothing
  | cons x xs ih =>
      refine .next (changes_change fun w => (h.table table).of_get?) ?_
      rw [← get?_table_apply]
      exact ih (areSettings_apply h x)

theorem makes_settings (environment : List (String × String)) (table key : String) :
    Makes table key none (byName environment) (((settings environment).table table).get? key) :=
  makes_foldl .nil _

theorem isSome_given_iff : (given environment table key).isSome ↔ Leaves environment table key := by
  unfold given Leaves
  induction byName environment using List.reverseRecOn with
  | nil => simp
  | append_singleton xs x ih =>
      rw [List.foldl_append, List.foldl_cons, List.foldl_nil, isSome_change_iff, ih]
      constructor
      · rintro (hgives | ⟨⟨before, y, after, rfl, hy, hafter⟩, hreplaces⟩)
        · exact ⟨xs, x, [], rfl, hgives, nofun⟩
        · refine ⟨before, y, after ++ [x], by simp, hy, fun z hz => ?_⟩
          rcases List.mem_append.mp hz with hz | hz
          · exact hafter z hz
          · rwa [List.mem_singleton.mp hz]
      · rintro ⟨before, y, after, hsplit, hy, hafter⟩
        rcases List.eq_nil_or_concat after with rfl | ⟨more, z, rfl⟩
        · obtain ⟨-, hx⟩ := List.append_inj' hsplit rfl
          cases hx
          exact .inl hy
        · have hlast : xs ++ [x] = before ++ y :: more ++ [z] := by simpa using hsplit
          obtain ⟨rfl, hx⟩ := List.append_inj' hlast rfl
          cases hx
          exact .inr ⟨⟨before, y, more, rfl, hy, fun w hw => hafter w (by simp [hw])⟩, hafter x (by simp)⟩

theorem byName_pairwise_lt (h : (environment.map (·.1)).Nodup) :
    (byName environment).Pairwise fun x y => x.1 < y.1 := by
  have hsorted : (byName environment).Pairwise fun x y => decide (x.1 ≤ y.1) = true :=
    List.pairwise_mergeSort (by simpa using fun _ _ _ => le_trans) (by simpa using fun _ _ => le_total _ _) environment
  have hnames : (byName environment).Pairwise fun x y => x.1 ≠ y.1 :=
    List.pairwise_map.mp (((List.mergeSort_perm environment _).map _).nodup_iff.mpr h)
  exact (hsorted.and hnames).imp fun h => lt_of_le_of_ne (by simpa using h.1) h.2

/-- What is left under a key depends only on the variables that give something under it or replace the table. -/
theorem given_congr (h : (environment.map (·.1)).Nodup) (h' : (environment'.map (·.1)).Nodup)
    (hsame : ∀ x, Gives table key x ∨ Replaces table x → (x ∈ environment ↔ x ∈ environment')) :
    given environment table key = given environment' table key := by
  classical
  let concerns (x : String × String) : Bool := decide (Gives table key x ∨ Replaces table x)
  have hfilter (xs : List (String × String)) : xs.foldl (fun old x => change table key x old) none =
      (xs.filter concerns).foldl (fun old x => change table key x old) none := by
    rw [List.foldl_filter]
    refine congrArg (fun f => xs.foldl f none) (funext fun old => funext fun x => ?_)
    split
    · rfl
    · rename_i hno
      obtain ⟨hgives, hreplaces⟩ := not_or.mp (by simpa [concerns] using hno)
      exact change_eq_self hgives hreplaces old
  have : Std.Irrefl fun x y : String × String => x.1 < y.1 := ⟨fun x => lt_irrefl x.1⟩
  have : Std.Antisymm fun x y : String × String => x.1 < y.1 := ⟨fun _ _ hlt hgt => absurd hgt hlt.asymm⟩
  have hequal : (byName environment).filter concerns = (byName environment').filter concerns := by
    refine List.Pairwise.eq_of_mem_iff ((byName_pairwise_lt h).filter _) ((byName_pairwise_lt h').filter _) fun x => ?_
    simp only [List.mem_filter, byName, List.mem_mergeSort, concerns, decide_eq_true_eq]
    exact and_congr_left (hsame x)
  rw [given, given, hfilter, hequal, ← hfilter]

/-! ## Names -/

theorem infix_of_infix_map_toLower (h : ['_', '_'] <:+: cs.map Char.toLower) : ['_', '_'] <:+: cs := by
  obtain ⟨before, after, h⟩ := h
  obtain ⟨ds, es, rfl, hds, -⟩ := List.append_eq_map_iff.mp h
  obtain ⟨fs, gs, rfl, -, hgs⟩ := List.map_eq_append_iff.mp hds
  have hmarks : gs = ['_', '_'] := by
    match gs with
    | [c, d] => simpa [OptionKey.toLower_eq_underscore_iff] using hgs
    | [] | [_] | _ :: _ :: _ :: _ => simp at hgs
  exact hmarks ▸ ⟨fs, es, rfl⟩

/-- A name is cut where two underscores stand. -/
theorem Names.not_infix {name : String} {keys : List String} (h : Names name keys) (hk : key ∈ keys) :
    ¬['_', '_'] <:+: key.toList := by
  obtain ⟨_, path, parts, -, -, hparts, -, rfl⟩ := h
  obtain ⟨part, hpart, rfl⟩ := List.mem_map.mp hk
  rw [String.toList_ofList]
  exact fun hi => (hparts.isPart part hpart).no_marks (infix_of_infix_map_toLower hi)

/-- The keys of an envelope are given in a table only that is the value of a variable. -/
theorem names_of_gives (h : Gives table key x) (hkey : ['_', '_'] <:+: key.toList) : Names x.1 [table] := by
  rcases h with ⟨keys, hkeys⟩ | ⟨hkeys, -⟩
  · exact absurd hkey (hkeys.not_infix (by simp))
  · exact hkeys

end ImportCheck.Variable

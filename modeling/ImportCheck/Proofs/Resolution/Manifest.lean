import ImportCheck.Resolution.Package
import Mathlib.Data.List.Induction

/-!
# Manifests

A manifest is an object with at most one field for each of the three entries, or the list of the three. The first entry
that is there counts.
-/

namespace ImportCheck.PackageManifest

variable {m : PackageManifest} {j : Json} {fields : List (StringLiteral × Json)} {entry : Option String}

/-- Null gives no entry, and a text gives itself. -/
inductive Gives : Json → Option String → Prop
  | null : Gives .null none
  | text {literal : StringLiteral} {s : String} (h : literal.text? = some s) : Gives (.string literal) (some s)

/-- What the fields of one name give: nothing where there is none, and there is one at most. -/
inductive Give : List Json → Option String → Prop
  | absent : Give [] none
  | once {j : Json} {entry : Option String} (h : Gives j entry) : Give [j] entry

/-- The values of the fields of one name. -/
def under (fields : List (StringLiteral × Json)) (name : String) : List Json :=
  (fields.filter fun f => f.1.text? = some name).map (·.2)

/-- What a manifest may look like. All names are texts; fields of other names may hold anything. -/
inductive Describes : Json → PackageManifest → Prop
  | object {fields : List (StringLiteral × Json)} {m : PackageManifest}
      (names : ∀ f ∈ fields, ∃ name, f.1.text? = some name) (typings : Give (under fields "typings") m.typings)
      (types : Give (under fields "types") m.types) (main : Give (under fields "main") m.main) :
      Describes (.object fields) m
  | list {typings types main : Json} {m : PackageManifest} (htypings : Gives typings m.typings)
      (htypes : Gives types m.types) (hmain : Gives main m.main) : Describes (.array [typings, types, main]) m

/-- The entry that counts. -/
inductive Enters : PackageManifest → String → Prop
  | typings {m : PackageManifest} {s : String} (h : m.typings = some s) : Enters m s
  | types {m : PackageManifest} {s : String} (hno : m.typings = none) (h : m.types = some s) : Enters m s
  | main {m : PackageManifest} {s : String} (hno : m.typings = none) (hno' : m.types = none) (h : m.main = some s) :
      Enters m s

theorem entry?_eq_some_iff {s : String} : m.entry? = some s ↔ Enters m s := by
  obtain ⟨typings, types, main⟩ := m
  constructor
  · intro h
    cases typings with
    | some => exact .typings h
    | none =>
        cases types with
        | some => exact .types rfl h
        | none => exact .main rfl rfl h
  · rintro (h | ⟨h, h'⟩ | ⟨h, h', h''⟩) <;> simp_all [ entry?]

theorem entryValue?_eq_some_iff : entryValue? j = some entry ↔ Gives j entry := by
  constructor
  · intro h
    cases j with
    | null =>
        cases h
        exact .null
    | string literal =>
        obtain ⟨s, hs, rfl⟩ := Option.map_eq_some_iff.mp h
        exact .text hs
    | _ => cases h
  · rintro (_ | h)
    · rfl
    · simp [entryValue?, h]

/-! ## The fields of an object -/

/-- What has been read for a name so far. -/
inductive Held : List Json → Option (Option String) → Prop
  | absent : Held [] none
  | once {j : Json} {entry : Option String} (h : Gives j entry) : Held [j] (some entry)

theorem give_iff {js : List Json} : Give js entry ↔ ∃ o, Held js o ∧ o.join = entry := by
  constructor
  · rintro (_ | h)
    · exact ⟨none, .absent, rfl⟩
    · exact ⟨some entry, .once h, rfl⟩
  · rintro ⟨o, _ | h, rfl⟩
    · exact .absent
    · exact .once h

theorem held_concat_iff {js : List Json} {o : Option (Option String)} :
    Held (js ++ [j]) o ↔ Held js none ∧ ∃ entry, entryValue? j = some entry ∧ some entry = o := by
  simp only [entryValue?_eq_some_iff]
  constructor
  · intro h
    generalize hjs : js ++ [j] = all at h
    cases h with
    | absent => simp at hjs
    | once h =>
        obtain ⟨rfl, hj⟩ := List.append_eq_singleton_iff.mp hjs |>.resolve_right (by simp)
        cases hj
        exact ⟨.absent, _, h, rfl⟩
  · rintro ⟨⟨⟩, entry, h, rfl⟩
    exact .once h

/-- What a field makes of what has been read for a name. -/
def Fills (name slot : String) (j : Json) (old new : Option (Option String)) : Prop :=
  if name = slot then old = none ∧ ∃ entry, entryValue? j = some entry ∧ some entry = new else old = new

theorem held_under_concat_iff {field : StringLiteral × Json} {name slot : String} {new : Option (Option String)}
    (hname : field.1.text? = some name) :
    Held (under (fields ++ [field]) slot) new ↔
      ∃ old, Held (under fields slot) old ∧ Fills name slot field.2 old new := by
  unfold Fills under
  rw [List.filter_append, List.map_append]
  by_cases h : name = slot
  · subst h
    simp [hname, held_concat_iff]
  · simp [hname, h]

theorem addField?_eq_some_iff {p q : Partial} {field : StringLiteral × Json} :
    addField? p field = some q ↔ ∃ name, field.1.text? = some name ∧
      Fills name "typings" field.2 p.typings q.typings ∧ Fills name "types" field.2 p.types q.types ∧
      Fills name "main" field.2 p.main q.main := by
  obtain ⟨typings, types, main⟩ := p
  obtain ⟨typings', types', main'⟩ := q
  unfold addField? Fills
  cases hname : field.1.text? with
  | none => simp
  | some name =>
      by_cases htypings : name = "typings"
      · subst htypings
        cases typings <;> cases entryValue? field.2 <;> simp
      · by_cases htypes : name = "types"
        · subst htypes
          cases types <;> cases entryValue? field.2 <;> simp
        · by_cases hmain : name = "main"
          · subst hmain
            cases main <;> cases entryValue? field.2 <;> simp
          · simp [htypings, htypes, hmain]

theorem foldlM_addField?_eq_some_iff {p : Partial} :
    fields.foldlM addField? {} = some p ↔ (∀ f ∈ fields, ∃ name, f.1.text? = some name) ∧
      Held (under fields "typings") p.typings ∧ Held (under fields "types") p.types ∧
      Held (under fields "main") p.main := by
  induction fields using List.reverseRecOn generalizing p with
  | nil =>
      obtain ⟨typings, types, main⟩ := p
      constructor
      · intro h
        cases h
        exact ⟨nofun, .absent, .absent, .absent⟩
      · rintro ⟨-, ⟨⟩, ⟨⟩, ⟨⟩⟩
        rfl
  | append_singleton before field ih =>
      have hlast : (before ++ [field]).foldlM addField? {} = (before.foldlM addField? {}).bind (addField? · field) := by
        simp [List.foldlM_append]
      simp only [hlast, Option.bind_eq_some_iff, ih, addField?_eq_some_iff, List.forall_mem_append,
        List.forall_mem_singleton]
      constructor
      · rintro ⟨old, ⟨hnames, htypings, htypes, hmain⟩, name, hname, hfills, hfills', hfills''⟩
        exact ⟨⟨hnames, name, hname⟩, (held_under_concat_iff hname).mpr ⟨_, htypings, hfills⟩,
          (held_under_concat_iff hname).mpr ⟨_, htypes, hfills'⟩,
          (held_under_concat_iff hname).mpr ⟨_, hmain, hfills''⟩⟩
      · rintro ⟨⟨hnames, name, hname⟩, htypings, htypes, hmain⟩
        obtain ⟨typings, htypings, hfills⟩ := (held_under_concat_iff hname).mp htypings
        obtain ⟨types, htypes, hfills'⟩ := (held_under_concat_iff hname).mp htypes
        obtain ⟨main, hmain, hfills''⟩ := (held_under_concat_iff hname).mp hmain
        exact ⟨⟨typings, types, main⟩, ⟨hnames, htypings, htypes, hmain⟩, name, hname, hfills, hfills', hfills''⟩

/-! ## Manifests -/

theorem ofJson?_eq_some_iff : ofJson? j = some m ↔ Describes j m := by
  cases j with
  | object fields =>
      simp only [ofJson?, Option.pure_def, Option.bind_eq_bind, Option.bind_eq_some_iff, Option.some.injEq,
        foldlM_addField?_eq_some_iff]
      constructor
      · rintro ⟨p, ⟨hnames, htypings, htypes, hmain⟩, rfl⟩
        exact .object hnames (give_iff.mpr ⟨_, htypings, rfl⟩) (give_iff.mpr ⟨_, htypes, rfl⟩)
          (give_iff.mpr ⟨_, hmain, rfl⟩)
      · rintro (⟨hnames, htypings, htypes, hmain⟩)
        obtain ⟨typings, htypings, ht⟩ := give_iff.mp htypings
        obtain ⟨types, htypes, ht'⟩ := give_iff.mp htypes
        obtain ⟨main, hmain, ht''⟩ := give_iff.mp hmain
        exact ⟨⟨typings, types, main⟩, ⟨hnames, htypings, htypes, hmain⟩, by simp [ht, ht', ht'']⟩
  | array items =>
      constructor
      · intro h
        unfold ofJson? at h
        split at h
        · rename_i he
          cases he
        · rename_i typings types main he
          cases he
          simp only [Option.pure_def, Option.bind_eq_bind, Option.bind_eq_some_iff, Option.some.injEq,
            entryValue?_eq_some_iff] at h
          obtain ⟨_, htypings, _, htypes, _, hmain, rfl⟩ := h
          exact .list htypings htypes hmain
        · cases h
      · rintro (_ | ⟨htypings, htypes, hmain⟩)
        simp [ofJson?, entryValue?_eq_some_iff.mpr htypings, entryValue?_eq_some_iff.mpr htypes,
          entryValue?_eq_some_iff.mpr hmain]
  | null | bool | number | string => exact ⟨nofun, nofun⟩

theorem ofText?_eq_some_iff {text : String} :
    ofText? text = some m ↔ ∃ j, Json.read? text = some j ∧ Describes j m := by
  simp only [ofText?, Option.bind_eq_some_iff, ofJson?_eq_some_iff]

end ImportCheck.PackageManifest

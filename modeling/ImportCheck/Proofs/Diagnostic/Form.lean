import ImportCheck.Diagnostic
import ImportCheck.Proofs.Lemmas.Fields

/-!
# Forms of a report

A report is described by an object or by the list of its parts. Of the objects that describe it one is in written form:
it has no field that is null, no field that a report does not have, and its category is a text.
-/

namespace ImportCheck

namespace Diagnostic

variable {α : Type} {d : Diagnostic} {v : Value} {fields : Fields} {key : String}

/-! ## Parts -/

/-- The parts of a report in their order. -/
def parts : List String := ["file", "start", "length", "message", "category", "code"]

inductive IsText : Value → String → Prop
  | text (s : String) : IsText (.string s) s

inductive IsPath : Value → Path → Prop
  | path (p : Path) : IsPath (.string p.toString) p

/-- A whole number below 2^32. -/
inductive IsWord : Value → UInt32 → Prop
  | word (n : UInt32) : IsWord (.ofNat n.toNat) n

/-- A category is given by its name, or by an object whose only field has the name as its key and is null. -/
inductive IsCategory : Value → Category → Prop
  | name (c : Category) : IsCategory (.string c.name) c
  | key (c : Category) : IsCategory (.object [(c.name, .null)]) c

/-- A part that there must be. -/
def Given (reads : Value → α → Prop) (part : Option Value) (a : α) : Prop := ∃ v, part = some v ∧ reads v a

/-- A part that may be left out, or be null. -/
inductive MayBeGiven (reads : Value → α → Prop) : Option Value → Option α → Prop
  | absent : MayBeGiven reads none none
  | null : MayBeGiven reads (some .null) none
  | present {v : Value} {a : α} (h : reads v a) : MayBeGiven reads (some v) (some a)

/-- What stands under the name of each part. -/
structure HasParts (part : String → Option Value) (d : Diagnostic) : Prop where
  file : MayBeGiven IsPath (part "file") d.file
  start : MayBeGiven IsWord (part "start") d.start
  length : MayBeGiven IsWord (part "length") d.length
  message : Given IsText (part "message") d.message
  category : Given IsCategory (part "category") d.category
  code : Given IsWord (part "code") d.code

/-- A value describes a report by an object, of which other fields do not count, or by the list of its six parts. -/
inductive Describes : Value → Diagnostic → Prop
  | object {fields : Fields} {d : Diagnostic} (h : HasParts (Fields.get? fields) d) : Describes (.object fields) d
  | list {items : List Value} {d : Diagnostic} (hl : items.length = parts.length)
      (h : HasParts (Fields.get? (parts.zip items)) d) : Describes (.array items) d

/-! ## Reading -/

theorem text?_eq_some_iff {s : String} : text? v = some s ↔ IsText v s := by
  cases v with
  | string => exact ⟨fun h => by cases h; exact .text _, fun | .text _ => rfl⟩
  | _ => exact ⟨nofun, nofun⟩

theorem word?_eq_some_iff {n : UInt32} : word? v = some n ↔ IsWord v n := by
  constructor
  · intro h
    unfold word? at h
    split at h
    · rename_i m
      split_ifs at h with hm
      cases h
      have hword : IsWord (.ofNat (Nat.toUInt32 m).toNat) m.toUInt32 := .word _
      rwa [Nat.toUInt32_eq, UInt32.toNat_ofNat_of_lt' hm] at hword
    · cases h
  · rintro ⟨n⟩
    have hn : n.toNat < Nat.pow 2 32 := n.toNat_lt
    simp [word?, Value.ofNat, hn]

theorem chosen?_eq_some_iff {c : Category} : v.chosen? Category.choices = some c ↔ IsCategory v c := by
  have hfind (s : String) (c : Category) :
      (Category.choices.names.find? (·.1 == s)).map (·.2) = some c ↔ s = c.name := by
    rw [← mem_iff_find? (by decide)]
    cases c <;> simp [Category.choices, Category.name]
  unfold Value.chosen?
  split
  · rename_i s
    rw [hfind]
    exact ⟨fun h => h ▸ .name c, fun | .name _ => rfl⟩
  · rename_i s
    rw [hfind]
    exact ⟨fun h => h ▸ .key c, fun | .key _ => rfl⟩
  · rename_i hname hkey
    refine ⟨nofun, ?_⟩
    rintro (⟨⟩ | ⟨⟩)
    exacts [(hname _ rfl).elim, (hkey _ rfl).elim]

/-- What is not there is read as null. -/
theorem read_getD_eq_some_iff {read : Value → Option α} {reads : Value → α → Prop} {part : Option Value} {a : α}
    (hread : ∀ v a, read v = some a ↔ reads v a) (hnull : read .null = none) :
    read (part.getD .null) = some a ↔ Given reads part a := by
  cases part with
  | none => simp [Given, hnull]
  | some v => simp [Given, hread]

theorem optional?_getD_eq_some_iff {read : Value → Option α} {reads : Value → α → Prop} {part : Option Value}
    {a : Option α} (hread : ∀ v a, read v = some a ↔ reads v a) (hnull : read .null = none) :
    optional? read (part.getD .null) = some a ↔ MayBeGiven reads part a := by
  cases part with
  | none => exact ⟨fun h => by cases h; exact .absent, fun | .absent => rfl⟩
  | some v =>
      cases v with
      | null =>
          refine ⟨fun h => by cases h; exact .null, fun h => ?_⟩
          cases h with
          | null => rfl
          | present h => rw [← hread, hnull] at h; cases h
      | _ =>
          simp only [Option.getD_some, optional?, Option.map_eq_some_iff, hread]
          refine ⟨fun ⟨b, hb, he⟩ => he ▸ .present hb, fun h => ?_⟩
          cases h with
          | present h => exact ⟨_, h, rfl⟩

theorem mayBeGiven_isPath_iff {part : Option Value} {file : Option Path} :
    MayBeGiven IsPath part file ↔ ∃ s, MayBeGiven IsText part s ∧ s.map Path.ofString = file := by
  constructor
  · rintro (_ | _ | h)
    · exact ⟨none, .absent, rfl⟩
    · exact ⟨none, .null, rfl⟩
    · cases h with
      | path => exact ⟨_, .present (.text _), congrArg some (Path.ofString_toString _)⟩
  · rintro ⟨s, _ | _ | h, rfl⟩
    · exact .absent
    · exact .null
    · cases h with
      | text =>
          rename_i s
          have hpath : IsPath (.string (Path.ofString s).toString) (.ofString s) := .path _
          rw [Path.toString_ofString] at hpath
          exact .present hpath

theorem ofParts?_eq_some_iff (part : String → Option Value) :
    ofParts? ((part "file").getD .null) ((part "start").getD .null) ((part "length").getD .null)
      ((part "message").getD .null) ((part "category").getD .null) ((part "code").getD .null) = some d ↔
      HasParts part d := by
  have htext (v : Value) (s : String) : text? v = some s ↔ IsText v s := text?_eq_some_iff
  have hword (v : Value) (n : UInt32) : word? v = some n ↔ IsWord v n := word?_eq_some_iff
  have hcategory (v : Value) (c : Category) : v.chosen? Category.choices = some c ↔ IsCategory v c :=
    chosen?_eq_some_iff
  simp only [ofParts?, bind, Option.bind_eq_some_iff, optional?_getD_eq_some_iff htext rfl,
    optional?_getD_eq_some_iff hword rfl, read_getD_eq_some_iff htext rfl, read_getD_eq_some_iff hcategory rfl,
    read_getD_eq_some_iff hword rfl, pure, Option.some.injEq]
  constructor
  · rintro ⟨file, hfile, start, hstart, length, hlength, message, hmessage, category, hc, code, hcode, rfl⟩
    exact ⟨mayBeGiven_isPath_iff.mpr ⟨file, hfile, rfl⟩, hstart, hlength, hmessage, hc, hcode⟩
  · rintro ⟨hfile, hstart, hlength, hmessage, hc, hcode⟩
    obtain ⟨file, hfile, he⟩ := mayBeGiven_isPath_iff.mp hfile
    exact ⟨file, hfile, _, hstart, _, hlength, _, hmessage, _, hc, _, hcode, by rw [he]⟩

/-- A report is read from the values that describe it, and from nothing else. -/
theorem ofValue?_eq_some_iff : ofValue? v = some d ↔ Describes v d := by
  constructor
  · intro h
    unfold ofValue? at h
    split at h
    · exact .object ((ofParts?_eq_some_iff _).mp h)
    · rename_i file start length message category code
      let items := [file, start, length, message, category, code]
      exact .list rfl ((ofParts?_eq_some_iff (Fields.get? (parts.zip items))).mp h)
    · cases h
  · rintro (⟨h⟩ | ⟨hl, h⟩)
    · exact (ofParts?_eq_some_iff _).mpr h
    · rename_i items
      match items, hl with
      | [_, _, _, _, _, _], _ => exact (ofParts?_eq_some_iff _).mpr h

/-! ## Writing -/

/-- The fields of the data value of a report. -/
def toFields (d : Diagnostic) : Fields :=
  [("category", .string d.category.name), ("code", .ofNat d.code.toNat)] ++
    (d.file.map fun p => ("file", .string p.toString)).toList ++
    (d.length.map fun n => ("length", .ofNat n.toNat)).toList ++ [("message", .string d.message)] ++
    (d.start.map fun n => ("start", .ofNat n.toNat)).toList

theorem toValue_eq (d : Diagnostic) : d.toValue = .object d.toFields := by
  simp [toValue, toFields, Option.map_map, Function.comp_def]

/-- The names of the parts in key order. -/
def sortedParts : List String := ["category", "code", "file", "length", "message", "start"]

theorem keys_toFields_sublist (d : Diagnostic) : (d.toFields.map (·.1)).Sublist sortedParts := by
  obtain ⟨file, start, length, message, category, code⟩ := d
  cases file <;> cases start <;> cases length <;> simp [toFields, sortedParts]

/-- An object in key order with no field that is null or an object, and none that a report does not have. -/
structure Written (fields : Fields) : Prop where
  ascending : Fields.Ascending fields
  known : ∀ f ∈ fields, f.1 ∈ parts
  flat : ∀ f ∈ fields, f.2 ≠ .null ∧ ∀ inner, f.2 ≠ .object inner

theorem written_toFields (d : Diagnostic) : Written d.toFields where
  ascending := List.pairwise_map.mp ((by decide : sortedParts.Pairwise (· < ·)).sublist (keys_toFields_sublist d))
  known f hf := (by decide : sortedParts ⊆ parts) ((keys_toFields_sublist d).subset (List.mem_map_of_mem hf))
  flat f hf := by
    simp only [toFields, List.mem_append, List.mem_cons, Option.mem_toList, Option.map_eq_some_iff,
      List.not_mem_nil, or_false] at hf
    rcases hf with ((((rfl | rfl) | ⟨_, _, rfl⟩) | ⟨_, _, rfl⟩) | rfl) | ⟨_, _, rfl⟩ <;> exact ⟨nofun, nofun⟩

theorem get?_toFields (d : Diagnostic) :
    Fields.get? d.toFields "file" = (d.file.map fun p => .string p.toString) ∧
    Fields.get? d.toFields "start" = (d.start.map fun n => .ofNat n.toNat) ∧
    Fields.get? d.toFields "length" = (d.length.map fun n => .ofNat n.toNat) ∧
    Fields.get? d.toFields "message" = some (.string d.message) ∧
    Fields.get? d.toFields "category" = some (.string d.category.name) ∧
    Fields.get? d.toFields "code" = some (.ofNat d.code.toNat) := by
  obtain ⟨file, start, length, message, category, code⟩ := d
  cases file <;> cases start <;> cases length <;> exact ⟨rfl, rfl, rfl, rfl, rfl, rfl⟩

theorem mayBeGiven_map {reads : Value → α → Prop} {write : α → Value} (h : ∀ a, reads (write a) a) (a : Option α) :
    MayBeGiven reads (a.map write) a := by
  cases a with
  | none => exact .absent
  | some a => exact .present (h a)

theorem hasParts_toFields (d : Diagnostic) : HasParts (Fields.get? d.toFields) d := by
  obtain ⟨hfile, hstart, hlength, hmessage, hcategory, hcode⟩ := get?_toFields d
  exact {
    file := hfile ▸ mayBeGiven_map .path d.file
    start := hstart ▸ mayBeGiven_map .word d.start
    length := hlength ▸ mayBeGiven_map .word d.length
    message := ⟨_, hmessage, .text _⟩
    category := ⟨_, hcategory, .name _⟩
    code := ⟨_, hcode, .word _⟩ }

/-- A written field that may be left out is there exactly if the report has the part. -/
theorem MayBeGiven.eq_map {reads : Value → α → Prop} {write : α → Value} {a : Option α}
    (h : MayBeGiven reads (Fields.get? fields key) a) (hw : Written fields)
    (hreads : ∀ {v a}, reads v a → v = write a) :
    Fields.get? fields key = a.map write := by
  generalize hpart : Fields.get? fields key = part at h
  cases h with
  | absent => rfl
  | null =>
      have hm := (Fields.mem_iff_get? hw.ascending.nodup).mpr hpart
      exact absurd rfl (hw.flat _ hm).1
  | present h => rw [hreads h, Option.map_some]

/-- A report has one written form. -/
theorem Written.eq_toFields (hw : Written fields) (h : HasParts (Fields.get? fields) d) : fields = d.toFields := by
  obtain ⟨hfile, hstart, hlength, hmessage, hcategory, hcode⟩ := get?_toFields d
  have hpart (key : String) (hk : key ∈ parts) : Fields.get? fields key = Fields.get? d.toFields key := by
    simp only [parts, List.mem_cons, List.not_mem_nil, or_false] at hk
    rcases hk with rfl | rfl | rfl | rfl | rfl | rfl
    · rw [hfile, h.file.eq_map hw fun | .path _ => rfl]
    · rw [hstart, h.start.eq_map hw fun | .word _ => rfl]
    · rw [hlength, h.length.eq_map hw fun | .word _ => rfl]
    · obtain ⟨v, hv, ⟨⟩⟩ := h.message
      rw [hv, hmessage]
    · obtain ⟨v, hv, hc⟩ := h.category
      cases hc with
      | name => rw [hv, hcategory]
      | key => exact absurd rfl ((hw.flat _ ((Fields.mem_iff_get? hw.ascending.nodup).mpr hv)).2 _)
    · obtain ⟨v, hv, ⟨⟩⟩ := h.code
      rw [hv, hcode]
  refine hw.ascending.ext (written_toFields d).ascending fun key => ?_
  by_cases hk : key ∈ parts
  · exact hpart key hk
  · have hnone {gs : Fields} (hg : Written gs) : Fields.get? gs key = none :=
      Option.map_eq_none_iff.mpr (List.find?_eq_none.mpr fun f hf he => hk (beq_iff_eq.mp he ▸ hg.known f hf))
    rw [hnone hw, hnone (written_toFields d)]

/-- A report is read from the values that describe it and from nothing else. Its data value is an object in written
form, is read back as the report, and is the only such object that describes it. -/
theorem read_back_from_form (d : Diagnostic) :
    (∀ v, ofValue? v = some d ↔ Describes v d) ∧
    ∃ fields, d.toValue = .object fields ∧ Written fields ∧ ofValue? (.object fields) = some d ∧
      ∀ other, Written other → ofValue? (.object other) = some d → other = fields := by
  refine ⟨fun v => ofValue?_eq_some_iff, d.toFields, toValue_eq d, written_toFields d,
    ofValue?_eq_some_iff.mpr (.object (hasParts_toFields d)), fun other hw hread => ?_⟩
  cases ofValue?_eq_some_iff.mp hread with
  | object h => exact hw.eq_toFields h

/-- A list of the parts, with null for what is left out, and a category given by a key. -/
example : (ofValue? (.array [.null, .null, .null, .string "x", .object [("error", .null)], .ofNat 1005])).map toFields =
    some [("category", .string "error"), ("code", .ofNat 1005), ("message", .string "x")] := rfl

end Diagnostic

end ImportCheck

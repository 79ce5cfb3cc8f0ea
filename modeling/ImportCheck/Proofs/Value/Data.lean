import ImportCheck.Options.Basic

/-!
# Data values

A value that a data text can hold is kept as it is, however deep it goes. Any other is made into one.
-/

namespace ImportCheck.Value

mutual
/-- What a data text can hold: a number is finite and does not come from a variable, and a text is no letter. -/
def IsData : Value → Prop
  | .number (.place _) => False
  | .number (.float x) => x.isFinite
  | .letter _ => False
  | .array items => IsDataItems items
  | .object fields => IsDataFields fields
  | _ => True

def IsDataItems : List Value → Prop
  | [] => True
  | v :: vs => v.IsData ∧ IsDataItems vs

def IsDataFields : List (String × Value) → Prop
  | [] => True
  | (_, v) :: rest => v.IsData ∧ IsDataFields rest
end

mutual
theorem IsData.plain_eq : (v : Value) → v.IsData → v.plain = v
  | .null, _ => rfl
  | .bool _, _ => rfl
  | .number (.unsigned _), _ => rfl
  | .number (.signed _), _ => rfl
  | .number (.float x), h => by
      simp only [IsData] at h
      simp [plain, h]
  | .string _, _ => rfl
  | .array items, h => by
      simp only [IsData] at h
      rw [plain, IsDataItems.plainItems_eq items h]
  | .object fields, h => by
      simp only [IsData] at h
      rw [plain, IsDataFields.plainFields_eq fields h]

theorem IsDataItems.plainItems_eq : (vs : List Value) → IsDataItems vs → plainItems vs = vs
  | [], _ => rfl
  | v :: vs, h => by
      simp only [IsDataItems] at h
      rw [plainItems, IsData.plain_eq v h.1, IsDataItems.plainItems_eq vs h.2]

theorem IsDataFields.plainFields_eq : (fields : List (String × Value)) → IsDataFields fields →
    plainFields fields = fields
  | [], _ => rfl
  | (key, v) :: rest, h => by
      simp only [IsDataFields] at h
      rw [plainFields, IsData.plain_eq v h.1, IsDataFields.plainFields_eq rest h.2]
end

mutual
/-- What has been made plain is kept. -/
theorem plain_plain : (v : Value) → v.plain.plain = v.plain
  | .null | .bool _ | .number (.unsigned _) | .number (.signed _) | .number (.place _) | .letter _ | .string _ => rfl
  | .number (.float x) => by
      by_cases h : x.isFinite <;> simp [plain, h]
  | .array items => by rw [plain, plain, plainItems_plainItems items]
  | .object fields => by rw [plain, plain, plainFields_plainFields fields]

theorem plainItems_plainItems : (vs : List Value) → plainItems (plainItems vs) = plainItems vs
  | [] => rfl
  | v :: vs => by rw [plainItems, plainItems, plain_plain v, plainItems_plainItems vs]

theorem plainFields_plainFields : (fields : List (String × Value)) →
    plainFields (plainFields fields) = plainFields fields
  | [] => rfl
  | (key, v) :: rest => by rw [plainFields, plainFields, plain_plain v, plainFields_plainFields rest]
end

theorem isDataFields_iff {fields : Fields} : IsDataFields fields ↔ ∀ f ∈ fields, f.2.IsData := by
  induction fields with
  | nil => simp [IsDataFields]
  | cons f rest ih => simp [IsDataFields, ih]

theorem plainFields_eq_map (fields : Fields) : plainFields fields = fields.map fun f => (f.1, f.2.plain) := by
  induction fields with
  | nil => rfl
  | cons f rest ih => simp [plainFields, ih]

end ImportCheck.Value

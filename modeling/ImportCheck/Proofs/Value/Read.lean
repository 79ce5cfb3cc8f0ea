import ImportCheck.Json.Tree
import ImportCheck.Proofs.Lemmas.Fields
import ImportCheck.Proofs.Value.Data

/-!
# Values of JSON texts

What a JSON text describes is data. A number is finite: an integer of 64 bits is far below the largest number, and where
a power of ten takes it past that nothing is read.
-/

namespace ImportCheck

namespace Binary64

variable {negative : Bool} {x : Binary64} {n m : Nat}

theorem isFinite_ofMagnitude_iff (h : m < 2 ^ 63) :
    (ofMagnitude negative m).isFinite = true ↔ m / 2 ^ 52 ≠ 2047 := by
  have hbits : (ofMagnitude negative m).bits.toNat = m + if negative then 2 ^ 63 else 0 := by
    simp only [ofMagnitude, UInt64.toNat_ofNat']
    refine Nat.mod_eq_of_lt ?_
    cases negative <;> simp <;> omega
  simp only [isFinite, exponentBits, hbits, bne_iff_ne]
  cases negative
  · simp only [Bool.false_eq_true, if_false, Nat.add_zero, Nat.pow_eq]
    omega
  · simp only [if_true, Nat.pow_eq]
    omega

theorem isFinite_withSign : (x.withSign negative).isFinite = x.isFinite := by
  rw [Bool.eq_iff_iff, withSign, Nat.pow_eq, isFinite_ofMagnitude_iff (Nat.mod_lt _ (by decide))]
  simp only [isFinite, exponentBits, bne_iff_ne, Nat.pow_eq]
  have := x.bits.toNat_lt
  omega

theorem roundDiv_two_pow_le {l a b c : Nat} (hn : n < 2 ^ l) (h : l + a ≤ b + c) :
    roundDiv (n * Nat.pow 2 a) (1 * Nat.pow 2 b) ≤ 2 ^ c := by
  have hq : n * 2 ^ a / 2 ^ b < 2 ^ c := by
    rw [Nat.div_lt_iff_lt_mul (Nat.two_pow_pos b), ← Nat.pow_add]
    calc n * 2 ^ a < 2 ^ l * 2 ^ a := Nat.mul_lt_mul_of_pos_right hn (Nat.two_pow_pos a)
      _ = 2 ^ (l + a) := (Nat.pow_add ..).symm
      _ ≤ 2 ^ (c + b) := Nat.pow_le_pow_right (by decide) (by omega)
  unfold roundDiv
  simp only [Nat.pow_eq, Nat.one_mul]
  split
  exacts [hq.le, hq]

theorem isFinite_ofRatio_one (h : n < 2 ^ 64) : (ofRatio negative n 1).isFinite = true := by
  have hlog : n.log2 < 64 := by
    rcases Nat.eq_zero_or_pos n with rfl | hn
    · decide
    · exact (Nat.log2_lt hn.ne').mpr h
  have hs : n.log2 + 1021 ≤ scaleFor n 1 ∧ scaleFor n 1 ≤ n.log2 + 1022 := by
    unfold scaleFor
    simp only [show Nat.log2 1 = 0 from by decide]
    split <;> omega
  have hfinite (m s : Nat) (hm : m ≤ 2 ^ 54) (hs : s ≤ 1085) :
      (let magnitude := if m < Nat.pow 2 52 then m else s * Nat.pow 2 52 + m
       if magnitude < 2047 * Nat.pow 2 52 then ofMagnitude negative magnitude else infinity negative).isFinite =
        true := by
    simp only [Nat.pow_eq]
    split_ifs
    · rw [isFinite_ofMagnitude_iff (by omega)]
      omega
    · omega
    · rw [isFinite_ofMagnitude_iff (by omega)]
      omega
    · omega
  unfold ofRatio
  -- The literal is out of the way so that no power of it is computed.
  generalize hbias : 1074 = bias
  exact hfinite _ _ (roundDiv_two_pow_le Nat.lt_log2_self (by omega)) (by omega)

end Binary64

namespace NumberLiteral

variable {negative : Bool} {n : Nat} {exponent : Int} {x : Binary64} {l : NumberLiteral} {number : Number}

theorem isFinite_of_scaled? (h : scaled? negative n exponent = some x) : x.isFinite = true := by
  unfold scaled? at h
  extract_lets f result at h
  split at h
  · rename_i hfinite
    cases h
    exact Binary64.isFinite_withSign.trans hfinite
  · cases h

theorem takeDigits_lt (ds : List Nat) (h : n < limit) : (takeDigits n ds).1 < limit := by
  induction ds generalizing n with
  | nil => exact h
  | cons d ds ih =>
      unfold takeDigits
      split
      · rename_i hfits
        exact ih hfits
      · exact h

theorem isData_of_number? (h : l.number? = some number) : (Value.number number).IsData := by
  have hlimit := takeDigits_lt l.whole (by decide : 0 < limit)
  unfold number? at h
  dsimp only at h
  split_ifs at h with hinteger hpositive hfloat
  · cases h
    simp [Value.IsData]
  · cases h
    simpa [Value.IsData, Binary64.isFinite_withSign] using Binary64.isFinite_ofRatio_one hlimit
  · cases h
    simp [Value.IsData]
  · obtain ⟨x, hx, rfl⟩ := Option.map_eq_some_iff.mp h
    simpa [Value.IsData] using isFinite_of_scaled? hx

end NumberLiteral

namespace Json

mutual
/-- What a JSON text describes is data. -/
theorem isData_of_value? : (j : Json) → {v : Value} → j.value? = some v → v.IsData
  | .null, _, h | .bool _, _, h => by cases h; simp [Value.IsData]
  | .number l, _, h => by
      obtain ⟨n, hn, rfl⟩ := Option.map_eq_some_iff.mp h
      exact NumberLiteral.isData_of_number? hn
  | .string l, _, h => by
      obtain ⟨s, -, rfl⟩ := Option.map_eq_some_iff.mp h
      simp [Value.IsData]
  | .array items, _, h => by
      obtain ⟨vs, hvs, rfl⟩ := Option.map_eq_some_iff.mp h
      simpa [Value.IsData] using isDataItems_of_itemValues? items hvs
  | .object fields, _, h => by
      obtain ⟨fs, hfs, rfl⟩ := Option.map_eq_some_iff.mp h
      have hdata := Value.isDataFields_iff.mp (isDataFields_of_fieldValues? fields hfs)
      simp only [Value.ofFields, Value.IsData, Value.isDataFields_iff]
      exact fun f hf => hdata f (Fields.mem_of_mem_ofList hf)

theorem isDataItems_of_itemValues? : (items : List Json) → {vs : List Value} → itemValues? items = some vs →
    Value.IsDataItems vs
  | [], _, h => by cases h; simp [Value.IsDataItems]
  | j :: rest, _, h => by
      unfold itemValues? at h
      split at h
      · rename_i v vs hv hvs
        cases h
        simp only [Value.IsDataItems]
        exact ⟨isData_of_value? j hv, isDataItems_of_itemValues? rest hvs⟩
      · cases h

theorem isDataFields_of_fieldValues? : (fields : List (StringLiteral × Json)) → {fs : Fields} →
    fieldValues? fields = some fs → Value.IsDataFields fs
  | [], _, h => by cases h; simp [Value.IsDataFields]
  | (key, j) :: rest, _, h => by
      unfold fieldValues? at h
      split at h
      · rename_i k v fs hk hv hfs
        cases h
        simp only [Value.IsDataFields]
        exact ⟨isData_of_value? j hv, isDataFields_of_fieldValues? rest hfs⟩
      · cases h
end

/-- The fields of an object that a JSON text describes are in key order, each key once, and hold data. -/
theorem fields_of_value? {j : Json} {fields : Fields} (h : j.value? = some (.object fields)) :
    Fields.Ascending fields ∧ Value.IsDataFields fields := by
  have hdata := isData_of_value? j h
  simp only [Value.IsData] at hdata
  refine ⟨?_, hdata⟩
  cases j with
  | object entries =>
      obtain ⟨fs, -, hfs⟩ := Option.map_eq_some_iff.mp h
      cases hfs
      exact Fields.ascending_ofList fs
  | null | bool => cases h
  | number | string | array =>
      obtain ⟨_, -, hv⟩ := Option.map_eq_some_iff.mp h
      cases hv

end Json

end ImportCheck

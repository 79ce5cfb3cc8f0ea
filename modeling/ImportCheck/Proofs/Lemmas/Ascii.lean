import Mathlib.Tactic.Common

/-!
# Letters and digits

Letters and digits are those of ASCII, and their code points tell them, as they tell the case of a letter.
-/

namespace ImportCheck.Text

variable {c d : Char}

/-! ## Case -/

theorem toNat_toLower (c : Char) :
    c.toLower.toNat = if 65 ≤ c.toNat ∧ c.toNat ≤ 90 then c.toNat + 32 else c.toNat := by
  unfold Char.toLower
  simp only [UInt32.le_iff_toNat_le]
  split
  · next h =>
    simp only [Char.reduceVal, UInt32.reduceToNat, Char.toNat_val] at h
    rw [if_pos h]
    change (c.val + 32).toNat = _
    simp only [UInt32.toNat_add, Char.toNat_val, UInt32.reduceToNat]
    omega
  · next h =>
    simp only [Char.reduceVal, UInt32.reduceToNat, Char.toNat_val] at h
    rw [if_neg h]

theorem toNat_toUpper (c : Char) :
    c.toUpper.toNat = if 97 ≤ c.toNat ∧ c.toNat ≤ 122 then c.toNat - 32 else c.toNat := by
  unfold Char.toUpper
  simp only [UInt32.le_iff_toNat_le]
  split
  · next h =>
    simp only [Char.reduceVal, UInt32.reduceToNat, Char.toNat_val] at h
    rw [if_pos h]
    change (c.val + 4294967264).toNat = _
    simp only [UInt32.toNat_add, Char.toNat_val, UInt32.reduceToNat]
    omega
  · next h =>
    simp only [Char.reduceVal, UInt32.reduceToNat, Char.toNat_val] at h
    rw [if_neg h]

theorem toLower_toLower (c : Char) : c.toLower.toLower = c.toLower := by
  rw [← Char.toNat_inj]
  simp only [toNat_toLower]
  split_ifs <;> omega

theorem toLower_toUpper (c : Char) : c.toUpper.toLower = c.toLower := by
  rw [← Char.toNat_inj]
  simp only [toNat_toLower, toNat_toUpper]
  split_ifs <;> omega

/-! ## Letters and digits -/

theorem isUpper_iff : c.isUpper ↔ 65 ≤ c.toNat ∧ c.toNat ≤ 90 := by
  change decide (c.val ≥ 'A'.val ∧ c.val ≤ 'Z'.val) = true ↔ _
  rw [decide_eq_true_eq]
  exact Iff.rfl

theorem isLower_iff : c.isLower ↔ 97 ≤ c.toNat ∧ c.toNat ≤ 122 := by
  change (decide (c.val ≥ 'a'.val) && decide (c.val ≤ 'z'.val)) = true ↔ _
  rw [Bool.and_eq_true, decide_eq_true_eq, decide_eq_true_eq]
  exact Iff.rfl

theorem isAlpha_iff : c.isAlpha ↔ 65 ≤ c.toNat ∧ c.toNat ≤ 90 ∨ 97 ≤ c.toNat ∧ c.toNat ≤ 122 := by
  rw [← isUpper_iff, ← isLower_iff, ← Bool.or_eq_true]
  exact Iff.rfl

theorem isAlphanum_iff : c.isAlphanum ↔ c.isAlpha ∨ c.isDigit := by
  rw [← Bool.or_eq_true]
  exact Iff.rfl

theorem isAlphanum_of_isDigit (h : c.isDigit) : c.isAlphanum := isAlphanum_iff.mpr (.inr h)

theorem isAlphanum_of_isAlpha (h : c.isAlpha) : c.isAlphanum := isAlphanum_iff.mpr (.inl h)

theorem toNat_of_isAlphanum (h : c.isAlphanum) :
    48 ≤ c.toNat ∧ c.toNat ≤ 57 ∨ 65 ≤ c.toNat ∧ c.toNat ≤ 90 ∨ 97 ≤ c.toNat ∧ c.toNat ≤ 122 := by
  rw [isAlphanum_iff, isAlpha_iff, Char.isDigit_iff_toNat] at h
  exact h.symm

theorem not_isDigit_of_isAlpha (h : c.isAlpha) : c.isDigit = false := by
  rw [isAlpha_iff] at h
  rw [Bool.eq_false_iff, ne_eq, Char.isDigit_iff_toNat]
  change ¬(48 ≤ c.toNat ∧ c.toNat ≤ 57)
  omega

/-- Only a letter is another one's lower case. -/
theorem toLower_eq_iff (hd : d.isAlpha = false) : c.toLower = d ↔ c = d := by
  rw [Bool.eq_false_iff, ne_eq, isAlpha_iff] at hd
  rw [← Char.toNat_inj, ← Char.toNat_inj, toNat_toLower]
  split_ifs <;> omega

theorem isDigit_of_mem_toDigits {n : Nat} (h : c ∈ Nat.toDigits 10 n) : c.isDigit :=
  Nat.isDigit_of_mem_toDigits (by decide) (by decide) h

end ImportCheck.Text

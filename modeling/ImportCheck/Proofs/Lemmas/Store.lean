import ImportCheck.Store
import ImportCheck.Proofs.Lemmas.PathMap

/-!
# Stored texts after a change of the store
-/

namespace ImportCheck.FileStore

theorem get?_congr (s : FileStore) {p q : Path} (h : p.Same q) : s.get? p = s.get? q :=
  PathMap.get?_congr _ h

theorem contains_congr (s : FileStore) {p q : Path} (h : p.Same q) : s.contains p = s.contains q :=
  PathMap.contains_congr _ h

theorem contains_eq_isSome (s : FileStore) (p : Path) : s.contains p = (s.get? p).isSome :=
  PathMap.contains_eq_isSome _ p

theorem get?_add (s : FileStore) (p : Path) (text : String) (q : Path) :
    (s.add p text).get? q = if p.Same q then some { path := p, text, version := 0 } else s.get? q :=
  PathMap.get?_insert _ _ _ _

/-- An untracked file is seeded; any other counts its version up, unless the update is checked and brings
the stored text. -/
theorem get?_update (s : FileStore) (p : Path) (text : String) (checked : Bool) (q : Path) :
    (s.update p text checked).1.get? q =
      if p.Same q then
        some (match s.get? p with
          | none => { path := p, text, version := 0 }
          | some r => if checked ∧ r.text = text then r else { r with text, version := r.version + 1 })
      else s.get? q := by
  unfold update
  cases h : s.get? p with
  | none => exact get?_add s p text q
  | some r =>
      by_cases hc : checked ∧ r.text = text
      · simp only [hc, and_self, ↓reduceIte]
        split
        · next hpq => rw [← s.get?_congr hpq, h]
        · rfl
      · simp only [hc, ↓reduceIte]
        exact PathMap.get?_insert _ _ _ _

/-- An update that does not count as a change leaves everything as it is. -/
theorem update_of_unchanged {s : FileStore} {p : Path} {text : String} {checked : Bool}
    (h : (s.update p text checked).2 = false) : (s.update p text checked).1 = s := by
  unfold update at h ⊢
  cases hr : s.get? p with
  | none => simp [hr] at h
  | some r => by_cases hc : checked ∧ r.text = text <;> simp_all

theorem contains_update (s : FileStore) (p : Path) (text : String) (checked : Bool) (q : Path) :
    (s.update p text checked).1.contains q = (decide (p.Same q) || s.contains q) := by
  rw [contains_eq_isSome, contains_eq_isSome, get?_update]
  by_cases h : p.Same q <;> simp [h]

end ImportCheck.FileStore

import ImportCheck.Path.Map

/-!
# What a path map holds after it is changed

A map is seen through `find?` and `get?`, a set through `contains`; both answer alike for two spellings of
one place.
-/

namespace ImportCheck

variable {α β : Type}

/-- The places that a path is the same as are those that any of its other spellings is the same as. -/
theorem Path.Same.iff_left {p q : Path} (h : p.Same q) (r : Path) : p.Same r ↔ q.Same r :=
  ⟨h.symm.trans, h.trans⟩

theorem Path.Same.iff_right {p q : Path} (h : p.Same q) (r : Path) : r.Same p ↔ r.Same q :=
  ⟨fun h' => h'.trans h, fun h' => h'.trans h.symm⟩

namespace PathMap

theorem find?_congr (m : PathMap α) {p q : Path} (h : p.Same q) : m.find? p = m.find? q := by
  have he : (fun e : Path × α => decide (e.1.Same p)) = fun e => decide (e.1.Same q) := by
    funext e
    simp only [h.iff_right]
  simp only [find?, he]

theorem get?_congr (m : PathMap α) {p q : Path} (h : p.Same q) : m.get? p = m.get? q := by
  simp only [get?, m.find?_congr h]

theorem contains_congr (m : PathMap α) {p q : Path} (h : p.Same q) : m.contains p = m.contains q := by
  simp only [contains, m.find?_congr h]

theorem contains_eq_isSome (m : PathMap α) (p : Path) : m.contains p = (m.get? p).isSome := by
  simp [contains, get?]

@[simp] theorem contains_empty (p : Path) : (∅ : PathMap α).contains p = false := rfl

theorem spelling_same (m : PathMap α) (p : Path) : (m.spelling p).Same p := by
  unfold spelling
  cases h : m.find? p with
  | none => exact Path.Same.refl p
  | some e => simpa using List.find?_some h

theorem find?_insert (m : PathMap α) (p : Path) (a : α) (q : Path) :
    (m.insert p a).find? q = if p.Same q then some (m.spelling p, a) else m.find? q := by
  unfold insert
  split
  · next hp =>
    have hs : m.spelling p = p := by simp [spelling, hp]
    rw [hs]
    by_cases h : p.Same q
    · have hq : m.entries.find? (fun e => decide (e.1.Same q)) = none := by
        rw [← hp, m.find?_congr h]
        rfl
      simp [find?, List.find?_append, h, hq]
    · simp [find?, List.find?_append, h]
  · next hp =>
    obtain ⟨e₀, he₀⟩ := Option.ne_none_iff_exists'.mp hp
    have hs : m.spelling p = e₀.1 := by simp [spelling, he₀]
    have hcomp : ((fun e : Path × α => decide (e.1.Same q)) ∘
        fun e : Path × α => if e.1.Same p then (e.1, a) else e) = fun e => decide (e.1.Same q) := by
      funext e
      simp only [Function.comp]
      split <;> rfl
    simp only [find?, List.find?_map, hcomp]
    rw [hs]
    by_cases h : p.Same q
    · have hq : m.entries.find? (fun e => decide (e.1.Same q)) = some e₀ := by
        rw [← he₀, m.find?_congr h]
        rfl
      have hsame : e₀.1.Same p := by simpa using List.find?_some he₀
      simp [h, hq, hsame]
    · simp only [h, ↓reduceIte]
      cases hq : m.entries.find? (fun e => decide (e.1.Same q)) with
      | none => rfl
      | some e =>
          have hsame : e.1.Same q := by simpa using List.find?_some hq
          have hne : ¬e.1.Same p := fun h' => h (h'.symm.trans hsame)
          simp [hne]

theorem get?_insert (m : PathMap α) (p : Path) (a : α) (q : Path) :
    (m.insert p a).get? q = if p.Same q then some a else m.get? q := by
  simp only [get?, find?_insert]
  split <;> rfl

theorem contains_insert (m : PathMap α) (p : Path) (a : α) (q : Path) :
    (m.insert p a).contains q = (decide (p.Same q) || m.contains q) := by
  by_cases h : p.Same q <;> simp [contains, find?_insert, h]

theorem keys_insert (m : PathMap α) (p : Path) (a : α) :
    (m.insert p a).keys = if m.contains p then m.keys else m.keys ++ [p] := by
  unfold insert keys
  split
  · next h => simp [contains, h]
  · next h =>
    have hc : m.contains p = true := Option.isSome_iff_ne_none.mpr h
    rw [if_pos hc, List.map_map]
    refine List.map_congr_left fun e _ => ?_
    rw [Function.comp_apply]
    split <;> rfl

theorem get?_mapValues (f : α → β) (m : PathMap α) (p : Path) : (m.mapValues f).get? p = (m.get? p).map f := by
  simp [get?, find?, mapValues, List.find?_map, Function.comp_def]

theorem find?_erase (m : PathMap α) (p q : Path) :
    (m.erase p).find? q = if p.Same q then none else m.find? q := by
  simp only [find?, erase, List.find?_filter]
  split
  · next h =>
    rw [List.find?_eq_none]
    intro e _
    simp [h.iff_right e.1]
  · next h =>
    congr 1
    funext e
    by_cases he : e.1.Same q
    · have hne : ¬e.1.Same p := fun h' => h (h'.symm.trans he)
      simp [he, hne]
    · simp [he]

theorem contains_erase (m : PathMap α) (p q : Path) :
    (m.erase p).contains q = (!decide (p.Same q) && m.contains q) := by
  by_cases h : p.Same q <;> simp [contains, find?_erase, h]

end PathMap

namespace PathSet

theorem contains_add (s : PathSet) (p q : Path) :
    PathMap.contains (s.add p) q = (decide (p.Same q) || PathMap.contains s q) := by
  unfold add
  split
  · next hp =>
    by_cases h : p.Same q
    · rw [PathMap.contains_congr s h] at hp
      simp [h, hp]
    · simp [h]
  · exact PathMap.contains_insert s p () q

theorem add_of_contains {s : PathSet} {p : Path} (h : PathMap.contains s p = true) : s.add p = s := by
  simp [add, h]

end PathSet

end ImportCheck

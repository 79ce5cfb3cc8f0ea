import ImportCheck.Proofs.Lemmas.PathMap
import Mathlib.Data.List.Nodup
import Mathlib.Data.Set.Defs

/-!
# Component order

Paths are compared by their components, so that different places are always in a strict order. What is sorted
lists each place once if it was there once.
-/

namespace ImportCheck

/-- What a path names, whichever way it is spelled. -/
abbrev Place := List Component

namespace Component

instance : Std.TransOrd Component :=
  inferInstanceAs (Std.TransCmp (compareLex (compareOn rank) (compareOn label)))

theorem eq_of_compare {a b : Component} (h : compare a b = .eq) : a = b := by
  obtain ⟨hrank, hlabel⟩ := Ordering.then_eq_eq.mp h
  rw [Std.LawfulEqOrd.compare_eq_iff_eq] at hrank hlabel
  cases a with
  | name s =>
      cases b with
      | name t =>
          obtain ⟨cs, hs⟩ := s
          obtain rfl : cs = t.chars := hlabel
          rfl
      | _ => cases hrank
  | _ => cases b <;> first | rfl | cases hrank

instance : Std.LawfulEqOrd Component where
  eq_of_compare := eq_of_compare

end Component

namespace Path

variable {p q : Path} {ps : List Path}

/-- Each path comes before all that follow it. -/
def Ascending (ps : List Path) : Prop := ps.Pairwise fun p q => p.compare q = .lt

/-- The paths name the places of the set, in component order and each once. -/
def Enumerates (ps : List Path) (S : Set Place) : Prop :=
  Ascending ps ∧ ∀ a, a ∈ ps.map components ↔ a ∈ S

theorem compare_eq_iff : p.compare q = .eq ↔ p.Same q := Std.LawfulEqOrd.compare_eq_iff_eq

theorem mem_sort : p ∈ sort ps ↔ p ∈ ps := (List.mergeSort_perm ps _).mem_iff

theorem ascending_sort (h : (ps.map components).Nodup) : Ascending (sort ps) := by
  have hsorted : (sort ps).Pairwise fun p q => (p.compare q).isLE = true := by
    refine List.pairwise_mergeSort (fun p q r => ?_) (fun p q => ?_) ps
    · exact Std.TransOrd.isLE_trans (a := p.components)
    · have hswap : q.compare p = (p.compare q).swap := Std.OrientedOrd.eq_swap
      rw [hswap]
      cases p.compare q <;> rfl
  have hdistinct : (sort ps).Pairwise fun p q => ¬p.Same q := by
    have hn : ((sort ps).map components).Nodup := ((List.mergeSort_perm ps _).map _).nodup_iff.mpr h
    exact List.pairwise_map.mp hn
  refine hsorted.imp₂ (fun p q hle hne => ?_) hdistinct
  rw [← compare_eq_iff] at hne
  cases hc : p.compare q <;> simp_all

/-- What is in component order is determined by what is in it. -/
theorem Ascending.eq_of_mem_iff {ps qs : List Path} (h : Ascending ps) (h' : Ascending qs)
    (hmem : ∀ p, p ∈ ps ↔ p ∈ qs) : ps = qs := by
  have hasymm : ∀ p q : Path, p.compare q = .lt → q.compare p ≠ .lt := by
    intro p q hlt
    have hswap : q.compare p = (p.compare q).swap := Std.OrientedOrd.eq_swap
    rw [hswap, hlt]
    simp
  refine List.Perm.eq_of_pairwise (fun p q _ _ hpq hqp => absurd hqp (hasymm p q hpq)) h h' ?_
  have hnodup : ∀ {rs : List Path}, Ascending rs → rs.Nodup := by
    refine fun hrs => List.Pairwise.imp (fun {p q} hlt => ?_) hrs
    rintro rfl
    exact hasymm p p hlt hlt
  exact (List.perm_ext_iff_of_nodup (hnodup h) (hnodup h')).mpr hmem

end Path

namespace PathMap

variable {α : Type} {m : PathMap α} {p : Path}

theorem contains_iff : m.contains p = true ↔ ∃ e ∈ m.entries, e.1.Same p := by
  simp [contains, find?, List.find?_isSome]

theorem contains_iff_key : m.contains p = true ↔ ∃ q ∈ m.keys, q.Same p := by
  simp only [contains_iff, keys, List.mem_map, exists_exists_and_eq_and]

theorem distinct_keys (m : PathMap α) : (m.keys.map Path.components).Nodup := by
  rw [keys, List.map_map]
  exact m.distinct

theorem mem_keys_insert {a : α} {k : Path} (h : k ∈ (m.insert p a).keys) : k ∈ m.keys ∨ k = p := by
  unfold insert keys at h
  split at h
  · rwa [List.map_append, List.mem_append, List.map_singleton, List.mem_singleton] at h
  · rw [List.map_map] at h
    obtain ⟨e, he, hk⟩ := List.mem_map.mp h
    refine .inl (List.mem_map.mpr ⟨e, he, ?_⟩)
    rw [← hk, Function.comp_apply]
    split <;> rfl

theorem mem_keys_erase {k : Path} : k ∈ (m.erase p).keys ↔ k ∈ m.keys ∧ ¬k.Same p := by
  simp only [erase, keys, List.mem_map, List.mem_filter, decide_eq_true_eq]
  constructor
  · rintro ⟨e, ⟨he, hne⟩, rfl⟩
    exact ⟨⟨e, he, rfl⟩, hne⟩
  · rintro ⟨⟨e, he, rfl⟩, hne⟩
    exact ⟨e, ⟨he, hne⟩, rfl⟩

theorem spelling_mem (m : PathMap α) (p : Path) : m.spelling p ∈ m.keys ∨ m.spelling p = p := by
  unfold spelling
  cases h : m.find? p with
  | none => exact .inr rfl
  | some e => exact .inl (List.mem_map_of_mem (List.mem_of_find?_eq_some h))

theorem spelling_mem_keys (h : m.contains p = true) : m.spelling p ∈ m.keys := by
  obtain ⟨e, he⟩ := Option.isSome_iff_exists.mp h
  rw [spelling, he]
  exact List.mem_map_of_mem (List.mem_of_find?_eq_some he)

/-- The places of the keys. -/
def places (m : PathMap α) : Set Place := {a | ∃ p, m.contains p = true ∧ p.components = a}

theorem enumerates_sort_keys (m : PathMap α) : Path.Enumerates (Path.sort m.keys) m.places := by
  refine ⟨Path.ascending_sort m.distinct_keys, fun a => ?_⟩
  simp only [List.mem_map, Path.mem_sort]
  constructor
  · rintro ⟨p, hp, rfl⟩
    exact ⟨p, contains_iff_key.mpr ⟨p, hp, .refl p⟩, rfl⟩
  · rintro ⟨p, h, rfl⟩
    exact contains_iff_key.mp h

/-- The entry of a place is the only one. -/
theorem get?_eq_some_iff {a : α} : m.get? p = some a ↔ ∃ e ∈ m.entries, e.1.Same p ∧ e.2 = a := by
  constructor
  · intro h
    obtain ⟨e, he, ha⟩ := Option.map_eq_some_iff.mp h
    exact ⟨e, List.mem_of_find?_eq_some he, by simpa using List.find?_some he, ha⟩
  · rintro ⟨e, he, hs, rfl⟩
    obtain ⟨e', he'⟩ := Option.isSome_iff_exists.mp (contains_iff.mpr ⟨e, he, hs⟩)
    have hs' : e'.1.Same p := by simpa using List.find?_some he'
    obtain rfl : e' = e :=
      List.inj_on_of_nodup_map m.distinct (List.mem_of_find?_eq_some he') he (hs'.trans hs.symm)
    rw [get?, he', Option.map_some]

end PathMap

theorem PathSet.keys_add (s : PathSet) (p : Path) :
    PathMap.keys (s.add p) = if PathMap.contains s p then PathMap.keys s else PathMap.keys s ++ [p] := by
  unfold add
  split
  · rfl
  · next h => rw [PathMap.keys_insert, if_neg h]

theorem PathSet.mem_keys_add {s : PathSet} {p k : Path} (h : k ∈ PathMap.keys (s.add p)) :
    k ∈ PathMap.keys s ∨ k = p := by
  unfold add at h
  split at h
  · exact .inl h
  · exact PathMap.mem_keys_insert h

end ImportCheck

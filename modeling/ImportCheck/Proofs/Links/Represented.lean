import ImportCheck.Proofs.Links.Numbered

/-!
# The two graphs answer alike

A graph by numbers represents a graph by places when it has the places in their order, and from each of them the
links in theirs. Every change keeps that, and it decides every answer.
-/

namespace ImportCheck

namespace NumberedGraph

/-- The arena holds the places of the graph, and its edges are the links from each of them. -/
structure Represents (a : NumberedGraph) (g : DependencyGraph) : Prop extends a.InStep where
  places : g.links.keys = a.paths
  targets : ∀ i p, a.paths[i]? = some p → (g.targets p).keys = a.pathsOf (a.successors i)
  declarations : g.declarations = a.declarations

variable {a : NumberedGraph} {g : DependencyGraph} {p q : Path} {i j : Nat} {is : List Nat}

theorem pathsOf_append (a : NumberedGraph) (is js : List Nat) :
    a.pathsOf (is ++ js) = a.pathsOf is ++ a.pathsOf js := List.filterMap_append

theorem pathsOf_singleton (h : a.paths[i]? = some p) : a.pathsOf [i] = [p] := by
  simp [pathsOf, h]

@[simp] theorem pathsOf_updateEdge (a : NumberedGraph) (i j : Nat) (is : List Nat) :
    (a.updateEdge i j).pathsOf is = a.pathsOf is := rfl

@[simp] theorem pathsOf_removeEdges (a : NumberedGraph) (i : Nat) (is : List Nat) :
    (a.removeEdges i).pathsOf is = a.pathsOf is := rfl

theorem pathsOf_push (h : ∀ i ∈ is, i < a.paths.length) : (a.push p).pathsOf is = a.pathsOf is :=
  List.filterMap_congr fun i hi => List.getElem?_append_left (h i hi)

theorem successors_updateEdge (a : NumberedGraph) (i j k : Nat) :
    (a.updateEdge i j).successors k =
      if i = k ∧ (i, j) ∉ a.edges then a.successors k ++ [j] else a.successors k := by
  by_cases he : (i, j) ∈ a.edges
  · simp [updateEdge, successors, he]
  · rcases eq_or_ne i k with rfl | hk
    · simp [updateEdge, successors, he]
    · simp [updateEdge, successors, he, hk]

theorem successors_removeEdges (a : NumberedGraph) (i k : Nat) :
    (a.removeEdges i).successors k = if i = k then [] else a.successors k := by
  simp only [removeEdges, successors, List.filter_filter]
  split
  · next h => simp [h]
  · next h =>
    have hsame : ∀ e ∈ a.edges, (decide (e.1 = k) && decide (e.1 ≠ i)) = decide (e.1 = k) := by
      intro e _
      by_cases he : e.1 = k <;> simp [he, Ne.symm h]
    rw [List.filter_congr hsame]

theorem InStep.successors_lt (h : a.InStep) : ∀ j ∈ a.successors i, j < a.paths.length :=
  fun _ hj => (h.edges_known _ (mem_successors.mp hj)).2

namespace Represents

theorem distinct_paths (h : a.Represents g) : (a.paths.map Path.components).Nodup :=
  h.places ▸ g.links.distinct_keys

theorem eq_of_same (h : a.Represents g) (hp : p ∈ a.paths) (hq : q ∈ a.paths) (hs : p.Same q) : p = q :=
  List.inj_on_of_nodup_map h.distinct_paths hp hq hs

/-- The number of a place is that of its path, under whichever spelling. -/
theorem number_eq_iff (h : a.Represents g) (hi : a.numbers.get? p = some i) (hk : a.paths[j]? = some q) :
    p.Same q ↔ i = j := by
  have hj := h.number_of_path hk
  constructor
  · intro hs
    rw [← PathMap.get?_congr _ hs, hi] at hj
    exact Option.some.inj hj
  · rintro rfl
    obtain ⟨r, hr, hs⟩ := (h.number_iff p i).mp hi
    obtain rfl := Option.some.inj (hr.symm.trans hk)
    exact hs.symm

theorem contains_links (h : a.Represents g) : g.links.contains p = (a.numbers.get? p).isSome := by
  rw [Bool.eq_iff_iff, PathMap.contains_iff_key, h.places, Option.isSome_iff_exists]
  constructor
  · rintro ⟨q, hq, hs⟩
    obtain ⟨i, hi⟩ := List.mem_iff_getElem?.mp hq
    exact ⟨i, (h.number_iff p i).mpr ⟨q, hi, hs⟩⟩
  · rintro ⟨i, hi⟩
    obtain ⟨q, hq, hs⟩ := (h.number_iff p i).mp hi
    exact ⟨q, List.mem_of_getElem? hq, hs⟩

theorem spelling (h : a.Represents g) (hi : a.numbers.get? p = some i) :
    a.paths[i]? = some (g.links.spelling p) := by
  obtain ⟨q, hq, hs⟩ := (h.number_iff p i).mp hi
  have hknown : g.links.contains p = true := by rw [h.contains_links, hi]; rfl
  have hkey : g.links.spelling p ∈ a.paths := by
    rw [← h.places]
    exact PathMap.spelling_mem_keys hknown
  rw [hq, h.eq_of_same (List.mem_of_getElem? hq) hkey (hs.trans (g.links.spelling_same p).symm)]

theorem targets_of_known (h : a.Represents g) (hi : a.numbers.get? p = some i) :
    (g.targets p).keys = a.pathsOf (a.successors i) := by
  obtain ⟨q, hq, hs⟩ := (h.number_iff p i).mp hi
  rw [← h.targets i q hq, DependencyGraph.targets, DependencyGraph.targets, PathMap.get?_congr _ hs]

theorem targets_of_unknown (h : a.Represents g) (hp : a.numbers.get? p = none) : g.targets p = ∅ := by
  have hnone : g.links.contains p = false := by rw [h.contains_links, hp]; rfl
  rw [PathMap.contains_eq_isSome, Option.isSome_eq_false_iff, Option.isNone_iff_eq_none] at hnone
  rw [DependencyGraph.targets, hnone]
  rfl

theorem hasDependency (h : a.Represents g) (p q : Path) : a.hasDependency p q = g.hasDependency p q := by
  rw [Bool.eq_iff_iff, hasDependency_iff, DependencyGraph.hasDependency_iff_target]
  constructor
  · rintro ⟨i, j, hp, hq, he⟩
    obtain ⟨t, ht, hs⟩ := (h.number_iff q j).mp hq
    rw [h.targets_of_known hp]
    exact ⟨t, mem_pathsOf.mpr ⟨j, mem_successors.mpr he, ht⟩, hs⟩
  · rintro ⟨t, ht, hs⟩
    cases hp : a.numbers.get? p with
    | none =>
        rw [h.targets_of_unknown hp] at ht
        cases ht
    | some i =>
        rw [h.targets_of_known hp] at ht
        obtain ⟨j, hj, ht⟩ := mem_pathsOf.mp ht
        exact ⟨i, j, rfl, (h.number_iff q j).mpr ⟨t, ht, hs⟩, mem_successors.mp hj⟩

/-! ## Changes -/

theorem push (h : a.Represents g) (hp : a.numbers.get? p = none) : (a.push p).Represents (g.addNode p) where
  toInStep := h.toInStep.push hp
  places := by
    have hnew : g.links.contains p = false := by rw [h.contains_links, hp]; rfl
    simp only [DependencyGraph.addNode, hnew, Bool.false_eq_true, ↓reduceIte, PathMap.keys_insert, h.places]
    rfl
  targets i q hq := by
    rw [DependencyGraph.targets_addNode]
    rcases path_push.mp hq with hq | ⟨rfl, rfl⟩
    · rw [h.targets i q hq]
      exact (pathsOf_push h.successors_lt).symm
    · -- nothing starts at the new number
      have hnone : (a.push p).successors a.paths.length = [] := by
        refine List.eq_nil_iff_forall_not_mem.mpr fun j hj => ?_
        exact absurd (h.edges_known _ (mem_successors.mp hj)).1 (Nat.lt_irrefl _)
      rw [hnone, h.targets_of_unknown hp]
      rfl
  declarations := by rw [DependencyGraph.declarations_addNode, h.declarations]; rfl

theorem node (h : a.Represents g) (p : Path) : (a.node p).1.Represents (g.addNode p) := by
  unfold NumberedGraph.node
  split
  · next i hi =>
    have hknown : g.links.contains p = true := by rw [h.contains_links, hi]; rfl
    rwa [DependencyGraph.addNode, if_pos hknown]
  · next hp => exact h.push hp

theorem updateEdge (h : a.Represents g) (hi : a.numbers.get? p = some i) (hj : a.numbers.get? q = some j) :
    (a.updateEdge i j).Represents
      { g with links := g.links.insert p ((g.targets p).add (g.links.spelling q)) } where
  toInStep := h.toInStep.updateEdge (h.lt_length hi) (h.lt_length hj)
  places := by
    have hknown : g.links.contains p = true := by rw [h.contains_links, hi]; rfl
    rw [PathMap.keys_insert, if_pos hknown, h.places]
    rfl
  targets k r hr := by
    have hlinked : (g.targets p).contains (g.links.spelling q) = decide ((i, j) ∈ a.edges) := by
      have hsame := h.hasDependency p q
      simp only [NumberedGraph.hasDependency, hi, hj, DependencyGraph.hasDependency] at hsame
      rw [hsame, PathMap.contains_congr _ (g.links.spelling_same q)]
    rw [DependencyGraph.targets, PathMap.get?_insert, pathsOf_updateEdge, successors_updateEdge]
    by_cases hs : p.Same r
    · obtain rfl := (h.number_eq_iff hi hr).mp hs
      rw [if_pos hs, Option.getD_some, PathSet.keys_add, hlinked, h.targets_of_known hi]
      by_cases he : (i, j) ∈ a.edges
      · simp [he]
      · simp [he, pathsOf_append, pathsOf_singleton (h.spelling hj)]
    · rw [if_neg hs, if_neg fun he => hs ((h.number_eq_iff hi hr).mpr he.1)]
      exact h.targets k r hr
  declarations := h.declarations

theorem addDependency (h : a.Represents g) (p q : Path) :
    (a.addDependency p q).Represents (g.addDependency p q) :=
  ((h.node p).node q).updateEdge (number_node_of_known (a.number_node p) q) ((a.node p).1.number_node q)

theorem removeEdges (h : a.Represents g) (hi : a.numbers.get? p = some i) :
    (a.removeEdges i).Represents { g with links := g.links.insert p ∅ } where
  toInStep := h.toInStep.removeEdges i
  places := by
    have hknown : g.links.contains p = true := by rw [h.contains_links, hi]; rfl
    rw [PathMap.keys_insert, if_pos hknown, h.places]
    rfl
  targets k r hr := by
    rw [DependencyGraph.targets, PathMap.get?_insert, pathsOf_removeEdges, successors_removeEdges]
    by_cases hs : p.Same r
    · rw [if_pos hs, if_pos ((h.number_eq_iff hi hr).mp hs)]
      rfl
    · rw [if_neg hs, if_neg fun he => hs ((h.number_eq_iff hi hr).mpr he)]
      exact h.targets k r hr
  declarations := h.declarations

theorem clearDependencies (h : a.Represents g) (p : Path) :
    (a.clearDependencies p).Represents (g.clearDependencies p) := by
  rw [DependencyGraph.clearDependencies, h.contains_links]
  unfold NumberedGraph.clearDependencies
  cases hp : a.numbers.get? p with
  | none => exact h
  | some i => exact h.removeEdges hp

theorem apply (h : a.Represents g) (c : Change) : (a.apply c).Represents (g.apply c) := by
  cases c with
  | link p q => exact h.addDependency p q
  | clear p => exact h.clearDependencies p
  | register p => exact ⟨h.toInStep.apply (.register p), h.places, h.targets, congrArg (·.add p) h.declarations⟩
  | withdraw p => exact ⟨h.toInStep.apply (.withdraw p), h.places, h.targets, congrArg (·.erase p) h.declarations⟩

end Represents

end NumberedGraph

end ImportCheck

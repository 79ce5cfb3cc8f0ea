import ImportCheck.Proofs.Links.Represented

/-!
# What the graph by numbers answers

Two graphs of which the one represents the other give the same answers. The search by numbers and the search by
places take the same steps.
-/

namespace ImportCheck

theorem Path.dedup_of_ascending {ps : List Path} (h : Path.Ascending ps) : Path.dedup ps = ps := by
  refine List.destutter_of_isChain _ ps (List.Pairwise.isChain (h.imp fun {p q} hlt hs => ?_))
  rw [Path.compare_eq_iff.mpr hs] at hlt
  cases hlt

namespace NumberedGraph

variable {a : NumberedGraph} {g : DependencyGraph} {p q : Path} {i j n : Nat} {is stack seen : List Nat}

/-- All answers of the one graph are those of the other, in the same spellings. -/
structure AnswersAs (a : NumberedGraph) (g : DependencyGraph) : Prop where
  hasDependency : ∀ p q, a.hasDependency p q = g.hasDependency p q
  dependencies : ∀ p, a.dependencies p = g.dependencies p
  dependents : ∀ q, a.dependents q = g.dependents q
  transitive : ∀ p, a.transitive p = g.transitive p
  edgeCount : a.edges.length = g.edgeCount
  declarations : a.declarations = g.declarations

/-- The place of a number. -/
def placeOf (a : NumberedGraph) (i : Nat) : Place := ((a.paths[i]?).map Path.components).getD []

/-! ## The search by numbers -/

/-- A search adds to what it has seen, and nothing twice. -/
theorem visit_extends (h : seen.Nodup) : ∃ more, a.visit n stack seen = seen ++ more ∧ (seen ++ more).Nodup := by
  induction n generalizing stack seen with
  | zero => exact ⟨[], by simp [visit], by simpa using h⟩
  | succ n ih =>
      cases stack with
      | nil => exact ⟨[], by simp [visit], by simpa using h⟩
      | cons i rest =>
          rw [visit]
          split
          · exact ih h
          · next hi =>
            have hnext : (seen ++ [i]).Nodup := by
              rw [← List.concat_eq_append]
              exact h.concat hi
            obtain ⟨more, hmore, hnodup⟩ := @ih (a.successors i ++ rest) _ hnext
            exact ⟨i :: more, by simpa using hmore, by simpa using hnodup⟩

/-- The tail of a search from one number holds the others that it sees, each once. -/
theorem tail_visit (a : NumberedGraph) (n i : Nat) : (a.visit (n + 1) [i] []).tail.Nodup ∧
    ∀ k, k ∈ (a.visit (n + 1) [i] []).tail ↔ k ∈ a.visit (n + 1) [i] [] ∧ k ≠ i := by
  rw [visit, if_neg List.not_mem_nil, List.append_nil, List.nil_append]
  obtain ⟨more, hmore, hnodup⟩ := @visit_extends a n (a.successors i) [i] (List.nodup_singleton i)
  obtain ⟨hi, hnodup⟩ := List.nodup_cons.mp hnodup
  rw [hmore]
  refine ⟨hnodup, fun k => ?_⟩
  simp only [List.singleton_append, List.tail_cons, List.mem_cons]
  constructor
  · exact fun hk => ⟨.inr hk, fun he => hi (he ▸ hk)⟩
  · rintro ⟨rfl | hk, hne⟩
    · exact absurd rfl hne
    · exact hk

namespace Represents

/-- The two searches take the same steps: each has seen the place of a number when the other has seen the number. -/
theorem contains_visit (h : a.Represents g) {seen' : PathSet} (hstack : ∀ i ∈ stack, i < a.paths.length)
    (hseen : ∀ k r, a.paths[k]? = some r → (PathMap.contains seen' r = true ↔ k ∈ seen)) :
    ∀ k r, a.paths[k]? = some r →
      (PathMap.contains (g.visit n (a.pathsOf stack) seen') r = true ↔ k ∈ a.visit n stack seen) := by
  induction n generalizing stack seen seen' with
  | zero => exact hseen
  | succ n ih =>
      cases stack with
      | nil => exact hseen
      | cons i rest =>
          have hrest : ∀ i ∈ rest, i < a.paths.length := fun k hk => hstack k (List.mem_cons_of_mem i hk)
          have hlt := hstack i List.mem_cons_self
          obtain ⟨p, hi⟩ : ∃ p, a.paths[i]? = some p := ⟨_, List.getElem?_eq_getElem hlt⟩
          have hpaths : a.pathsOf (i :: rest) = p :: a.pathsOf rest := by simp [pathsOf, hi]
          rw [hpaths, DependencyGraph.visit, visit]
          by_cases hin : i ∈ seen
          · rw [if_pos ((hseen i _ hi).mpr hin), if_pos hin]
            exact ih hrest hseen
          · rw [if_neg fun hc => hin ((hseen i _ hi).mp hc), if_neg hin, h.targets i _ hi, ← pathsOf_append]
            refine ih (fun k hk => ?_) fun k r hr => ?_
            · rcases List.mem_append.mp hk with hk | hk
              · exact h.successors_lt k hk
              · exact hrest k hk
            · rw [PathSet.contains_add, Bool.or_eq_true, decide_eq_true_eq, hseen k r hr,
                h.number_eq_iff (h.number_of_path hi) hr, List.mem_append, List.mem_singleton, or_comm, eq_comm]

/-! ## The answers -/

theorem mem_paths_of_targets (h : a.Represents g) (hp : p ∈ (g.targets q).keys) : p ∈ a.paths := by
  cases hq : a.numbers.get? q with
  | none =>
      rw [h.targets_of_unknown hq] at hp
      cases hp
  | some j =>
      rw [h.targets_of_known hq] at hp
      obtain ⟨i, -, hi⟩ := mem_pathsOf.mp hp
      exact List.mem_of_getElem? hi

/-- The paths of different numbers are of different places. -/
theorem ascending_sort_pathsOf (h : a.Represents g) (his : is.Nodup) : Path.Ascending (Path.sort (a.pathsOf is)) := by
  refine Path.ascending_sort (List.Nodup.map_on (fun p hp q hq => ?_) (his.filterMap fun i j p hi hj => ?_))
  · obtain ⟨i, -, hi⟩ := mem_pathsOf.mp hp
    obtain ⟨j, -, hj⟩ := mem_pathsOf.mp hq
    exact h.eq_of_same (List.mem_of_getElem? hi) (List.mem_of_getElem? hj)
  · exact Option.some.inj ((h.number_of_path hi).symm.trans (h.number_of_path hj))

theorem placeOf_number (h : a.Represents g) (hi : a.numbers.get? p = some i) : a.placeOf i = p.components := by
  obtain ⟨q, hq, hs⟩ := (h.number_iff p i).mp hi
  rw [placeOf, hq]
  exact hs

theorem placeOf_inj (h : a.Represents g) (hi : i < a.paths.length) (hj : j < a.paths.length)
    (he : a.placeOf i = a.placeOf j) : i = j := by
  have hp := h.number_of_path (List.getElem?_eq_getElem hi)
  have hq := h.number_of_path (List.getElem?_eq_getElem hj)
  rw [h.placeOf_number hp, h.placeOf_number hq] at he
  exact (h.number_eq_iff hp (List.getElem?_eq_getElem hj)).mp he

theorem dependencies (h : a.Represents g) (p : Path) : a.dependencies p = g.dependencies p := by
  rw [DependencyGraph.dependencies, PathSet.sorted, NumberedGraph.dependencies]
  cases hp : a.numbers.get? p with
  | none =>
      rw [h.targets_of_unknown hp]
      exact List.mergeSort_nil.symm
  | some i =>
      have hsorted := Path.ascending_sort (g.targets p).distinct_keys
      rw [h.targets_of_known hp] at hsorted ⊢
      exact Path.dedup_of_ascending hsorted

theorem dependents (h : a.Represents g) (q : Path) : a.dependents q = g.dependents q := by
  have hmem : ∀ p, p ∈ g.dependents q ↔
      ∃ i j, a.paths[i]? = some p ∧ a.numbers.get? q = some j ∧ (i, j) ∈ a.edges := by
    intro p
    rw [DependencyGraph.mem_dependents, h.places, ← h.hasDependency, hasDependency_iff]
    constructor
    · rintro ⟨hp, i, j, hi, hj, he⟩
      obtain ⟨k, hk⟩ := List.mem_iff_getElem?.mp hp
      obtain rfl : k = i := Option.some.inj ((h.number_of_path hk).symm.trans hi)
      exact ⟨k, j, hk, hj, he⟩
    · rintro ⟨i, j, hi, hj, he⟩
      exact ⟨List.mem_of_getElem? hi, i, j, h.number_of_path hi, hj, he⟩
  rw [NumberedGraph.dependents]
  cases hq : a.numbers.get? q with
  | none => exact (List.eq_nil_iff_forall_not_mem.mpr fun p hp => by simpa [hq] using (hmem p).mp hp).symm
  | some j =>
      have honce : (a.predecessors j).Nodup := by
        refine List.Nodup.map_on (fun e he f hf hef => Prod.ext hef ?_) (h.edges_once.filter _)
        have he' : e.2 = j := by simpa using (List.mem_filter.mp he).2
        have hf' : f.2 = j := by simpa using (List.mem_filter.mp hf).2
        exact he'.trans hf'.symm
      have hsorted := h.ascending_sort_pathsOf honce
      refine (Path.dedup_of_ascending hsorted).trans (hsorted.eq_of_mem_iff (g.enumerates_dependents q).1 fun p => ?_)
      rw [Path.mem_sort, hmem]
      simp [mem_pathsOf, mem_predecessors, hq, and_comm]

/-! ### How many links there are -/

theorem arrows (h : a.Represents g) : g.arrows = (fun e => (a.placeOf e.1, a.placeOf e.2)) '' {e | e ∈ a.edges} := by
  ext x
  constructor
  · rintro ⟨p, q, hpq, rfl⟩
    rw [← h.hasDependency, hasDependency_iff] at hpq
    obtain ⟨i, j, hi, hj, he⟩ := hpq
    exact ⟨(i, j), he, Prod.ext (h.placeOf_number hi) (h.placeOf_number hj)⟩
  · rintro ⟨⟨i, j⟩, he, rfl⟩
    obtain ⟨hi, hj⟩ := h.edges_known _ he
    have hp := h.number_of_path (List.getElem?_eq_getElem hi)
    have hq := h.number_of_path (List.getElem?_eq_getElem hj)
    refine ⟨_, _, ?_, Prod.ext (h.placeOf_number hp).symm (h.placeOf_number hq).symm⟩
    rw [← h.hasDependency, hasDependency_iff]
    exact ⟨i, j, hp, hq, he⟩

theorem edgeCount (h : a.Represents g) : a.edges.length = g.edgeCount := by
  have hinj : Set.InjOn (fun e => (a.placeOf e.1, a.placeOf e.2)) {e | e ∈ a.edges} := by
    intro e he f hf hef
    obtain ⟨hi, hj⟩ := Prod.mk.inj hef
    have hlt := h.edges_known e he
    have hlt' := h.edges_known f hf
    exact Prod.ext (h.placeOf_inj hlt.1 hlt'.1 hi) (h.placeOf_inj hlt.2 hlt'.2 hj)
  have hset : {e | e ∈ a.edges} = (a.edges.toFinset : Set (Nat × Nat)) := by
    ext e
    simp
  rw [g.edgeCount_eq_ncard, h.arrows, hinj.ncard_image, hset, Set.ncard_coe_finset,
    List.toFinset_card_of_nodup h.edges_once]

/-! ### What leads from a place -/

theorem mem_paths_of_visit (h : a.Represents g) (hq : q ∈ PathMap.keys (g.visit n [p] ∅)) (hne : ¬q.Same p) :
    q ∈ a.paths := by
  rcases DependencyGraph.mem_keys_visit hq with hq | hq | ⟨r, hq⟩
  · cases hq
  · exact absurd (List.mem_singleton.mp hq ▸ Path.Same.refl p) hne
  · exact h.mem_paths_of_targets hq

theorem contains_visit_start (h : a.Represents g) (hi : a.numbers.get? p = some i) (n : Nat) :
    ∀ k r, a.paths[k]? = some r →
      (PathMap.contains (g.visit (n + 1) [p] ∅) r = true ↔ k ∈ a.visit (n + 1) [i] []) := by
  have hfirst : g.visit (n + 1) [p] ∅ = g.visit n (a.pathsOf (a.successors i)) (PathSet.add ∅ p) := by
    rw [DependencyGraph.visit, if_neg (by simp), List.append_nil, h.targets_of_known hi]
  rw [hfirst, visit, if_neg List.not_mem_nil, List.append_nil, List.nil_append]
  refine h.contains_visit h.successors_lt fun k r hr => ?_
  rw [PathSet.contains_add, PathMap.contains_empty, Bool.or_false, decide_eq_true_eq, h.number_eq_iff hi hr,
    List.mem_singleton, eq_comm]

theorem transitive (h : a.Represents g) (p : Path) : a.transitive p = g.transitive p := by
  have hsorted := (g.enumerates_transitive p).1
  rw [NumberedGraph.transitive]
  cases hp : a.numbers.get? p with
  | none =>
      refine (List.eq_nil_iff_forall_not_mem.mpr fun q hq => ?_).symm
      -- a way from the place would start with an arrow
      obtain ⟨-, hway⟩ := ((g.enumerates_transitive p).2 _).mp (List.mem_map_of_mem hq)
      obtain ⟨_, ⟨p', r, hlink, he⟩, -⟩ := Relation.TransGen.head'_iff.mp hway
      obtain ⟨hs, -⟩ := Prod.mk.inj he
      rw [g.hasDependency_congr hs (.refl r), ← h.hasDependency, hasDependency_iff] at hlink
      obtain ⟨i, -, hi, -⟩ := hlink
      rw [hp] at hi
      cases hi
  | some i =>
      have hvisit := h.contains_visit_start hp a.edges.length
      obtain ⟨honce, htail⟩ := a.tail_visit a.edges.length i
      have hsorted' := h.ascending_sort_pathsOf honce
      refine (Path.dedup_of_ascending hsorted').trans (hsorted'.eq_of_mem_iff hsorted fun q => ?_)
      rw [Path.mem_sort, DependencyGraph.transitive, Path.mem_sort, PathMap.mem_keys_erase, ← h.edgeCount,
        mem_pathsOf]
      constructor
      · rintro ⟨k, hk, hq⟩
        obtain ⟨hk, hne⟩ := (htail k).mp hk
        have hpq : ¬p.Same q := fun hs => hne ((h.number_eq_iff hp hq).mp hs).symm
        obtain ⟨r, hr, hs⟩ := PathMap.contains_iff_key.mp ((hvisit k q hq).mpr hk)
        have hr' := h.mem_paths_of_visit hr fun hs' => hpq (hs'.symm.trans hs)
        obtain rfl := h.eq_of_same hr' (List.mem_of_getElem? hq) hs
        exact ⟨hr, fun hs => hpq hs.symm⟩
      · rintro ⟨hq, hne⟩
        obtain ⟨k, hk⟩ := List.mem_iff_getElem?.mp (h.mem_paths_of_visit hq hne)
        have hin := (hvisit k q hk).mp (PathMap.contains_iff_key.mpr ⟨q, hq, .refl q⟩)
        exact ⟨k, (htail k).mpr ⟨hin, fun he => hne ((h.number_eq_iff hp hk).mpr he.symm).symm⟩, hk⟩

theorem answersAs (h : a.Represents g) : a.AnswersAs g where
  hasDependency := h.hasDependency
  dependencies := h.dependencies
  dependents := h.dependents
  transitive := h.transitive
  edgeCount := h.edgeCount
  declarations := h.declarations.symm

end Represents

/-! ## After any changes -/

theorem represents_empty : (∅ : NumberedGraph).Represents ∅ where
  toInStep := inStep_empty
  places := rfl
  targets i p hp := by cases hp
  declarations := rfl

theorem represents_ofChanges (changes : List Change) :
    (ofChanges changes).Represents (DependencyGraph.ofChanges changes) := by
  induction changes using List.reverseRecOn with
  | nil => exact represents_empty
  | append_singleton changes c ih =>
      rw [DependencyGraph.ofChanges_concat, ofChanges, List.foldl_append]
      exact ih.apply c

/-- Whatever is done to the graph by numbers, its table and its arena are in step, and it answers as the graph by
places does after the same changes. -/
theorem answersAs_ofChanges (changes : List Change) :
    (ofChanges changes).InStep ∧ (ofChanges changes).AnswersAs (DependencyGraph.ofChanges changes) :=
  ⟨(represents_ofChanges changes).toInStep, (represents_ofChanges changes).answersAs⟩

end NumberedGraph

end ImportCheck

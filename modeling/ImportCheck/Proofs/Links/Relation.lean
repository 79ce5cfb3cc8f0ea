import ImportCheck.Proofs.Links.Search

/-!
# A graph after any changes

Whatever was done to a graph, it answers as the plain relation between places does: the pairs that were linked and
not cleared since. The registered declarations are a set beside it, of those that were registered and not
withdrawn since.
-/

namespace ImportCheck

/-- What can be done to a graph. -/
inductive Change
  | link (source target : Path)
  | clear (p : Path)
  | register (p : Path)
  | withdraw (p : Path)

namespace Change

variable {α : Type}

inductive Links : Change → Place × Place → Prop
  | link (p q : Path) : Links (.link p q) (p.components, q.components)

inductive Unlinks : Change → Place × Place → Prop
  | clear (p : Path) (b : Place) : Unlinks (.clear p) (p.components, b)

inductive Registers : Change → Place → Prop
  | register (p : Path) : Registers (.register p) p.components

inductive Withdraws : Change → Place → Prop
  | withdraw (p : Path) : Withdraws (.withdraw p) p.components

/-- What was put in by one of the changes, and taken out by none that came later. -/
def remaining (puts takes : Change → α → Prop) (changes : List Change) : Set α :=
  {x | ∃ before c later, changes = before ++ c :: later ∧ puts c x ∧ ∀ d ∈ later, ¬takes d x}

theorem mem_remaining_concat {puts takes : Change → α → Prop} {changes : List Change} {c : Change}
    {x : α} : x ∈ remaining puts takes (changes ++ [c]) ↔
      puts c x ∨ x ∈ remaining puts takes changes ∧ ¬takes c x := by
  constructor
  · rintro ⟨before, d, later, he, hput, hkept⟩
    rcases List.eq_nil_or_concat later with rfl | ⟨later, c', rfl⟩
    · obtain ⟨-, hc⟩ := List.append_inj' he rfl
      exact .inl (List.singleton_inj.mp hc ▸ hput)
    · rw [List.concat_eq_append] at he hkept
      rw [← List.cons_append, ← List.append_assoc] at he
      obtain ⟨rfl, hc⟩ := List.append_inj' he rfl
      obtain rfl := List.singleton_inj.mp hc
      exact .inr ⟨⟨before, d, later, rfl, hput, fun e he => hkept e (by simp [he])⟩, hkept c (by simp)⟩
  · rintro (hput | ⟨⟨before, d, later, rfl, hput, hkept⟩, hc⟩)
    · exact ⟨changes, c, [], rfl, hput, by simp⟩
    · refine ⟨before, d, later ++ [c], by simp, hput, fun e he => ?_⟩
      rcases List.mem_append.mp he with he | he
      · exact hkept e he
      · exact List.mem_singleton.mp he ▸ hc

/-- The pairs that were linked and not cleared since. -/
def linked (changes : List Change) : Set (Place × Place) := remaining Links Unlinks changes

/-- The declarations that were registered and not withdrawn since. -/
def registered (changes : List Change) : Set Place := remaining Registers Withdraws changes

end Change

namespace DependencyGraph

def apply (g : DependencyGraph) : Change → DependencyGraph
  | .link p q => g.addDependency p q
  | .clear p => g.clearDependencies p
  | .register p => (g.addDeclaration p).1
  | .withdraw p => g.removeDeclaration p

/-- The graph that the changes make of the empty one. -/
def ofChanges (changes : List Change) : DependencyGraph := changes.foldl apply ∅

/-- The places of the registered declarations. -/
def registered (g : DependencyGraph) : Set Place := {a | ∃ p, g.hasDeclaration p = true ∧ p.components = a}

variable {g : DependencyGraph} {p q : Path}

theorem hasDeclaration_iff : g.hasDeclaration p = true ↔ p.components ∈ g.registered := by
  constructor
  · exact fun h => ⟨p, h, rfl⟩
  · rintro ⟨q, h, hs⟩
    rwa [← g.hasDeclaration_congr (show q.Same p from hs)]

/-! ## One change -/

theorem arrows_apply (g : DependencyGraph) (c : Change) :
    (g.apply c).arrows = {e | c.Links e ∨ e ∈ g.arrows ∧ ¬c.Unlinks e} := by
  ext e
  constructor
  · rintro ⟨p, q, h, rfl⟩
    cases c with
    | link a b =>
        rw [apply, hasDependency_addDependency, Bool.or_eq_true, decide_eq_true_eq] at h
        rcases h with h | ⟨ha, hb⟩
        · exact .inr ⟨⟨p, q, h, rfl⟩, nofun⟩
        · exact .inl (by rw [← ha, ← hb]; exact .link a b)
    | clear a =>
        rw [apply, hasDependency_clearDependencies, Bool.and_eq_true, Bool.not_eq_true', decide_eq_false_iff_not] at h
        refine .inr ⟨⟨p, q, h.2, rfl⟩, fun hu => h.1 ?_⟩
        generalize he : (p.components, q.components) = e at hu
        cases hu
        exact (Prod.mk.inj he).1.symm
    | register a => exact .inr ⟨⟨p, q, h, rfl⟩, nofun⟩
    | withdraw a => exact .inr ⟨⟨p, q, h, rfl⟩, nofun⟩
  · rintro (h | ⟨⟨p, q, h, rfl⟩, hn⟩)
    · cases h with
      | link a b => exact ⟨a, b, by simp [apply, hasDependency_addDependency, Path.Same.refl], rfl⟩
    · refine ⟨p, q, ?_, rfl⟩
      cases c with
      | link a b => simp [apply, hasDependency_addDependency, h]
      | clear a =>
          have hne : ¬a.Same p := fun hs => hn (by rw [← hs]; exact .clear a _)
          simp [apply, hasDependency_clearDependencies, h, hne]
      | register a => exact h
      | withdraw a => exact h

theorem registered_apply (g : DependencyGraph) (c : Change) :
    (g.apply c).registered = {a | c.Registers a ∨ a ∈ g.registered ∧ ¬c.Withdraws a} := by
  ext x
  constructor
  · rintro ⟨p, h, rfl⟩
    cases c with
    | link a b => exact .inr ⟨⟨p, by simpa [apply] using h, rfl⟩, nofun⟩
    | clear a => exact .inr ⟨⟨p, by simpa [apply] using h, rfl⟩, nofun⟩
    | register a =>
        rw [apply, hasDeclaration_addDeclaration, Bool.or_eq_true, decide_eq_true_eq] at h
        rcases h with hs | h
        · exact .inl (by rw [← hs]; exact .register a)
        · exact .inr ⟨⟨p, h, rfl⟩, nofun⟩
    | withdraw a =>
        rw [apply, hasDeclaration_removeDeclaration, Bool.and_eq_true, Bool.not_eq_true',
          decide_eq_false_iff_not] at h
        refine .inr ⟨⟨p, h.2, rfl⟩, fun hw => h.1 ?_⟩
        generalize he : p.components = x at hw
        cases hw
        exact he.symm
  · rintro (h | ⟨⟨p, h, rfl⟩, hn⟩)
    · cases h with
      | register a => exact ⟨a, by simp [apply, hasDeclaration_addDeclaration, Path.Same.refl], rfl⟩
    · refine ⟨p, ?_, rfl⟩
      cases c with
      | link a b => simpa [apply] using h
      | clear a => simpa [apply] using h
      | register a => simp [apply, hasDeclaration_addDeclaration, h]
      | withdraw a =>
          have hne : ¬a.Same p := fun hs => hn (by rw [← hs]; exact .withdraw a)
          simp [apply, hasDeclaration_removeDeclaration, h, hne]

theorem ofChanges_concat (changes : List Change) (c : Change) :
    ofChanges (changes ++ [c]) = (ofChanges changes).apply c := by
  simp [ofChanges]

theorem arrows_ofChanges (changes : List Change) : (ofChanges changes).arrows = Change.linked changes := by
  induction changes using List.reverseRecOn with
  | nil =>
      refine Set.Subset.antisymm ?_ ?_
      · rintro _ ⟨p, q, h, -⟩
        cases h
      · rintro _ ⟨before, c, later, he, -⟩
        simp at he
  | append_singleton changes c ih =>
      ext e
      rw [ofChanges_concat, arrows_apply, ih]
      exact Change.mem_remaining_concat.symm

theorem registered_ofChanges (changes : List Change) :
    (ofChanges changes).registered = Change.registered changes := by
  induction changes using List.reverseRecOn with
  | nil =>
      refine Set.Subset.antisymm ?_ ?_
      · rintro _ ⟨p, h, -⟩
        cases h
      · rintro _ ⟨before, c, later, he, -⟩
        simp at he
  | append_singleton changes c ih =>
      ext a
      rw [ofChanges_concat, registered_apply, ih]
      exact Change.mem_remaining_concat.symm

/-! ## What a graph answers -/

theorem enumerates_dependencies (g : DependencyGraph) (p : Path) :
    Path.Enumerates (g.dependencies p) {b | (p.components, b) ∈ g.arrows} := by
  have hplaces : (g.targets p).places = {b | (p.components, b) ∈ g.arrows} := by
    ext b
    constructor
    · rintro ⟨q, h, rfl⟩
      exact ⟨p, q, h, rfl⟩
    · rintro ⟨p', q, h, he⟩
      obtain ⟨hp, rfl⟩ := Prod.mk.inj he
      rw [g.hasDependency_congr hp (.refl q)] at h
      exact ⟨q, h, rfl⟩
  exact hplaces ▸ (g.targets p).enumerates_sort_keys

theorem enumerates_dependents (g : DependencyGraph) (q : Path) :
    Path.Enumerates (g.dependents q) {a | (a, q.components) ∈ g.arrows} := by
  constructor
  · refine Path.ascending_sort ?_
    rw [List.map_map]
    exact g.links.distinct.sublist (List.filter_sublist.map _)
  · intro a
    simp only [List.mem_map, mem_dependents]
    constructor
    · rintro ⟨p, ⟨-, h⟩, rfl⟩
      exact hasDependency_iff_arrow.mp h
    · rintro ⟨p, q', h, he⟩
      obtain ⟨rfl, hq⟩ := Prod.mk.inj he
      rw [g.hasDependency_congr (.refl p) hq] at h
      obtain ⟨e, he, hs, hq⟩ := hasDependency_iff_entry.mp h
      exact ⟨e.1, ⟨List.mem_map_of_mem he, hasDependency_iff_entry.mpr ⟨e, he, .refl _, hq⟩⟩, hs⟩

/-- Between different places there is a way only if it has a step. -/
theorem leads_iff_of_not_same (h : ¬p.Same q) :
    g.Leads p q ↔ Relation.TransGen (fun a b => (a, b) ∈ g.arrows) p.components q.components := by
  rw [Leads, Relation.reflTransGen_iff_eq_or_transGen]
  exact or_iff_right fun he => h he.symm

theorem contains_visit_start (g : DependencyGraph) (p q : Path) :
    PathMap.contains (g.visit (g.edgeCount + 1) [p] ∅) q = true ↔ g.Leads p q := by
  have hload : [p].length + g.load ∅ ≤ g.edgeCount + 1 := by
    rw [load_empty, List.length_singleton, Nat.add_comm]
  have hstart : g.Searched [p] ∅ := fun _ _ h => absurd h (by simp)
  rw [contains_visit hload hstart]
  simp

theorem enumerates_transitive (g : DependencyGraph) (p : Path) :
    Path.Enumerates (g.transitive p)
      {b | b ≠ p.components ∧ Relation.TransGen (fun a b => (a, b) ∈ g.arrows) p.components b} := by
  have hplaces : ((g.visit (g.edgeCount + 1) [p] ∅).erase p).places =
      {b | b ≠ p.components ∧ Relation.TransGen (fun a b => (a, b) ∈ g.arrows) p.components b} := by
    ext b
    simp only [PathMap.places, PathMap.contains_erase, Bool.and_eq_true, Bool.not_eq_true',
      decide_eq_false_iff_not, contains_visit_start, Set.mem_ofPred_eq]
    constructor
    · rintro ⟨q, ⟨hne, hlead⟩, rfl⟩
      exact ⟨fun h => hne h.symm, (leads_iff_of_not_same hne).mp hlead⟩
    · rintro ⟨hne, htrans⟩
      -- a place that arrows lead to has a spelling
      obtain ⟨a, -, _, q, -, he⟩ := Relation.TransGen.tail'_iff.mp htrans
      obtain ⟨-, rfl⟩ := Prod.mk.inj he
      have hne' : ¬p.Same q := fun h => hne h.symm
      exact ⟨q, ⟨hne', (leads_iff_of_not_same hne').mpr htrans⟩, rfl⟩
  exact hplaces ▸ PathMap.enumerates_sort_keys _

/-- All that a graph answers is what the relation and the set beside it say. -/
structure Shows (g : DependencyGraph) (E : Set (Place × Place)) (D : Set Place) : Prop where
  hasDependency : ∀ p q, g.hasDependency p q = true ↔ (p.components, q.components) ∈ E
  dependencies : ∀ p, Path.Enumerates (g.dependencies p) {b | (p.components, b) ∈ E}
  dependents : ∀ q, Path.Enumerates (g.dependents q) {a | (a, q.components) ∈ E}
  finite : E.Finite
  edgeCount : g.edgeCount = E.ncard
  transitive : ∀ p, Path.Enumerates (g.transitive p)
    {b | b ≠ p.components ∧ Relation.TransGen (fun a b => (a, b) ∈ E) p.components b}
  clearDependencies : ∀ a p q,
    (g.clearDependencies a).hasDependency p q = true ↔
      p.components ≠ a.components ∧ (p.components, q.components) ∈ E
  declarations : Path.Enumerates g.declarations.sorted D
  hasDeclaration : ∀ p, g.hasDeclaration p = true ↔ p.components ∈ D
  addDeclaration : ∀ p, (g.addDeclaration p).2 = true ↔ p.components ∉ D

theorem shows_arrows (g : DependencyGraph) : g.Shows g.arrows g.registered where
  hasDependency _ _ := hasDependency_iff_arrow
  dependencies := g.enumerates_dependencies
  dependents := g.enumerates_dependents
  finite := g.pairs.toFinset.finite_toSet.subset fun e he => by simpa using mem_pairs.mpr he
  edgeCount := g.edgeCount_eq_ncard
  transitive := g.enumerates_transitive
  clearDependencies a p q := by
    rw [hasDependency_clearDependencies, Bool.and_eq_true, Bool.not_eq_true', decide_eq_false_iff_not,
      hasDependency_iff_arrow]
    exact and_congr_left' (not_congr eq_comm)
  declarations := g.declarations.enumerates_sort_keys
  hasDeclaration _ := hasDeclaration_iff
  addDeclaration p := by
    rw [← hasDeclaration_iff]
    simp [DependencyGraph.addDeclaration, DependencyGraph.hasDeclaration]

end DependencyGraph

/-- After any changes of the empty graph, in any order and under any spellings: what is linked is what was linked
and not cleared since, and all that the graph answers about links, one by one, in lists, in number and by way of
others, is what that relation says, also where it goes in circles. The registered declarations are those that were
registered and not withdrawn since, whatever becomes of the links. -/
theorem graph_refines_relation (changes : List Change) :
    (DependencyGraph.ofChanges changes).Shows (Change.linked changes) (Change.registered changes) := by
  rw [← DependencyGraph.arrows_ofChanges, ← DependencyGraph.registered_ofChanges]
  exact (DependencyGraph.ofChanges changes).shows_arrows

end ImportCheck

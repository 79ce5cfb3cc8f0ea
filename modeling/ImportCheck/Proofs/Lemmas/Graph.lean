import ImportCheck.Graph
import ImportCheck.Proofs.Lemmas.PathMap

/-!
# Links and declarations after a change of the graph

A graph is seen through `hasDependency` and `hasDeclaration`; each change of it is described by what the
two answer afterwards.
-/

namespace ImportCheck.DependencyGraph

theorem hasDependency_congr (g : DependencyGraph) {p p' q q' : Path} (hp : p.Same p') (hq : q.Same q') :
    g.hasDependency p q = g.hasDependency p' q' := by
  have ht : g.targets p = g.targets p' := by simp only [targets, PathMap.get?_congr _ hp]
  simp only [hasDependency, ht, PathMap.contains_congr _ hq]

theorem hasDeclaration_congr (g : DependencyGraph) {p q : Path} (h : p.Same q) :
    g.hasDeclaration p = g.hasDeclaration q := PathMap.contains_congr _ h

/-! ## Links -/

@[simp] theorem targets_addNode (g : DependencyGraph) (p q : Path) :
    (g.addNode p).targets q = g.targets q := by
  unfold addNode
  split
  · rfl
  · next h =>
    by_cases hpq : p.Same q
    · have hq : g.links.get? q = none := by
        rw [← PathMap.get?_congr _ hpq]
        simpa [PathMap.contains_eq_isSome] using h
      simp [targets, PathMap.get?_insert, hpq, hq]
    · simp [targets, PathMap.get?_insert, hpq]

@[simp] theorem declarations_addNode (g : DependencyGraph) (p : Path) :
    (g.addNode p).declarations = g.declarations := by
  unfold addNode
  split <;> rfl

@[simp] theorem hasDeclaration_addDependency (g : DependencyGraph) (a b p : Path) :
    (g.addDependency a b).hasDeclaration p = g.hasDeclaration p := by
  simp [addDependency, hasDeclaration]

theorem hasDependency_addDependency (g : DependencyGraph) (a b p q : Path) :
    (g.addDependency a b).hasDependency p q =
      (g.hasDependency p q || decide (a.Same p ∧ b.Same q)) := by
  have hb := PathMap.spelling_same ((g.addNode a).addNode b).links b
  have ht (r : Path) : (((g.addNode a).addNode b).links.get? r).getD ∅ = g.targets r :=
    (targets_addNode (g.addNode a) b r).trans (targets_addNode g a r)
  by_cases hp : a.Same p
  · have hap : g.links.get? a = g.links.get? p := PathMap.get?_congr _ hp
    simp only [addDependency, hasDependency, targets, PathMap.get?_insert, hp, ↓reduceIte,
      Option.getD_some, PathSet.contains_add, hb.iff_left, true_and, ht, hap]
    exact Bool.or_comm _ _
  · simp only [addDependency, hasDependency, targets, PathMap.get?_insert, hp, ↓reduceIte, false_and,
      decide_false, Bool.or_false, ht]

@[simp] theorem hasDeclaration_clearDependencies (g : DependencyGraph) (a p : Path) :
    (g.clearDependencies a).hasDeclaration p = g.hasDeclaration p := by
  unfold clearDependencies
  split <;> rfl

theorem hasDependency_clearDependencies (g : DependencyGraph) (a p q : Path) :
    (g.clearDependencies a).hasDependency p q = (!decide (a.Same p) && g.hasDependency p q) := by
  unfold clearDependencies
  split
  · by_cases hp : a.Same p
    · simp [hasDependency, targets, PathMap.get?_insert, hp]
    · simp [hasDependency, targets, PathMap.get?_insert, hp]
  · next h =>
    by_cases hp : a.Same p
    · have hn : g.links.get? p = none := by
        rw [← PathMap.get?_congr _ hp]
        simpa [PathMap.contains_eq_isSome] using h
      simp [hasDependency, targets, hn, hp]
    · simp [hp]

theorem targets_addDependency_of_not_same (g : DependencyGraph) {a p : Path} (b : Path) (h : ¬a.Same p) :
    (g.addDependency a b).targets p = g.targets p := by
  have ht : (((g.addNode a).addNode b).links.get? p).getD ∅ = g.targets p :=
    (targets_addNode (g.addNode a) b p).trans (targets_addNode g a p)
  simp only [addDependency, targets, PathMap.get?_insert, h, ↓reduceIte] at ht ⊢
  exact ht

theorem targets_clearDependencies_of_not_same (g : DependencyGraph) {a p : Path} (h : ¬a.Same p) :
    (g.clearDependencies a).targets p = g.targets p := by
  unfold clearDependencies
  split
  · simp [targets, PathMap.get?_insert, h]
  · rfl

/-! ## Declarations -/

theorem hasDeclaration_addDeclaration (g : DependencyGraph) (a p : Path) :
    (g.addDeclaration a).1.hasDeclaration p = (decide (a.Same p) || g.hasDeclaration p) :=
  PathSet.contains_add g.declarations a p

theorem hasDeclaration_removeDeclaration (g : DependencyGraph) (a p : Path) :
    (g.removeDeclaration a).hasDeclaration p = (!decide (a.Same p) && g.hasDeclaration p) :=
  PathMap.contains_erase g.declarations a p

end ImportCheck.DependencyGraph

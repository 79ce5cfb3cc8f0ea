import ImportCheck.Proofs.Lemmas.Order
import ImportCheck.Proofs.Walk.Confined
import ImportCheck.Proofs.Walk.OutsideChecks

/-!
# The kinds of what is linked and registered

Links lead to sources and registrations are of declarations. A link leads to the first spelling that the graph has met
of its target, so this takes that the places which are checked or found are spelled in one way.
-/

namespace ImportCheck

/-! ## Spellings in the graph -/

namespace DependencyGraph

variable {g : DependencyGraph} {a b p k x : Path}

theorem mem_nodes_addNode (h : k ∈ (g.addNode p).links.keys) : k ∈ g.links.keys ∨ k = p := by
  unfold addNode at h
  split at h
  · exact .inl h
  · exact PathMap.mem_keys_insert h

theorem mem_nodes_addDependency (h : k ∈ (g.addDependency a b).links.keys) :
    k ∈ g.links.keys ∨ k = a ∨ k = b := by
  rcases PathMap.mem_keys_insert h with h | rfl
  · rcases mem_nodes_addNode h with h | rfl
    · exact (mem_nodes_addNode h).imp_right .inl
    · exact .inr (.inr rfl)
  · exact .inr (.inl rfl)

/-- A new target has the spelling of a node that was there, or of an end of the link. -/
theorem mem_targets_addDependency (h : x ∈ ((g.addDependency a b).targets p).keys) :
    x ∈ (g.targets p).keys ∨ x.Same b ∧ (x ∈ g.links.keys ∨ x = a ∨ x = b) := by
  by_cases hp : a.Same p
  · have hkeys : x ∈ PathMap.keys ((g.targets p).add (((g.addNode a).addNode b).links.spelling b)) := by
      have ht : (((g.addNode a).addNode b).links.get? p).getD ∅ = g.targets p :=
        (targets_addNode (g.addNode a) b p).trans (targets_addNode g a p)
      simpa [addDependency, targets, PathMap.get?_insert, hp, PathMap.get?_congr _ hp, ht] using h
    rcases PathSet.mem_keys_add hkeys with hx | rfl
    · exact .inl hx
    · refine .inr ⟨PathMap.spelling_same _ b, ?_⟩
      rcases ((g.addNode a).addNode b).links.spelling_mem b with hx | hx
      · rcases mem_nodes_addNode hx with hx | hx
        · exact (mem_nodes_addNode hx).imp_right .inl
        · exact .inr (.inr hx)
      · exact .inr (.inr hx)
  · rw [targets_addDependency_of_not_same g b hp] at h
    exact .inl h

theorem mem_nodes_clearDependencies (h : k ∈ (g.clearDependencies a).links.keys) :
    k ∈ g.links.keys ∨ k = a := by
  unfold clearDependencies at h
  split at h
  · exact PathMap.mem_keys_insert h
  · exact .inl h

theorem mem_targets_clearDependencies (h : x ∈ ((g.clearDependencies a).targets p).keys) :
    x ∈ (g.targets p).keys := by
  by_cases hp : a.Same p
  · exfalso
    have hnone : ((g.clearDependencies a).targets p).contains x = false := by
      have := g.hasDependency_clearDependencies a p x
      simpa [hasDependency, hp] using this
    rw [PathMap.contains_iff_key.mpr ⟨x, h, .refl x⟩] at hnone
    cases hnone
  · rwa [targets_clearDependencies_of_not_same g hp] at h

end DependencyGraph

/-! ## Kinds -/

/-- The file that a leaf of a check is about. -/
def Task.subject? : Task → Option Path
  | .start (.check x) => some x
  | .reading x (.walk _) _ => some x
  | t => t.asker?

/-- Links lead to sources, and registrations are of declarations; all nodes and all files of checks have names from the
list. -/
structure Classed (names : List Path) (s : Session) (L : Multiset Task) : Prop where
  nodes : ∀ k ∈ s.graph.links.keys, k ∈ names
  targets : ∀ p, ∀ x ∈ (s.graph.targets p).keys, x.kind = .source
  declared : ∀ x ∈ s.graph.declarations.keys, x.kind = .declaration
  named : ∀ leaf ∈ L, leaf.Checks → ∀ x, leaf.subject? = some x → x ∈ names

namespace Classed

variable {w : Surroundings} {names : List Path} {s s' : Session} {K L : Multiset Task} {x f : Path}

theorem of_graph (h : Classed names s K) (hg : s'.graph = s.graph) : Classed names s' K :=
  ⟨by rw [hg]; exact h.nodes, by rw [hg]; exact h.targets, by rw [hg]; exact h.declared, h.named⟩

theorem of_leaves (h : Classed names s K)
    (hl : ∀ leaf ∈ L, leaf ∈ K ∨ (leaf.Checks → ∀ x, leaf.subject? = some x → x ∈ names)) : Classed names s L :=
  ⟨h.nodes, h.targets, h.declared, fun leaf hleaf hc => (hl leaf hleaf).elim (fun hk => h.named leaf hk hc) (· hc)⟩

theorem add (h : Classed names s K) {t : Task}
    (ht : ∀ leaf ∈ t.waiting, leaf.Checks → ∀ x, leaf.subject? = some x → x ∈ names) :
    Classed names s (K + t.waiting) :=
  h.of_leaves fun leaf hl => (Multiset.mem_add.mp hl).imp_right (ht leaf)

theorem add_done (h : Classed names s K) (o : Outcome) : Classed names s (K + (Task.done o).waiting) := by
  simpa [Task.waiting] using h

theorem enter (h : Classed names s K) (hx : x ∈ names) : Classed names (s.enter x) K where
  nodes k hk := (DependencyGraph.mem_nodes_clearDependencies hk).elim (h.nodes k) (· ▸ hx)
  targets p y hy := h.targets p y (DependencyGraph.mem_targets_clearDependencies hy)
  declared y hy := by
    refine h.declared y ?_
    simpa [Session.enter, Session.record, DependencyGraph.clearDependencies, apply_ite DependencyGraph.declarations]
      using hy
  named := h.named

theorem register (h : Classed names s K) (hk : x.kind = .declaration) : Classed names (s.register x) K where
  nodes := h.nodes
  targets := h.targets
  declared y hy := (PathSet.mem_keys_add hy).elim (h.declared y) (· ▸ hk)
  named := h.named

theorem link (h : Classed names s K) (ha : ∀ p ∈ names, ∀ q ∈ names, p.Same q → p = q) (hf : f ∈ names)
    (hx : x ∈ names) (hk : x.kind = .source) : Classed names (s.link f x) K where
  nodes k hn := by
    rcases DependencyGraph.mem_nodes_addDependency hn with hn | rfl | rfl
    · exact h.nodes k hn
    · exact hf
    · exact hx
  targets p y hy := by
    rcases DependencyGraph.mem_targets_addDependency hy with hy | ⟨hs, hnode⟩
    · exact h.targets p y hy
    · have hy : y ∈ names := by
        rcases hnode with hnode | rfl | rfl
        · exact h.nodes y hnode
        · exact hf
        · exact hx
      rw [ha y hy x hx hs, hk]
  declared y hy := by
    refine h.declared y ?_
    simpa [Session.link, DependencyGraph.addDependency] using hy
  named := h.named

theorem drop (h : Classed names s K) (registered : Bool) : Classed names (s.drop x registered) K := by
  cases registered with
  | false => exact h.of_graph rfl
  | true => exact ⟨h.nodes, h.targets, fun y hy => h.declared y (PathMap.mem_keys_erase.mp hy).1, h.named⟩

theorem falls {c c' : Session × Multiset Path} {E : List (Path × Outcome)} (hf : Task.Falls c E c')
    (h : Classed names c.1 K) : Classed names c'.1 K := by
  induction hf with
  | rest => exact h
  | pass _ ih => exact ih
  | fail _ ih => exact ih.drop _

theorem named_follows {registered : Bool} {specifiers : List String} (hx : x ∈ names) :
    ∀ leaf ∈ (Task.walk x registered (Task.follows x specifiers)).waiting, leaf.Checks →
      ∀ y, leaf.subject? = some y → y ∈ names := by
  intro leaf hl _ y hy
  obtain ⟨t, -, rfl⟩ := Task.mem_waiting_follows.mp hl
  cases hy
  exact hx

theorem entered {registered : Bool} {t' : Task} (h : Classed names s K) (hx : x ∈ names)
    (he : Task.Entered x registered s s' t') : Classed names s' (K + t'.waiting) := by
  cases he with
  | trusted _ => exact h.add_done _
  | scanned _ _ _ => exact ((h.enter hx).add (named_follows hx)).of_graph rfl
  | begun _ _ =>
      refine ((h.enter hx).add fun leaf hl _ y hy => ?_).of_graph rfl
      obtain rfl := Multiset.mem_singleton.mp hl
      cases hy
      exact hx

theorem leafStep {leaf t' : Task} (h : Classed names s (K + {leaf})) (hd : Task.LeafStep w s leaf s' t')
    (hc : leaf.Checks) (ha : ∀ p ∈ names, ∀ q ∈ names, p.Same q → p = q)
    (hfound : ∀ x, leaf.found? w = some x → x ∈ names) : Classed names s' (K + t'.waiting) := by
  have hrest : Classed names s K := h.of_leaves fun l hl => .inl (by simp [hl])
  have hleaf : ∀ y, leaf.subject? = some y → y ∈ names := h.named leaf (by simp) hc
  have hasker : ∀ {f t a}, leaf.Seeks w f t a → f ∈ names := fun hs => hleaf _ (by cases hs <;> rfl)
  cases hd with
  | check he => exact hrest.entered (hleaf _ rfl) he
  | ask hs _ _ =>
      refine (hrest.add fun l hl _ y hy => ?_).of_graph rfl
      obtain rfl := Multiset.mem_singleton.mp hl
      cases hy
      exact hasker hs
  | unresolved _ _ => exact hrest.add_done _
  | pass _ _ _ => exact hrest.add_done _
  | register hs ho hk _ he => exact (hrest.register hk).entered (hfound _ (hs.found? ho)) he
  | link hs ho hk he =>
      have hx := hfound _ (hs.found? ho)
      exact (hrest.link ha (hasker hs) hx hk).entered hx he
  | unread _ => exact (hrest.drop _).add_done _
  | store _ _ => exact (hrest.add (named_follows (hleaf _ rfl))).of_graph rfl
  | notice => cases hc
  | keep _ => cases hc
  | refresh _ _ => cases hc

theorem outsideChecks {leaf : Task} {c : Session × Task} (h : Classed names s (K + {leaf}))
    (he : Task.OutsideChecks w s leaf c) : Classed names c.1 (K + c.2.waiting) := by
  have hrest : Classed names s K := h.of_leaves fun l hl => .inl (by simp [hl])
  have hgraph : c.1.graph = s.graph := by
    rw [he.steady.graph]
    split <;> rfl
  exact (hrest.add fun l hl hc => absurd hc (he.aside l hl)).of_graph hgraph

end Classed

end ImportCheck

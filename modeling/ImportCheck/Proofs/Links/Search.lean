import ImportCheck.Proofs.Lemmas.Graph
import ImportCheck.Proofs.Lemmas.Order
import Mathlib.Algebra.BigOperators.Group.List.Basic
import Mathlib.Data.Set.Card
import Mathlib.Logic.Relation

/-!
# The relation behind a graph

A graph stands for a relation between places: its arrows are the pairs that are linked, under whichever spellings.
The depth-first search finds the places to which arrows lead, in every graph, with cycles or without.
-/

namespace ImportCheck

namespace DependencyGraph

variable (g : DependencyGraph) {p q : Path} {seen : PathSet}

/-- The pairs of places that are linked. -/
def arrows : Set (Place × Place) := {e | ∃ p q, g.hasDependency p q = true ∧ (p.components, q.components) = e}

variable {g}

theorem hasDependency_iff_arrow : g.hasDependency p q = true ↔ (p.components, q.components) ∈ g.arrows := by
  constructor
  · exact fun h => ⟨p, q, h, rfl⟩
  · rintro ⟨p', q', h, he⟩
    obtain ⟨hp, hq⟩ := Prod.mk.inj he
    rwa [← g.hasDependency_congr hp hq]

theorem hasDependency_iff_target : g.hasDependency p q = true ↔ ∃ t ∈ (g.targets p).keys, t.Same q :=
  PathMap.contains_iff_key

theorem hasDependency_iff_entry :
    g.hasDependency p q = true ↔ ∃ e ∈ g.links.entries, e.1.Same p ∧ e.2.contains q = true := by
  rw [hasDependency, targets]
  constructor
  · intro h
    cases hg : g.links.get? p with
    | none => simp [hg] at h
    | some a =>
        obtain ⟨e, he, hs, rfl⟩ := PathMap.get?_eq_some_iff.mp hg
        exact ⟨e, he, hs, by simpa [hg] using h⟩
  · rintro ⟨e, he, hs, hq⟩
    rw [PathMap.get?_eq_some_iff.mpr ⟨e, he, hs, rfl⟩]
    exact hq

theorem mem_dependents : p ∈ g.dependents q ↔ p ∈ g.links.keys ∧ g.hasDependency p q = true := by
  simp only [dependents, Path.mem_sort, PathMap.keys, List.mem_map, List.mem_filter]
  constructor
  · rintro ⟨e, ⟨he, hq⟩, rfl⟩
    exact ⟨⟨e, he, rfl⟩, hasDependency_iff_entry.mpr ⟨e, he, .refl _, hq⟩⟩
  · rintro ⟨⟨e, he, rfl⟩, h⟩
    obtain ⟨e', he', hs, hq⟩ := hasDependency_iff_entry.mp h
    obtain rfl : e' = e := List.inj_on_of_nodup_map g.links.distinct he' he hs
    exact ⟨e', ⟨he, hq⟩, rfl⟩

/-! ## How many links there are -/

/-- The links one by one, each as the pair of its places. -/
def pairs (g : DependencyGraph) : List (Place × Place) :=
  g.links.entries.flatMap fun e => e.2.keys.map fun t => (e.1.components, t.components)

theorem mem_pairs {e : Place × Place} : e ∈ g.pairs ↔ e ∈ g.arrows := by
  simp only [pairs, List.mem_flatMap, List.mem_map]
  constructor
  · rintro ⟨k, hk, t, ht, rfl⟩
    refine ⟨k.1, t, hasDependency_iff_entry.mpr ⟨k, hk, .refl _, PathMap.contains_iff.mpr ?_⟩, rfl⟩
    obtain ⟨u, hu, rfl⟩ := List.mem_map.mp ht
    exact ⟨u, hu, .refl _⟩
  · rintro ⟨p, q, h, rfl⟩
    obtain ⟨k, hk, hp, hq⟩ := hasDependency_iff_entry.mp h
    obtain ⟨u, hu, hs⟩ := PathMap.contains_iff.mp hq
    exact ⟨k, hk, u.1, List.mem_map_of_mem hu, Prod.ext hp hs⟩

theorem nodup_pairs (g : DependencyGraph) : g.pairs.Nodup := by
  refine List.nodup_flatMap.mpr ⟨fun k _ => ?_, ?_⟩
  · have hkeys := k.2.distinct_keys
    rw [show k.2.keys.map (fun t => (k.1.components, t.components)) =
      (k.2.keys.map Path.components).map (Prod.mk k.1.components) by rw [List.map_map]; rfl]
    exact hkeys.map (Prod.mk_right_injective _)
  · refine (List.pairwise_map.mp g.links.distinct).imp fun {k l} hne => ?_
    rw [Function.onFun, List.disjoint_left]
    intro e hk hl
    obtain ⟨_, -, rfl⟩ := List.mem_map.mp hk
    obtain ⟨_, -, he⟩ := List.mem_map.mp hl
    exact hne (Prod.mk.inj he).1.symm

theorem edgeCount_eq_sum (g : DependencyGraph) : g.edgeCount = (g.links.entries.map fun e => e.2.size).sum := by
  unfold edgeCount
  induction g.links.entries with
  | nil => rfl
  | cons e es ih => simp [ih]

theorem edgeCount_eq_ncard (g : DependencyGraph) : g.edgeCount = g.arrows.ncard := by
  have hset : (g.pairs.toFinset : Set (Place × Place)) = g.arrows := Set.ext fun e => by simp [mem_pairs]
  rw [← hset, Set.ncard_coe_finset, List.toFinset_card_of_nodup g.nodup_pairs, edgeCount_eq_sum, pairs,
    List.length_flatMap]
  simp [PathMap.keys, PathMap.size]

/-! ## The search -/

/-- A search spells what it finds as it was given or as the links spell it. -/
theorem mem_keys_visit {n : Nat} {stack : List Path} {seen : PathSet}
    (h : p ∈ PathMap.keys (g.visit n stack seen)) :
    p ∈ PathMap.keys seen ∨ p ∈ stack ∨ ∃ q, p ∈ (g.targets q).keys := by
  induction n generalizing stack seen with
  | zero => exact .inl h
  | succ n ih =>
      cases stack with
      | nil => exact .inl h
      | cons q rest =>
          rw [visit] at h
          split at h
          · rcases ih h with h | h | h
            · exact .inl h
            · exact .inr (.inl (List.mem_cons_of_mem q h))
            · exact .inr (.inr h)
          · rcases ih h with h | h | h
            · rcases PathSet.mem_keys_add h with h | rfl
              · exact .inl h
              · exact .inr (.inl List.mem_cons_self)
            · rcases List.mem_append.mp h with h | h
              · exact .inr (.inr ⟨q, h⟩)
              · exact .inr (.inl (List.mem_cons_of_mem q h))
            · exact .inr (.inr h)

/-- The number of links that start at places not seen yet. -/
def load (g : DependencyGraph) (seen : PathSet) : Nat :=
  (g.links.entries.map fun e => if PathMap.contains seen e.1 then 0 else e.2.size).sum

theorem load_empty (g : DependencyGraph) : g.load ∅ = g.edgeCount := by
  rw [edgeCount_eq_sum]
  rfl

theorem size_targets (g : DependencyGraph) (p : Path) :
    (g.targets p).size = (g.links.entries.map fun e => if e.1.Same p then e.2.size else 0).sum := by
  have hall : ∀ es : List (Path × PathSet), (es.map fun e => e.1.components).Nodup →
      (((es.find? fun e => decide (e.1.Same p)).map Prod.snd).getD ∅).size =
        (es.map fun e => if e.1.Same p then e.2.size else 0).sum := by
    intro es hes
    induction es with
    | nil => rfl
    | cons e es ih =>
        obtain ⟨hnot, htail⟩ := List.nodup_cons.mp hes
        by_cases h : e.1.Same p
        · -- the other entries are of other places, and count for nothing
          have hzero : (es.map fun e => if e.1.Same p then e.2.size else 0).sum = 0 := by
            refine List.sum_eq_zero fun n hn => ?_
            obtain ⟨e', he', rfl⟩ := List.mem_map.mp hn
            refine if_neg fun hs => hnot (List.mem_map.mpr ⟨e', he', hs.trans h.symm⟩)
          simp [h, hzero]
        · simpa [h] using ih htail
  exact hall g.links.entries g.links.distinct

/-- What a place that is seen has taken from the load is put on the stack. -/
theorem load_add (hp : PathMap.contains seen p = false) :
    (g.targets p).size + g.load (seen.add p) = g.load seen := by
  rw [size_targets, load, load, ← List.sum_map_add]
  congr 1
  refine List.map_congr_left fun e _ => ?_
  by_cases hs : e.1.Same p
  · have he : PathMap.contains seen e.1 = false := by rw [PathMap.contains_congr seen hs, hp]
    simp [PathSet.contains_add, hs, hs.symm, he]
  · have hs' : ¬p.Same e.1 := fun h => hs h.symm
    simp [PathSet.contains_add, hs, hs']

/-- Arrows lead from the one place to the other, in any number of steps. -/
def Leads (g : DependencyGraph) (p q : Path) : Prop :=
  Relation.ReflTransGen (fun a b => (a, b) ∈ g.arrows) p.components q.components

theorem Leads.of_same (h : p.Same q) : g.Leads p q := by
  rw [Leads, h]

/-- The first arrow on the way goes to one of the targets. -/
theorem leads_iff : g.Leads p q ↔ p.Same q ∨ ∃ t ∈ (g.targets p).keys, g.Leads t q := by
  constructor
  · intro h
    rcases Relation.ReflTransGen.cases_head h with he | ⟨b, hb, hrest⟩
    · exact .inl he
    · obtain ⟨p', r, hlink, he⟩ := hb
      obtain ⟨hp, rfl⟩ := Prod.mk.inj he
      rw [g.hasDependency_congr hp (.refl r)] at hlink
      obtain ⟨t, ht, hs⟩ := hasDependency_iff_target.mp hlink
      refine .inr ⟨t, ht, ?_⟩
      rwa [Leads, hs]
  · rintro (hs | ⟨t, ht, hlead⟩)
    · exact .of_same hs
    · exact .head (hasDependency_iff_arrow.mp (hasDependency_iff_target.mpr ⟨t, ht, .refl t⟩)) hlead

/-- All that is linked to from a place seen is seen too, or on the stack. -/
def Searched (g : DependencyGraph) (stack : List Path) (seen : PathSet) : Prop :=
  ∀ p q, PathMap.contains seen p = true → g.hasDependency p q = true →
    PathMap.contains seen q = true ∨ ∃ r ∈ stack, r.Same q

theorem Searched.leads {stack : List Path} (h : g.Searched stack seen) (hp : PathMap.contains seen p = true)
    (hlead : g.Leads p q) : PathMap.contains seen q = true ∨ ∃ r ∈ stack, g.Leads r q := by
  have hall : ∀ b, Relation.ReflTransGen (fun a b => (a, b) ∈ g.arrows) p.components b →
      ∀ q : Path, q.components = b → PathMap.contains seen q = true ∨ ∃ r ∈ stack, g.Leads r q := by
    intro b hb
    induction hb with
    | refl => exact fun q hq => .inl (by rwa [PathMap.contains_congr seen (show q.Same p from hq)])
    | tail _ hstep ih =>
        rintro q rfl
        obtain ⟨a, b, hlink, he⟩ := hstep
        obtain ⟨ha, hb⟩ := Prod.mk.inj he
        rcases ih a ha with hseen | ⟨r, hr, hlead⟩
        · rw [g.hasDependency_congr (.refl a) hb] at hlink
          rcases h a q hseen hlink with hq | ⟨r, hr, hs⟩
          · exact .inl hq
          · exact .inr ⟨r, hr, .of_same hs⟩
        · refine .inr ⟨r, hr, hlead.tail ⟨a, q, ?_, by rw [ha]⟩⟩
          rwa [← g.hasDependency_congr (.refl a) hb]
  exact hall _ hlead q rfl

/-- With as many steps as there are places on the stack and links ahead, the search sees just the places to which
the stack leads. -/
theorem contains_visit {n : Nat} {stack : List Path} (hn : stack.length + g.load seen ≤ n)
    (h : g.Searched stack seen) :
    PathMap.contains (g.visit n stack seen) q = true ↔
      PathMap.contains seen q = true ∨ ∃ p ∈ stack, g.Leads p q := by
  induction n generalizing stack seen with
  | zero =>
      obtain rfl : stack = [] := List.eq_nil_of_length_eq_zero (by omega)
      simp [visit]
  | succ n ih =>
      cases stack with
      | nil => simp [visit]
      | cons p rest =>
          rw [List.length_cons] at hn
          by_cases hp : PathMap.contains seen p = true
          · have hrest : g.Searched rest seen := by
              intro a b ha hab
              rcases h a b ha hab with hb | ⟨r, hr, hs⟩
              · exact .inl hb
              · rcases List.mem_cons.mp hr with rfl | hr
                · exact .inl (by rwa [← PathMap.contains_congr seen hs])
                · exact .inr ⟨r, hr, hs⟩
            rw [visit, if_pos hp, ih (by omega) hrest]
            constructor
            · exact Or.imp id fun ⟨r, hr, hlead⟩ => ⟨r, List.mem_cons_of_mem _ hr, hlead⟩
            · rintro (hq | ⟨r, hr, hlead⟩)
              · exact .inl hq
              · rcases List.mem_cons.mp hr with rfl | hr
                · exact hrest.leads hp hlead
                · exact .inr ⟨r, hr, hlead⟩
          · have hload := load_add (g := g) (by simpa using hp)
            have hnext : g.Searched ((g.targets p).keys ++ rest) (seen.add p) := by
              intro a b ha hab
              rw [PathSet.contains_add, Bool.or_eq_true, decide_eq_true_eq] at ha ⊢
              rcases ha with hs | ha
              · rw [← g.hasDependency_congr hs (.refl b)] at hab
                obtain ⟨t, ht, hs⟩ := hasDependency_iff_target.mp hab
                exact .inr ⟨t, by simp [ht], hs⟩
              · rcases h a b ha hab with hb | ⟨r, hr, hs⟩
                · exact .inl (.inr hb)
                · rcases List.mem_cons.mp hr with rfl | hr
                  · exact .inl (.inl hs)
                  · exact .inr ⟨r, by simp [hr], hs⟩
            have hlength : ((g.targets p).keys ++ rest).length = (g.targets p).size + rest.length := by
              rw [List.length_append, PathMap.keys, List.length_map, PathMap.size]
            rw [visit, if_neg hp, ih (by omega) hnext, PathSet.contains_add, Bool.or_eq_true, decide_eq_true_eq]
            simp only [List.mem_append, List.mem_cons, or_and_right, exists_or, exists_eq_left,
              leads_iff (p := p), or_comm (a := p.Same q), or_assoc]

end DependencyGraph

end ImportCheck

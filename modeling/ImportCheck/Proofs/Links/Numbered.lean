import ImportCheck.Proofs.Links.Relation
import Mathlib.Data.List.Destutter
import Mathlib.Data.List.Sort

/-!
# The graph by numbers

The graph kept in two structures: a table that gives each place a number, and an arena that holds the path of each
number and the edges between numbers. The two grow in step, whatever is done to the graph. It gives the answers of
the graph that is kept by places, down to the spellings.
-/

namespace ImportCheck

/-- Numbers by place, paths and edges by number, and the known declarations. -/
structure NumberedGraph where
  numbers : PathMap Nat := ∅
  paths : List Path := []
  edges : List (Nat × Nat) := []
  declarations : PathSet := ∅

/-- Keeps the first of neighbours that are spellings of one place. -/
def Path.dedup (ps : List Path) : List Path := ps.destutter fun p q => ¬p.Same q

namespace NumberedGraph

instance : EmptyCollection NumberedGraph := ⟨{}⟩

/-- Enters a place in the table and in the arena. -/
def push (a : NumberedGraph) (p : Path) : NumberedGraph :=
  { a with numbers := a.numbers.insert p a.paths.length, paths := a.paths ++ [p] }

/-- The number of a place, which is entered if it is not known. -/
def node (a : NumberedGraph) (p : Path) : NumberedGraph × Nat :=
  match a.numbers.get? p with
  | some i => (a, i)
  | none => (a.push p, a.paths.length)

def updateEdge (a : NumberedGraph) (i j : Nat) : NumberedGraph :=
  { a with edges := if (i, j) ∈ a.edges then a.edges else a.edges ++ [(i, j)] }

def addDependency (a : NumberedGraph) (source target : Path) : NumberedGraph :=
  let (a, i) := a.node source
  let (a, j) := a.node target
  a.updateEdge i j

def removeEdges (a : NumberedGraph) (i : Nat) : NumberedGraph := { a with edges := a.edges.filter fun e => e.1 ≠ i }

def clearDependencies (a : NumberedGraph) (p : Path) : NumberedGraph :=
  match a.numbers.get? p with
  | some i => a.removeEdges i
  | none => a

def apply (a : NumberedGraph) : Change → NumberedGraph
  | .link p q => a.addDependency p q
  | .clear p => a.clearDependencies p
  | .register p => { a with declarations := a.declarations.add p }
  | .withdraw p => { a with declarations := a.declarations.erase p }

def ofChanges (changes : List Change) : NumberedGraph := changes.foldl apply ∅

def hasDependency (a : NumberedGraph) (source target : Path) : Bool :=
  match a.numbers.get? source, a.numbers.get? target with
  | some i, some j => (i, j) ∈ a.edges
  | _, _ => false

def successors (a : NumberedGraph) (i : Nat) : List Nat := (a.edges.filter fun e => e.1 = i).map (·.2)

def predecessors (a : NumberedGraph) (j : Nat) : List Nat := (a.edges.filter fun e => e.2 = j).map (·.1)

def pathsOf (a : NumberedGraph) (is : List Nat) : List Path := is.filterMap fun i => a.paths[i]?

def dependencies (a : NumberedGraph) (p : Path) : List Path :=
  match a.numbers.get? p with
  | some i => Path.dedup (Path.sort (a.pathsOf (a.successors i)))
  | none => []

def dependents (a : NumberedGraph) (q : Path) : List Path :=
  match a.numbers.get? q with
  | some j => Path.dedup (Path.sort (a.pathsOf (a.predecessors j)))
  | none => []

/-- The numbers in the order in which a search in depth comes to them. -/
def visit (a : NumberedGraph) : Nat → List Nat → List Nat → List Nat
  | 0, _, seen => seen
  | _ + 1, [], seen => seen
  | n + 1, i :: rest, seen =>
    if i ∈ seen then a.visit n rest seen else a.visit n (a.successors i ++ rest) (seen ++ [i])

/-- What a search finds after the place that it starts at. -/
def transitive (a : NumberedGraph) (p : Path) : List Path :=
  match a.numbers.get? p with
  | some i => Path.dedup (Path.sort (a.pathsOf (a.visit (a.edges.length + 1) [i] []).tail))
  | none => []

variable {a : NumberedGraph} {p q : Path} {i j n : Nat} {is : List Nat}

theorem mem_successors : j ∈ a.successors i ↔ (i, j) ∈ a.edges := by
  simp [successors]

theorem mem_predecessors : i ∈ a.predecessors j ↔ (i, j) ∈ a.edges := by
  simp [predecessors]

theorem mem_pathsOf : p ∈ a.pathsOf is ↔ ∃ i ∈ is, a.paths[i]? = some p := List.mem_filterMap

theorem hasDependency_iff : a.hasDependency p q = true ↔
    ∃ i j, a.numbers.get? p = some i ∧ a.numbers.get? q = some j ∧ (i, j) ∈ a.edges := by
  unfold hasDependency
  cases a.numbers.get? p <;> cases a.numbers.get? q <;> simp

theorem path_push : (a.push p).paths[i]? = some q ↔ a.paths[i]? = some q ∨ i = a.paths.length ∧ p = q := by
  rcases Nat.lt_trichotomy i a.paths.length with h | rfl | h
  · simp [push, List.getElem?_append_left h, Nat.ne_of_lt h]
  · simp [push]
  · have hbeyond : (a.paths ++ [p])[i]? = none := List.getElem?_eq_none (by simpa using h)
    simp [push, hbeyond, Nat.le_of_lt h, Nat.ne_of_gt h]

/-! ## The table and the arena -/

/-- The table gives a place the number at which the arena has it, and each edge is there once, between two numbers
of the arena. -/
structure InStep (a : NumberedGraph) : Prop where
  number_iff : ∀ p i, a.numbers.get? p = some i ↔ ∃ q, a.paths[i]? = some q ∧ q.Same p
  edges_known : ∀ e ∈ a.edges, e.1 < a.paths.length ∧ e.2 < a.paths.length
  edges_once : a.edges.Nodup

namespace InStep

theorem number_of_path (h : a.InStep) (hi : a.paths[i]? = some p) : a.numbers.get? p = some i :=
  (h.number_iff p i).mpr ⟨p, hi, .refl p⟩

theorem lt_length (h : a.InStep) (hi : a.numbers.get? p = some i) : i < a.paths.length := by
  obtain ⟨q, hq, -⟩ := (h.number_iff p i).mp hi
  exact (List.getElem?_eq_some_iff.mp hq).1

theorem push (h : a.InStep) (hp : a.numbers.get? p = none) : (a.push p).InStep where
  number_iff q i := by
    simp only [path_push]
    rw [NumberedGraph.push, PathMap.get?_insert]
    split
    · next hpq =>
      -- no path of the arena is of the place, or the table would know it
      have hnew : ∀ r, a.paths[i]? = some r → ¬r.Same q := by
        intro r hr hs
        have hnum := h.number_of_path hr
        rw [PathMap.get?_congr _ (hs.trans hpq.symm), hp] at hnum
        cases hnum
      constructor
      · rintro ⟨⟩
        exact ⟨p, .inr ⟨rfl, rfl⟩, hpq⟩
      · rintro ⟨r, hr | ⟨rfl, -⟩, hs⟩
        · exact absurd hs (hnew r hr)
        · rfl
    · next hpq =>
      rw [h.number_iff]
      constructor
      · exact fun ⟨r, hr, hs⟩ => ⟨r, .inl hr, hs⟩
      · rintro ⟨r, hr | ⟨-, rfl⟩, hs⟩
        · exact ⟨r, hr, hs⟩
        · exact absurd hs hpq
  edges_known e he := by
    have := h.edges_known e he
    simp only [NumberedGraph.push, List.length_append, List.length_singleton]
    omega
  edges_once := h.edges_once

theorem node (h : a.InStep) (p : Path) : (a.node p).1.InStep := by
  unfold NumberedGraph.node
  split
  · exact h
  · next hp => exact h.push hp

theorem updateEdge (h : a.InStep) (hi : i < a.paths.length) (hj : j < a.paths.length) :
    (a.updateEdge i j).InStep where
  number_iff := h.number_iff
  edges_known e he := by
    simp only [NumberedGraph.updateEdge] at he
    split at he
    · exact h.edges_known e he
    · rcases List.mem_append.mp he with he | he
      · exact h.edges_known e he
      · obtain rfl := List.mem_singleton.mp he
        exact ⟨hi, hj⟩
  edges_once := by
    simp only [NumberedGraph.updateEdge]
    split
    · exact h.edges_once
    · next hnew =>
      rw [← List.concat_eq_append]
      exact h.edges_once.concat hnew

theorem removeEdges (h : a.InStep) (i : Nat) : (a.removeEdges i).InStep :=
  ⟨h.number_iff, fun e he => h.edges_known e (List.mem_filter.mp he).1, h.edges_once.filter _⟩

end InStep

theorem number_node (a : NumberedGraph) (p : Path) : (a.node p).1.numbers.get? p = some (a.node p).2 := by
  unfold node
  split
  · next h => exact h
  · simp [push, PathMap.get?_insert, Path.Same.refl]

/-- A place keeps its number. -/
theorem number_node_of_known (h : a.numbers.get? q = some i) (p : Path) :
    (a.node p).1.numbers.get? q = some i := by
  unfold node
  split
  · exact h
  · next hp =>
    have hne : ¬p.Same q := by
      intro hs
      rw [PathMap.get?_congr _ hs, h] at hp
      cases hp
    simp [push, PathMap.get?_insert, hne, h]

theorem inStep_empty : (∅ : NumberedGraph).InStep where
  number_iff p i := by
    constructor
    · rintro ⟨⟩
    · rintro ⟨q, hq, -⟩
      cases hq
  edges_known e he := absurd he List.not_mem_nil
  edges_once := List.nodup_nil

theorem InStep.addDependency (h : a.InStep) (p q : Path) : (a.addDependency p q).InStep := by
  have hboth := (h.node p).node q
  exact hboth.updateEdge (hboth.lt_length (number_node_of_known (a.number_node p) q))
    (hboth.lt_length ((a.node p).1.number_node q))

theorem InStep.clearDependencies (h : a.InStep) (p : Path) : (a.clearDependencies p).InStep := by
  unfold NumberedGraph.clearDependencies
  split
  · next i _ => exact h.removeEdges i
  · exact h

theorem InStep.apply (h : a.InStep) (c : Change) : (a.apply c).InStep := by
  cases c with
  | link p q => exact h.addDependency p q
  | clear p => exact h.clearDependencies p
  | register p => exact ⟨h.number_iff, h.edges_known, h.edges_once⟩
  | withdraw p => exact ⟨h.number_iff, h.edges_known, h.edges_once⟩

end NumberedGraph

end ImportCheck

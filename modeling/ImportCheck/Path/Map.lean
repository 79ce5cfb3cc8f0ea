import ImportCheck.Path.Basic

/-!
Maps keyed by paths. Spellings of one place are one key; a key keeps the spelling and the position
that it was first inserted with, also when its value is replaced.
-/
namespace ImportCheck

/-- Values by path, in order of first insertion. -/
structure PathMap (α : Type) where
  entries : List (Path × α)
  distinct : (entries.map (·.1.components)).Nodup := by simp

namespace PathMap

variable {α β : Type}

def empty : PathMap α where
  entries := []

instance : EmptyCollection (PathMap α) := ⟨empty⟩

instance : Inhabited (PathMap α) := ⟨empty⟩

/-- The spelling that a place was first inserted with, and its value. -/
def find? (m : PathMap α) (p : Path) : Option (Path × α) :=
  m.entries.find? fun e => decide (e.1.Same p)

def get? (m : PathMap α) (p : Path) : Option α := (m.find? p).map (·.2)

def contains (m : PathMap α) (p : Path) : Bool := (m.find? p).isSome

def keys (m : PathMap α) : List Path := m.entries.map (·.1)

def size (m : PathMap α) : Nat := m.entries.length

/-- The first spelling of a place that the map knows, the given one of a place that it does not. -/
def spelling (m : PathMap α) (p : Path) : Path := ((m.find? p).map (·.1)).getD p

theorem find?_eq_none_iff {m : PathMap α} {p : Path} :
    m.find? p = none ↔ ∀ e ∈ m.entries, ¬e.1.Same p := by
  simp [find?, List.find?_eq_none]

/-- Puts a value in place of a known one and at the end otherwise. -/
def insert (m : PathMap α) (p : Path) (a : α) : PathMap α :=
  if h : m.find? p = none then
    { entries := m.entries ++ [(p, a)]
      distinct := by
        rw [List.map_append, List.nodup_append]
        refine ⟨m.distinct, by simp, ?_⟩
        intro x hx y hy
        simp only [List.map_cons, List.map_nil, List.mem_singleton] at hy
        obtain ⟨e, he, rfl⟩ := List.mem_map.mp hx
        intro hxy
        exact find?_eq_none_iff.mp h e he (hxy.trans hy) }
  else
    { entries := m.entries.map fun e => if e.1.Same p then (e.1, a) else e
      distinct := by
        rw [List.map_map]
        have hf : ((fun x : Path × α => x.1.components) ∘
            fun e : Path × α => if e.1.Same p then (e.1, a) else e) = fun x => x.1.components := by
          funext e
          simp only [Function.comp]
          split <;> rfl
        rw [hf]
        exact m.distinct }

def erase (m : PathMap α) (p : Path) : PathMap α where
  entries := m.entries.filter fun e => decide ¬e.1.Same p
  distinct := m.distinct.sublist (List.filter_sublist.map _)

def ofList (es : List (Path × α)) : PathMap α := es.foldl (fun m e => m.insert e.1 e.2) ∅

/-- The same keys with values computed from the old ones. -/
def mapValues (f : α → β) (m : PathMap α) : PathMap β where
  entries := m.entries.map fun e => (e.1, f e.2)
  distinct := by simpa [List.map_map, Function.comp_def] using m.distinct

end PathMap

/-- A set of places, each with its first spelling. -/
abbrev PathSet := PathMap Unit

namespace PathSet

def add (s : PathSet) (p : Path) : PathSet := if s.contains p then s else s.insert p ()

def ofList (ps : List Path) : PathSet := ps.foldl add ∅

/-- The members in component order. -/
def sorted (s : PathSet) : List Path := Path.sort s.keys

end PathSet

end ImportCheck

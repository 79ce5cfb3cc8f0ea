import ImportCheck.Path.Map

/-!
Which file depends on which, and which declarations were seen. A file's links are dropped and added
again whenever it is checked.
-/
namespace ImportCheck

/-- The places that have taken part in a link, each with the places it depends on, and the known
declarations. -/
structure DependencyGraph where
  links : PathMap PathSet := ∅
  declarations : PathSet := ∅

namespace DependencyGraph

instance : EmptyCollection DependencyGraph := ⟨{}⟩

/-- The targets of a place under their first spellings. -/
def targets (g : DependencyGraph) (p : Path) : PathSet := (g.links.get? p).getD ∅

/-- Takes a place into the graph. -/
def addNode (g : DependencyGraph) (p : Path) : DependencyGraph :=
  if g.links.contains p then g else { g with links := g.links.insert p ∅ }

/-- Links two places; a known link stays as it is. -/
def addDependency (g : DependencyGraph) (source target : Path) : DependencyGraph :=
  let g := (g.addNode source).addNode target
  let known := g.targets source
  { g with links := g.links.insert source (known.add (g.links.spelling target)) }

/-- Drops the links that start at a place. -/
def clearDependencies (g : DependencyGraph) (p : Path) : DependencyGraph :=
  if g.links.contains p then { g with links := g.links.insert p ∅ } else g

def hasDependency (g : DependencyGraph) (source target : Path) : Bool :=
  (g.targets source).contains target

def edgeCount (g : DependencyGraph) : Nat :=
  g.links.entries.foldr (fun e n => e.2.size + n) 0

/-- The direct dependencies of a place, in component order. -/
def dependencies (g : DependencyGraph) (p : Path) : List Path := (g.targets p).sorted

/-- The places that depend directly on a place, in component order. -/
def dependents (g : DependencyGraph) (p : Path) : List Path :=
  Path.sort ((g.links.entries.filter (·.2.contains p)).map (·.1))

/-- Walks the graph depth first. Every link is followed at most once, which bounds the steps. -/
def visit (g : DependencyGraph) : Nat → List Path → PathSet → PathSet
  | 0, _, seen => seen
  | _ + 1, [], seen => seen
  | n + 1, p :: rest, seen =>
    if seen.contains p then g.visit n rest seen
    else g.visit n ((g.targets p).keys ++ rest) (seen.add p)

/-- Every other place that a place depends on, directly or not, in component order. -/
def transitive (g : DependencyGraph) (p : Path) : List Path :=
  Path.sort (((g.visit (g.edgeCount + 1) [p] ∅).erase p).keys)

/-- Registers a declaration, and says whether it is new. -/
def addDeclaration (g : DependencyGraph) (p : Path) : DependencyGraph × Bool :=
  ({ g with declarations := g.declarations.add p }, !g.declarations.contains p)

def removeDeclaration (g : DependencyGraph) (p : Path) : DependencyGraph :=
  { g with declarations := g.declarations.erase p }

def hasDeclaration (g : DependencyGraph) (p : Path) : Bool := g.declarations.contains p

end DependencyGraph

end ImportCheck

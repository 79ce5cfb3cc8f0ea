import ImportCheck.Path.Parts

/-!
Normal paths. A path acts on the stack of directories that leads to the current one; its normal form
is the shortest path that acts alike. It is found without looking at any file system.
-/
namespace ImportCheck

/-- The directories that lead from the root to a place, innermost first. -/
abbrev DirStack := List Segment

namespace Component

/-- The root empties the stack, a name enters a directory, `..` leaves one if there is one to leave,
and `.` stays. -/
def act : Component → DirStack → DirStack
  | root, _ => []
  | here, stack => stack
  | up, stack => stack.tail
  | name s, stack => s :: stack

/-- How a component is spelled. -/
def segment : Component → Segment
  | root => .empty
  | here => .dot
  | up => .dotDot
  | name s => s

end Component

namespace Path

/-- Where a path leads from a directory. -/
def act (p : Path) (stack : DirStack) : DirStack :=
  p.components.foldl (fun stack c => c.act stack) stack

/-- Adds a component to normal components, which are held last one first. `..` takes back a name, is
lost at the root, and stays at the start of a relative path. -/
def absorb (done : List Component) : Component → List Component
  | .here => done
  | .root => [.root]
  | .name s => .name s :: done
  | .up =>
    match done with
    | .name _ :: before => before
    | .root :: _ => done
    | _ => .up :: done

def normalComponents (p : Path) : List Component := (p.components.foldl absorb []).reverse

/-- The path spelled with these components and nothing else. -/
def ofComponents : List Component → Path
  | [] => current
  | [.root] => root
  | c :: rest => { segments := c.segment :: rest.map (·.segment), nonempty := by simp }

def normalize (p : Path) : Path := ofComponents p.normalComponents

/-- The normal form of `relative` read from `base`, and from `cwd` where that is still relative. -/
def resolveAgainst (cwd base relative : Path) : Path :=
  let joined := base.join relative
  (if joined.IsAbsolute then joined else cwd.join joined).normalize

end Path

end ImportCheck

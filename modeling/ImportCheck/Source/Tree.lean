import ImportCheck.Path.Normal

/-!
Parsed files, as far as imports go, and the dependencies that a file names in them.
-/
namespace ImportCheck

inductive NodeKind
  | sourceFile
  | importEquals
  | importDeclaration
  | other
deriving DecidableEq

/-- What an import names: a module by its specifier, or an entity of the program. -/
inductive ModuleReference
  | external (specifier : String)
  | entity (name : String)
deriving DecidableEq

/-- A node with the file it was parsed from. Only the node of a whole file refers to other files. -/
inductive SourceTree
  | node (kind : NodeKind) (file : Path) (reference : Option ModuleReference)
      (references : List String) (children : List SourceTree)

instance : Inhabited SourceTree := ⟨.node .other default none [] []⟩

/-- A dependency that a file names: a module by its specifier, or a file that a reference leads to. -/
inductive Dependency
  | specifier (file : Path) (specifier : String)
  | reference (target : Path)
deriving DecidableEq

/-- The text under which a dependency is resolved. -/
def Dependency.text : Dependency → String
  | specifier _ s => s
  | reference target => target.toString

namespace SourceTree

/-- What a node adds by itself. References are read from the directory of the node's file, and from the
working directory where that is relative. -/
def contribution (cwd : Path) (kind : NodeKind) (file : Path) (reference : Option ModuleReference)
    (references : List String) : List Dependency :=
  match kind, reference with
  | .sourceFile, _ =>
    references.map fun r => .reference (Path.resolveAgainst cwd file.directory (Path.ofString r))
  | .other, _ => []
  | _, some (.external s) => [.specifier file s]
  | _, _ => []

mutual
/-- The dependencies in document order. -/
def dependencies (cwd : Path) : SourceTree → List Dependency
  | node kind file reference references children =>
    contribution cwd kind file reference references ++ dependenciesOf cwd children

def dependenciesOf (cwd : Path) : List SourceTree → List Dependency
  | [] => []
  | t :: ts => dependencies cwd t ++ dependenciesOf cwd ts
end

end SourceTree

end ImportCheck

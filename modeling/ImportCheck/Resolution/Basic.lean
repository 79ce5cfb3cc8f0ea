import ImportCheck.Event
import ImportCheck.Path.Parts

/-!
Resolvers, and the candidates that are put to them for a specifier.
-/
namespace ImportCheck

/-- A resolver's answer: after how many rounds it comes, and what is reported on the way. -/
structure Resolution where
  result : Except ResolverFault Path
  delay : Nat := 0
  reports : List Event := []

/-- A resolver finds the file that a specifier means in a directory. -/
structure Resolver where
  answer : Path → String → Resolution

namespace Specifier

/-- Whether the last component of the text carries an extension. -/
def hasExtension (specifier : String) : Bool := (Path.ofString specifier).extension?.isSome

def isDeclaration (specifier : String) : Bool :=
  DependencyKind.declarationSuffix.isSuffixOf specifier.toList

/-- The path of a specifier that needs no resolver: a declaration is taken as it stands. -/
def direct? (specifier : String) : Option Path :=
  if hasExtension specifier ∧ isDeclaration specifier then some (Path.ofString specifier) else none

/-- What is put to the resolver, in this order, until something is found: with no extension, a source, a
declaration, and the specifier itself. -/
def candidates (specifier : String) : String × List String :=
  if hasExtension specifier then (specifier, [])
  else (specifier ++ ".ts", [specifier ++ ".d.ts", specifier])

end Specifier

end ImportCheck

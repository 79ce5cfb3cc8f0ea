import ImportCheck.Resolution.Basic
import ImportCheck.Path.Map
import ImportCheck.Path.Normal

/-!
Resolvers given by tables.
-/
namespace ImportCheck

def notFound (directory : Path) (specifier : String) : ResolverFault where
  message := "Cannot find module '" ++ specifier ++ "' from '" ++ directory.toString ++ "'"

/-- Specifiers with targets of their own, and the files that relative specifiers can mean. -/
structure KnownFiles where
  aliases : List (String × Path)
  files : PathSet

namespace KnownFiles

def find (t : KnownFiles) (directory : Path) (specifier : String) : Except ResolverFault Path :=
  match t.aliases.find? (·.1 == specifier) with
  | some (_, target) => .ok target
  | none =>
    let target := (directory.join (Path.ofString specifier)).normalize
    if t.files.contains target then .ok target else .error (notFound directory specifier)

def resolver (t : KnownFiles) : Resolver where
  answer directory specifier := { result := t.find directory specifier }

end KnownFiles

/-- An answer that is written down. A row without a directory answers for all of them. -/
structure ScriptedAnswer where
  directory : Option String
  specifier : String
  result : Except ResolverFault Path
  delay : Nat

namespace ScriptedAnswer

def Fits (row : ScriptedAnswer) (directory : Path) (specifier : String) : Prop :=
  row.specifier = specifier ∧ row.directory.getD directory.toString = directory.toString

instance (row : ScriptedAnswer) (directory : Path) (specifier : String) :
    Decidable (row.Fits directory specifier) := inferInstanceAs (Decidable (_ ∧ _))

/-- The first row that fits answers. -/
def resolver (rows : List ScriptedAnswer) : Resolver where
  answer directory specifier :=
    match rows.find? fun row => decide (row.Fits directory specifier) with
    | some row => { result := row.result, delay := row.delay }
    | none => { result := .error { message := "Cannot resolve '" ++ specifier ++ "'" } }

end ScriptedAnswer

end ImportCheck

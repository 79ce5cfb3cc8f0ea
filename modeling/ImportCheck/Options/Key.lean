import ImportCheck.Text.Search

/-!
Spellings of compiler option names. An option may be written in any case and with underscores between
its words; the canonical key is the listed name, or else the words in camel case.
-/
namespace ImportCheck.OptionKey

/-- The options that the checking service knows by name. -/
def known : List String := [
  "target", "module", "sourceMap", "verbose", "allowJs", "allowSyntheticDefaultImports", "baseUrl",
  "declaration", "emitDecoratorMetadata", "esModuleInterop", "experimentalDecorators",
  "inlineSourceMap", "inlineSources", "isolatedModules", "jsx", "lib", "moduleResolution",
  "noEmitOnError", "noImplicitAny", "noImplicitReturns", "noLib", "noResolve", "noUnusedLocals",
  "noUnusedParameters", "outDir", "preserveConstEnums", "removeComments", "rootDir", "skipLibCheck",
  "strict", "strictNullChecks", "suppressImplicitAnyIndexErrors"]

/-- A key without underscores and in lower case; only ASCII letters have a case here. -/
def fold (cs : List Char) : List Char := (cs.filter (· != '_')).map Char.toLower

def words (cs : List Char) : List (List Char) := (Text.splitOn '_' cs).filter (· != [])

def capitalize : List Char → List Char
  | [] => []
  | c :: cs => c.toUpper :: cs

/-- The words in lower case, each but the first with a capital. -/
def camelCase (cs : List Char) : List Char :=
  match (words cs).map (·.map Char.toLower) with
  | [] => []
  | first :: rest => first ++ rest.flatMap capitalize

def canonicalChars (cs : List Char) : List Char :=
  match known.find? fun name => fold name.toList == fold cs with
  | some name => name.toList
  | none => if cs.contains '_' then camelCase cs else cs

/-- The spelling under which an option is stored. -/
def canonical (key : String) : String := String.ofList (canonicalChars key.toList)

end ImportCheck.OptionKey

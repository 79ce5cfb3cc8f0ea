import ImportCheck.Options.Basic
import ImportCheck.Source.Lines
import ImportCheck.Store
import ImportCheck.Diagnostic

/-!
The checking service: it parses tracked files, and builds programs that emit them. A parse is kept as long
as the file has the version that was parsed, and a program keeps the texts of the moment it was built.
-/
namespace ImportCheck

/-- A file that an emission produces. -/
structure OutputFile where
  name : Path
  byteOrderMark : Bool
  text : String
deriving DecidableEq

/-- All tracked files, with what the service was told to say about them. -/
structure Program where
  sources : PathMap String
  sourceMap : Bool
  diagnostics : List Diagnostic
  skipsEmit : Bool

namespace Program

def jsExtension : Segment where
  chars := ['j', 's']

def mapExtension : Segment where
  chars := ['j', 's', '.', 'm', 'a', 'p']

def fileName (p : Path) : String := (p.fileName?.map fun s => String.ofList s.chars).getD ""

/-- The outputs for a file: its text under the name of a compiled module, and the map that links back to
the source, when it is wanted. A file that the program does not hold is taken for empty. -/
def outputs (program : Program) (file : Path) : List OutputFile :=
  if program.skipsEmit then []
  else
    let text := (program.sources.get? file).getD ""
    let name := file.withExtension jsExtension
    if program.sourceMap then
      let map := file.withExtension mapExtension
      [{ name, byteOrderMark := false,
         text := text ++ "\n//# sourceMappingURL=" ++ fileName map },
       { name := map, byteOrderMark := false,
         text := "\x7b\"version\":3,\"file\":\"" ++ fileName name ++ "\"\x7d" }]
    else [{ name, byteOrderMark := false, text }]

end Program

/-- The service and what it has done. The diagnostics and the refusal to emit are what programs built from
now on will answer. -/
structure Service where
  parsed : PathMap (Nat × SourceTree) := ∅
  created : Nat := 1
  parses : Nat := 0
  programs : Nat := 0
  warmups : List Path := []
  diagnostics : List Diagnostic := []
  skipsEmit : Bool := false

namespace Service

/-- The tree of a tracked file at its version. -/
def sourceTree (service : Service) (files : FileStore) (file : Path) : Service × Option SourceTree :=
  match files.get? file with
  | none => (service, none)
  | some record =>
    let fresh (_ : Unit) : Service × Option SourceTree :=
      let tree := SourceTree.ofText file record.text
      ({ service with
          parsed := service.parsed.insert file (record.version, tree)
          parses := service.parses + 1 }, some tree)
    match service.parsed.get? file with
    | some (version, tree) => if version = record.version then (service, some tree) else fresh ()
    | none => fresh ()

def buildProgram (service : Service) (files : FileStore) (options : CompilerOptions) :
    Service × Program :=
  ({ service with programs := service.programs + 1 },
   { sources := files.records.mapValues (·.text)
     sourceMap := options.sourceMap
     diagnostics := service.diagnostics
     skipsEmit := service.skipsEmit })

def warmUp (service : Service) (file : Path) : Service :=
  { service with warmups := service.warmups ++ [file] }

/-- A new service in place of the old one, with no parses; it is told the same. -/
def renew (service : Service) : Service :=
  { service with parsed := ∅, created := service.created + 1 }

end Service

end ImportCheck

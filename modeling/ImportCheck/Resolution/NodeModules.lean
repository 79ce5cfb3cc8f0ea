import ImportCheck.Disk.Directory
import ImportCheck.Resolution.Package
import ImportCheck.Resolution.Table

/-!
Resolution on a disk of directories. A path-like specifier means a file, or a directory with an entry; any
other names a package, which is looked for in the `node_modules` of every directory from the nearest
outwards.
-/
namespace ImportCheck.NodeModules

/-- A file that was found, if any, and the reports of looking for it. -/
abbrev Search := List Event × Option Path

def Search.orElse (first : Search) (second : Unit → Search) : Search :=
  match first with
  | (reports, some p) => (reports, some p)
  | (reports, none) =>
    let (more, found) := second ()
    (reports ++ more, found)

def indexFiles : List Path := [Path.ofString "index.ts", Path.ofString "index.d.ts"]

def manifestName : Path := Path.ofString "package.json"

def packageDirectory : Path := Path.ofString "node_modules"

/-- The file that the manifest of a directory declares. A manifest that cannot be read as text is as good
as none. -/
def manifestEntry (v : Volume) (directory : Path) : Search :=
  let manifest := directory.join manifestName
  match v.read manifest with
  | .error _ => ([], none)
  | .ok text =>
    match PackageManifest.ofText? text with
    | none => ([.manifestIgnored manifest], none)
    | some m =>
      match m.entry? with
      | none => ([], none)
      | some entry =>
        let target := (directory.join (Path.ofString entry)).normalize
        if v.isFile target then ([], some target) else ([.entryMissing target], none)

/-- The first index file of a directory. -/
def indexEntry (v : Volume) (directory : Path) : Search :=
  ([], (indexFiles.map directory.join).find? (v.isFile ·))

/-- The file that a path means: the file itself, or the entry of the directory. -/
def ofPath (v : Volume) (target : Path) : Search :=
  if v.isFile target then ([], some target)
  else if v.isDirectory target then
    (manifestEntry v target).orElse fun _ => indexEntry v target
  else ([], none)

/-- Looks for a package in each of some directories. -/
def ofPackage (v : Volume) (specifier : Path) : List Path → Search
  | [] => ([], none)
  | ancestor :: outer =>
    let candidate := (ancestor.join packageDirectory).join specifier
    let (reports, found) := ofPath v candidate
    Search.orElse (.probing candidate :: reports, found) fun _ => ofPackage v specifier outer

/-- Whether a specifier is read as a path and not as the name of a package. -/
def isPathLike (specifier : String) : Bool :=
  let cs := specifier.toList
  "./".toList.isPrefixOf cs || "../".toList.isPrefixOf cs || specifier == "." ||
    specifier == ".." || decide (Path.ofString specifier).IsAbsolute

def search (v : Volume) (directory : Path) (specifier : String) : Search :=
  let p := Path.ofString specifier
  if isPathLike specifier then ofPath v (directory.join p).normalize
  else ofPackage v p directory.ancestors

def find (v : Volume) (directory : Path) (specifier : String) : Except ResolverFault Path :=
  match (search v directory specifier).2 with
  | some p => .ok p
  | none => .error (notFound directory specifier)

def resolver (v : Volume) : Resolver where
  answer directory specifier :=
    { result := find v directory specifier
      reports := (search v directory specifier).1 }

end ImportCheck.NodeModules

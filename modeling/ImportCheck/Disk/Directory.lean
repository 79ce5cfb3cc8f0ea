import ImportCheck.Disk.Basic
import ImportCheck.Path.Normal
import ImportCheck.Text.Snapshot

/-!
A disk of directories without links. A path is followed segment by segment, and each segment is read in
the directory that the ones before it lead to.
-/
namespace ImportCheck

inductive FileNode
  | file (content : ByteArray)
  | directory (entries : List (Segment × FileNode))

namespace FileNode

def emptyDirectory : FileNode := directory []

def child? (name : Segment) : FileNode → Option FileNode
  | file _ => none
  | directory entries => (entries.find? (·.1 == name)).map (·.2)

/-- The node that names lead to. -/
def find? : FileNode → List Segment → Option FileNode
  | node, [] => some node
  | node, name :: names => (node.child? name).bind (·.find? names)

/-- Puts a node where names lead to; directories on the way come into being, and files on the way give
way to directories. -/
def put (new : FileNode) : List Segment → FileNode → FileNode
  | [], _ => new
  | name :: names, old =>
    let entries := match old with
      | directory entries => entries
      | file _ => []
    let inner := ((old.child? name).getD emptyDirectory)
    directory ((name, put new names inner) :: entries.filter (·.1 != name))

def remove : List Segment → FileNode → FileNode
  | [], node => node
  | [name], directory entries => directory (entries.filter (·.1 != name))
  | name :: names, directory entries =>
    directory (entries.map fun e => if e.1 == name then (e.1, remove names e.2) else e)
  | _, file content => file content

/-- The most bytes that a name may have. -/
def longestName : Nat := 255

/-- The most bytes that a path may have. -/
def longestPath : Nat := 4095

def absent : IoFault := ⟨.notFound, some "No such file or directory (os error 2)"⟩

def tooLong : IoFault := ⟨.invalidFilename, some "File name too long (os error 36)"⟩

/-- The names that lead to where segments lead from a directory, innermost first. Every segment but the
first is read in a directory, also an empty one. A name that is too long is refused only where it would be
looked up. -/
def follow (root : FileNode) : DirStack → List Segment → Except IoFault DirStack
  | stack, [] => .ok stack
  | stack, s :: rest =>
    match root.find? stack.reverse with
    | none => .error absent
    | some (file _) => .error ⟨.notADirectory, some "Not a directory (os error 20)"⟩
    | some (directory entries) =>
      if s.Blank then follow root stack rest
      else if s = .dotDot then follow root stack.tail rest
      else if longestName < Text.byteCount s.chars then .error tooLong
      else if (entries.find? (·.1 == s)).isSome then follow root (s :: stack) rest
      else .error absent

/-- The node that a path leads to. Relative paths start at the root. -/
def locate (root : FileNode) (p : Path) : Except IoFault FileNode :=
  if p.chars.contains '\x00' then
    .error ⟨.invalidInput, some "file name contained an unexpected NUL byte"⟩
  else if p = .blank then .error absent
  else if longestPath < Text.byteCount p.chars then .error tooLong
  else
    match follow root [] p.segments with
    | .error e => .error e
    | .ok stack => .ok ((root.find? stack.reverse).getD emptyDirectory)

def isFile (root : FileNode) (p : Path) : Bool :=
  match root.locate p with
  | .ok (file _) => true
  | _ => false

def isDirectory (root : FileNode) (p : Path) : Bool :=
  match root.locate p with
  | .ok (directory _) => true
  | _ => false

/-- The text of a file. -/
def read (root : FileNode) (p : Path) : Except IoFault String :=
  match root.locate p with
  | .error e => .error e
  | .ok (directory _) => .error ⟨.isADirectory, some "Is a directory (os error 21)"⟩
  | .ok (file content) =>
    match String.fromUTF8? content with
    | some text => .ok text
    | none => .error ⟨.invalidData, some "stream did not contain valid UTF-8"⟩

def disk (root : FileNode) : Disk where
  read := root.read
  delay _ := 0

def volume (root : FileNode) : Volume where
  isFile := root.isFile
  isDirectory := root.isDirectory
  read := root.read

instance : Coe FileNode Volume := ⟨volume⟩

/-- The names that segments lead to from a directory, innermost first, and the disk with every directory
that they enter on their way, also one that they leave again. -/
def enter : FileNode → DirStack → List Segment → FileNode × DirStack
  | root, stack, [] => (root, stack)
  | root, stack, s :: rest =>
    if s.Blank then enter root stack rest
    else if s = .dotDot then enter root stack.tail rest
    else
      let stack := s :: stack
      match root.find? stack.reverse with
      | some (directory _) => enter root stack rest
      | _ => enter (put emptyDirectory stack.reverse root) stack rest

/-- Makes a directory and those on the way to it, and leaves one that is there. -/
def putDirectory (root : FileNode) (p : Path) : FileNode := (enter root [] p.segments).1

/-- Writes a file, and makes the directories on the way to it. A path whose last segment is no name stays
without a file. -/
def putFile (root : FileNode) (p : Path) (content : ByteArray) : FileNode :=
  let (root, stack) := enter root [] p.segments.dropLast
  let name := p.segments.getLast p.nonempty
  if name.Blank ∨ name = .dotDot then root else put (file content) (name :: stack).reverse root

/-- Removes the file that a path leads to, if there is one. -/
def dropFile (root : FileNode) (p : Path) : FileNode :=
  match root.follow [] p.segments with
  | .ok stack => if root.isFile p then remove stack.reverse root else root
  | .error _ => root

end FileNode

end ImportCheck

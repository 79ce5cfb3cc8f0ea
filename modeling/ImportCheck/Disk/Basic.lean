import ImportCheck.Failure
import ImportCheck.Path.Map

/-!
Disks as a session sees them: what a read finds now, and for how many rounds it keeps its reader waiting. One who
searches a disk sees what there is: regular files, directories, and their texts.
-/
namespace ImportCheck

structure Disk where
  read : Path → Except IoFault String
  delay : Path → Nat

/-- A disk as it is searched. Links are followed, and what cannot be looked at is not there. -/
structure Volume where
  isFile : Path → Bool
  isDirectory : Path → Bool
  read : Path → Except IoFault String

/-- Texts by path. Every read waits one round. -/
abbrev MemoryDisk := PathMap String

def MemoryDisk.disk (d : MemoryDisk) : Disk where
  read p :=
    match d.get? p with
    | some text => .ok text
    | none => .error { kind := .notFound, detail := some ("no such file: " ++ p.toString) }
  delay _ := 1

/-- A file that a script puts on the disk: its text, or the fault of reading it. -/
structure ScriptedFile where
  content : Except IoFault String
  delay : Nat := 0

abbrev ScriptedDisk := PathMap ScriptedFile

def ScriptedDisk.disk (d : ScriptedDisk) : Disk where
  read p :=
    match d.get? p with
    | some f => f.content
    | none => .error { kind := .notFound, detail := some ("absent: " ++ p.toString) }
  delay p := ((d.get? p).map (·.delay)).getD 0

end ImportCheck

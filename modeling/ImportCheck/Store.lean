import ImportCheck.Path.Map

/-!
Versioned texts of the files that a session tracks. A parse is remembered by path and version, so a
new text needs a new version.
-/
namespace ImportCheck

/-- The text of a tracked file, under the spelling of its latest seeding. Versions are counted without a bound: a count
of 64 bits would come back to zero after 2^64 counted changes of one file, which is out of reach. -/
structure SourceRecord where
  path : Path
  text : String
  version : Nat
deriving DecidableEq

/-- Tracked files in the order they were first seen. -/
structure FileStore where
  records : PathMap SourceRecord := ∅

namespace FileStore

instance : EmptyCollection FileStore := ⟨{}⟩

def get? (s : FileStore) (p : Path) : Option SourceRecord := s.records.get? p

def version? (s : FileStore) (p : Path) : Option Nat := (s.get? p).map (·.version)

def text? (s : FileStore) (p : Path) : Option String := (s.get? p).map (·.text)

def contains (s : FileStore) (p : Path) : Bool := s.records.contains p

def fileNames (s : FileStore) : List Path := s.records.keys

def size (s : FileStore) : Nat := s.records.size

/-- Seeds a file at version 0, whatever is known of it. -/
def add (s : FileStore) (p : Path) (text : String) : FileStore :=
  { records := s.records.insert p { path := p, text, version := 0 } }

/-- Stores a text, and says whether that counts as a change. A checked update with the stored text
does not. -/
def update (s : FileStore) (p : Path) (text : String) (checked : Bool) : FileStore × Bool :=
  match s.get? p with
  | none => (s.add p text, true)
  | some r =>
    if checked ∧ r.text = text then (s, false)
    else ({ records := s.records.insert p { r with text, version := r.version + 1 } }, true)

end FileStore

end ImportCheck

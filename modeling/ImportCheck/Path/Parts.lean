import ImportCheck.Path.Basic

/-!
Joining paths and taking them apart: parent and directory, file name and extension. All of it is
lexical; no file system is asked.
-/
namespace ImportCheck

namespace Segment

/-- The part before the last point and the part after it. A name without a point, one whose only
point comes first, and `..` have no extension. -/
def extension? (s : Segment) : Option (List Char × List Char) :=
  let back := s.chars.reverse
  match back.dropWhile (· != '.') with
  | [] => none
  | _ :: stem =>
    if stem = [] ∨ s = dotDot then none
    else some (stem.reverse, (back.takeWhile (· != '.')).reverse)

/-- The segment with another extension in place of its own, or with one added. -/
def withExtension (s : Segment) (extension : Segment) : Segment where
  chars := (s.extension?.elim s.chars (·.1)) ++ '.' :: extension.chars
  no_slash := by
    have hs : '/' ∉ s.extension?.elim s.chars (·.1) := by
      unfold extension?
      simp only
      split
      · simpa using s.no_slash
      · rename_i stem h
        split
        · simpa using s.no_slash
        · intro hm
          have hm' : '/' ∈ s.chars.reverse.dropWhile (· != '.') := by
            rw [h]
            exact List.mem_cons_of_mem _ (by simpa using hm)
          exact s.no_slash (by simpa using (List.dropWhile_sublist _).mem hm')
    simp [hs, extension.no_slash]

end Segment

namespace Path

/-- The path with nothing in it. -/
def blank : Path where
  segments := [.empty]
  nonempty := by simp

def root : Path where
  segments := [.empty, .empty]
  nonempty := by simp

/-- The directory that relative paths start from. -/
def current : Path where
  segments := [.dot]
  nonempty := by simp

def ofSegment (s : Segment) : Path where
  segments := [s]
  nonempty := by simp

/-- The second path read from the first. An absolute path stands for itself. -/
def join (base relative : Path) : Path :=
  if relative.IsAbsolute ∨ base = blank then relative
  else if base.segments.getLast base.nonempty = .empty then
    { segments := base.segments.dropLast ++ relative.segments
      nonempty := by simp [relative.nonempty] }
  else
    { segments := base.segments ++ relative.segments
      nonempty := by simp [relative.nonempty] }

/-- The path written in front of later segments; the first segment alone, when it is empty, is the root. -/
def ofFirst (s : Segment) (later : List Segment) : Path :=
  if s = .empty ∧ later = [] then root
  else { segments := s :: later, nonempty := by simp }

/-- The path cut at its last component: the segments before that component, and its segment. -/
def splitLast (p : Path) : Option (Option (Segment × List Segment) × Segment) :=
  match p.segments with
  | [] => none
  | s :: later =>
    match later.reverse.dropWhile (decide ·.Blank) with
    | last :: before => some (some (s, before.reverse), last)
    | [] => if s = .empty then none else some (none, s)

/-- Segments without the blank ones at their end. -/
def trimEnd (later : List Segment) : List Segment :=
  (later.reverse.dropWhile (decide ·.Blank)).reverse

/-- The path without its last component. The root and the blank path have no parent. -/
def parent? (p : Path) : Option Path :=
  p.splitLast.map fun
    | (some (s, later), _) => ofFirst s (trimEnd later)
    | (none, _) => blank

/-- The directory that holds a file, `.` for a bare file name. -/
def directory (file : Path) : Path :=
  match file.parent? with
  | some d => if d = blank then current else d
  | none => current

/-- A path, its parent, the parent of that, and so on: nearest first. The bound is the number of
segments, which every parent has fewer of. -/
def ancestorsUpTo : Nat → Path → List Path
  | 0, p => [p]
  | n + 1, p => p :: (p.parent?.elim [] (ancestorsUpTo n))

def ancestors (p : Path) : List Path := ancestorsUpTo (p.segments.length + 1) p

/-- The last component, when it is a name. -/
def fileName? (p : Path) : Option Segment :=
  p.splitLast.bind fun (_, s) => if s = .dot ∨ s = .dotDot then none else some s

/-- The extension of the file name. A final point gives the empty extension. -/
def extension? (p : Path) : Option (List Char) := p.fileName?.bind (·.extension?.map (·.2))

/-- The path with another extension of its file name, and nothing after the name; a path without a file
name stays as it is. Where `..` is left when the old extension has gone from the end of the path, as for
`..ts`, there is no name any more that could take the new one. -/
def withExtension (p : Path) (extension : Segment) : Path :=
  match p.splitLast, p.fileName? with
  | some (before, _), some name =>
    let lone := name.extension?.map (·.1) = some ['.'] ∧ p.segments.getLast p.nonempty = name
    let name := if lone then .dotDot else name.withExtension extension
    match before with
    | some (s, later) => { segments := s :: later ++ [name], nonempty := by simp }
    | none => ofSegment name
  | _, _ => p

end Path

/-- How a dependency is treated: a declaration is checked once for the whole session, a compiled
module is trusted, and a source is linked and checked. -/
inductive DependencyKind
  | declaration
  | compiled
  | source
deriving DecidableEq

namespace DependencyKind

def declarationSuffix : List Char := ".d.ts".toList

def compiledSuffix : List Char := ".js".toList

/-- The kind is read off the end of the text. -/
def ofChars (cs : List Char) : DependencyKind :=
  if declarationSuffix.isSuffixOf cs then declaration
  else if compiledSuffix.isSuffixOf cs then compiled
  else source

end DependencyKind

def Path.kind (p : Path) : DependencyKind := .ofChars p.chars

end ImportCheck

/-!
Slash-separated paths. A path keeps its exact spelling as the list of its segments; its components
leave out repeated and trailing slashes and every `.` that is not the first segment. Two paths name
the same place when their components agree, and paths are ordered component by component.
-/
namespace ImportCheck

/-- What stands between two slashes of a path. -/
structure Segment where
  chars : List Char
  no_slash : '/' ∉ chars := by decide
deriving DecidableEq

namespace Segment

def empty : Segment where
  chars := []

def dot : Segment where
  chars := ['.']

def dotDot : Segment where
  chars := ['.', '.']

instance : Inhabited Segment := ⟨empty⟩

def cons (c : Char) (s : Segment) (h : c ≠ '/') : Segment where
  chars := c :: s.chars
  no_slash := by
    intro hm
    rcases List.mem_cons.mp hm with h' | h'
    · exact h h'.symm
    · exact s.no_slash h'

/-- A segment that names nothing unless it comes first. -/
def Blank (s : Segment) : Prop := s = empty ∨ s = dot

instance (s : Segment) : Decidable s.Blank := inferInstanceAs (Decidable (_ ∨ _))

end Segment

/-- A path as it is spelled. -/
structure Path where
  segments : List Segment
  nonempty : segments ≠ []
deriving DecidableEq

namespace Path

/-- The first segment of a text and the segments after it. -/
def cut : List Char → Segment × List Segment
  | [] => (.empty, [])
  | c :: cs =>
    let (s, rest) := cut cs
    if h : c = '/' then (.empty, s :: rest) else (s.cons c h, rest)

def ofChars (cs : List Char) : Path where
  segments := (cut cs).1 :: (cut cs).2
  nonempty := by simp

def ofString (s : String) : Path := ofChars s.toList

/-- Segments written with a slash between neighbours. -/
def spell : List Segment → List Char
  | [] => []
  | [s] => s.chars
  | s :: t :: rest => s.chars ++ '/' :: spell (t :: rest)

def chars (p : Path) : List Char := spell p.segments

protected def toString (p : Path) : String := String.ofList p.chars

instance : ToString Path := ⟨Path.toString⟩

instance : Inhabited Path := ⟨ofChars []⟩

theorem spell_cons_of_ne_nil (s : Segment) {rest : List Segment} (h : rest ≠ []) :
    spell (s :: rest) = s.chars ++ '/' :: spell rest := by
  cases rest with
  | nil => exact absurd rfl h
  | cons t rest => rfl

theorem spell_cut (cs : List Char) : spell ((cut cs).1 :: (cut cs).2) = cs := by
  induction cs with
  | nil => rfl
  | cons c cs ih =>
    by_cases h : c = '/'
    · subst h
      simp [cut, spell_cons_of_ne_nil, Segment.empty, ih]
    · cases hr : (cut cs).2 with
      | nil => simp [cut, h, hr, spell, Segment.cons] at ih ⊢; exact ih
      | cons t rest => simp [cut, h, hr, spell, Segment.cons] at ih ⊢; exact ih

theorem chars_ofChars (cs : List Char) : (ofChars cs).chars = cs := spell_cut cs

theorem cut_segment (s : Segment) : cut s.chars = (s, []) := by
  obtain ⟨cs, h⟩ := s
  induction cs with
  | nil => rfl
  | cons c cs ih =>
    have hc : c ≠ '/' := fun e => h (by simp [e])
    have hcs : '/' ∉ cs := fun e => h (List.mem_cons_of_mem _ e)
    simp [cut, ih hcs, hc, Segment.cons]

theorem cut_append_slash (s : Segment) (cs : List Char) :
    cut (s.chars ++ '/' :: cs) = (s, (cut cs).1 :: (cut cs).2) := by
  obtain ⟨ds, h⟩ := s
  induction ds with
  | nil => simp [cut, Segment.empty]
  | cons d ds ih =>
    have hd : d ≠ '/' := fun e => h (by simp [e])
    have hds : '/' ∉ ds := fun e => h (List.mem_cons_of_mem _ e)
    simp [cut, ih hds, hd, Segment.cons]

theorem cut_spell (s : Segment) (rest : List Segment) : cut (spell (s :: rest)) = (s, rest) := by
  induction rest generalizing s with
  | nil => exact cut_segment s
  | cons t rest ih =>
    rw [spell_cons_of_ne_nil s (by simp), cut_append_slash, ih t]

/-- The spelling of a path reads back as the path. -/
theorem ofChars_chars (p : Path) : ofChars p.chars = p := by
  obtain ⟨segments, h⟩ := p
  cases segments with
  | nil => exact absurd rfl h
  | cons s rest => simp [ofChars, chars, cut_spell]

theorem ofString_toString (p : Path) : ofString p.toString = p := by
  simp [ofString, Path.toString, ofChars_chars]

theorem toString_ofString (s : String) : (ofString s).toString = s := by
  simp [ofString, Path.toString, chars_ofChars]

end Path

/-- One step of the way that a path describes. -/
inductive Component
  | root
  | here
  | up
  | name (segment : Segment)
deriving DecidableEq

namespace Component

/-- The root comes first, then `.`, then `..`, then the names. -/
def rank : Component → Nat
  | root => 0
  | here => 1
  | up => 2
  | name _ => 3

def label : Component → List Char
  | name s => s.chars
  | _ => []

protected def compare (a b : Component) : Ordering :=
  (Ord.compare a.rank b.rank).then (Ord.compare a.label b.label)

instance : Ord Component := ⟨Component.compare⟩

/-- The component of a segment that is not the first. -/
def ofLater (s : Segment) : Option Component :=
  if s.Blank then none else if s = .dotDot then some up else some (name s)

/-- The component of the first segment of a path with more segments. -/
def ofFirst (s : Segment) : Component :=
  if s = .empty then root else if s = .dot then here else if s = .dotDot then up else name s

end Component

namespace Path

def components (p : Path) : List Component :=
  match p.segments with
  | [] => []
  | [s] => if s = .empty then [] else [Component.ofFirst s]
  | s :: rest => Component.ofFirst s :: rest.filterMap Component.ofLater

/-- Two spellings of one place. -/
def Same (p q : Path) : Prop := p.components = q.components

instance (p q : Path) : Decidable (p.Same q) := inferInstanceAs (Decidable (_ = _))

protected def compare (p q : Path) : Ordering := Ord.compare p.components q.components

/-- Paths in component order. -/
def sort (ps : List Path) : List Path := ps.mergeSort fun p q => (p.compare q).isLE

def IsAbsolute (p : Path) : Prop := p.components.head? = some .root

instance (p : Path) : Decidable p.IsAbsolute := inferInstanceAs (Decidable (_ = _))

theorem Same.refl (p : Path) : p.Same p := rfl

theorem Same.symm {p q : Path} (h : p.Same q) : q.Same p := Eq.symm h

theorem Same.trans {p q r : Path} (h : p.Same q) (h' : q.Same r) : p.Same r := Eq.trans h h'

end Path

end ImportCheck

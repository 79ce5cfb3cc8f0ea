import ImportCheck.Proofs.Path.Ancestors
import ImportCheck.Proofs.Resolution.Manifest
import ImportCheck.Proofs.Resolution.NodeModules
import Mathlib.Data.List.Forall2

/-!
# The order of a search

A path means one target, and the name of a package means one in every directory from the nearest outwards. A target is
entered by itself, and a directory also by what its manifest declares, then by its index files. The answer is the first
of these places that is a file: nothing that goes wrong at one place hides a later one, and no later one comes before
it.
-/

namespace ImportCheck

/-- Only the slash before the first name makes a path absolute. -/
theorem Path.isAbsolute_ofString_iff {s : String} : (Path.ofString s).IsAbsolute ↔ ['/'] <+: s.toList := by
  unfold Path.ofString IsAbsolute
  cases s.toList with
  | nil => decide
  | cons c cs =>
      obtain ⟨first, rest, hcut⟩ : ∃ first rest, cut cs = (first, rest) := ⟨_, _, rfl⟩
      by_cases hc : c = '/'
      · subst hc
        simp [ofChars, cut, hcut, components, Component.ofFirst]
      · have hempty : first.cons c hc ≠ .empty := by simp [Segment.cons, Segment.empty]
        have hfirst : Component.ofFirst (first.cons c hc) ≠ .root := by
          unfold Component.ofFirst
          rw [if_neg hempty]
          split_ifs <;> simp
        cases rest <;> simp [ofChars, cut, hcut, hc, components, hfirst, hempty, Ne.symm hc]

namespace NodeModules

variable {v : Volume} {directory target p : Path} {specifier : String} {places : List Path}

/-! ## Places -/

/-- A specifier that starts at a directory that it names, and not with the name of a package. -/
def PathLike (specifier : String) : Prop :=
  specifier = "." ∨ specifier = ".." ∨ ∃ start ∈ ["./", "../", "/"], start.toList <+: specifier.toList

/-- The manifest in a directory declares an entry. One that cannot be read, or is no manifest, declares none. -/
def Declares (v : Volume) (directory p : Path) : Prop :=
  ∃ text j m entry, v.read (directory.join (.ofString "package.json")) = .ok text ∧ Json.read? text = some j ∧
    PackageManifest.Describes j m ∧ PackageManifest.Enters m entry ∧
    p = (directory.join (.ofString entry)).normalize

/-- The places that a target is entered by, in their order. -/
inductive EnteredBy (v : Volume) (target : Path) : List Path → Prop
  | itself (h : ¬v.isDirectory target) : EnteredBy v target [target]
  | declared {p : Path} (h : v.isDirectory target) (hp : Declares v target p) :
      EnteredBy v target [target, p, target.join (.ofString "index.ts"), target.join (.ofString "index.d.ts")]
  | undeclared (h : v.isDirectory target) (hno : ∀ p, ¬Declares v target p) :
      EnteredBy v target [target, target.join (.ofString "index.ts"), target.join (.ofString "index.d.ts")]

/-- The targets of a specifier in a directory, the nearest one first. -/
inductive Targets (directory : Path) (specifier : String) : List Path → Prop
  | path (h : PathLike specifier) : Targets directory specifier [(directory.join (.ofString specifier)).normalize]
  | package (h : ¬PathLike specifier) : Targets directory specifier
      (directory.ancestors.map fun a => (a.join (.ofString "node_modules")).join (.ofString specifier))

/-- The places that a specifier may mean in a directory, in their order. -/
def MayMean (v : Volume) (directory : Path) (specifier : String) (places : List Path) : Prop :=
  ∃ targets groups, Targets directory specifier targets ∧ List.Forall₂ (EnteredBy v) targets groups ∧
    places = groups.flatten

/-! ## What is searched -/

theorem isPathLike_iff : isPathLike specifier = true ↔ PathLike specifier := by
  simp only [isPathLike, PathLike, Bool.or_eq_true, List.isPrefixOf_iff_prefix, beq_iff_eq, decide_eq_true_eq,
    Path.isAbsolute_ofString_iff, List.exists_mem_cons_iff, List.not_mem_nil, false_and, exists_false, or_false]
  tauto

theorem declared?_eq_some_iff : declared? v directory = some p ↔ Declares v directory p := by
  unfold declared? Declares
  split
  · rename_i e he
    have hread : v.read (directory.join (.ofString "package.json")) = .error e := he
    simp [hread]
  · rename_i text htext
    have hread : v.read (directory.join (.ofString "package.json")) = .ok text := htext
    simp only [hread, Except.ok.injEq, Option.pure_def, Option.bind_eq_bind, Option.bind_eq_some_iff,
      PackageManifest.ofText?_eq_some_iff, PackageManifest.entry?_eq_some_iff, Option.some.injEq]
    constructor
    · rintro ⟨m, ⟨j, hj, hm⟩, entry, hentry, rfl⟩
      exact ⟨text, j, m, entry, rfl, hj, hm, hentry, rfl⟩
    · rintro ⟨_, j, m, entry, rfl, hj, hm, hentry, rfl⟩
      exact ⟨m, ⟨j, hj, hm⟩, entry, hentry, rfl⟩

theorem enteredBy_iff : EnteredBy v target places ↔ entries v target = places := by
  unfold entries
  constructor
  · rintro (h | ⟨h, hp⟩ | ⟨h, hno⟩)
    · rw [if_neg h]
    · rw [if_pos h, declared?_eq_some_iff.mpr hp]
      rfl
    · have hnone : declared? v target = none :=
        Option.eq_none_iff_forall_ne_some.mpr fun p hp => hno p (declared?_eq_some_iff.mp hp)
      rw [if_pos h, hnone]
      rfl
  · rintro rfl
    split
    · rename_i h
      cases hp : declared? v target with
      | none => exact .undeclared h fun p hp' => nomatch hp.symm.trans (declared?_eq_some_iff.mpr hp')
      | some p => exact .declared h (declared?_eq_some_iff.mp hp)
    · rename_i h
      exact .itself h

theorem targets_iff {ts : List Path} : Targets directory specifier ts ↔ targets directory specifier = ts := by
  unfold targets
  constructor
  · rintro (h | h)
    · rw [if_pos (isPathLike_iff.mpr h)]
    · rw [if_neg (mt isPathLike_iff.mp h)]
      rfl
  · rintro rfl
    split
    · rename_i h
      exact .path (isPathLike_iff.mp h)
    · rename_i h
      exact .package (mt isPathLike_iff.mpr h)

theorem forall₂_enteredBy_iff {ts : List Path} {groups : List (List Path)} :
    List.Forall₂ (EnteredBy v) ts groups ↔ ts.map (entries v) = groups := by
  induction ts generalizing groups with
  | nil => simp [eq_comm]
  | cons target ts ih => cases groups <;> simp [enteredBy_iff, ih]

theorem mayMean_iff : MayMean v directory specifier places ↔ candidates v directory specifier = places := by
  unfold MayMean candidates
  simp only [targets_iff, forall₂_enteredBy_iff, List.flatMap_def]
  constructor
  · rintro ⟨_, _, rfl, rfl, rfl⟩
    rfl
  · rintro rfl
    exact ⟨_, _, rfl, rfl, rfl⟩

/-! ## Answers -/

/-- A specifier may mean one list of places in a directory. The answer is the first of them that is a file, and that
nothing is found means that none of them is. -/
theorem answer_first_file (v : Volume) (directory : Path) (specifier : String) :
    (∃ places, MayMean v directory specifier places ∧
      (∀ places', MayMean v directory specifier places' → places' = places) ∧
      (∀ p, ((resolver v).answer directory specifier).result = .ok p ↔
        ∃ before after, places = before ++ p :: after ∧ v.isFile p ∧ ∀ q ∈ before, ¬v.isFile q) ∧
      ∀ e, ((resolver v).answer directory specifier).result = .error e ↔
        e = notFound directory specifier ∧ ∀ q ∈ places, ¬v.isFile q) ∧
    directory.ancestors.map Path.components = directory.starts.reverse := by
  refine ⟨⟨candidates v directory specifier, mayMean_iff.mpr rfl, fun _ h => (mayMean_iff.mp h).symm, fun p => ?_,
    fun e => ?_⟩, directory.components_ancestors⟩
  · rw [show ((resolver v).answer directory specifier).result = find v directory specifier from rfl,
      find_eq_ok_iff, List.find?_eq_some_iff_append]
    constructor
    · rintro ⟨hp, before, after, hc, hbefore⟩
      exact ⟨before, after, hc, hp, fun q hq => by simpa using hbefore q hq⟩
    · rintro ⟨before, after, hc, hp, hbefore⟩
      exact ⟨hp, before, after, hc, fun q hq => by simpa using hbefore q hq⟩
  · rw [show ((resolver v).answer directory specifier).result = find v directory specifier from rfl,
      find_eq_error_iff, List.find?_eq_none]

/-! ## A package that is found far out -/

namespace Outwards

/-- A directory with a package of some files, and with one directory more. -/
def around (files : List (Segment × FileNode)) (inner : Segment × FileNode) : FileNode :=
  .directory [(⟨"node_modules".toList, by decide⟩, .directory [(⟨"pkg".toList, by decide⟩, .directory files)]), inner]

def manifest (content : ByteArray) : Segment × FileNode := (⟨"package.json".toList, by decide⟩, .file content)

/-- The manifest of the nearest package is no text, the next one names a file that is not there, and the third one
declares an entry beside its index file. -/
def disk : FileNode :=
  .directory [(⟨['p'], by decide⟩, around
    [manifest "\x7b\"main\": \"main.ts\", \"types\": \"lib/../entry.ts\", \"typings\": null\x7d".toUTF8,
      (⟨"entry.ts".toList, by decide⟩, .file .empty), (⟨"index.ts".toList, by decide⟩, .file .empty)]
    (⟨['a'], by decide⟩, around [manifest "\x7b\"main\": \"gone.ts\"\x7d".toUTF8]
      (⟨['b'], by decide⟩, around [manifest ⟨#[255]⟩] (⟨['c'], by decide⟩, .file .empty))))]

def base : Path := .ofString "/p/a/b"

def nearer : List Path :=
  ["/p/a/b/node_modules/pkg", "/p/a/b/node_modules/pkg/index.ts", "/p/a/b/node_modules/pkg/index.d.ts",
    "/p/a/node_modules/pkg", "/p/a/node_modules/pkg/gone.ts", "/p/a/node_modules/pkg/index.ts",
    "/p/a/node_modules/pkg/index.d.ts", "/p/node_modules/pkg"].map .ofString

def entry : Path := .ofString "/p/node_modules/pkg/entry.ts"

def later : List Path :=
  ["/p/node_modules/pkg/index.ts", "/p/node_modules/pkg/index.d.ts", "/node_modules/pkg"].map .ofString

theorem mayMean : MayMean disk base "pkg" (nearer ++ entry :: later) := mayMean_iff.mpr (by decide +kernel)

theorem isFile_entry : disk.isFile entry := by decide +kernel

theorem not_isFile_nearer : ∀ q ∈ nearer, ¬disk.isFile q := by decide +kernel

theorem isFile_later : ∃ q ∈ later, disk.isFile q := by decide +kernel

end Outwards

open Outwards in
/-- The declared entry comes before the index file beside it, and behind all that is wrong nearer by. -/
theorem answer_first_file_declared :
    MayMean disk base "pkg" (nearer ++ entry :: later) ∧ (∃ q ∈ later, disk.isFile q) ∧
      ((resolver disk).answer base "pkg").result = .ok entry := by
  obtain ⟨⟨places, -, hunique, hok, -⟩, -⟩ := answer_first_file disk base "pkg"
  obtain rfl := hunique _ mayMean
  exact ⟨mayMean, isFile_later, (hok entry).mpr ⟨nearer, later, rfl, isFile_entry, not_isFile_nearer⟩⟩

end NodeModules

end ImportCheck

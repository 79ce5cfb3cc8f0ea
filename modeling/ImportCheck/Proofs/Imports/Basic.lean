import ImportCheck.Proofs.Lemmas.Session
import Mathlib.Data.List.Nodup
import Mathlib.Logic.Relation

/-!
# What a file imports

The targets of a file are the paths that its specifiers resolve to, and a check of some roots is about the
files that are reached from them through targets that are not settled yet. Nothing here runs a check: these
are the sets and conditions that the outcome of one is compared with.
-/

namespace ImportCheck

/-- The answer to the first candidate that is found, or else to the last one. -/
def Resolver.first (r : Resolver) (directory : Path) (candidate : String) :
    List String → Except ResolverFault Path
  | [] => (r.answer directory candidate).result
  | next :: rest =>
    match (r.answer directory candidate).result with
    | .ok target => .ok target
    | .error _ => r.first directory next rest

def Surroundings.resolve (w : Surroundings) (file : Path) (specifier : String) :
    Except ResolverFault Path :=
  match Specifier.direct? specifier with
  | some target => .ok target
  | none =>
    let (candidate, rest) := Specifier.candidates specifier
    w.resolver.first file.directory candidate rest

namespace Session

variable (s : Session) (w : Surroundings)

/-- The session that has the file's text, if there is one: the stored text, or else the one on the disk. -/
def loaded (file : Path) : Session :=
  if s.isTracked file then s
  else
    match w.disk.read file with
    | .ok text => (s.updateFile file text false).1
    | .error _ => s

/-- The specifiers that are found in the file as soon as it is tracked. -/
def specifiers (file : Path) : List String :=
  match ((s.loaded w file).findImports file).2 with
  | .ok found => found.map (·.text)
  | .error _ => []

def targets (file : Path) : List Path :=
  (s.specifiers w file).filterMap fun specifier => (w.resolve file specifier).toOption

/-- The file has a text: it is tracked, or the disk can be read there. -/
def Obtainable (file : Path) : Prop := s.isTracked file ∨ ∃ text, w.disk.read file = .ok text

/-- The file has a text, and each of its specifiers a target. -/
def Sound (file : Path) : Prop :=
  s.Obtainable w file ∧ ∀ t ∈ s.specifiers w file, ∃ target, w.resolve file t = .ok target

/-- The least set that holds the roots that are not valid and, with a file, its source targets that are not
valid and its declaration targets that are neither valid nor registered. -/
inductive Reached (roots : List Path) : Path → Prop
  | root {r : Path} (hr : r ∈ roots) (hv : s.isValid r = false) : Reached roots r
  | source {f x : Path} (hf : Reached roots f) (hx : x ∈ s.targets w f) (hk : x.kind = .source)
      (hv : s.isValid x = false) : Reached roots x
  | declaration {f x : Path} (hf : Reached roots f) (hx : x ∈ s.targets w f)
      (hk : x.kind = .declaration) (hv : s.isValid x = false)
      (hd : s.graph.hasDeclaration x = false) : Reached roots x

/-- The roots, and all targets of the files that are reached from them. -/
def Met (roots : List Path) (p : Path) : Prop :=
  p ∈ roots ∨ ∃ f, s.Reached w roots f ∧ p ∈ s.targets w f

/-- No place is met under two spellings. -/
def SpelledAlike (roots : List Path) : Prop :=
  ∀ p q, s.Met w roots p → s.Met w roots q → p.Same q → p = q

def Imports (f x : Path) : Prop := x ∈ s.targets w f ∧ x.kind ≠ .compiled

/-- A file is in the import closure of another. -/
def Leads (f g : Path) : Prop := Relation.ReflTransGen (s.Imports w) f g

variable {s w}

theorem mem_targets {f x : Path} :
    x ∈ s.targets w f ↔ ∃ t ∈ s.specifiers w f, w.resolve f t = .ok x := by
  simp only [targets, List.mem_filterMap]
  constructor
  · rintro ⟨t, ht, hx⟩
    cases h : w.resolve f t with
    | error e => simp [h, Except.toOption] at hx
    | ok y => exact ⟨t, ht, by simpa [h, Except.toOption] using hx⟩
  · rintro ⟨t, ht, hx⟩
    exact ⟨t, ht, by simp [hx, Except.toOption]⟩

theorem Reached.met {roots : List Path} {f : Path} (h : s.Reached w roots f) : s.Met w roots f := by
  cases h with
  | root hr _ => exact .inl hr
  | source hf hx _ _ => exact .inr ⟨_, hf, hx⟩
  | declaration hf hx _ _ _ => exact .inr ⟨_, hf, hx⟩

theorem Reached.not_valid {roots : List Path} {f : Path} (h : s.Reached w roots f) :
    s.isValid f = false := by
  cases h <;> assumption

theorem Reached.target_met {roots : List Path} {f x : Path} (h : s.Reached w roots f)
    (hx : x ∈ s.targets w f) : s.Met w roots x := .inr ⟨f, h, hx⟩

/-- Roots and targets that stay within a list of different places are spelled alike. -/
theorem spelledAlike_of_closed {roots : List Path} (places : List Path)
    (hn : (places.map Path.components).Nodup) (hr : ∀ r ∈ roots, r ∈ places)
    (hx : ∀ f ∈ places, ∀ x ∈ s.targets w f, x ∈ places) : s.SpelledAlike w roots := by
  have hreached : ∀ f, s.Reached w roots f → f ∈ places := by
    intro f hf
    induction hf with
    | root hmem _ => exact hr _ hmem
    | source _ hmem _ _ ih => exact hx _ ih _ hmem
    | declaration _ hmem _ _ _ ih => exact hx _ ih _ hmem
  have hmet : ∀ p, s.Met w roots p → p ∈ places := by
    rintro p (hp | ⟨f, hf, hmem⟩)
    · exact hr p hp
    · exact hx f (hreached f hf) p hmem
  exact fun p q hp hq hs => List.inj_on_of_nodup_map hn (hmet p hp) (hmet q hq) hs

/-! ## What the specifiers of a file depend on -/

def recordFor (s : Session) (w : Surroundings) (file : Path) : Option SourceRecord :=
  match s.files.get? file with
  | some r => some r
  | none =>
    match w.disk.read file with
    | .ok text => some { path := file, text, version := 0 }
    | .error _ => none

def treeOf (s : Session) (file : Path) (r : SourceRecord) : SourceTree :=
  match s.service.parsed.get? file with
  | some (version, tree) => if version = r.version then tree else .ofText file r.text
  | none => .ofText file r.text

theorem sourceTree_snd (s : Session) (file : Path) :
    (s.sourceTree file).2 = (s.files.get? file).map (s.treeOf file) := by
  cases hr : s.files.get? file with
  | none => simp [sourceTree, Service.sourceTree, hr]
  | some r =>
      cases hp : s.service.parsed.get? file with
      | none => simp [sourceTree, Service.sourceTree, hr, hp, treeOf]
      | some e =>
          obtain ⟨version, tree⟩ := e
          by_cases hv : version = r.version <;>
            simp [sourceTree, Service.sourceTree, hr, hp, treeOf, hv]

theorem findImports_snd (s : Session) (file : Path) :
    (s.findImports file).2 =
      match (s.files.get? file).map (s.treeOf file) with
      | none => .error (.service (.noSource file))
      | some tree => .ok (tree.dependencies s.cwd) := by
  rw [← sourceTree_snd]
  unfold findImports
  cases h : s.sourceTree file with
  | mk s' t =>
      have hc : s'.cwd = s.cwd := by
        have : (s.sourceTree file).1.cwd = s.cwd := rfl
        rwa [h] at this
      cases t <;> simp [hc]

theorem isTracked_eq_isSome (s : Session) (file : Path) :
    s.isTracked file = (s.files.get? file).isSome := s.files.contains_eq_isSome file

theorem specifiers_eq (s : Session) (w : Surroundings) (file : Path) :
    s.specifiers w file =
      ((s.recordFor w file).map fun r =>
        ((s.treeOf file r).dependencies s.cwd).map (·.text)).getD [] := by
  unfold specifiers loaded recordFor
  cases hr : s.files.get? file with
  | some r => simp [isTracked_eq_isSome, hr, findImports_snd]
  | none =>
      simp only [isTracked_eq_isSome, hr, Option.isSome_none, Bool.false_eq_true, ↓reduceIte]
      cases w.disk.read file with
      | error e => simp [findImports_snd, hr]
      | ok text =>
          have hu : (s.updateFile file text false).1.files.get? file =
              some { path := file, text, version := 0 } := by
            simp [updateFile, FileStore.get?_update, Path.Same.refl, hr]
          simp only [findImports_snd, hu]
          rfl

theorem obtainable_iff (s : Session) (w : Surroundings) (file : Path) :
    s.Obtainable w file ↔ (s.recordFor w file).isSome := by
  unfold Obtainable recordFor
  rw [isTracked_eq_isSome]
  cases s.files.get? file with
  | some r => simp
  | none => cases w.disk.read file <;> simp

theorem specifiers_of_not_obtainable {file : Path} (h : ¬s.Obtainable w file) :
    s.specifiers w file = [] := by
  rw [obtainable_iff, Option.not_isSome_iff_eq_none] at h
  simp [specifiers_eq, h]

theorem obtainable_of_mem_targets {file x : Path} (hx : x ∈ s.targets w file) : s.Obtainable w file := by
  refine Classical.byContradiction fun hn => ?_
  obtain ⟨t, ht, -⟩ := mem_targets.mp hx
  rw [specifiers_of_not_obtainable hn] at ht
  cases ht

theorem specifiers_of_tracked {file : Path} {found : List Dependency} (h : s.isTracked file = true)
    (hf : (s.findImports file).2 = .ok found) : s.specifiers w file = found.map (·.text) := by
  simp [specifiers, loaded, h, hf]

/-! ## Sessions that know the same of a file -/

/-- Two sessions that would find the same text and the same specifiers in a file. -/
structure KnowAlike (s s' : Session) (w : Surroundings) (file : Path) : Prop where
  specifiers : s'.specifiers w file = s.specifiers w file
  obtainable : s'.Obtainable w file ↔ s.Obtainable w file

theorem knowAlike_of_eq {s s' : Session} {w : Surroundings} {file : Path} (hc : s'.cwd = s.cwd)
    (hr : s'.recordFor w file = s.recordFor w file)
    (ht : ∀ r, s.recordFor w file = some r → s'.treeOf file r = s.treeOf file r) :
    s.KnowAlike s' w file := by
  refine ⟨?_, by rw [obtainable_iff, obtainable_iff, hr]⟩
  rw [specifiers_eq, specifiers_eq, hr, hc]
  cases h : s.recordFor w file with
  | none => rfl
  | some r => simp [ht r h]

theorem KnowAlike.trans {s s' s'' : Session} {file : Path} (h : s.KnowAlike s' w file)
    (h' : s'.KnowAlike s'' w file) : s.KnowAlike s'' w file :=
  ⟨h'.specifiers.trans h.specifiers, h'.obtainable.trans h.obtainable⟩

theorem KnowAlike.targets {s s' : Session} {file : Path} (h : s.KnowAlike s' w file) :
    s'.targets w file = s.targets w file := by
  simp only [Session.targets, h.specifiers]

theorem KnowAlike.sound {s s' : Session} {file : Path} (h : s.KnowAlike s' w file) :
    s'.Sound w file ↔ s.Sound w file := by
  simp only [Sound, h.specifiers, h.obtainable]

theorem KnowAlike.imports {s s' : Session} {file x : Path} (h : s.KnowAlike s' w file) :
    s'.Imports w file x ↔ s.Imports w file x := by
  simp only [Imports, h.targets]

theorem leads_congr {s s' : Session} {f g : Path} (h : ∀ g, s.Leads w f g → s.KnowAlike s' w g) :
    s'.Leads w f g ↔ s.Leads w f g := by
  constructor
  · intro hg
    induction hg with
    | refl => exact .refl
    | tail _ hx ih => exact ih.tail ((h _ ih).imports.mp hx)
  · intro hg
    induction hg with
    | refl => exact .refl
    | tail hb hx ih => exact ih.tail ((h _ hb).imports.mpr hx)

theorem knowAlike_of_same_parts {s s' : Session} (hc : s'.cwd = s.cwd) (hf : s'.files = s.files)
    (hs : s'.service = s.service) (w : Surroundings) (file : Path) : s.KnowAlike s' w file :=
  knowAlike_of_eq hc (by simp only [recordFor, hf]) fun r _ => by simp only [treeOf, hs]

theorem knowAlike_store {s : Session} {w : Surroundings} {x : Path} {text : String}
    (hx : s.isTracked x = false) (ht : w.disk.read x = .ok text) {file : Path}
    (hs : x.Same file → x = file) : s.KnowAlike (s.updateFile x text false).1 w file := by
  refine knowAlike_of_eq rfl ?_ fun r _ => rfl
  have hn : s.files.get? x = none := by simpa [isTracked_eq_isSome] using hx
  simp only [recordFor, updateFile, FileStore.get?_update, hn]
  by_cases h : x.Same file
  · obtain rfl := hs h
    simp [Path.Same.refl, hn, ht]
  · simp [h]

theorem service_parsed {s : Session} {x : Path} {r : SourceRecord} (hr : s.files.get? x = some r) :
    (s.parsed x).service = s.service ∨
      (s.parsed x).service.parsed = s.service.parsed.insert x (r.version, s.treeOf x r) := by
  cases hp : s.service.parsed.get? x with
  | none => simp [parsed, sourceTree, Service.sourceTree, hr, hp, treeOf]
  | some e =>
      obtain ⟨version, tree⟩ := e
      by_cases hv : version = r.version <;>
        simp [parsed, sourceTree, Service.sourceTree, hr, hp, treeOf, hv]

theorem knowAlike_parsed {s : Session} {w : Surroundings} {x : Path} (hx : s.isTracked x = true)
    {file : Path} (hs : x.Same file → x = file) : s.KnowAlike (s.parsed x) w file := by
  refine knowAlike_of_eq rfl rfl fun r hr => ?_
  obtain ⟨r₀, hr₀⟩ := Option.isSome_iff_exists.mp ((isTracked_eq_isSome s x).symm.trans hx)
  rcases service_parsed hr₀ with h | h
  · simp only [treeOf, h]
  · by_cases hsame : x.Same file
    · obtain rfl := hs hsame
      have hrr : r = r₀ := by simpa [recordFor, hr₀] using hr.symm
      subst hrr
      have hget : (s.parsed x).service.parsed.get? x = some (r.version, s.treeOf x r) := by
        rw [h, PathMap.get?_insert, if_pos (Path.Same.refl x)]
      rw [treeOf, hget]
      exact if_pos rfl
    · have hget : (s.parsed x).service.parsed.get? file = s.service.parsed.get? file := by
        rw [h, PathMap.get?_insert, if_neg hsame]
      simp only [treeOf, hget]

end Session

end ImportCheck

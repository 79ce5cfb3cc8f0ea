import ImportCheck.Proofs.Check.Outcome
import ImportCheck.Proofs.Walk.Revised

/-!
# Parses and the texts that they stand for

The service parses a file again when its version is another one. As long as no text is seeded at a place that was
parsed before, all texts that the place has had are of different versions, and what is found there is what a parse
of the stored text gives. A seeding takes the version back to 0, and then an old parse can be taken for one of a
new text.
-/

namespace ImportCheck

namespace Session

variable {s : Session} {f : Path} {r : SourceRecord}

theorem CoherentAt.findImports (h : s.CoherentAt f) (hr : s.files.get? f = some r) :
    ∃ g : Path, g.Same f ∧ (s.findImports f).2 = .ok ((SourceTree.ofText g r.text).dependencies s.cwd) := by
  obtain ⟨g, hg, htree⟩ := h.isParse_treeOf fun r' hr' => Option.some.inj (hr'.symm.trans hr)
  exact ⟨g, hg, by rw [findImports_snd, hr, Option.map_some, htree]⟩

/-- A tracked file that was looked at is remembered at its version, with the tree that was found. -/
theorem remembered_findImports (hr : s.files.get? f = some r) :
    (s.findImports f).1.service.parsed.get? f = some (r.version, s.treeOf f r) := by
  have ht : s.isTracked f = true := by rw [isTracked_eq_isSome, hr]; rfl
  obtain ⟨-, -, halike⟩ := findImports_of_tracked ht
  rw [halike.service]
  cases hp : s.service.parsed.get? f with
  | none => simp [parsed, sourceTree, Service.sourceTree, hr, hp, treeOf, PathMap.get?_insert, Path.Same.refl]
  | some e =>
      obtain ⟨version, tree⟩ := e
      by_cases hv : version = r.version <;>
        simp [parsed, sourceTree, Service.sourceTree, hr, hp, treeOf, hv, PathMap.get?_insert, Path.Same.refl]

/-- The session after texts were stored at the place, one after another. -/
def updates (s : Session) (f : Path) (texts : List String) : Session :=
  texts.foldl (fun s text => (s.updateFile f text false).1) s

theorem service_updates (s : Session) (f : Path) (texts : List String) :
    (s.updates f texts).service = s.service ∧ (s.updates f texts).cwd = s.cwd := by
  induction texts generalizing s with
  | nil => exact ⟨rfl, rfl⟩
  | cons text texts ih => exact ih (s.updateFile f text false).1

/-- Each text that is stored counts the version up by one. -/
theorem version_updates {s : Session} {f : Path} {r : SourceRecord} (hr : s.files.get? f = some r)
    (texts : List String) :
    ∃ r', (s.updates f texts).files.get? f = some r' ∧ r'.version = r.version + texts.length := by
  induction texts generalizing s r with
  | nil => exact ⟨r, hr, rfl⟩
  | cons text texts ih =>
      have hget : (s.updateFile f text false).1.files.get? f =
          some { r with text, version := r.version + 1 } := by
        simp [updateFile, FileStore.get?_update, Path.Same.refl, hr]
      obtain ⟨r', hr', hv⟩ := ih hget
      refine ⟨r', hr', ?_⟩
      simp only [hv, List.length_cons]
      omega

/-- A file that was looked at, seeded, and updated as often as its version says is taken for what it was. -/
theorem findImports_reseeded (hr : s.files.get? f = some r) (seed : String) {texts : List String}
    (hl : texts.length = r.version) :
    ((((s.findImports f).1.addFile f seed).updates f texts).findImports f).2 = (s.findImports f).2 := by
  have hseeded : ((s.findImports f).1.addFile f seed).files.get? f =
      some { path := f, text := seed, version := 0 } := by
    simp [addFile, FileStore.get?_add, Path.Same.refl]
  have hcwd : (s.findImports f).1.cwd = s.cwd := (Task.revised_findImports s f).cwd_eq
  obtain ⟨r', hr', hv⟩ := version_updates hseeded texts
  rw [Nat.zero_add, hl] at hv
  obtain ⟨hservice, hcwd'⟩ := service_updates ((s.findImports f).1.addFile f seed) f texts
  have hparsed : (((s.findImports f).1.addFile f seed).updates f texts).service.parsed.get? f =
      some (r.version, s.treeOf f r) := by
    rw [hservice]
    exact remembered_findImports hr
  have htree : (((s.findImports f).1.addFile f seed).updates f texts).treeOf f r' = s.treeOf f r := by
    rw [treeOf, hparsed]
    exact if_pos hv.symm
  rw [findImports_snd, findImports_snd, hr', hr, Option.map_some, Option.map_some, htree, hcwd']
  exact congrArg (fun cwd => Except.ok ((s.treeOf f r).dependencies cwd)) hcwd

end Session

/-- What is found in a tracked file, at any moment of a run of any requests in any order, with a disk and a
resolver that may change all the time. If what was seeded there agreed with what was remembered of it, it is what
a fresh parse of the stored text gives. But if the file is looked at and then seeded, it is still what that parse
gave as soon as the version is the same again, whatever texts it has had since. -/
theorem findImports_transparent (options : CompilerOptions) (cwd : Path) (runtime defaultLib : LibFile)
    (requests : List Request) {h : History} {s : Session} {parts : List Task}
    (hr : Runs (.new options cwd runtime defaultLib, .group (requests.map .start)) h (s, .group parts))
    {f : Path} (hseeds : h.SeedsInStep f) {text : String} (ht : s.fileText? f = some text) :
    ∃ g : Path, g.Same f ∧ (s.findImports f).2 = .ok ((SourceTree.ofText g text).dependencies cwd) ∧
      ∀ version, s.fileVersion? f = some version → ∀ seed texts, texts.length = version →
        ((((s.findImports f).1.addFile f seed).updates f texts).findImports f).2 =
          .ok ((SourceTree.ofText g text).dependencies cwd) := by
  have hcoherent : s.CoherentAt f := hr.coherentAt hseeds (Session.coherentAt_of_no_parse rfl)
  obtain ⟨r, hrecord, rfl⟩ := Option.map_eq_some_iff.mp (show (s.files.get? f).map (·.text) = some text from ht)
  obtain ⟨g, hg, hfound⟩ := hcoherent.findImports hrecord
  rw [show s.cwd = cwd from hr.cwd_eq] at hfound
  refine ⟨g, hg, hfound, fun version hv seed texts hl => ?_⟩
  obtain ⟨r', hr', rfl⟩ :=
    Option.map_eq_some_iff.mp (show (s.files.get? f).map (·.version) = some version from hv)
  exact (Session.findImports_reseeded hr' seed hl).trans hfound

/-! ## A text that changes after the file was checked -/

namespace Seeded

open ImportCheck.Cycle (first session surroundings)

def oldText : String := "import './b';"

def newText : String := "import './c';"

/-- The file is seeded and checked, and then its text is replaced by what the last request says. -/
def requests (last : Request) : List Request := [.addFile first oldText, .check first, last]

def run (last : Request) : History × (Session × Task) :=
  History.play ([[0], [1], [1, 0], [1, 0], [1, 0], [1, 0, 0], [1, 0, 0], [2]].map (surroundings, ·))
    (session, .group ((requests last).map .start))

/-- The texts under which the file's dependencies would be resolved now. -/
def found (s : Session) : Option (List String) := (s.findImports first).2.toOption.map (·.map (·.text))

theorem outcome_seeded : (run (.addFile first newText)).2.2.returned = true ∧
    (run (.addFile first newText)).2.1.fileText? first = some newText ∧
    found (run (.addFile first newText)).2.1 = some ["./b"] := by decide +kernel

theorem outcome_updated : (run (.updateFile first newText true)).2.2.returned = true ∧
    (run (.updateFile first newText true)).2.1.fileText? first = some newText := by decide +kernel

/-- Only the first request seeds, and there is no parse then. -/
theorem seeds_updated : ∀ m ∈ (run (.updateFile first newText true)).1,
    m.seeds?.isNone || (m.session.service.parsed.get? first).isNone := by decide +kernel

theorem texts_new : (SourceTree.ofText first newText).texts (.ofString "/p") = ["./c"] := by decide +kernel

theorem found_of_parse {s : Session} {g : Path} (hg : g.Same first)
    (h : (s.findImports first).2 = .ok ((SourceTree.ofText g newText).dependencies (.ofString "/p"))) :
    found s = some ["./c"] := by
  rw [found, h, ← texts_new, ← SourceTree.texts_ofText hg]
  rfl

end Seeded

open Seeded in
/-- All requests are answered, and what is found in the file is not what its text names. -/
theorem findImports_stale : ∃ h s parts,
    Runs (Cycle.session, .group ((requests (.addFile Cycle.first newText)).map .start)) h (s, .group parts) ∧
      (∀ t ∈ parts, ∃ o, t = .done o) ∧ ∃ f text, s.fileText? f = some text ∧
      ¬∃ g : Path, g.Same f ∧
        (s.findImports f).2 = .ok ((SourceTree.ofText g text).dependencies (.ofString "/p")) := by
  have hrun : Runs (Cycle.session, .group ((requests (.addFile Cycle.first newText)).map .start))
    (run (.addFile Cycle.first newText)).1 (run (.addFile Cycle.first newText)).2 := History.runs_play _ _
  obtain ⟨hreturned, htext, hfound⟩ := outcome_seeded
  generalize run (.addFile Cycle.first newText) = c at hrun hreturned htext hfound
  obtain ⟨h, s, t⟩ := c
  obtain ⟨parts, rfl, hdone⟩ := Task.exists_parts hreturned
  refine ⟨h, s, parts, hrun, hdone, Cycle.first, newText, htext, ?_⟩
  rintro ⟨g, hg, hparse⟩
  replace hfound : found s = some ["./b"] := hfound
  rw [found_of_parse hg hparse] at hfound
  exact absurd hfound (by decide)

open Seeded in
/-- After an update the file names what its new text does. -/
theorem findImports_transparent_updated : ∃ h s parts,
    Runs (Cycle.session, .group ((requests (.updateFile Cycle.first newText true)).map .start)) h
      (s, .group parts) ∧ h.SeedsInStep Cycle.first ∧ found s = some ["./c"] := by
  have hrun : Runs (Cycle.session, .group ((requests (.updateFile Cycle.first newText true)).map .start))
    (run (.updateFile Cycle.first newText true)).1 (run (.updateFile Cycle.first newText true)).2 :=
      History.runs_play _ _
  obtain ⟨hreturned, htext⟩ := outcome_updated
  have hseeds := seeds_updated
  generalize run (.updateFile Cycle.first newText true) = c at hrun hreturned htext hseeds
  obtain ⟨h, s, t⟩ := c
  obtain ⟨parts, rfl, hdone⟩ := Task.exists_parts hreturned
  have hstep : h.SeedsInStep Cycle.first := by
    intro m hm x text hseed _ version tree hp
    have := hseeds m hm
    simp [hseed, hp] at this
  obtain ⟨g, hg, hparse, -⟩ := findImports_transparent {} (.ofString "/p") .runtime .standard _ hrun hstep htext
  exact ⟨h, s, parts, hrun, hstep, found_of_parse hg hparse⟩

end ImportCheck

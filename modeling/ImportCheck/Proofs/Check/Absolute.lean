import ImportCheck.Proofs.Check.Footprint
import ImportCheck.Proofs.Lemmas.Order
import ImportCheck.Proofs.Path.Normal
import ImportCheck.Proofs.Walk.Named

/-!
# Absolute paths

A reference is read from the directory of its file, and the resolver is asked for a module; only a declaration that is
imported is taken as it stands. So the paths that checks handle are absolute as long as all declarations are imported
by absolute paths, and not otherwise.
-/

namespace ImportCheck

/-! ## Where a path can be relative -/

def Resolver.Absolute (r : Resolver) : Prop :=
  ∀ directory specifier p, (r.answer directory specifier).result = .ok p → p.IsAbsolute

/-- What is named is no declaration that is imported by a relative path. -/
def Dependency.NamesAbsolutely : Dependency → Prop
  | .specifier _ t => ∀ p ∈ Specifier.direct? t, p.IsAbsolute
  | .reference _ => True

instance : DecidablePred Dependency.NamesAbsolutely
  | .specifier _ t => inferInstanceAs (Decidable (∀ p ∈ Specifier.direct? t, p.IsAbsolute))
  | .reference _ => inferInstanceAs (Decidable True)

namespace Session

def NamesAbsolutely (s : Session) (x : Path) : Prop :=
  ∀ found, (s.findImports x).2 = .ok found → ∀ d ∈ found, d.NamesAbsolutely

instance (s : Session) (x : Path) : Decidable (s.NamesAbsolutely x) :=
  match h : (s.findImports x).2 with
  | .ok found =>
    decidable_of_iff (∀ d ∈ found, d.NamesAbsolutely)
      ⟨fun hd _ hf => Except.ok.inj (h.symm.trans hf) ▸ hd, fun hn => hn found h⟩
  | .error _ => isTrue fun _ hf => nomatch h.symm.trans hf

/-- The working directory is absolute, and so is all that is tracked, linked or registered. -/
structure Absolute (s : Session) : Prop where
  cwd : s.cwd.IsAbsolute
  tracked : ∀ p, s.isTracked p = true → p.IsAbsolute
  linked : ∀ p q, s.graph.hasDependency p q = true → p.IsAbsolute ∧ q.IsAbsolute
  declared : ∀ p, s.graph.hasDeclaration p = true → p.IsAbsolute

/-- All that has been handled since an earlier moment is absolute as well. -/
structure AbsoluteSince (s₀ s : Session) : Prop extends Absolute s where
  read : ∀ p ∈ s₀.readsSince s, p.IsAbsolute
  walked : ∀ p ∈ s₀.walkedSince s, p.IsAbsolute
  marked : ∀ p, s.isValid p = true → s₀.isValid p = true ∨ p.IsAbsolute

theorem Absolute.since {s : Session} (h : s.Absolute) : s.AbsoluteSince s where
  toAbsolute := h
  read := by simp [readsSince]
  walked := by simp [walkedSince]
  marked _ := .inl

theorem absolute_new (options : CompilerOptions) {cwd : Path} {runtime defaultLib : LibFile} (hc : cwd.IsAbsolute)
    (hr : runtime.name.IsAbsolute) (hd : defaultLib.name.IsAbsolute) :
    (Session.new options cwd runtime defaultLib).Absolute where
  cwd := hc
  tracked p hp := by
    rw [isTracked_eq_isSome] at hp
    simp only [Session.new, FileStore.get?_add] at hp
    split at hp
    · next hs => exact hs.isAbsolute_iff.mp hd
    · split at hp
      · next hs => exact hs.isAbsolute_iff.mp hr
      · cases hp
  linked p q h := by cases h
  declared p h := by cases h

end Session

theorem KnownFiles.absolute_resolver {known : KnownFiles} (ha : ∀ a ∈ known.aliases, a.2.IsAbsolute)
    (hf : ∀ p ∈ known.files.keys, p.IsAbsolute) : known.resolver.Absolute := by
  intro directory specifier p hp
  unfold resolver find at hp
  simp only at hp
  split at hp
  · next hfind =>
    cases hp
    exact ha _ (List.mem_of_find?_eq_some hfind)
  · split at hp
    · next hc =>
      cases hp
      obtain ⟨k, hk, hs⟩ := PathMap.contains_iff_key.mp hc
      exact hs.isAbsolute_iff.mp (hf k hk)
    · cases hp

/-! ## What is named -/

namespace SourceTree

variable {cwd target : Path}

theorem isAbsolute_of_contribution (hc : cwd.IsAbsolute) {kind : NodeKind} {file : Path}
    {reference : Option ModuleReference} {references : List String}
    (h : .reference target ∈ contribution cwd kind file reference references) : target.IsAbsolute := by
  unfold contribution at h
  split at h
  · obtain ⟨r, -, he⟩ := List.mem_map.mp h
    cases he
    exact Path.isAbsolute_resolveAgainst hc _ _
  all_goals simp at h

mutual
/-- The files that references lead to are absolute. -/
theorem isAbsolute_of_reference (hc : cwd.IsAbsolute) : (tree : SourceTree) →
    .reference target ∈ tree.dependencies cwd → target.IsAbsolute
  | node _ _ _ _ children, h => by
      rw [dependencies] at h
      rcases List.mem_append.mp h with h | h
      · exact isAbsolute_of_contribution hc h
      · exact isAbsolute_of_referenceOf hc children h

theorem isAbsolute_of_referenceOf (hc : cwd.IsAbsolute) : (trees : List SourceTree) →
    .reference target ∈ dependenciesOf cwd trees → target.IsAbsolute
  | [], h => by simp [dependenciesOf] at h
  | tree :: trees, h => by
      rw [dependenciesOf] at h
      rcases List.mem_append.mp h with h | h
      · exact isAbsolute_of_reference hc tree h
      · exact isAbsolute_of_referenceOf hc trees h
end

end SourceTree

namespace Specifier

variable {t : String} {p : Path}

theorem direct?_eq_some (h : direct? t = some p) : p = .ofString t ∧ p.kind = .declaration := by
  unfold direct? at h
  split at h
  · next hd =>
    cases h
    refine ⟨rfl, ?_⟩
    rw [Path.kind, Path.ofString, Path.chars_ofChars, DependencyKind.ofChars]
    exact if_pos hd.2
  · cases h

end Specifier

theorem Dependency.isAbsolute_of_direct {tree : SourceTree} {cwd p : Path} {d : Dependency} (hc : cwd.IsAbsolute)
    (hd : d ∈ tree.dependencies cwd) (hn : d.NamesAbsolutely) (hp : Specifier.direct? d.text = some p) :
    p.IsAbsolute := by
  cases d with
  | specifier f t => exact hn p hp
  | reference target =>
      obtain ⟨rfl, -⟩ := Specifier.direct?_eq_some hp
      rw [show (Dependency.reference target).text = target.toString from rfl, Path.ofString_toString]
      exact tree.isAbsolute_of_reference hc hd

/-! ## All that is found is absolute -/

variable {s₀ s : Session} {roots : List Path} {h : History} {t : Task} {c : Session × Task}

theorem Watched.absoluteSince (hw : Watched s₀ roots h (s, t)) (hs : s₀.Absolute) (hc : s.cwd = s₀.cwd)
    (hroots : ∀ r ∈ roots, r.IsAbsolute) (hfound : ∀ p ∈ h.found, p.IsAbsolute) : s₀.AbsoluteSince s := by
  have hwalked : ∀ x ∈ s₀.walkedSince s, x.IsAbsolute := by
    intro x hx
    rcases hw.rooted.aimed x (by simpa [Session.walkedSince] using hx) with hr | ⟨hx, -⟩
    · exact hroots x hr
    · exact hfound x hx
  have hread : ∀ x ∈ s₀.readsSince s, x.IsAbsolute := fun x hx => hwalked x (hw.read_walked hx)
  constructor
  case read => exact hread
  case walked => exact hwalked
  case marked =>
      intro p hp
      refine (hw.rooted.valid_new p hp).imp_right ?_
      rintro ⟨x, hx, hsame⟩
      exact hsame.isAbsolute_iff.mp (hwalked x (by simpa [Session.walkedSince] using hx))
  case toAbsolute =>
      constructor
      case cwd => rw [hc]; exact hs.cwd
      case tracked =>
          intro p hp
          rw [Session.isTracked_eq_isSome] at hp
          obtain ⟨r, hr⟩ := Option.isSome_iff_exists.mp hp
          cases hold : s₀.files.get? p with
          | some r₀ => exact hs.tracked p (by simp [Session.isTracked_eq_isSome, hold])
          | none =>
              obtain ⟨-, hsame, hmem⟩ := hw.kept.new p r hold hr
              have hpath := (hw.kept.returned _ hmem).1
              exact hsame.isAbsolute_iff.mp (hread _ (by simpa [Session.readsSince] using hpath))
      case linked =>
          intro p q hpq
          constructor
          · by_cases hp : ∃ f ∈ s₀.walkedSince s, f.Same p
            · obtain ⟨f, hf, hsame⟩ := hp
              exact hsame.isAbsolute_iff.mp (hwalked f hf)
            · have hold := hw.rooted.links_old p fun f hf hsame =>
                hp ⟨f, by simpa [Session.walkedSince] using hf, hsame⟩
              have hpq₀ : s₀.graph.hasDependency p q = true := by
                rw [DependencyGraph.hasDependency, ← hold]
                exact hpq
              exact (hs.linked p q hpq₀).1
          · rcases hw.rooted.links_new p q hpq with hpq | ⟨x, hx, -, hsame⟩
            · exact (hs.linked p q hpq).2
            · exact hsame.isAbsolute_iff.mp (hfound x hx)
      case declared =>
          intro p hp
          rcases hw.rooted.declared_new p hp with hp | ⟨x, hx, -, hsame⟩
          · exact hs.declared p hp
          · exact hsame.isAbsolute_iff.mp (hfound x hx)

theorem Runs.found_absolute (hr : Runs (s, t) h c) (ht : t.Asks roots) (hc : s.cwd.IsAbsolute)
    (hanswers : ∀ m ∈ h, m.around.resolver.Absolute) (hnames : ∀ x ∈ s.walkedSince c.1, c.1.NamesAbsolutely x) :
    ∀ p ∈ h.found, p.IsAbsolute := by
  intro p hp
  obtain ⟨m, hm, hp⟩ := List.mem_filterMap.mp hp
  obtain ⟨leaf, hl, hp⟩ := Option.bind_eq_some_iff.mp hp
  have hnamed := hr.named ht
  unfold Task.found? at hp
  split at hp
  · next f u =>
    have hu : u ∈ h.followed := List.mem_filterMap.mpr ⟨m, hm, by simp [hl, Task.follow?]⟩
    obtain ⟨x, hx, tree, hremembers, d, hd, rfl⟩ := hnamed.sound u (Multiset.mem_add.mpr (.inr hu))
    have hcwd : c.1.cwd.IsAbsolute := by
      rw [hnamed.cwd]
      exact hc
    exact d.isAbsolute_of_direct hcwd hd (hnames x hx _ hremembers.findImports d hd) hp
  · next f _ candidate _ _ =>
    refine hanswers m hm f.directory candidate p ?_
    cases he : (m.around.resolver.answer f.directory candidate).result with
    | ok q => simpa [he, Except.toOption] using hp
    | error e => simp [he, Except.toOption] at hp
  · cases hp

/-! ## A relative declaration is handled -/

/-- A declaration that is imported and not registered yet is registered as it stands, and checked. -/
theorem Task.LeafStep.of_direct {w : Surroundings} {s s' : Session} {t' : Task} {f p : Path} {u : String}
    (h : Task.LeafStep w s (.start (.follow f u)) s' t') (hd : Specifier.direct? u = some p)
    (hn : s.graph.hasDeclaration p = false) : Task.Entered p true (s.register p) s' t' := by
  have hseeks : (Task.start (.follow f u)).Seeks w f u (.ok p) := by
    have hfollow := Task.Seeks.follow (w := w) f u
    rwa [show w.resolve f u = .ok p by simp [Surroundings.resolve, hd]] at hfollow
  obtain ⟨-, hk⟩ := Specifier.direct?_eq_some hd
  cases h with
  | ask _ _ ho => simp [Task.owed, Surroundings.questions, hd] at ho
  | unresolved hs _ => cases (hs.eq hseeks).2.2
  | pass hs _ hkind =>
      cases (hs.eq hseeks).2.2
      rcases hkind with hkind | ⟨-, hdeclared⟩
      · rw [hk] at hkind
        cases hkind
      · rw [hn] at hdeclared
        cases hdeclared
  | link hs _ hkind _ =>
      cases (hs.eq hseeks).2.2
      rw [hk] at hkind
      cases hkind
  | register hs _ _ _ he =>
      cases (hs.eq hseeks).2.2
      exact he

/-- A relative path that is followed as it stands is registered, or walked. -/
theorem Moment.not_absolute_of_direct {m : Moment} {f p : Path} {u : String}
    (hw : Watched s₀ roots h (m.session, m.task)) (hp : m.task.waitsAt m.place = true)
    (hl : m.leaf? = some (.start (.follow f u))) (hd : Specifier.direct? u = some p) (hn : ¬p.IsAbsolute)
    (hbefore : s₀.AbsoluteSince m.session) : ¬s₀.AbsoluteSince m.after.1 := by
  intro hafter
  obtain ⟨leaf, s', t', R, E, hl', -, hstep, -, -, -, hfalls⟩ := m.leafStep hp fun l hl => .inl (hw.checking l hl)
  obtain rfl : Task.start (.follow f u) = leaf := Option.some.inj (hl.symm.trans hl')
  have hunknown : m.session.bare.graph.hasDeclaration p = false :=
    Bool.eq_false_iff.mpr fun hdeclared => hn (hbefore.declared p hdeclared)
  cases hstep.of_direct hd hunknown with
  | trusted hv =>
      -- the registration could be taken back only by a walk of the same path
      have hparents : ∀ f ∈ m.task.parents + (Task.done (.ok .unit)).parents, ¬f.Same p := by
        intro f hf hsame
        have hwalking : f ∈ m.task.walking := Multiset.mem_add.mpr (.inl (by simpa [Task.parents] using hf))
        have hwalked := hw.mem_walkedSince.mpr (.inr hwalking)
        exact hn (hsame.isAbsolute_iff.mp (hbefore.walked f hwalked))
      have hdeclared := hfalls.hasDeclaration (p := p) (by simp [Path.Same.refl]) hparents
      exact hn (hafter.declared p hdeclared)
  | scanned _ ht _ => exact hn (hbefore.tracked p ht)
  | begun _ _ =>
      have hwalks : m.after.1.walks = s₀.walks ++ (s₀.walkedSince m.session ++ [p]) := by
        rw [← Session.walks_bare, hfalls.walks, Session.walks_record _ rfl, Session.walks_enter,
          Session.walks_register, hw.traced.walks]
        simp [Session.walkedSince]
      exact hn (hafter.walked p (by simp [Session.walkedSince, hwalks]))

/-- When all checks are done and only absolute paths have been handled, no walked file imports a declaration by a
relative one. -/
theorem Runs.namesAbsolutely (hr : Runs (s, t) h c) (ht : t.Asks roots) (hs : s.Absolute) (hdone : c.2.waiting = 0)
    (hall : ∀ m ∈ h, s.AbsoluteSince m.after.1) {x : Path} (hx : x ∈ s.walkedSince c.1) : c.1.NamesAbsolutely x := by
  intro found hf d hd
  obtain ⟨tree, hremembers, htaken⟩ := (hr.named ht).complete x hx (Session.tracked_of_found hf)
  obtain rfl : tree.dependencies c.1.cwd = found := Except.ok.inj (hremembers.findImports.symm.trans hf)
  cases d with
  | reference target => trivial
  | specifier g u =>
      intro p hp
      by_contra hn
      have hu : u ∈ h.followed := by
        have hmem : u ∈ c.2.waiting.filterMap Task.follow? + ↑h.followed := htaken _ hd
        simpa [hdone] using hmem
      obtain ⟨m, hm, hfollow⟩ := List.mem_filterMap.mp hu
      obtain ⟨leaf, hl, hleaf⟩ := Option.bind_eq_some_iff.mp hfollow
      obtain ⟨f, rfl⟩ := Task.eq_of_follow? hleaf
      obtain ⟨before, later, rfl⟩ := List.append_of_mem hm
      obtain ⟨hbefore, hwaits⟩ := hr.of_append
      have hsession : s.AbsoluteSince m.session := by
        rcases hbefore.eq_or_after with he | ⟨m', hm', he⟩
        · rw [show m.session = s from congrArg Prod.fst he]
          exact hs.since
        · rw [show m.session = m'.after.1 from congrArg Prod.fst he]
          exact hall m' (List.mem_append_left _ hm')
      exact Moment.not_absolute_of_direct (hbefore.watched ht) hwaits hl hp hn hsession (hall m hm)

/-- Any checks of absolute roots, interleaved at will, on a session whose paths are absolute, with a disk that changes
at will and resolvers that answer absolute paths: if no walked file imports a declaration by a relative path, all that
is read, tracked, marked, linked or registered is absolute. And when the checks are done, it has been so at every moment
only if no walked file imports a declaration by a relative path. -/
theorem checks_handle_absolute (hs : s.Absolute) (hroots : ∀ r ∈ roots, r.IsAbsolute)
    (hr : Runs (s, .group (roots.map fun r => .start (.check r))) h c)
    (hanswers : ∀ m ∈ h, m.around.resolver.Absolute) :
    ((∀ x ∈ s.walkedSince c.1, c.1.NamesAbsolutely x) → s.AbsoluteSince c.1) ∧
    (c.2.returned = true → ((∀ m ∈ h, s.AbsoluteSince m.after.1) ↔
      ∀ x ∈ s.walkedSince c.1, c.1.NamesAbsolutely x)) := by
  have hasks := asks_checks roots
  have hfound := hr.found_absolute hasks hs.cwd hanswers
  refine ⟨fun hnames => ?_, fun hdone => ⟨fun hall x hx => ?_, fun hnames m hm => ?_⟩⟩
  · exact (hr.watched hasks).absoluteSince hs (hr.named hasks).cwd hroots (hfound hnames)
  · exact hr.namesAbsolutely hasks hs (Task.waiting_of_returned hdone) hall hx
  · obtain ⟨before, later, rfl⟩ := List.append_of_mem hm
    obtain ⟨hbefore, hwaits⟩ := hr.of_append
    have hstep := hbefore.step hwaits
    refine (hstep.watched hasks).absoluteSince hs (hstep.named hasks).cwd hroots fun p hp => hfound hnames p ?_
    rw [List.append_cons, History.found, List.filterMap_append]
    exact List.mem_append_left _ hp

/-! ## Declarations that are imported -/

namespace Imported

open ImportCheck.Cycle (first session)

def types : Path := .ofString "/p/types.d.ts"

def more : Path := .ofString "/p/more.d.ts"

def checks : Task := .group ([first].map fun r => .start (.check r))

/-- The first file has a text of its own, and there are two declarations. -/
def disk (text : String) : MemoryDisk where
  entries := [(first, text), (types, ""), (more, "")]
  distinct := show ([first, types, more].map Path.components).Nodup by decide

def known : KnownFiles where
  aliases := []
  files := { entries := [(first, ()), (types, ()), (more, ())], distinct := by decide }

def surroundings (text : String) : Surroundings where
  disk := (disk text).disk
  resolver := known.resolver

def after (text : String) (places : List (List Nat)) : History × (Session × Task) :=
  History.play (places.map (surroundings text, ·)) (session, checks)

theorem absolute_session : session.Absolute :=
  Session.absolute_new {} (by decide) (by decide) (by decide)

theorem absolute_around {text : String} {places : List (List Nat)} :
    ∀ m ∈ (after text places).1, m.around.resolver.Absolute := by
  intro m hm
  obtain ⟨e, he, hw⟩ := History.around_play hm
  obtain ⟨place, -, rfl⟩ := List.mem_map.mp he
  rw [hw]
  exact KnownFiles.absolute_resolver (by simp [known]) (by decide)

/-- One declaration is imported by its absolute path, and one is referred to. -/
def written : History × (Session × Task) :=
  after "import '/p/types.d.ts';\n/// <reference path=\"more.d.ts\" />" [[0], [0], [0, 0], [0, 0], [0, 1], [0, 1]]

/-- A declaration is imported by a relative path. -/
def relative : History × (Session × Task) := after "import './types.d.ts';" [[0], [0], [0, 0], [0, 0]]

theorem outcome_written : written.2.2.returned = true ∧
    (session.readsSince written.2.1).Perm [first, types, more] ∧
      ∀ x ∈ session.walkedSince written.2.1, written.2.1.NamesAbsolutely x := by
  decide +kernel

theorem outcome_relative : relative.2.2.returned = true ∧ ∃ p ∈ session.readsSince relative.2.1,
    ¬p.IsAbsolute ∧ p ∈ session.walkedSince relative.2.1 ∧
      ∃ m ∈ relative.1, m.after.1.graph.hasDeclaration p = true := by
  decide +kernel

end Imported

open Imported in
/-- Both declarations are read at absolute paths. -/
theorem checks_handle_absolute_written : ∃ h c, Runs (Cycle.session, checks) h c ∧ c.2.returned = true ∧
    (Cycle.session.readsSince c.1).Perm [Cycle.first, types, more] ∧ Cycle.session.AbsoluteSince c.1 ∧
      ∀ m ∈ h, Cycle.session.AbsoluteSince m.after.1 := by
  have hr : Runs (Cycle.session, checks) written.1 written.2 := History.runs_play _ _
  obtain ⟨hdone, hreads, hnames⟩ := outcome_written
  obtain ⟨hnow, halways⟩ := checks_handle_absolute absolute_session (by decide) hr absolute_around
  exact ⟨written.1, written.2, hr, hdone, hreads, hnow hnames, (halways hdone).mpr hnames⟩

open Imported in
/-- The declaration is registered, walked and read at a relative path, although all that the check begins with is
absolute. -/
theorem checks_handle_relative : ∃ h c, Runs (Cycle.session, checks) h c ∧ Cycle.session.Absolute ∧
    Cycle.first.IsAbsolute ∧ (∀ m ∈ h, m.around.resolver.Absolute) ∧ c.2.returned = true ∧
      ∃ p ∈ Cycle.session.readsSince c.1, ¬p.IsAbsolute ∧ p ∈ Cycle.session.walkedSince c.1 ∧
        ∃ m ∈ h, m.after.1.graph.hasDeclaration p = true :=
  ⟨relative.1, relative.2, History.runs_play _ _, absolute_session, by decide, absolute_around, outcome_relative⟩

end ImportCheck

import ImportCheck.Proofs.Check.Outcome
import ImportCheck.Proofs.Walk.Confined

/-!
# What checks leave behind

However many checks overlap and however they end, and whatever the disk and the resolver do meanwhile: no file is
walked twice at a time or read twice, and nothing is changed but what the checks are about.
-/

namespace ImportCheck

/-- The place was not asked for, and is not marked, linked to or registered unless it was so before. -/
structure Session.Untouched (s₀ s : Session) (p : Path) : Prop where
  unread : ∀ q ∈ s₀.readsSince s, ¬q.Same p
  record : s.files.get? p = s₀.files.get? p
  valid : s.isValid p = s₀.isValid p
  linked : ∀ f, s.graph.hasDependency f p = true → s₀.graph.hasDependency f p = true
  declared : s.graph.hasDeclaration p = true → s₀.graph.hasDeclaration p = true

namespace Watched

variable {s₀ s : Session} {roots : List Path} {h : History} {t : Task} (hw : Watched s₀ roots h (s, t))

include hw

theorem mem_walkedSince {x : Path} :
    x ∈ s₀.walkedSince s ↔ x ∈ h.endings.map Prod.fst ∨ x ∈ t.walking := by
  have he := hw.traced.ended
  have hsince : s₀.walkedSince s.bare = s₀.walkedSince s := by simp [Session.walkedSince]
  rw [hsince] at he
  rw [← Multiset.mem_coe, he, Multiset.mem_add, Multiset.mem_coe]

theorem read_walked {x : Path} (hx : x ∈ s₀.readsSince s) : x ∈ s₀.walkedSince s := by
  have hsub := hw.kept.sublist
  simp only [Session.readsSince, Session.walkedSince, Session.reads_bare, Session.walks_bare] at hsub
  exact hsub.subset hx

theorem record_of_read {e : Path × String} (he : e ∈ h.reads) :
    s.files.get? e.1 = some { path := e.1, text := e.2, version := 0 } := by
  have htracked : s.isTracked e.1 = true := (hw.kept.returned e he).2
  rw [Session.isTracked_eq_isSome] at htracked
  obtain ⟨r, hr⟩ := Option.isSome_iff_exists.mp htracked
  have hnone : s₀.files.get? e.1 = none := by
    have := hw.kept.fresh _ (hw.kept.returned e he).1
    simpa [Session.isTracked_eq_isSome] using this
  obtain ⟨hv, hs, hl⟩ := hw.kept.new e.1 r hnone hr
  obtain rfl : (r.path, r.text) = e := List.inj_on_of_nodup_map hw.kept.once hl he hs
  rw [hr, ← hv]

theorem untouched {p : Path} (hp : p.kind = .compiled) (hn : p ∉ roots)
    (ha : ∀ q, q ∈ roots ∨ q ∈ h.found → q.Same p → q = p) : s₀.Untouched s p := by
  have hwalked : ∀ q ∈ s₀.walkedSince s, ¬q.Same p := by
    intro q hq hs
    have haim := hw.rooted.aimed q (by simpa [Session.walkedSince] using hq)
    obtain rfl : q = p := ha q (haim.imp id (·.1)) hs
    rcases haim with hroot | ⟨-, hk⟩
    · exact hn hroot
    · exact hk hp
  have hfound : ∀ x ∈ h.found, x.kind ≠ .compiled → ¬x.Same p := by
    intro x hx hk hs
    rw [ha x (.inr hx) hs] at hk
    exact hk hp
  constructor
  case unread => exact fun q hq => hwalked q (hw.read_walked hq)
  case record =>
      cases h₀ : s₀.files.get? p with
      | some r => exact hw.kept.old p r h₀
      | none =>
          by_contra hsome
          obtain ⟨r, hr⟩ := Option.ne_none_iff_exists'.mp hsome
          obtain ⟨-, hs, hl⟩ := hw.kept.new p r h₀ hr
          have hread := (hw.kept.returned _ hl).1
          exact hwalked _ (hw.read_walked (by simpa [Session.readsSince] using hread)) hs
  case valid =>
      have hlast : lastOutcome h.endings p = none := lastOutcome_eq_none.mpr fun e he =>
        hwalked e.1 (hw.mem_walkedSince.mpr (.inl (List.mem_map_of_mem he)))
      have hv := hw.traced.valid p fun x hx => hwalked x (hw.mem_walkedSince.mpr (.inr hx))
      rw [hlast] at hv
      exact hv
  case linked =>
      intro f hf
      refine (hw.rooted.links_new f p hf).resolve_right ?_
      rintro ⟨x, hx, hk, hs⟩
      exact hfound x hx (by simp [hk]) hs
  case declared =>
      intro hd
      refine (hw.rooted.declared_new p hd).resolve_right ?_
      rintro ⟨x, hx, hk, hs⟩
      exact hfound x hx (by simp [hk]) hs

end Watched

/-- At every moment of any number of checks on one session, succeeding or failing, in any order and with a disk
and a resolver that may change all the time: the files that are being walked are different ones, and valid; each
file is read at most once, never when it was tracked before, and its text is stored at version 0; the records
from before stay as they were, and so do the links of files that are not walked, the program and the warm-up; and
a compiled module that is not a root is left alone, if no other spelling of its place is met. -/
theorem checks_footprint (s₀ : Session) (roots : List Path) {h : History} {s : Session} {t : Task}
    (hr : Runs (s₀, .group (roots.map fun r => .start (.check r))) h (s, t)) :
    ((t.walking.map Path.components).Nodup ∧ ∀ x ∈ t.walking, s.isValid x = true) ∧
    ((h.reads.map fun e => e.1.components).Nodup ∧ ∀ e ∈ h.reads, s₀.isTracked e.1 = false ∧
      s.files.get? e.1 = some { path := e.1, text := e.2, version := 0 }) ∧
    (∀ p r, s₀.files.get? p = some r → s.files.get? p = some r) ∧
    (∀ p r, s₀.files.get? p = none → s.files.get? p = some r →
      r.version = 0 ∧ r.path.Same p ∧ (r.path, r.text) ∈ h.reads) ∧
    (∀ p, (∀ f ∈ s₀.walkedSince s, ¬f.Same p) → s.graph.dependencies p = s₀.graph.dependencies p) ∧
    s.program = s₀.program ∧ s.warmed = s₀.warmed ∧
    ∀ p, p.kind = .compiled → p ∉ roots → (∀ q, q ∈ roots ∨ q ∈ h.found → q.Same p → q = p) →
      s₀.Untouched s p := by
  have hw := hr.watched (asks_checks roots)
  refine ⟨⟨hw.traced.apart.distinct, hw.traced.apart.valid⟩, ⟨hw.kept.once, fun e he => ?_⟩, hw.kept.old,
    hw.kept.new, fun p hp => ?_, hw.rooted.program, hw.rooted.warmed, fun p hp hn ha => hw.untouched hp hn ha⟩
  · exact ⟨hw.kept.fresh _ (hw.kept.returned e he).1, hw.record_of_read he⟩
  · have ht := hw.rooted.links_old p (by simpa [Session.walkedSince] using hp)
    exact congrArg PathSet.sorted ht

/-! ## Two checks of one file -/

namespace Cycle

def twice : Task := .group ([first, first].map fun r => .start (.check r))

/-- The second check comes while the first one waits for the text. -/
def overlap : History × (Session × Task) :=
  History.play [(surroundings, [0]), (surroundings, [1]), (surroundings, [0])] (session, twice)

theorem runs_overlap : Runs (session, twice) overlap.1 overlap.2 := History.runs_play _ _

theorem length_overlap : overlap.1.length = 3 := by decide +kernel

theorem reads_overlap : overlap.1.reads = [(first, "import './b';")] := by decide +kernel

theorem walking_overlap : decide (first ∈ overlap.2.2.walking) = true := by decide +kernel

end Cycle

/-- The file is read for both checks once, and its text is stored. -/
theorem checks_footprint_overlap : ∃ h s t, Runs (Cycle.session, Cycle.twice) h (s, t) ∧
    h.length = 3 ∧ h.reads.length = 1 ∧ s.isValid Cycle.first = true ∧
      s.files.get? Cycle.first = some { path := Cycle.first, text := "import './b';", version := 0 } := by
  have hrun := Cycle.runs_overlap
  have hlength := Cycle.length_overlap
  have hreads := Cycle.reads_overlap
  have hwalking := Cycle.walking_overlap
  generalize Cycle.overlap = c at hrun hlength hreads hwalking
  obtain ⟨h, s, t⟩ := c
  obtain ⟨⟨-, hvalid⟩, ⟨-, hstored⟩, -⟩ := checks_footprint Cycle.session [Cycle.first, Cycle.first] hrun
  have hread : (Cycle.first, "import './b';") ∈ h.reads := hreads ▸ List.mem_singleton_self _
  exact ⟨h, s, t, hrun, hlength, hreads ▸ rfl, hvalid _ (of_decide_eq_true hwalking), (hstored _ hread).2⟩

end ImportCheck

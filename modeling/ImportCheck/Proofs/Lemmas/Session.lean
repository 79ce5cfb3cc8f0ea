import ImportCheck.Session.Task
import ImportCheck.Proofs.Lemmas.Graph
import ImportCheck.Proofs.Lemmas.Store

/-!
# The session behind its reports

Most steps of a session also write to its trace. Two sessions are `Alike` when they differ in nothing else
than reports and questions there; the walks that the trace records count.
-/

namespace ImportCheck

/-- The file of a walk that starts. -/
def Occurrence.walk? : Occurrence → Option Path
  | .walk file => some file
  | _ => none

namespace Session

/-- The files whose walks the trace records, in order. -/
def walks (s : Session) : List Path := s.trace.toList.filterMap Occurrence.walk?

/-- Two sessions that differ in reports and in questions to the disk and the resolver only. -/
structure Alike (s s' : Session) : Prop where
  cwd : s'.cwd = s.cwd
  files : s'.files = s.files
  graph : s'.graph = s.graph
  valid : s'.valid = s.valid
  service : s'.service = s.service
  walks : s'.walks = s.walks

namespace Alike

variable {s s' s'' : Session}

theorem refl (s : Session) : s.Alike s := ⟨rfl, rfl, rfl, rfl, rfl, rfl⟩

theorem trans (h : s.Alike s') (h' : s'.Alike s'') : s.Alike s'' :=
  ⟨h'.cwd.trans h.cwd, h'.files.trans h.files, h'.graph.trans h.graph, h'.valid.trans h.valid,
    h'.service.trans h.service, h'.walks.trans h.walks⟩

theorem isValid_eq (h : s.Alike s') (p : Path) : s'.isValid p = s.isValid p := by
  simp only [isValid, h.valid]

theorem isTracked_eq (h : s.Alike s') (p : Path) : s'.isTracked p = s.isTracked p := by
  simp only [isTracked, h.files]

end Alike

theorem alike_record (s : Session) {o : Occurrence} (h : o.walk? = none) : s.Alike (s.record o) :=
  ⟨rfl, rfl, rfl, rfl, rfl, by simp [Session.walks, record, h]⟩

theorem alike_report (s : Session) (e : Event) : s.Alike (s.report e) := s.alike_record rfl

theorem alike_reportAll (s : Session) (es : List Event) : s.Alike (s.reportAll es) := by
  induction es generalizing s with
  | nil => exact .refl s
  | cons e es ih => exact (s.alike_report e).trans (ih (s.report e))

/-! ## Marks -/

theorem isValid_congr (s : Session) {p q : Path} (h : p.Same q) : s.isValid p = s.isValid q :=
  PathMap.contains_congr _ h

/-! ## The service -/

/-- The session after the service was asked for a file's tree. -/
def parsed (s : Session) (file : Path) : Session := (s.sourceTree file).1

theorem sourceTree_of_tracked {s : Session} {file : Path} (h : s.isTracked file = true) :
    ∃ tree, (s.sourceTree file).2 = some tree := by
  have hr : (s.files.get? file).isSome = true := by
    rw [← s.files.contains_eq_isSome]
    exact h
  obtain ⟨r, hr⟩ := Option.isSome_iff_exists.mp hr
  simp only [sourceTree, Service.sourceTree, hr]
  split
  · split
    · exact ⟨_, rfl⟩
    · exact ⟨_, rfl⟩
  · exact ⟨_, rfl⟩

theorem sourceTree_of_untracked {s : Session} {file : Path} (h : s.isTracked file = false) :
    s.sourceTree file = (s, none) := by
  have hr : s.files.get? file = none := by
    have hc := s.files.contains_eq_isSome file
    rw [show s.files.contains file = false from h] at hc
    simpa using hc.symm
  simp only [sourceTree, Service.sourceTree, hr]

/-- The imports of a tracked file are found, and finding them only fills the service's memory. -/
theorem findImports_of_tracked {s : Session} {file : Path} (h : s.isTracked file = true) :
    ∃ found, (s.findImports file).2 = .ok found ∧ (s.parsed file).Alike (s.findImports file).1 := by
  obtain ⟨tree, ht⟩ := sourceTree_of_tracked h
  unfold findImports
  split
  · next hn => simp [hn] at ht
  · next s' t hs =>
    have hp : s.parsed file = s' := by simp [parsed, hs]
    rw [hp]
    exact ⟨_, rfl, alike_reportAll _ _⟩

theorem findImports_of_untracked {s : Session} {file : Path} (h : s.isTracked file = false) :
    ∃ e, (s.findImports file).2 = .error e := by
  simp only [findImports, sourceTree_of_untracked h]
  exact ⟨_, rfl⟩

theorem tracked_of_found {s : Session} {file : Path} {found : List Dependency}
    (h : (s.findImports file).2 = .ok found) : s.isTracked file = true := by
  cases ht : s.isTracked file with
  | true => rfl
  | false =>
      obtain ⟨e, he⟩ := findImports_of_untracked ht
      rw [he] at h
      cases h

end Session

end ImportCheck

import ImportCheck.Proofs.Lemmas.Source
import ImportCheck.Proofs.Walk.Simulation

/-!
# What the service remembers

A remembered parse is one of a text that the store holds or held: a text that is replaced gets a new version.
So the parses of a session tell nothing that its store does not tell, and a session that starts over with the
same store finds the same imports.
-/

namespace ImportCheck

namespace Session

/-- Each parse that is remembered of the place is of a tracked file, of no later version, and of the stored text
if the versions agree. -/
def CoherentAt (s : Session) (p : Path) : Prop :=
  ∀ version tree, s.service.parsed.get? p = some (version, tree) →
    ∃ r, s.files.get? p = some r ∧ version ≤ r.version ∧ (version = r.version → tree.IsParse p r.text)

def Coherent (s : Session) : Prop := ∀ p, s.CoherentAt p

variable {s s' : Session} {w : Surroundings} {x p : Path}

/-! ## One place -/

theorem coherentAt_of_same (h : s.CoherentAt p) (hf : s'.files.get? p = s.files.get? p)
    (hs : s'.service.parsed.get? p = s.service.parsed.get? p) : s'.CoherentAt p := by
  unfold CoherentAt
  rw [hf, hs]
  exact h

theorem coherentAt_of_no_parse (h : s.service.parsed.get? p = none) : s.CoherentAt p := by
  intro version tree hp
  rw [h] at hp
  cases hp

theorem CoherentAt.of_same_place (h : s.CoherentAt p) (hs : p.Same x) : s.CoherentAt x := by
  intro version tree hx
  obtain ⟨r, hr, hle, ht⟩ := h version tree ((s.service.parsed.get?_congr hs).trans hx)
  exact ⟨r, (s.files.get?_congr hs).symm.trans hr, hle, fun hv => (ht hv).of_same hs⟩

theorem CoherentAt.isParse_treeOf (h : s.CoherentAt x) {r : SourceRecord}
    (hr : ∀ r', s.files.get? x = some r' → r' = r) : (s.treeOf x r).IsParse x r.text := by
  unfold treeOf
  split
  · next version tree hp =>
    obtain ⟨r', hr', -, ht⟩ := h version tree hp
    obtain rfl := hr r' hr'
    split
    · next hv => exact ht hv
    · exact SourceTree.isParse_ofText ..
  · exact SourceTree.isParse_ofText ..

theorem CoherentAt.updateFile (h : s.CoherentAt p) (x : Path) (text : String) (checked : Bool) :
    (s.updateFile x text checked).1.CoherentAt p := by
  intro version tree hp
  obtain ⟨r, hr, hle, ht⟩ := h version tree hp
  have hget : (s.updateFile x text checked).1.files.get? p = _ :=
    s.files.get?_update x text checked p
  by_cases hs : x.Same p
  · have hx : s.files.get? x = some r := (s.files.get?_congr hs).trans hr
    rw [if_pos hs, hx] at hget
    by_cases hc : checked ∧ r.text = text
    · exact ⟨r, hget.trans (by simp [hc]), hle, ht⟩
    · refine ⟨{ r with text, version := r.version + 1 }, hget.trans (by simp [hc]), ?_, ?_⟩
      · exact Nat.le_succ_of_le hle
      · rintro rfl
        exact absurd hle (Nat.not_succ_le_self _)
  · exact ⟨r, hget.trans (by rw [if_neg hs, hr]), hle, ht⟩

theorem CoherentAt.parsed (h : s.CoherentAt p) (hx : s.isTracked x = true) : (s.parsed x).CoherentAt p := by
  obtain ⟨r, hr⟩ := Option.isSome_iff_exists.mp ((isTracked_eq_isSome s x).symm.trans hx)
  rcases service_parsed hr with hs | hs
  · exact coherentAt_of_same h rfl (by rw [hs])
  · intro version tree hp
    rw [hs, PathMap.get?_insert] at hp
    by_cases hsame : x.Same p
    · rw [if_pos hsame] at hp
      cases hp
      refine ⟨r, (s.files.get?_congr hsame).symm.trans hr, le_rfl, fun _ => ?_⟩
      refine ((h.of_same_place hsame.symm).isParse_treeOf fun r' hr' => ?_).of_same hsame
      exact Option.some.inj (hr'.symm.trans hr)
    · rw [if_neg hsame] at hp
      exact h version tree hp

/-! ## All places -/

theorem coherent_of_same_parts (h : s.Coherent) (hf : s'.files = s.files) (hs : s'.service = s.service) :
    s'.Coherent :=
  fun p => coherentAt_of_same (h p) (by rw [hf]) (by rw [hs])

theorem coherent_of_no_parses (h : s.service.parsed = ∅) : s.Coherent :=
  fun p => coherentAt_of_no_parse (by rw [h]; rfl)

theorem Coherent.texts_treeOf (h : s.Coherent) {r : SourceRecord}
    (hr : ∀ r', s.files.get? x = some r' → r' = r) :
    (s.treeOf x r).texts s.cwd = (SourceTree.ofText x r.text).texts s.cwd :=
  ((h x).isParse_treeOf hr).texts s.cwd

theorem Coherent.updateFile (h : s.Coherent) (x : Path) (text : String) (checked : Bool) :
    (s.updateFile x text checked).1.Coherent :=
  fun p => CoherentAt.updateFile (h p) x text checked

theorem Coherent.parsed (h : s.Coherent) (hx : s.isTracked x = true) : (s.parsed x).Coherent :=
  fun p => CoherentAt.parsed (h p) hx

end Session

variable {w : Surroundings} {c c' : Session × Ledger}

theorem LedgerStep.coherent (ht : LedgerStep w c c') (h : c.1.Coherent) : c'.1.Coherent := by
  cases ht with
  | note ha => exact Session.coherent_of_same_parts h ha.files ha.service
  | store _ => exact h.updateFile _ _ _
  | scan hf => exact h.parsed (Session.tracked_of_found hf)
  | _ => exact Session.coherent_of_same_parts h rfl rfl

theorem LedgerSteps.coherent (ht : LedgerSteps w c c') (h : c.1.Coherent) : c'.1.Coherent := by
  induction ht with
  | refl => exact h
  | tail _ ht ih => exact ht.coherent ih

/-! ## Starting over -/

namespace Session

/-- A session that has the files of another, and has done nothing yet. -/
def afresh (s : Session) : Session :=
  { s with
    graph := ∅
    valid := ∅
    service := {}
    program := none
    warmed := false
    trace := #[] }

theorem Coherent.knowAlike_afresh {s : Session} (h : s.Coherent) (w : Surroundings) (f : Path) :
    s.KnowAlike s.afresh w f := by
  refine ⟨?_, Iff.rfl⟩
  rw [specifiers_eq, specifiers_eq]
  have hr : s.afresh.recordFor w f = s.recordFor w f := rfl
  rw [hr]
  cases hrecord : s.recordFor w f with
  | none => rfl
  | some r =>
      refine congrArg (fun texts => (some texts).getD []) (h.texts_treeOf fun r' hr' => ?_).symm
      simpa [recordFor, hr'] using hrecord

end Session

end ImportCheck

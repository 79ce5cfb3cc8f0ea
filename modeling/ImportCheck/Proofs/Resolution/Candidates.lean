import ImportCheck.Proofs.Path.FileName
import ImportCheck.Proofs.Walk.Questions
import ImportCheck.Resolution.Table

/-!
# Candidates for a specifier

A specifier that is a declaration stands for itself. For any other the resolver is asked for one candidate after the
other until it finds one, and may answer each question as it likes at that moment.
-/

namespace ImportCheck

namespace Specifier

/-- The last component is a name with a point that is not its first character. -/
def Extended (specifier : String) : Prop :=
  ∃ name, (Path.ofString specifier).components.getLast? = some (.name name) ∧ '.' ∈ name.chars.tail

variable {specifier : String}

theorem hasExtension_iff : hasExtension specifier = true ↔ Extended specifier := Path.isSome_extension?_iff _

instance (specifier : String) : Decidable (Extended specifier) := decidable_of_iff _ hasExtension_iff

/-- A text that ends as declarations do has an extension. -/
theorem extended_of_isDeclaration (h : isDeclaration specifier = true) : Extended specifier := by
  obtain ⟨front, hfront⟩ := List.isSuffixOf_iff_suffix.mp h
  obtain ⟨before, last, hs, stem, hstem⟩ :=
    Path.exists_segments_ofChars_append front { chars := DependencyKind.declarationSuffix, no_slash := by decide }
  rw [hfront] at hs
  have hpoint : '.' ∈ last.chars.tail := by
    rw [← hstem]
    cases stem <;> simp [DependencyKind.declarationSuffix]
  have hname : last.IsName := by
    have hlong : 5 ≤ last.chars.length := by
      rw [← hstem]
      simp [DependencyKind.declarationSuffix]
    refine ⟨?_, ?_⟩
    · rintro (rfl | rfl) <;> simp [Segment.empty, Segment.dot] at hlong
    · rintro rfl
      simp [Segment.dotDot] at hlong
  exact ⟨last, Path.getLast?_components hs hname, hpoint⟩

/-- All that may be put to the resolver, in order. -/
def inOrder (specifier : String) : List String :=
  if Extended specifier then [specifier] else [specifier ++ ".ts", specifier ++ ".d.ts", specifier]

theorem inOrder_eq : inOrder specifier = (candidates specifier).1 :: (candidates specifier).2 := by
  unfold inOrder candidates
  by_cases h : Extended specifier
  · simp [h, hasExtension_iff.mpr h]
  · simp [h, mt hasExtension_iff.mp h]

theorem direct?_eq : direct? specifier = if isDeclaration specifier then some (.ofString specifier) else none := by
  unfold direct?
  by_cases h : isDeclaration specifier = true
  · simp [h, hasExtension_iff.mpr (extended_of_isDeclaration h)]
  · simp [h]

end Specifier

theorem Session.calls_report (s : Session) (e : Event) : (s.report e).calls = s.calls := by
  rw [← calls_bare, bare_report, calls_bare]

theorem Session.calls_reportAll (s : Session) (es : List Event) : (s.reportAll es).calls = s.calls := by
  rw [← calls_bare, bare_reportAll, calls_bare]

/-- The answers to candidates: each by the resolver of the moment at which it is awaited, and the first of those
comes after the moment of the first question. -/
def History.answers (directory : Path) (asked : List String) (h : History) : List (Except ResolverFault Path) :=
  List.zipWith (fun candidate m => (m.around.resolver.answer directory candidate).result) asked h.tail

theorem History.answers_concat {h : History} {refused : List String} (hl : h.length = refused.length + 1)
    (directory : Path) (candidate : String) (m : Moment) :
    History.answers directory (refused ++ [candidate]) (h ++ [m]) =
      History.answers directory refused h ++ [(m.around.resolver.answer directory candidate).result] := by
  have hne : h ≠ [] := List.ne_nil_of_length_eq_add_one hl
  rw [answers, List.tail_append_of_ne_nil hne, List.zipWith_append (by simp [hl])]
  rfl

/-- How a request for the target of a specifier was answered. Every question but the last was answered with a fault,
and the last answer counts: it is the target, or a fault when there are no more candidates. -/
structure Inquiry (s : Session) (file : Path) (specifier : String) (h : History) (s' : Session) (o : Outcome)
    (asked : List String) : Prop where
  first : asked <+: Specifier.inOrder specifier
  calls : s'.calls = s.calls ++ asked.map (file.directory, ·)
  moments : h.length = asked.length + 1
  refused : ∀ a ∈ (h.answers file.directory asked).dropLast, a.isOk = false
  outcome : (∃ target, (h.answers file.directory asked).getLast? = some (.ok target) ∧ o = .ok (.path target)) ∨
    asked = Specifier.inOrder specifier ∧
      ∃ cause, (h.answers file.directory asked).getLast? = some (.error cause) ∧ o = .error (.resolution file cause)

/-- Where a request for the target of a specifier stands after a history. -/
inductive Asking (s : Session) (file : Path) (specifier : String) (h : History) : Session × Task → Prop
  | begun (hh : h = []) : Asking s file specifier h (s, .start (.resolve file specifier))
  | direct {s' : Session} (hd : Specifier.isDeclaration specifier = true) (hc : s'.calls = s.calls)
      (hl : h.length = 1) : Asking s file specifier h (s', .done (.ok (.path (.ofString specifier))))
  | waiting {s' : Session} {refused rest : List String} {candidate : String} {due : Nat}
      (hd : Specifier.isDeclaration specifier = false)
      (ho : Specifier.inOrder specifier = refused ++ candidate :: rest)
      (hc : s'.calls = s.calls ++ (refused ++ [candidate]).map (file.directory, ·))
      (hl : h.length = refused.length + 1) (hf : ∀ a ∈ h.answers file.directory refused, a.isOk = false) :
      Asking s file specifier h (s', .resolving file specifier candidate rest .deliver due)
  | answered {s' : Session} {o : Outcome} {asked : List String} (hd : Specifier.isDeclaration specifier = false)
      (ha : Inquiry s file specifier h s' o asked) : Asking s file specifier h (s', .done o)

namespace Asking

variable {s s' : Session} {file : Path} {specifier candidate : String} {h : History} {c : Session × Task}
  {refused rest : List String} {m : Moment}

theorem start (w : Surroundings) (now : Nat) (m : Moment) :
    Asking s file specifier [m] (Task.startResolving w now s file specifier .deliver) := by
  rw [Task.startResolving, Specifier.direct?_eq]
  cases hd : Specifier.isDeclaration specifier with
  | true => exact .direct hd (s.calls_report _) rfl
  | false =>
      refine .waiting hd (show _ = [] ++ _ from Specifier.inOrder_eq) ?_ rfl (by simp [History.answers])
      exact s.calls_record_call _ _

/-- The answer to a question ends the request, or is a fault after which the next candidate is put. -/
theorem finish (hd : Specifier.isDeclaration specifier = false)
    (ho : Specifier.inOrder specifier = refused ++ candidate :: rest)
    (hc : s'.calls = s.calls ++ (refused ++ [candidate]).map (file.directory, ·))
    (hl : h.length = refused.length + 1) (hf : ∀ a ∈ h.answers file.directory refused, a.isOk = false) (m : Moment) :
    Asking s file specifier (h ++ [m]) (Task.finishCall m.around m.now s' file specifier candidate rest .deliver) := by
  have hanswers := History.answers_concat hl file.directory candidate m
  have hcalls : ∀ es, (s'.reportAll es).calls = s.calls ++ (refused ++ [candidate]).map (file.directory, ·) :=
    fun es => (s'.calls_reportAll es).trans hc
  have hinit : refused ++ [candidate] <+: Specifier.inOrder specifier := ⟨rest, by simp [ho]⟩
  have hmoments : (h ++ [m]).length = (refused ++ [candidate]).length + 1 := by simp [hl]
  have hrefused : ∀ a ∈ ((h ++ [m]).answers file.directory (refused ++ [candidate])).dropLast, a.isOk = false := by
    rwa [hanswers, List.dropLast_concat]
  have hlast : ∀ {a}, (m.around.resolver.answer file.directory candidate).result = a →
      ((h ++ [m]).answers file.directory (refused ++ [candidate])).getLast? = some a := by
    rintro a rfl
    rw [hanswers, List.getLast?_concat]
  unfold Task.finishCall
  simp only
  split
  · next target hr =>
    exact .answered hd ⟨hinit, (Session.calls_report _ _).trans (hcalls _), hmoments, hrefused,
      .inl ⟨target, hlast hr, rfl⟩⟩
  · next cause next rest hr =>
    refine .waiting hd (show _ = (refused ++ [candidate]) ++ _ by simpa using ho) ?_ hmoments ?_
    · refine (Session.calls_record_call _ _ _).trans ?_
      rw [hcalls]
      simp
    · rw [hanswers]
      refine List.forall_mem_append.mpr ⟨hf, List.forall_mem_singleton.mpr ?_⟩
      rw [hr]
      rfl
  · next cause hr =>
    exact .answered hd ⟨hinit, hcalls _, hmoments, hrefused, .inr ⟨ho.symm, cause, hlast hr, rfl⟩⟩

theorem step (ha : Asking s file specifier h (m.session, m.task)) (hp : m.task.waitsAt m.place = true) :
    Asking s file specifier (h ++ [m]) m.after := by
  obtain ⟨w, now, place, s', t⟩ := m
  cases ha with
  | begun hh =>
      subst hh
      cases place with
      | nil => exact start w now _
      | cons i place => cases hp
  | waiting hd ho hc hl hf =>
      cases place with
      | nil => exact finish hd ho hc hl hf ⟨w, now, [], s', _⟩
      | cons i place => cases hp
  | direct _ _ _ => exact absurd hp (by simp [Task.waitsAt_done])
  | answered _ _ => exact absurd hp (by simp [Task.waitsAt_done])

theorem of_runs (hr : Runs (s, .start (.resolve file specifier)) h c) : Asking s file specifier h c := by
  induction hr with
  | rest => exact .begun rfl
  | step _ hp ih => exact ih.step hp

end Asking

/-- A specifier that ends as declarations do has an extension, and stands for itself without a question. For any other,
the resolver is asked in the directory of the file for the candidates in order, up to the first that it finds, whatever
it answers at which moment; what it finds is the target as it is, and when it finds none the last fault counts. A
request that is not answered yet can go on, and is answered after at most four moments. -/
theorem resolve_asks_in_order (s : Session) (file : Path) (specifier : String) :
    (Specifier.isDeclaration specifier = true → Specifier.Extended specifier) ∧
      ∀ h c, Runs (s, .start (.resolve file specifier)) h c →
        h.length ≤ 4 ∧ (c.2.waitsAt [] = true ∨ ∃ o, c.2 = .done o) ∧
          ∀ o, c.2 = .done o →
            (Specifier.isDeclaration specifier = true →
              o = .ok (.path (.ofString specifier)) ∧ c.1.calls = s.calls) ∧
            (Specifier.isDeclaration specifier = false → ∃ asked, Inquiry s file specifier h c.1 o asked) := by
  refine ⟨Specifier.extended_of_isDeclaration, fun h c hr => ?_⟩
  have hcount : ∀ {asked : List String}, asked <+: Specifier.inOrder specifier → asked.length ≤ 3 := by
    intro asked hp
    refine hp.length_le.trans ?_
    unfold Specifier.inOrder
    split <;> simp
  cases Asking.of_runs hr with
  | begun hh =>
      subst hh
      exact ⟨Nat.zero_le _, .inl rfl, nofun⟩
  | direct hd hc hl =>
      refine ⟨by simp [hl], .inr ⟨_, rfl⟩, ?_⟩
      rintro o ⟨⟩
      exact ⟨fun _ => ⟨rfl, hc⟩, fun hd' => absurd hd (by simp [hd'])⟩
  | @waiting s' refused rest candidate due hd ho hc hl hf =>
      have hlength := hcount (show refused ++ [candidate] <+: _ from ⟨rest, by simp [ho]⟩)
      simp only [List.length_append, List.length_singleton] at hlength
      exact ⟨by omega, .inl rfl, nofun⟩
  | @answered s' o asked hd ha =>
      have hlength := hcount ha.first
      refine ⟨by rw [ha.moments]; omega, .inr ⟨o, rfl⟩, ?_⟩
      rintro o ⟨⟩
      exact ⟨fun hd' => absurd hd (by simp [hd']), fun _ => ⟨asked, ha⟩⟩

/-! ## A file that comes too late -/

namespace Late

def file : Path := .ofString "/p/a.ts"

def source : Path := .ofString "/p/b.ts"

def declaration : Path := .ofString "/p/b.d.ts"

def session : Session := .new {} (.ofString "/p") .runtime .standard

def around (files : List Path) : Surroundings where
  disk := MemoryDisk.disk ∅
  resolver := KnownFiles.resolver ⟨[], .ofList files⟩

/-- There is no file until the first candidate has been refused, and then there are two. -/
def run : History × (Session × Task) :=
  History.play [(around [], []), (around [], []), (around [source, declaration], [])]
    (session, .start (.resolve file "./b"))

theorem runs : Runs (session, .start (.resolve file "./b")) run.1 run.2 := History.runs_play _ _

theorem done_run : run.2.2 = .done (.ok (.path declaration)) := by rfl

end Late

open Late in
/-- The second candidate is found, though the file of the first is there by now. -/
theorem resolve_asks_in_order_late :
    Runs (session, .start (.resolve file "./b")) run.1 run.2 ∧ run.2.2 = .done (.ok (.path declaration)) ∧
      (∃ asked, Inquiry session file "./b" run.1 run.2.1 (.ok (.path declaration)) asked) ∧
        run.2.1.calls = [(.ofString "/p", "./b.ts"), (.ofString "/p", "./b.d.ts")] :=
  ⟨runs, done_run, (((resolve_asks_in_order session file "./b").2 _ _ runs).2.2 _ done_run).2 (by decide), by decide⟩

end ImportCheck

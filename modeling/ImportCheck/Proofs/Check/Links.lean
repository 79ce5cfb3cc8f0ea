import ImportCheck.Proofs.Check.Outcome
import ImportCheck.Proofs.Walk.Linked

/-!
# Links of a file whose text changes

Checks of files run beside notices that a file has changed, and the disk changes as it likes. Each source file
that the text of a valid file names is linked; but a walk that was under way before the text changed goes on with
what it has found, so that a link of the former text can be added after the links were dropped.
-/

namespace ImportCheck

variable {w : Surroundings} {s : Session} {f : Path}

/-- The request checks a file, or tells that a file has changed. -/
inductive Request.Rechecks : Request → Prop
  | check (x : Path) : Rechecks (.check x)
  | fileChanged (x : Path) : Rechecks (.fileChanged x)

theorem served_starts {requests : List Request} (hc : s.Coherent) (hq : ∀ q ∈ requests, q.Rechecks) :
    Served s (Task.group (requests.map .start)).waiting := by
  constructor
  case coherent => exact hc
  case kinds =>
      intro l hl
      obtain ⟨q, hmem, rfl⟩ := Task.waitingIn_starts.mp hl
      cases hq q hmem with
      | check x => exact .inl (.check x)
      | fileChanged x => exact .inr (.fileChanged x)
  case walked =>
      intro l hl g hg
      obtain ⟨q, hmem, rfl⟩ := Task.waitingIn_starts.mp hl
      cases hq q hmem <;> simp [Task.Serves, Task.asker?, Task.reads?] at hg

theorem Lasting.atRest {requests : List Request} {m : Moment} {others L : Multiset Task} {since : History}
    (h : Lasting w f m others since s L) (hq : ∀ q ∈ requests, q.Rechecks)
    (hl : ∀ l ∈ L, ∃ q ∈ requests, l = .start q) :
    s.isTracked f = true ∧ ∀ q, s.graph.hasDependency f q = true ↔
      ∃ x, (Sought w f others x ∨ History.Had w f (m :: since) x) ∧ x.Same q := by
  constructor
  · refine h.linked.tracked.resolve_left fun hf => ?_
    obtain ⟨l, hmem, hread⟩ := (Multiset.mem_filterMap _ _).mp hf
    obtain ⟨q, -, rfl⟩ := hl l hmem
    cases hread
  · refine h.linked.hasDependency_iff fun x => not_sought_start (fun q hmem g t heq => ?_) hl
    cases heq ▸ hq q hmem

/-- What a valid file is linked to when nothing is under way. It is tracked, and each source file that its text
names is linked. Its links are the source files that were named by the texts it has had since its last walk
began, and those that older walks were still looking for then; so if there was no work for an older walk of the
file, they are the source files that its text names. -/
theorem links_of_valid (options : CompilerOptions) (cwd : Path) (runtime defaultLib : LibFile) (files : FileStore)
    (requests : List Request) (hq : ∀ q ∈ requests, q.Rechecks) {h : History} {s : Session} {parts : List Task}
    (hr : Runs ({ Session.new options cwd runtime defaultLib with files }, .group (requests.map .start)) h
      (s, .group parts))
    (w : Surroundings) (hw : ∀ m ∈ h, m.around.resolver = w.resolver)
    (hrest : ∀ t ∈ parts, (∃ q ∈ requests, t = .start q) ∨ ∃ o, t = .done o)
    (f : Path) (hv : s.isValid f = true) (hs : ∀ p ∈ s.walks, p.Same f → p = f) :
    s.isTracked f = true ∧ (∀ x ∈ s.sources w f, s.graph.hasDependency f x = true) ∧
    ∃ before m since others, h = before ++ m :: since ∧ m.Enters f others ∧ f ∉ m.after.1.walkedSince s ∧
      (∀ q, s.graph.hasDependency f q = true ↔
        ∃ x, (Sought w f others x ∨ History.Had w f (m :: since) x) ∧ x.Same q) ∧
      ((∀ l ∈ others, ¬l.Serves f) →
        ∀ q, s.graph.hasDependency f q = true ↔ ∃ x ∈ s.sources w f, x.Same q) := by
  have hserved : Served { Session.new options cwd runtime defaultLib with files }
      (Task.group (requests.map .start)).waiting :=
    served_starts (Session.coherent_of_no_parses rfl) hq
  have hinvalid : Session.isValid { Session.new options cwd runtime defaultLib with files } f = false := rfl
  have hstarts : ∀ l ∈ (Task.group parts).waiting, ∃ q ∈ requests, l = .start q := by
    intro l hl
    obtain ⟨t, ht, hl⟩ := Task.mem_waitingIn.mp hl
    rcases hrest t ht with ⟨q, hmem, rfl⟩ | ⟨o, rfl⟩
    · exact ⟨q, hmem, Multiset.mem_singleton.mp hl⟩
    · exact absurd hl (Multiset.notMem_zero l)
  obtain ⟨before, m, since, others, hh, hlast⟩ := hr.lasting hserved hinvalid hw hs hv
  obtain ⟨htracked, hlinks⟩ := hlast.atRest hq hstarts
  have hsources : ∀ x ∈ s.sources w f, s.graph.hasDependency f x = true := fun x hx =>
    (hlinks x).mpr ⟨x, hlast.linked.sources x hx, Path.Same.refl x⟩
  refine ⟨htracked, hsources, before, m, since, others, hh, hlast.enters, hlast.last, hlinks, fun hn q => ?_⟩
  have hunread : f ∉ others.filterMap Task.reads? := fun hf => by
    obtain ⟨l, hl, hread⟩ := (Multiset.mem_filterMap _ _).mp hf
    exact hn l hl (.inr hread)
  constructor
  · intro hlink
    obtain ⟨x, hx | hx, hsame⟩ := (hlinks q).mp hlink
    · obtain ⟨-, l, hl, t, hseeks⟩ := hx
      exact absurd (.inl hseeks.asker?) (hn l hl)
    · exact ⟨x, (hlast.sole hunread).had x hx, hsame⟩
  · rintro ⟨x, hx, hsame⟩
    rw [← s.graph.hasDependency_congr (Path.Same.refl f) hsame]
    exact hsources x hx

/-! ## A text that changes under a walk -/

namespace Edited

open ImportCheck.Cycle (first second)

def third : Path := .ofString "/p/c.ts"

def known : KnownFiles where
  aliases := []
  files := { entries := [(first, ()), (second, ()), (third, ())], distinct := by decide }

def before : Surroundings where
  disk := MemoryDisk.disk {
    entries := [(first, "import './b';"), (second, ""), (third, "")]
    distinct := by decide }
  resolver := known.resolver

def after : Surroundings where
  disk := MemoryDisk.disk {
    entries := [(first, "import './c';"), (second, ""), (third, "")]
    distinct := by decide }
  resolver := known.resolver

def session : Session := { Session.new {} (.ofString "/p") .runtime .standard with files := ∅ }

def requests : List Request := [.fileChanged first, .check first, .fileChanged first, .check first]

/-- The first check waits for the resolver while the text is replaced and the second check is made. -/
def plan : List (Surroundings × List Nat) :=
  [(before, [0]), (before, [0]), (before, [1]), (before, [1, 0]), (after, [2]), (after, [2]), (after, [3]),
    (after, [3, 0]), (after, [3, 0]), (after, [3, 0]), (after, [1, 0]), (after, [1, 0])]

def run : History × (Session × Task) := History.play plan (session, .group (requests.map .start))

theorem returned_run : run.2.2.returned = true := by decide +kernel

theorem walks_run : run.2.1.walks = [first, first, third, second] := by decide +kernel

/-- The text names the third file, and the link to the second one is there. -/
theorem links_run : run.2.1.isValid first = true ∧ run.2.1.sources after first = [third] ∧
    run.2.1.graph.hasDependency first second = true := by decide +kernel

theorem not_same : ¬third.Same second := by decide

theorem resolver_run {m : Moment} (hm : m ∈ run.1) : m.around.resolver = after.resolver := by
  obtain ⟨e, he, hm⟩ := History.around_play hm
  have hplan : ∀ e ∈ plan, e.1.resolver = after.resolver := by simp [plan, before, after]
  rw [hm, hplan e he]

/-- All requests are answered, with one resolver all the time. -/
theorem runs : ∃ h s parts, run = (h, s, .group parts) ∧
    Runs (session, .group (requests.map .start)) h (s, .group parts) ∧
    (∀ m ∈ h, m.around.resolver = after.resolver) ∧ ∀ t ∈ parts, ∃ o, t = .done o := by
  have hrun : Runs (session, .group (requests.map .start)) run.1 run.2 := History.runs_play _ _
  have hreturned := returned_run
  have hresolver : ∀ m ∈ run.1, m.around.resolver = after.resolver := fun m => resolver_run
  generalize run = c at hrun hreturned hresolver
  obtain ⟨h, s, t⟩ := c
  obtain ⟨parts, rfl, hdone⟩ := Task.exists_parts hreturned
  exact ⟨h, s, parts, rfl, hrun, hresolver, hdone⟩

end Edited

open Edited in
/-- Nothing is under way, and a valid file has a link that only its former text names. -/
theorem links_linger : ∃ h s parts, Runs (session, .group (requests.map .start)) h (s, .group parts) ∧
    (∀ m ∈ h, m.around.resolver = after.resolver) ∧ (∀ t ∈ parts, ∃ o, t = .done o) ∧
    s.isValid Cycle.first = true ∧ s.graph.hasDependency Cycle.first Cycle.second = true ∧
    ¬∃ x ∈ s.sources after Cycle.first, x.Same Cycle.second := by
  obtain ⟨h, s, parts, heq, hrun, hresolver, hdone⟩ := runs
  obtain ⟨hv, hsources, hlink⟩ := links_run
  rw [heq] at hv hsources hlink
  refine ⟨h, s, parts, hrun, hresolver, hdone, hv, hlink, ?_⟩
  rw [hsources]
  simpa using not_same

open Edited in
/-- When the last walk of the file began, an older one had work to do. -/
theorem links_of_valid_edited : ∃ before m since others, run.1 = before ++ m :: since ∧
    m.Enters Cycle.first others ∧ ∃ l ∈ others, l.Serves Cycle.first := by
  obtain ⟨h, s, parts, heq, hrun, hresolver, hdone⟩ := runs
  obtain ⟨hv, hsources, hlink⟩ := links_run
  have hwalks := walks_run
  rw [heq] at hv hsources hlink hwalks ⊢
  have hrequests : ∀ q ∈ requests, q.Rechecks := by
    simp [requests, Request.Rechecks.check, Request.Rechecks.fileChanged]
  have hspelled : ∀ p ∈ s.walks, p.Same Cycle.first → p = Cycle.first := by
    rw [hwalks]
    decide
  obtain ⟨-, -, before, m, since, others, hh, henters, -, -, hexact⟩ := links_of_valid {} (.ofString "/p")
    .runtime .standard ∅ requests hrequests hrun after hresolver (fun t ht => .inr (hdone t ht)) Cycle.first hv
    hspelled
  refine ⟨before, m, since, others, hh, henters, ?_⟩
  -- without older work the link to the second file would have to come from the text
  by_contra hn
  obtain ⟨x, hx, hsame⟩ := (hexact (by simpa using hn) Cycle.second).mp hlink
  rw [hsources, List.mem_singleton] at hx
  exact not_same (hx ▸ hsame)

end ImportCheck

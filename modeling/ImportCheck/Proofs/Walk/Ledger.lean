import ImportCheck.Proofs.Imports.Basic
import ImportCheck.Proofs.Walk.Step
import Mathlib.Algebra.Order.Group.Multiset
import Mathlib.Data.Multiset.Filter

/-!
# What a check can do

The ledger of a task lists what its leaves and its open walks are at, without the tree they stand in. `LedgerStep`
says once what checks can do to a session and to the ledger, one mark, link or text at a time.
-/

namespace ImportCheck

namespace Session

/-- A walk starts: the file's links go, and it is marked. -/
def enter (s : Session) (x : Path) : Session :=
  { s with graph := s.graph.clearDependencies x, valid := s.valid.add x }.record (.walk x)

/-- A walk fails: the mark goes, and so does the registration that was made for the walk. -/
def drop (s : Session) (x : Path) (registered : Bool) : Session :=
  { s with
    valid := s.valid.erase x
    graph := if registered then s.graph.removeDeclaration x else s.graph }

def register (s : Session) (x : Path) : Session := { s with graph := (s.graph.addDeclaration x).1 }

def link (s : Session) (f x : Path) : Session := { s with graph := s.graph.addDependency f x }

end Session

/-- How far a part of a check has come. -/
inductive Stage
  | calling (file : Path) (registered : Bool)
  | seeking (file : Path) (specifier : String) (answer : Except ResolverFault Path)
  | reading (file : Path) (registered : Bool)
  | scanning (file : Path) (registered : Bool)
  | walking (file : Path) (registered : Bool)
  | passed
  | failed (e : Failure)
  | foreign

def Stage.open? : Stage → Option Path
  | .reading x _ => some x
  | .scanning x _ => some x
  | .walking x _ => some x
  | _ => none

def Stage.Closed : Stage → Prop
  | .passed => True
  | .failed _ => True
  | _ => False

/-- A part of a check, and the file whose walk it belongs to, if it belongs to one. -/
structure Post where
  owner : Option Path
  stage : Stage

abbrev Ledger := Multiset Post

/-- The posts of a walk that has just looked at its file. -/
def Surroundings.seekers (w : Surroundings) (f : Path) (specifiers : List String) : Ledger :=
  ↑(specifiers.map fun t => (⟨some f, .seeking f t (w.resolve f t)⟩ : Post))

namespace Task

variable (w : Surroundings)

mutual
def posts (owner : Option Path) : Task → Ledger
  | start (.check f) => {⟨owner, .calling f false⟩}
  | start (.follow f t) => {⟨owner, .seeking f t (w.resolve f t)⟩}
  | start _ => {⟨owner, .foreign⟩}
  | reading f (.walk registered) _ => {⟨owner, .reading f registered⟩}
  | reading .. => {⟨owner, .foreign⟩}
  | resolving f t c rest .follow _ => {⟨owner, .seeking f t (w.resolver.first f.directory c rest)⟩}
  | resolving _ _ _ _ .deliver _ => {⟨owner, .foreign⟩}
  | walk f registered parts => {⟨owner, .walking f registered⟩} + postsOf (some f) parts
  | group parts => postsOf owner parts
  | done (.ok _) => {⟨owner, .passed⟩}
  | done (.error e) => {⟨owner, .failed e⟩}

def postsOf (owner : Option Path) : List Task → Ledger
  | [] => 0
  | t :: ts => posts owner t + postsOf owner ts
end

end Task

/-- The smallest steps that checks consist of. -/
inductive LedgerStep (w : Surroundings) : Session × Ledger → Session × Ledger → Prop
  | note {s s' : Session} {M : Ledger} (h : s.Alike s') : LedgerStep w (s, M) (s', M)
  | unresolved {s : Session} {M : Ledger} {o : Option Path} {f : Path} {t : String}
      {cause : ResolverFault} :
      LedgerStep w (s, M + {⟨o, .seeking f t (.error cause)⟩}) (s, M + {⟨o, .failed (.resolution f cause)⟩})
  | compiled {s : Session} {M : Ledger} {o : Option Path} {f x : Path} {t : String}
      (hk : x.kind = .compiled) :
      LedgerStep w (s, M + {⟨o, .seeking f t (.ok x)⟩}) (s, M + {⟨o, .passed⟩})
  | known {s : Session} {M : Ledger} {o : Option Path} {f x : Path} {t : String}
      (hk : x.kind = .declaration) (hd : s.graph.hasDeclaration x = true) :
      LedgerStep w (s, M + {⟨o, .seeking f t (.ok x)⟩}) (s, M + {⟨o, .passed⟩})
  | register {s : Session} {M : Ledger} {o : Option Path} {f x : Path} {t : String}
      (hk : x.kind = .declaration) (hd : s.graph.hasDeclaration x = false) :
      LedgerStep w (s, M + {⟨o, .seeking f t (.ok x)⟩}) (s.register x, M + {⟨o, .calling x true⟩})
  | link {s : Session} {M : Ledger} {o : Option Path} {f x : Path} {t : String}
      (hk : x.kind = .source) :
      LedgerStep w (s, M + {⟨o, .seeking f t (.ok x)⟩}) (s.link f x, M + {⟨o, .calling x false⟩})
  | trust {s : Session} {M : Ledger} {o : Option Path} {x : Path} {registered : Bool}
      (hv : s.isValid x = true) :
      LedgerStep w (s, M + {⟨o, .calling x registered⟩}) (s, M + {⟨o, .passed⟩})
  | enter {s : Session} {M : Ledger} {o : Option Path} {x : Path} {registered : Bool}
      (hv : s.isValid x = false) :
      LedgerStep w (s, M + {⟨o, .calling x registered⟩})
        (s.enter x, M + {⟨o, if s.isTracked x then .scanning x registered
          else .reading x registered⟩})
  | unreadable {s : Session} {M : Ledger} {o : Option Path} {x : Path} {registered : Bool}
      {fault : IoFault} (hr : w.disk.read x = .error fault) :
      LedgerStep w (s, M + {⟨o, .reading x registered⟩})
        (s.drop x registered, M + {⟨o, .failed (.io x fault)⟩})
  | store {s : Session} {M : Ledger} {o : Option Path} {x : Path} {registered : Bool} {text : String}
      (hr : w.disk.read x = .ok text) :
      LedgerStep w (s, M + {⟨o, .reading x registered⟩})
        ((s.updateFile x text false).1, M + {⟨o, .scanning x registered⟩})
  | scan {s : Session} {M : Ledger} {o : Option Path} {x : Path} {registered : Bool}
      {found : List Dependency} (hf : (s.findImports x).2 = .ok found) :
      LedgerStep w (s, M + {⟨o, .scanning x registered⟩})
        (s.parsed x, M + ({⟨o, .walking x registered⟩} + w.seekers x (found.map (·.text))))
  | succeed {s : Session} {M N : Ledger} {o : Option Path} {x : Path} {registered : Bool}
      (hm : ∀ e ∈ M, e.owner ≠ some x) (hn : ∀ e ∈ N, e.owner = some x ∧ e.stage = .passed) :
      LedgerStep w (s, M + ({⟨o, .walking x registered⟩} + N)) (s, M + {⟨o, .passed⟩})
  | fail {s : Session} {M N : Ledger} {o : Option Path} {x : Path} {registered : Bool} {e : Failure}
      (hm : ∀ e ∈ M, e.owner ≠ some x)
      (hn : ∀ e ∈ N, e.owner = some x ∧ e.stage.Closed)
      (he : ∃ e' ∈ N, e'.stage = .failed e) :
      LedgerStep w (s, M + ({⟨o, .walking x registered⟩} + N))
        (s.drop x registered, M + {⟨o, .failed e⟩})

abbrev LedgerSteps (w : Surroundings) : Session × Ledger → Session × Ledger → Prop :=
  Relation.ReflTransGen (LedgerStep w)

/-! ## Posts -/

namespace Ledger

def opens (M : Ledger) : Multiset Path := M.filterMap fun e => e.stage.open?

variable {M N : Ledger}

theorem exists_add {P : Post → Prop} : (∃ e ∈ M + N, P e) ↔ (∃ e ∈ M, P e) ∨ ∃ e ∈ N, P e := by
  simp only [Multiset.mem_add, or_and_right, exists_or]

theorem forall_add {P : Post → Prop} : (∀ e ∈ M + N, P e) ↔ (∀ e ∈ M, P e) ∧ ∀ e ∈ N, P e := by
  simp only [Multiset.mem_add, or_imp, forall_and]

@[simp] theorem exists_singleton {P : Post → Prop} {a : Post} : (∃ e ∈ ({a} : Ledger), P e) ↔ P a := by
  simp only [Multiset.mem_singleton, exists_eq_left]

@[simp] theorem forall_singleton {P : Post → Prop} {a : Post} : (∀ e ∈ ({a} : Ledger), P e) ↔ P a := by
  simp only [Multiset.mem_singleton, forall_eq]

@[simp] theorem opens_add : (M + N).opens = M.opens + N.opens := Multiset.filterMap_add _ _ _

@[simp] theorem opens_singleton (o : Option Path) (g : Stage) :
    opens {⟨o, g⟩} = g.open?.elim 0 fun x => {x} := by
  cases h : g.open? <;> simp [opens, ← Multiset.cons_zero, h]

theorem mem_opens {x : Path} : x ∈ M.opens ↔ ∃ e ∈ M, e.stage.open? = some x :=
  Multiset.mem_filterMap (fun e : Post => e.stage.open?) M

theorem opens_of_not_open (h : ∀ e ∈ N, e.stage.open? = none) : N.opens = 0 := by
  rw [Multiset.eq_zero_iff_forall_notMem]
  intro x hx
  obtain ⟨e, he, hs⟩ := mem_opens.mp hx
  rw [h e he] at hs
  cases hs

theorem opens_of_closed (h : ∀ e ∈ N, e.stage.Closed) : N.opens = 0 :=
  opens_of_not_open fun e he => by
    have := h e he
    cases hs : e.stage <;> simp_all [Stage.Closed, Stage.open?]

end Ledger

theorem mem_seekers {w : Surroundings} {f : Path} {specifiers : List String} {e : Post} :
    e ∈ w.seekers f specifiers ↔ ∃ t ∈ specifiers, e = ⟨some f, .seeking f t (w.resolve f t)⟩ := by
  simp [Surroundings.seekers, eq_comm]

@[simp] theorem opens_seekers {w : Surroundings} {f : Path} {specifiers : List String} :
    (w.seekers f specifiers).opens = 0 :=
  Ledger.opens_of_not_open fun e he => by
    obtain ⟨t, -, rfl⟩ := mem_seekers.mp he
    rfl

end ImportCheck

import ImportCheck.Proofs.Walk.Ledger

/-!
# What each step on the ledger does to the session

For each change that such a step can make: which files are then valid, tracked, linked and registered, and which
walks have started.
-/

namespace ImportCheck.Session

variable (s : Session) (x f p q : Path) (registered : Bool)

/-! ## Marks -/

@[simp] theorem isValid_enter : (s.enter x).isValid p = (decide (x.Same p) || s.isValid p) :=
  PathSet.contains_add s.valid x p

@[simp] theorem isValid_drop : (s.drop x registered).isValid p = (!decide (x.Same p) && s.isValid p) :=
  PathMap.contains_erase s.valid x p

@[simp] theorem isValid_register : (s.register x).isValid p = s.isValid p := rfl

@[simp] theorem isValid_link : (s.link f x).isValid p = s.isValid p := rfl

@[simp] theorem isValid_parsed : (s.parsed x).isValid p = s.isValid p := rfl

@[simp] theorem isValid_updateFile (text : String) (checked : Bool) :
    (s.updateFile x text checked).1.isValid p = s.isValid p := rfl

/-! ## Tracked files -/

@[simp] theorem isTracked_enter : (s.enter x).isTracked p = s.isTracked p := rfl

@[simp] theorem isTracked_drop : (s.drop x registered).isTracked p = s.isTracked p := rfl

@[simp] theorem isTracked_register : (s.register x).isTracked p = s.isTracked p := rfl

@[simp] theorem isTracked_link : (s.link f x).isTracked p = s.isTracked p := rfl

@[simp] theorem isTracked_parsed : (s.parsed x).isTracked p = s.isTracked p := rfl

@[simp] theorem isTracked_updateFile (text : String) (checked : Bool) :
    (s.updateFile x text checked).1.isTracked p = (decide (x.Same p) || s.isTracked p) :=
  FileStore.contains_update s.files x text checked p

/-! ## Declarations -/

@[simp] theorem hasDeclaration_enter :
    (s.enter x).graph.hasDeclaration p = s.graph.hasDeclaration p :=
  DependencyGraph.hasDeclaration_clearDependencies ..

@[simp] theorem hasDeclaration_drop :
    (s.drop x registered).graph.hasDeclaration p =
      (!(registered && decide (x.Same p)) && s.graph.hasDeclaration p) := by
  cases registered with
  | false => rfl
  | true => exact DependencyGraph.hasDeclaration_removeDeclaration ..

@[simp] theorem hasDeclaration_register :
    (s.register x).graph.hasDeclaration p = (decide (x.Same p) || s.graph.hasDeclaration p) :=
  DependencyGraph.hasDeclaration_addDeclaration ..

@[simp] theorem hasDeclaration_link :
    (s.link f x).graph.hasDeclaration p = s.graph.hasDeclaration p :=
  DependencyGraph.hasDeclaration_addDependency ..

@[simp] theorem hasDeclaration_parsed :
    (s.parsed x).graph.hasDeclaration p = s.graph.hasDeclaration p := rfl

@[simp] theorem hasDeclaration_updateFile (text : String) (checked : Bool) :
    (s.updateFile x text checked).1.graph.hasDeclaration p = s.graph.hasDeclaration p := rfl

/-! ## Links -/

@[simp] theorem hasDependency_enter :
    (s.enter x).graph.hasDependency p q = (!decide (x.Same p) && s.graph.hasDependency p q) :=
  DependencyGraph.hasDependency_clearDependencies ..

@[simp] theorem hasDependency_drop :
    (s.drop x registered).graph.hasDependency p q = s.graph.hasDependency p q := by
  cases registered <;> rfl

@[simp] theorem hasDependency_register :
    (s.register x).graph.hasDependency p q = s.graph.hasDependency p q := rfl

@[simp] theorem hasDependency_link :
    (s.link f x).graph.hasDependency p q =
      (s.graph.hasDependency p q || decide (f.Same p ∧ x.Same q)) :=
  DependencyGraph.hasDependency_addDependency ..

@[simp] theorem hasDependency_parsed :
    (s.parsed x).graph.hasDependency p q = s.graph.hasDependency p q := rfl

@[simp] theorem hasDependency_updateFile (text : String) (checked : Bool) :
    (s.updateFile x text checked).1.graph.hasDependency p q = s.graph.hasDependency p q := rfl

/-! ## Walks -/

@[simp] theorem walks_enter : (s.enter x).walks = s.walks ++ [x] := by
  simp [enter, walks, record, Occurrence.walk?]

@[simp] theorem walks_drop : (s.drop x registered).walks = s.walks := rfl

@[simp] theorem walks_register : (s.register x).walks = s.walks := rfl

@[simp] theorem walks_link : (s.link f x).walks = s.walks := rfl

@[simp] theorem walks_parsed : (s.parsed x).walks = s.walks := rfl

@[simp] theorem walks_updateFile (text : String) (checked : Bool) :
    (s.updateFile x text checked).1.walks = s.walks := rfl

/-! ## Texts -/

variable (w : Surroundings)

theorem knowAlike_enter : s.KnowAlike (s.enter x) w f := by
  apply knowAlike_of_same_parts <;> rfl

theorem knowAlike_drop : s.KnowAlike (s.drop x registered) w f := by
  apply knowAlike_of_same_parts <;> rfl

theorem knowAlike_register : s.KnowAlike (s.register x) w f := by
  apply knowAlike_of_same_parts <;> rfl

theorem knowAlike_link : s.KnowAlike (s.link p x) w f := by
  apply knowAlike_of_same_parts <;> rfl

theorem Alike.knowAlike {s s' : Session} (h : s.Alike s') : s.KnowAlike s' w f :=
  knowAlike_of_same_parts h.cwd h.files h.service w f

end ImportCheck.Session

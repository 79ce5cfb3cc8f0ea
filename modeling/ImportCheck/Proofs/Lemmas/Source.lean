import ImportCheck.Source.Lines
import ImportCheck.Proofs.Lemmas.Path

/-!
# What a text names

A text names the same modules and the same files under every spelling of the place it stands in, so that all
parses of it are as good as one.
-/

namespace ImportCheck.SourceTree

/-- The texts under which the dependencies of a file are resolved. -/
def texts (cwd : Path) (tree : SourceTree) : List String := (tree.dependencies cwd).map (·.text)

theorem texts_contribution {f g : Path} (h : f.Same g) (cwd : Path) (kind : NodeKind)
    (reference : Option ModuleReference) (references : List String) :
    (contribution cwd kind f reference references).map (·.text) =
      (contribution cwd kind g reference references).map (·.text) := by
  unfold contribution
  split
  · simp only [List.map_map]
    refine List.map_congr_left fun r _ => ?_
    simp only [Function.comp_apply, Dependency.text]
    rw [Path.resolveAgainst_eq cwd (Path.directory_same h)]
  · rfl
  · rfl
  · rfl

theorem texts_lines {f g : Path} (h : f.Same g) (cwd : Path) (lines : List SourceLine) :
    (dependenciesOf cwd (lines.filterMap (·.tree? f))).map (·.text) =
      (dependenciesOf cwd (lines.filterMap (·.tree? g))).map (·.text) := by
  have hcons : ∀ (kind : NodeKind) (target : ModuleReference) (fs gs : List SourceTree),
      (dependenciesOf cwd fs).map (·.text) = (dependenciesOf cwd gs).map (·.text) →
      (dependenciesOf cwd (node kind f (some target) [] [] :: fs)).map (·.text) =
        (dependenciesOf cwd (node kind g (some target) [] [] :: gs)).map (·.text) := by
    intro kind target fs gs hs
    simp only [dependenciesOf, dependencies, List.map_append, hs, texts_contribution h]
  induction lines with
  | nil => rfl
  | cons line lines ih =>
      cases line with
      | assignment target => exact hcons _ _ _ _ ih
      | declaration specifier => exact hcons _ _ _ _ ih
      | reference target => exact ih
      | silent => exact ih

theorem texts_ofText {f g : Path} (h : f.Same g) (cwd : Path) (text : String) :
    (ofText f text).texts cwd = (ofText g text).texts cwd := by
  simp only [texts, ofText, dependencies, List.map_append, texts_contribution h, texts_lines h]

/-- The tree is a parse of the text at the place, under one spelling of it or another. -/
def IsParse (tree : SourceTree) (p : Path) (text : String) : Prop := ∃ q : Path, q.Same p ∧ tree = ofText q text

theorem isParse_ofText (p : Path) (text : String) : (ofText p text).IsParse p text := ⟨p, .refl p, rfl⟩

theorem IsParse.of_same {tree : SourceTree} {p q : Path} {text : String} (h : tree.IsParse p text)
    (hs : p.Same q) : tree.IsParse q text :=
  h.imp fun _ hq => ⟨hq.1.trans hs, hq.2⟩

theorem IsParse.texts {tree : SourceTree} {p : Path} {text : String} (h : tree.IsParse p text) (cwd : Path) :
    tree.texts cwd = (ofText p text).texts cwd := by
  obtain ⟨q, hq, rfl⟩ := h
  exact texts_ofText hq cwd text

end ImportCheck.SourceTree

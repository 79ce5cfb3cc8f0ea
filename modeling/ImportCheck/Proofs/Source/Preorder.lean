import ImportCheck.Proofs.Lemmas.Source
import ImportCheck.Proofs.Path.FileName
import Mathlib.Data.List.Forall2

/-!
# What a tree names, node by node

The texts that are found in a tree are those of its nodes in preorder, each on its own. A node that is only there to
hold others can be left out, with its children in its place.
-/

namespace ImportCheck

/-- A node apart from the nodes below it. -/
structure SourceNode where
  kind : NodeKind
  file : Path
  reference : Option ModuleReference
  references : List String

namespace SourceNode

/-- The tree of a node that stands alone. -/
def alone (n : SourceNode) : SourceTree := .node n.kind n.file n.reference n.references []

/-- The path is the file that a reference in a file means: in full, in normal form, and where the reference leads from
the directory of the file, which leads on from the working directory. -/
structure Denotes (cwd file : Path) (reference : String) (target : Path) : Prop where
  absolute : target.IsAbsolute
  normal : target.normalize = target
  leads : ∀ stack, target.act stack = (Path.ofString reference).act
    (file.components.dropLast.foldl (fun stack c => c.act stack) (cwd.act stack))

/-- What a node has to say: the module of an import, or the files of all references of a file. -/
inductive Names (cwd : Path) (n : SourceNode) : List String → Prop
  | module (specifier : String) (hk : n.kind = .importEquals ∨ n.kind = .importDeclaration)
      (hr : n.reference = some (.external specifier)) : Names cwd n [specifier]
  | files (targets : List Path) (hk : n.kind = .sourceFile)
      (ht : List.Forall₂ (Denotes cwd n.file) n.references targets) : Names cwd n (targets.map (·.toString))
  | nothing (hk : n.kind ≠ .sourceFile) (hr : n.kind = .other ∨ ∀ specifier, n.reference ≠ some (.external specifier)) :
      Names cwd n []

variable {cwd cwd' file : Path} {n : SourceNode}

theorem denotes_resolveAgainst (hc : cwd.IsAbsolute) (file : Path) (reference : String) :
    Denotes cwd file reference (.resolveAgainst cwd file.directory (.ofString reference)) where
  absolute := Path.isAbsolute_resolveAgainst hc _ _
  normal := by rw [Path.resolveAgainst_eq_normalize, Path.normalize_normalize]
  leads stack := by
    rw [Path.resolveAgainst_eq_normalize, Path.act_normalize, Path.act_join, Path.act_join, Path.act_directory]

theorem denotes_iff (hc : cwd.IsAbsolute) {reference : String} {target : Path} :
    Denotes cwd file reference target ↔ .resolveAgainst cwd file.directory (.ofString reference) = target := by
  have hresolved := denotes_resolveAgainst hc file reference
  refine ⟨fun h => ?_, fun h => h ▸ hresolved⟩
  rw [← hresolved.normal, ← h.normal, Path.normalize_eq_iff]
  exact fun stack => (hresolved.leads stack).trans (h.leads stack).symm

theorem forall₂_denotes_iff (hc : cwd.IsAbsolute) {references : List String} {targets : List Path} :
    List.Forall₂ (Denotes cwd file) references targets ↔
      references.map (fun r => .resolveAgainst cwd file.directory (.ofString r)) = targets := by
  have hdenotes : Denotes cwd file = fun r p => .resolveAgainst cwd file.directory (.ofString r) = p :=
    funext fun r => funext fun p => propext (denotes_iff hc)
  rw [hdenotes, ← List.forall₂_map_left_iff, List.forall₂_eq_eq_eq]

theorem texts_alone (cwd : Path) (n : SourceNode) : n.alone.texts cwd =
    (SourceTree.contribution cwd n.kind n.file n.reference n.references).map (·.text) := by
  simp [alone, SourceTree.texts, SourceTree.dependencies, SourceTree.dependenciesOf]

theorem texts_alone_sourceFile (h : n.kind = .sourceFile) : n.alone.texts cwd =
    (n.references.map fun r => Path.resolveAgainst cwd n.file.directory (.ofString r)).map (·.toString) := by
  rw [texts_alone, h, SourceTree.contribution, List.map_map, List.map_map]
  rfl

theorem texts_alone_module {specifier : String} (hk : n.kind = .importEquals ∨ n.kind = .importDeclaration)
    (hr : n.reference = some (.external specifier)) : n.alone.texts cwd = [specifier] := by
  rw [texts_alone, hr]
  rcases hk with hk | hk <;>
    · rw [hk]
      rfl

theorem texts_alone_nothing (hk : n.kind ≠ .sourceFile)
    (hr : n.kind = .other ∨ ∀ specifier, n.reference ≠ some (.external specifier)) : n.alone.texts cwd = [] := by
  rw [texts_alone]
  unfold SourceTree.contribution
  split <;> simp_all

theorem texts_alone_iff (hc : cwd.IsAbsolute) {texts : List String} :
    n.alone.texts cwd = texts ↔ Names cwd n texts := by
  constructor
  · rintro rfl
    by_cases hf : n.kind = .sourceFile
    · rw [texts_alone_sourceFile hf]
      exact .files _ hf ((forall₂_denotes_iff hc).mpr rfl)
    · by_cases hi : n.kind = .importEquals ∨ n.kind = .importDeclaration
      · by_cases hm : ∃ specifier, n.reference = some (.external specifier)
        · obtain ⟨specifier, hr⟩ := hm
          rw [texts_alone_module hi hr]
          exact .module specifier hi hr
        · have hr : ∀ specifier, n.reference ≠ some (.external specifier) := not_exists.mp hm
          rw [texts_alone_nothing hf (.inr hr)]
          exact .nothing hf (.inr hr)
      · have ho : n.kind = .other := by cases hk : n.kind <;> simp_all
        rw [texts_alone_nothing hf (.inl ho)]
        exact .nothing hf (.inl ho)
  · rintro (⟨specifier, hk, hr⟩ | ⟨targets, hk, ht⟩ | ⟨hk, hr⟩)
    · exact texts_alone_module hk hr
    · rw [texts_alone_sourceFile hk, (forall₂_denotes_iff hc).mp ht]
    · exact texts_alone_nothing hk hr

/-- The file and the working directory count only for where references lead. -/
theorem texts_alone_congr (h : ∀ reference, Path.resolveAgainst cwd' file.directory reference =
    Path.resolveAgainst cwd n.file.directory reference) : { n with file }.alone.texts cwd' = n.alone.texts cwd := by
  by_cases hk : n.kind = .sourceFile
  · rw [texts_alone_sourceFile hk, texts_alone_sourceFile (n := { n with file }) hk]
    exact congrArg _ (List.map_congr_left fun r _ => h _)
  · rw [texts_alone, texts_alone]
    unfold SourceTree.contribution
    split <;> simp_all [Dependency.text]

/-- Spellings of the file and of the working directory make no difference. -/
theorem texts_alone_same (hc : cwd'.Same cwd) (hf : file.Same n.file) :
    { n with file }.alone.texts cwd' = n.alone.texts cwd :=
  texts_alone_congr fun reference => by
    rw [Path.resolveAgainst_eq_normalize, Path.resolveAgainst_eq_normalize]
    exact Path.normalize_eq (Path.join_same (Path.join_same hc (Path.directory_same hf)) (.refl _))

/-- The working directory makes no difference to a file that is named in full. -/
theorem texts_alone_of_isAbsolute (hf : n.file.IsAbsolute) (hr : n.file.components ≠ [.root]) (cwd cwd' : Path) :
    n.alone.texts cwd' = n.alone.texts cwd :=
  texts_alone_congr fun reference => by
    have habs : (n.file.directory.join reference).IsAbsolute :=
      Path.isAbsolute_join.mpr (.inl (Path.isAbsolute_directory hf hr))
    simp only [Path.resolveAgainst, if_pos habs]

end SourceNode

namespace SourceTree

mutual
/-- The nodes of a tree, each before those below it. -/
def preorder : SourceTree → List SourceNode
  | node kind file reference references children => ⟨kind, file, reference, references⟩ :: preorderOf children

def preorderOf : List SourceTree → List SourceNode
  | [] => []
  | t :: ts => preorder t ++ preorderOf ts
end

mutual
theorem texts_eq_flatMap (cwd : Path) : (tree : SourceTree) →
    tree.texts cwd = tree.preorder.flatMap fun n => n.alone.texts cwd
  | node kind file reference references children => by
      rw [texts, dependencies, List.map_append, preorder, List.flatMap_cons, ← textsOf_eq_flatMap,
        SourceNode.texts_alone]

theorem textsOf_eq_flatMap (cwd : Path) : (trees : List SourceTree) →
    (dependenciesOf cwd trees).map (·.text) = (preorderOf trees).flatMap fun n => n.alone.texts cwd
  | [] => rfl
  | tree :: trees => by
      rw [dependenciesOf, List.map_append, preorderOf, List.flatMap_append, ← textsOf_eq_flatMap, ← texts_eq_flatMap]
      rfl
end

/-- One node among some trees that only holds others gives way to its children. -/
inductive Spliced : List SourceTree → List SourceTree → Prop
  | here (before : List SourceTree) (file : Path) (reference : Option ModuleReference) (references : List String)
      (children after : List SourceTree) :
      Spliced (before ++ node .other file reference references children :: after) (before ++ children ++ after)
  | inside (before : List SourceTree) (kind : NodeKind) (file : Path) (reference : Option ModuleReference)
      (references : List String) {children children' : List SourceTree} (after : List SourceTree)
      (h : Spliced children children') :
      Spliced (before ++ node kind file reference references children :: after)
        (before ++ node kind file reference references children' :: after)

theorem dependenciesOf_append (cwd : Path) (trees more : List SourceTree) :
    dependenciesOf cwd (trees ++ more) = dependenciesOf cwd trees ++ dependenciesOf cwd more := by
  induction trees with
  | nil => rfl
  | cons tree trees ih => rw [List.cons_append, dependenciesOf, dependenciesOf, ih, List.append_assoc]

theorem Spliced.dependenciesOf_eq {trees trees' : List SourceTree} (h : Spliced trees trees') (cwd : Path) :
    dependenciesOf cwd trees = dependenciesOf cwd trees' := by
  induction h with
  | here before file reference references children after =>
      simp only [dependenciesOf_append, dependenciesOf, dependencies, contribution, List.nil_append, List.append_assoc]
  | inside before kind file reference references after _ ih =>
      simp only [dependenciesOf_append, dependenciesOf, dependencies, ih]

def children : SourceTree → List SourceTree
  | node _ _ _ _ children => children

/-- The tree with other trees below its first node. -/
def withChildren (children : List SourceTree) : SourceTree → SourceTree
  | node kind file reference references _ => node kind file reference references children

/-- What is found in a tree is what its nodes name, one after the other in preorder: an import its module, and the node
of a file the files that its references denote. What a reference denotes does not depend on how the file and the
working directory are spelled, and not on the working directory at all if the file is named in full. A node below the
first that only holds others may give way to its children. -/
theorem texts_in_preorder {cwd : Path} (hc : cwd.IsAbsolute) (tree : SourceTree) :
    (∀ texts, tree.texts cwd = texts ↔
      ∃ parts, List.Forall₂ (SourceNode.Names cwd) tree.preorder parts ∧ texts = parts.flatten) ∧
    (∀ (n : SourceNode) (cwd' file : Path), cwd'.Same cwd → file.Same n.file →
      { n with file }.alone.texts cwd' = n.alone.texts cwd) ∧
    (∀ (n : SourceNode) (cwd' : Path), n.file.IsAbsolute → n.file.components ≠ [.root] →
      n.alone.texts cwd' = n.alone.texts cwd) ∧
    ∀ children', Spliced tree.children children' → (tree.withChildren children').texts cwd = tree.texts cwd := by
  refine ⟨fun texts => ?_, fun n cwd' file hcwd hf => SourceNode.texts_alone_same hcwd hf,
    fun n cwd' hf hr => SourceNode.texts_alone_of_isAbsolute hf hr cwd cwd', fun children' hs => ?_⟩
  · have hnames : SourceNode.Names cwd = fun n part => n.alone.texts cwd = part :=
      funext fun n => funext fun part => propext (SourceNode.texts_alone_iff hc).symm
    rw [texts_eq_flatMap, hnames, List.flatMap_def]
    constructor
    · rintro rfl
      exact ⟨_, List.forall₂_map_right_iff.mpr (List.forall₂_same.mpr fun _ _ => rfl), rfl⟩
    · rintro ⟨parts, hparts, rfl⟩
      rw [← List.forall₂_map_left_iff, List.forall₂_eq_eq_eq] at hparts
      rw [hparts]
  · obtain ⟨kind, file, reference, references, children⟩ := tree
    have hdependencies : dependenciesOf cwd children = dependenciesOf cwd children' := hs.dependenciesOf_eq cwd
    rw [texts, texts, withChildren, dependencies, dependencies, hdependencies]

/-! ## A tree with a file in a file -/

namespace Nested

def cwd : Path := .ofString "/work"

def file : Path := .ofString "src/a.ts"

def importing : SourceTree := .node .importDeclaration file (some (.external "./b")) [] []

def entity : SourceTree := .node .importEquals file (some (.entity "A.B")) [] []

def enclosed : SourceNode := ⟨.sourceFile, .ofString "/p/c.ts", none, ["d.d.ts"]⟩

def tree : SourceTree :=
  .node .sourceFile file none ["../../../lib.d.ts"] [.node .other file none [] [importing, entity], enclosed.alone]

theorem spliced : Spliced tree.children [importing, entity, enclosed.alone] :=
  .here [] file none [] [importing, entity] [enclosed.alone]

end Nested

open Nested in
/-- A reference climbs to the root, an import is found in a block, and a file in the file has references of its own. -/
theorem texts_in_preorder_nested :
    (∃ parts, List.Forall₂ (SourceNode.Names cwd) tree.preorder parts ∧
      ["/lib.d.ts", "./b", "/p/d.d.ts"] = parts.flatten) ∧
    enclosed.alone.texts (.ofString "/elsewhere") = enclosed.alone.texts cwd ∧
    { enclosed with file := .ofString "/p/./c.ts" }.alone.texts (.ofString "/work/") = enclosed.alone.texts cwd ∧
    (tree.withChildren [importing, entity, enclosed.alone]).texts cwd = tree.texts cwd :=
  have hc : cwd.IsAbsolute := by decide
  ⟨((texts_in_preorder hc tree).1 _).mp (by decide +kernel),
    (texts_in_preorder hc tree).2.2.1 enclosed _ (by decide) (by decide),
    (texts_in_preorder hc tree).2.1 enclosed _ _ (by decide) (by decide),
    (texts_in_preorder hc tree).2.2.2 _ spliced⟩

end SourceTree

end ImportCheck

import ImportCheck.Proofs.Lemmas.Path
import Mathlib.Data.List.Infix

/-!
# Ancestors

The ancestors of a path are the starts of its components, longest first. The empty start is one of them where a path
does not start at the root.
-/

namespace ImportCheck.Path

variable {p : Path}

theorem length_components_le (p : Path) : p.components.length ≤ p.segments.length := by
  obtain ⟨s, rest, hs⟩ := List.exists_cons_of_ne_nil p.nonempty
  by_cases hp : p = blank
  · simp [components_eq_nil_iff.mpr hp]
  · rw [components_of_cons hs hp, hs]
    exact Nat.succ_le_succ (List.length_filterMap_le _ _)

/-- The starts of the components that a path has an ancestor for. -/
def starts (p : Path) : List (List Component) :=
  if p.IsAbsolute then p.components.inits.tail else p.components.inits

theorem starts_parent {d : Path} {c : Component} (hc : p.components = d.components ++ [c])
    (hr : p.components ≠ [.root]) :
    p.starts = d.starts ++ [p.components] := by
  have hinits : p.components.inits = d.components.inits ++ [p.components] := by
    rw [hc, List.inits_append]
    rfl
  have habs : p.IsAbsolute ↔ d.IsAbsolute := by
    cases hd : d.components with
    | nil =>
        rw [hd, List.nil_append] at hc
        simp only [IsAbsolute, hc, hd, List.head?_cons, List.head?_nil, Option.some.injEq, reduceCtorEq, iff_false]
        rintro rfl
        exact hr hc
    | cons first rest => simp [IsAbsolute, hc, hd]
  rw [starts, starts, hinits]
  simp only [habs]
  split
  · rw [List.tail_append_of_ne_nil (List.ne_nil_of_mem ((List.mem_inits _ _).mpr List.nil_prefix))]
  · rfl

theorem components_ancestorsUpTo (n : Nat) (h : p.components.length ≤ n) :
    (ancestorsUpTo n p).map components = p.starts.reverse := by
  induction n generalizing p with
  | zero =>
      have hnil : p.components = [] := List.length_eq_zero_iff.mp (Nat.le_zero.mp h)
      simp [ancestorsUpTo, starts, IsAbsolute, hnil]
  | succ n ih =>
      rcases parent?_eq p with ⟨hp, hcp⟩ | ⟨d, c, hp, hcp, hr⟩
      · rcases hcp with hcp | hcp <;> simp [ancestorsUpTo, starts, IsAbsolute, hp, hcp]
      · have hd : d.components.length ≤ n := by
          rw [hcp, List.length_append, List.length_singleton] at h
          exact Nat.le_of_succ_le_succ h
        rw [starts_parent hcp hr, List.reverse_append, ← ih hd, ancestorsUpTo, hp]
        rfl

theorem components_ancestors (p : Path) : p.ancestors.map components = p.starts.reverse :=
  components_ancestorsUpTo _ (Nat.le_succ_of_le p.length_components_le)

end ImportCheck.Path

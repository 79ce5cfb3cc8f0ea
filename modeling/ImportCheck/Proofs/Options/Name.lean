import ImportCheck.Options.Variable
import ImportCheck.Proofs.Lemmas.Ascii
import ImportCheck.Proofs.Lemmas.Text
import Mathlib.Data.List.Induction

/-!
# Names of variables

The name of a variable that holds a setting is a marker and, after it, keys with a point or two underscores between
neighbours. Case does not matter, nor do blanks around the name and around the keys.
-/

namespace ImportCheck.Variable

variable {c : Char} {cs part rest : List Char} {parts : List (List Char)} {name : String} {keys : List String}

/-- Nothing in a part divides it. -/
structure IsPart (part : List Char) : Prop where
  no_point : '.' ∉ part
  no_marks : ¬['_', '_'] <:+: part

/-- A text and the parts that points and pairs of underscores divide it into. A pair stands as far to the left as it
can, so that no underscore comes before it. -/
inductive Divided : List Char → List (List Char) → Prop
  | last {part : List Char} (h : IsPart part) : Divided part [part]
  | point {part rest : List Char} {parts : List (List Char)} (h : IsPart part) (hrest : Divided rest parts) :
      Divided (part ++ '.' :: rest) (part :: parts)
  | marks {part rest : List Char} {parts : List (List Char)} (h : IsPart part) (hend : part.getLast? ≠ some '_')
      (hrest : Divided rest parts) : Divided (part ++ '_' :: '_' :: rest) (part :: parts)

/-- The keys that a name spells. -/
def Names (name : String) (keys : List String) : Prop :=
  ∃ before path parts, Text.trim name.toList = before ++ path ∧ before.map Char.toLower = "tsloader__".toList ∧
    Divided (Text.trim path) parts ∧ [] ∉ parts ∧ keys = parts.map fun part => String.ofList (part.map Char.toLower)

theorem Divided.isPart (h : Divided cs parts) : ∀ part ∈ parts, IsPart part := by
  induction h with
  | last h => simpa using h
  | point h _ ih | marks h _ _ ih => exact List.forall_mem_cons.mpr ⟨h, ih⟩

theorem Divided.ne_nil (h : Divided cs parts) : parts ≠ [] := by
  cases h <;> simp

theorem Names.ne_nil (h : Names name keys) : keys ≠ [] := by
  obtain ⟨_, _, parts, -, -, hparts, -, rfl⟩ := h
  simpa using hparts.ne_nil

/-! ## Dividing -/

theorem divide_cons (h : c = '_' → cs.head? ≠ some '_') : divide (c :: cs) = c :: divide cs := by
  rw [divide]
  rintro ds rfl rfl
  exact h rfl rfl

theorem divide_append (h : IsPart part) (hrest : part.getLast? = some '_' → rest.head? ≠ some '_') :
    divide (part ++ rest) = part ++ divide rest := by
  induction part with
  | nil => rfl
  | cons c part ih =>
      have hpart : IsPart part := ⟨fun hm => h.no_point (List.mem_cons_of_mem c hm),
        fun hi => h.no_marks (hi.trans (List.suffix_cons c part).isInfix)⟩
      cases part with
      | nil => exact divide_cons fun hc => hrest (by rw [hc]; rfl)
      | cons d part =>
          have hnext : c = '_' → (d :: part ++ rest).head? ≠ some '_' := by
            rintro rfl hd
            cases hd
            exact h.no_marks ⟨[], part, rfl⟩
          rw [List.cons_append, divide_cons hnext, ih hpart (by simpa using hrest)]
          rfl

theorem Divided.splitOn_eq (h : Divided cs parts) : Text.splitOn '.' (divide cs) = parts := by
  induction h with
  | @last part h =>
      have hpart : divide part = part := by
        simpa [divide] using @divide_append part [] h (by simp)
      rw [hpart, Text.splitOn_of_not_mem h.no_point]
  | point h _ ih =>
      rw [divide_append h (by simp), divide_cons (by simp), Text.splitOn_append_cons h.no_point, ih]
  | marks h hend _ ih =>
      rw [divide_append h fun he => absurd he hend, divide, Text.splitOn_append_cons h.no_point, ih]

theorem isPart_nil : IsPart [] := ⟨by simp, by simp⟩

theorem IsPart.cons (h : IsPart part) (hc : c ≠ '.') (hmarks : c = '_' → part.head? ≠ some '_') :
    IsPart (c :: part) where
  no_point := by simp [Ne.symm hc, h.no_point]
  no_marks := by
    rw [List.infix_cons_iff, not_or, List.cons_prefix_cons]
    refine ⟨?_, h.no_marks⟩
    rintro ⟨rfl, ds, rfl⟩
    exact hmarks rfl rfl

theorem Divided.cons (h : Divided cs (part :: parts)) (hc : c ≠ '.') (hmarks : c = '_' → cs.head? ≠ some '_') :
    Divided (c :: cs) ((c :: part) :: parts) := by
  cases h with
  | last h => exact .last (h.cons hc hmarks)
  | point h hrest =>
      refine .point (h.cons hc fun hu hd => hmarks hu ?_) hrest
      rw [List.head?_append, hd]
      rfl
  | marks h hend hrest =>
      have hnext : c = '_' → part.head? ≠ some '_' := fun hu hd => hmarks hu (by rw [List.head?_append, hd]; rfl)
      refine .marks (h.cons hc hnext) ?_ hrest
      cases part with
      | nil =>
          rintro ⟨⟩
          exact hmarks rfl rfl
      | cons d part => simpa using hend

theorem divided_splitOn (cs : List Char) : Divided cs (Text.splitOn '.' (divide cs)) := by
  fun_induction divide cs with
  | case1 cs ih =>
      have hfirst := @Text.splitOn_append_cons '.' [] (by simp) (divide cs)
      exact hfirst ▸ .marks isPart_nil (by simp) ih
  | case2 c cs hno ih =>
      by_cases hc : c = '.'
      · subst hc
        have hfirst := @Text.splitOn_append_cons '.' [] (by simp) (divide cs)
        exact hfirst ▸ .point isPart_nil ih
      · obtain ⟨part, parts, hparts⟩ := List.exists_cons_of_ne_nil (Text.splitOn_ne_nil '.' (divide cs))
        have hcons : Text.splitOn '.' (c :: divide cs) = (c :: part) :: parts := by
          simp [Text.splitOn, hparts, hc]
        rw [hparts] at ih
        rw [hcons]
        refine ih.cons hc ?_
        rintro rfl hd
        obtain ⟨ds, rfl⟩ := List.head?_eq_some_iff.mp hd
        exact hno ds rfl rfl
  | case3 => exact .last isPart_nil

theorem divided_iff : Divided cs parts ↔ Text.splitOn '.' (divide cs) = parts :=
  ⟨Divided.splitOn_eq, fun h => h ▸ divided_splitOn cs⟩

/-! ## Blanks -/

theorem dropWhile_divide (cs : List Char) :
    (divide cs).dropWhile Text.isBlank = divide (cs.dropWhile Text.isBlank) := by
  fun_induction divide cs with
  | case1 cs => simp [divide, show Text.isBlank '.' = false from rfl, show Text.isBlank '_' = false from rfl]
  | case2 c cs hno ih =>
      by_cases hc : Text.isBlank c
      · simp [hc, ih]
      · have hcons : divide (c :: cs) = c :: divide cs := divide.eq_2 c cs hno
        simp [hc, hcons]
  | case3 => rfl

theorem divide_concat_blank (hc : Text.isBlank c = true) : divide (cs ++ [c]) = divide cs ++ [c] := by
  have hmark : c ≠ '_' := by
    rintro rfl
    cases hc
  fun_induction divide cs with
  | case1 cs ih => rw [List.cons_append, List.cons_append, divide, ih, List.cons_append]
  | case2 d cs hno ih =>
      rw [List.cons_append, divide_cons, ih, List.cons_append]
      rintro rfl hd
      cases cs with
      | nil => exact hmark (Option.some.inj hd)
      | cons e cs =>
          cases hd
          exact hno cs rfl rfl
  | case3 => exact divide_cons (by simp)

theorem divide_ne_nil (h : cs ≠ []) : divide cs ≠ [] := by
  fun_cases divide cs with
  | case1 | case2 => simp
  | case3 => exact absurd rfl h

theorem getLast?_of_divide {d : Char} (hd : Text.isBlank d = true) (h : (divide cs).getLast? = some d) :
    cs.getLast? = some d := by
  fun_induction divide cs with
  | case1 cs ih =>
      rw [List.getLast?_cons, Option.some.injEq] at h
      cases hlast : (divide cs).getLast? with
      | none =>
          rw [hlast] at h
          cases h
          cases hd
      | some e =>
          rw [hlast] at h
          cases h
          simp [List.getLast?_cons, ih hlast]
  | case2 c cs _ ih =>
      rw [List.getLast?_cons, Option.some.injEq] at h
      cases hlast : (divide cs).getLast? with
      | none =>
          have hcs : cs = [] := by
            by_contra hne
            exact divide_ne_nil hne (List.getLast?_eq_none_iff.mp hlast)
          rw [hlast, Option.getD_none] at h
          rw [hcs, h]
          rfl
      | some e =>
          rw [hlast] at h
          cases h
          simp [List.getLast?_cons, ih hlast]
  | case3 => cases h

theorem trimEnd_divide (cs : List Char) : Text.trimEnd (divide cs) = divide (Text.trimEnd cs) := by
  induction cs using List.reverseRecOn with
  | nil => rfl
  | append_singleton cs c ih =>
      by_cases hc : Text.isBlank c
      · have hblank : ∀ d ∈ [c], Text.isBlank d = true := by simpa using hc
        rw [divide_concat_blank hc, Text.trimEnd, Text.trimEndWhile_append hblank, Text.trimEnd,
          Text.trimEndWhile_append hblank]
        exact ih
      · have hlast : ∀ d ∈ (cs ++ [c]).getLast?, Text.isBlank d = false := by simpa using hc
        rw [Text.trimEnd, Text.trimEndWhile_eq_self, Text.trimEnd, Text.trimEndWhile_eq_self hlast]
        intro d hd
        by_contra hblank
        rw [Bool.not_eq_false] at hblank
        simp [hlast d (getLast?_of_divide hblank hd)] at hblank

/-- Blanks may be taken away before a text is divided. -/
theorem trim_divide (cs : List Char) : Text.trim (divide cs) = divide (Text.trim cs) := by
  rw [Text.trim, Text.trimStart, dropWhile_divide, trimEnd_divide, Text.trim, Text.trimStart]

/-! ## Names -/

theorem splitOn_map_toLower : Text.splitOn '.' (cs.map Char.toLower) = (Text.splitOn '.' cs).map (·.map Char.toLower) :=
  Text.splitOn_map fun _ => Text.toLower_eq_iff rfl

theorem names_iff : Names name keys ↔ keys? name = some keys := by
  have hmarker : "tsloader__".toList = marker.map Char.toLower := by decide
  unfold Names keys?
  rw [hmarker]
  generalize marker.map Char.toLower = mark
  simp only [Option.bind_eq_bind, Option.bind_eq_some_iff, Text.after?_eq_some_iff, divided_iff]
  have hparts (before path : List Char) : Text.splitOn '.' ((Text.trim (divide ((before ++ path).drop
      ((before ++ path).length - (path.map Char.toLower).length)))).map Char.toLower) =
        (Text.splitOn '.' (divide (Text.trim path))).map (·.map Char.toLower) := by
    have hlength : (before ++ path).length - (path.map Char.toLower).length = before.length := by simp
    rw [hlength, List.drop_left, trim_divide, splitOn_map_toLower]
  have hempty (parts : List (List Char)) : (parts.map (·.map Char.toLower)).contains [] = true ↔ [] ∈ parts := by
    simp
  constructor
  · rintro ⟨before, path, parts, hname, rfl, rfl, hne, rfl⟩
    refine ⟨path.map Char.toLower, by rw [hname, List.map_append], ?_⟩
    rw [hname, hparts, if_neg (mt (hempty _).mp hne), List.map_map]
    rfl
  · rintro ⟨rest, hrest, h⟩
    obtain ⟨before, path, hname, rfl, rfl⟩ := List.map_eq_append_iff.mp hrest
    rw [hname, hparts] at h
    split at h
    · cases h
    · rename_i hne
      cases h
      exact ⟨before, path, _, hname, rfl, rfl, mt (hempty _).mpr hne, by rw [List.map_map]; rfl⟩

end ImportCheck.Variable

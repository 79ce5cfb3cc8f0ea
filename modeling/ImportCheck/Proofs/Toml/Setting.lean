import ImportCheck.Toml.Document
import ImportCheck.Proofs.Value.Setting

/-!
# Settings of a file

Whatever a settings file says, it holds settings: tables are put together key by key, so that their fields are in order,
and no notation stands for null.
-/

namespace ImportCheck.Toml

variable {v : Value} {node : Node} {es out : Entries} {key : String} {cs rest : List Char} {n depth : Nat}

/-! ## Tables while they are written -/

/-- All values that stand somewhere under a node are settings. -/
inductive Node.HoldsSettings : Node → Prop
  | value {v : Value} (h : v.IsSetting) : HoldsSettings (.value v)
  | table {origin : Origin} {entries : Entries} (h : ∀ e ∈ entries, HoldsSettings e.2) :
      HoldsSettings (.table origin entries)
  | elements {items : List Entries} (h : ∀ es ∈ items, ∀ e ∈ es, HoldsSettings e.2) : HoldsSettings (.elements items)

/-- All values that stand somewhere in a table are settings. -/
def Entries.HoldSettings (es : Entries) : Prop := ∀ e ∈ es, e.2.HoldsSettings

namespace Entries.HoldSettings

theorem nil : HoldSettings [] := nofun

theorem of_get? (h : es.HoldSettings) (hnode : es.get? key = some node) : node.HoldsSettings := by
  obtain ⟨e, he, rfl⟩ := Option.map_eq_some_iff.mp hnode
  exact h e (List.mem_of_find?_eq_some he)

theorem put (h : es.HoldSettings) (hnode : node.HoldsSettings) : (es.put key node).HoldSettings := by
  intro e he
  unfold Entries.put at he
  split at he
  · obtain ⟨f, hf, rfl⟩ := List.mem_map.mp he
    split
    exacts [hnode, h f hf]
  · rcases List.mem_append.mp he with he | he
    · exact h e he
    · rw [List.mem_singleton.mp he]
      exact hnode

/-- The last element of an array of tables. -/
theorem getLast {items : List Entries} (h : Node.HoldsSettings (.elements items)) :
    HoldSettings (items.getLast?.getD []) := by
  cases h with
  | elements h =>
      cases hlast : items.getLast? with
      | none => exact nil
      | some es => exact h es (List.mem_of_getLast? hlast)

theorem elements_concat {items : List Entries} (h : Node.HoldsSettings (.elements items)) (hes : es.HoldSettings) :
    Node.HoldsSettings (.elements (items ++ [es])) := by
  cases h with
  | elements h =>
      refine .elements fun fs hfs => ?_
      rcases List.mem_append.mp hfs with hfs | hfs
      · exact h fs hfs
      · rw [List.mem_singleton.mp hfs]
        exact hes

theorem elements_dropLast {items : List Entries} (h : Node.HoldsSettings (.elements items)) :
    Node.HoldsSettings (.elements items.dropLast) := by
  cases h with
  | elements h => exact .elements fun fs hfs => h fs (List.dropLast_subset items hfs)

theorem inner {origin : Origin} {entries : Entries} (h : Node.HoldsSettings (.table origin entries)) :
    HoldSettings entries := by
  cases h with
  | table h => exact h

/-- A table in place of another one. -/
theorem put_table (h : es.HoldSettings) {origin : Origin} {change : Option Entries}
    (hchange : ∀ {out}, change = some out → out.HoldSettings)
    (hout : (change.map fun inner => es.put key (.table origin inner)) = some out) : out.HoldSettings := by
  obtain ⟨inner, hinner, rfl⟩ := Option.map_eq_some_iff.mp hout
  exact h.put (.table (hchange hinner))

/-- A table in place of the last element of an array. -/
theorem put_elements (h : es.HoldSettings) {items : List Entries} {change : Option Entries}
    (hitems : Node.HoldsSettings (.elements items)) (hchange : ∀ {out}, change = some out → out.HoldSettings)
    (hout : (change.map fun inner => es.put key (.elements (items.dropLast ++ [inner]))) = some out) :
    out.HoldSettings := by
  obtain ⟨inner, hinner, rfl⟩ := Option.map_eq_some_iff.mp hout
  exact h.put (elements_concat (elements_dropLast hitems) (hchange hinner))

theorem assignIn? (hv : v.IsSetting) {keys : List String} (h : es.HoldSettings)
    (hout : assignIn? v keys es = some out) : out.HoldSettings := by
  fun_induction Toml.assignIn? v keys es generalizing out with
  | case1 | case3 | case6 | case8 | case10 => cases hout
  | case2 =>
      cases hout
      exact h.put (.value hv)
  | case4 _ _ _ _ _ ih => exact h.put_table (ih nil) hout
  | case5 _ _ _ _ _ hnode ih => exact h.put_table (ih (inner (h.of_get? hnode))) hout
  | case7 _ _ _ _ _ hnode _ ih => exact h.put_table (ih (inner (h.of_get? hnode))) hout
  | case9 _ _ _ _ _ hnode _ ih => exact h.put_elements (h.of_get? hnode) (ih (getLast (h.of_get? hnode))) hout

theorem descend? {change : Entries → Option Entries}
    (hchange : ∀ {es out : Entries}, es.HoldSettings → change es = some out → out.HoldSettings) {keys : List String}
    (h : es.HoldSettings) (hout : descend? change keys es = some out) : out.HoldSettings := by
  fun_induction Toml.descend? change keys es generalizing out with
  | case1 => exact hchange h hout
  | case2 _ _ _ _ ih => exact h.put_table (ih nil) hout
  | case3 _ _ _ _ _ hnode ih => exact h.put_table (ih (inner (h.of_get? hnode))) hout
  | case4 _ _ _ _ hnode ih => exact h.put_elements (h.of_get? hnode) (ih (getLast (h.of_get? hnode))) hout
  | case5 => cases hout

theorem openTable? (h : es.HoldSettings) (hout : openTable? key es = some out) : out.HoldSettings := by
  unfold Toml.openTable? at hout
  split at hout
  · cases hout
    exact h.put (.table nil)
  · rename_i hnode
    cases hout
    exact h.put (.table (inner (h.of_get? hnode)))
  · cases hout

theorem openElement? (h : es.HoldSettings) (hout : openElement? key es = some out) : out.HoldSettings := by
  unfold Toml.openElement? at hout
  split at hout
  · cases hout
    exact h.put (@elements_concat [] [] (.elements nofun) nil)
  · rename_i hnode
    cases hout
    exact h.put (elements_concat (h.of_get? hnode) nil)
  · cases hout

end Entries.HoldSettings

/-! ## Tables that have been written -/

theorem areSettings_toFields (h : ∀ e ∈ es, (Node.toValue e.2).IsSetting) : Fields.AreSettings (Node.toFields es) := by
  induction es with
  | nil => exact .nil
  | cons e es ih =>
      obtain ⟨he, hes⟩ := List.forall_mem_cons.mp h
      exact (ih hes).set he

theorem toItems_eq_map (items : List Entries) :
    Node.toItems items = items.map fun es => .object (Node.toFields es) := by
  induction items with
  | nil => rfl
  | cons es items ih => rw [Node.toItems, ih, List.map_cons]

theorem Node.HoldsSettings.isSetting_toValue (h : node.HoldsSettings) : node.toValue.IsSetting := by
  induction h with
  | value h => exact h
  | table _ ih => exact Value.isSetting_object_iff.mpr (areSettings_toFields ih)
  | @elements items _ ih =>
      refine .array fun v hv => ?_
      rw [toItems_eq_map] at hv
      obtain ⟨es, hes, rfl⟩ := List.mem_map.mp hv
      exact Value.isSetting_object_iff.mpr (areSettings_toFields (ih es hes))

theorem Entries.HoldSettings.areSettings (h : es.HoldSettings) : Fields.AreSettings (Node.toFields es) :=
  areSettings_toFields fun e he => (h e he).isSetting_toValue

/-! ## Values -/

theorem isSetting_word? {word : String} {w : Value} (hw : w.IsSetting) (h : word? word w cs = some (v, rest)) :
    v.IsSetting := by
  unfold word? at h
  split at h
  · cases h
    exact hw
  · cases h

theorem isSetting_moment? (h : moment? cs = some (v, rest)) : v.IsSetting := by
  obtain ⟨text, -, htext⟩ := Option.map_eq_some_iff.mp h
  cases htext
  exact .object (List.pairwise_singleton ..) (by simpa using .string _)

theorem isSetting_integer? {i : Int} (h : integer? i = some v) : v.IsSetting := by
  unfold integer? at h
  split at h
  · cases h
    exact .number _
  · cases h

theorem isSetting_based? {base : Nat} {p : Char → Bool} (h : based? base p cs = some (v, rest)) : v.IsSetting := by
  simp only [based?, Option.bind_eq_bind, Option.bind_eq_some_iff, Option.pure_def, Option.some.injEq,
    Prod.mk.injEq] at h
  obtain ⟨_, -, w, hw, rfl, -⟩ := h
  exact isSetting_integer? hw

theorem isSetting_decimal? {negative : Bool} (h : decimal? negative cs = some (v, rest)) : v.IsSetting := by
  unfold decimal? at h
  obtain ⟨⟨whole, _⟩, -, h⟩ := Option.bind_eq_some_iff.mp h
  dsimp only at h
  split at h
  · cases h
  · obtain ⟨⟨fraction, _⟩, -, h⟩ := Option.bind_eq_some_iff.mp h
    obtain ⟨⟨exponent, _⟩, -, h⟩ := Option.bind_eq_some_iff.mp h
    dsimp only at h
    split at h
    · obtain ⟨w, hw, h⟩ := Option.bind_eq_some_iff.mp h
      cases h
      exact isSetting_integer? hw
    · split at h
      · cases h
      · cases h
        exact .number _

theorem isSetting_number? (h : number? cs = some (v, rest)) : v.IsSetting := by
  unfold number? at h
  split at h
  · exact isSetting_based? h
  · exact isSetting_based? h
  · exact isSetting_based? h
  · split at h
    · cases h
      exact .number _
    · cases h
      exact .number _
    · exact isSetting_decimal? h

theorem isSetting_value?_and (n : Nat) :
    (∀ {depth cs v rest}, value? n depth cs = some (v, rest) → v.IsSetting) ∧
    (∀ {depth cs vs rest}, items? n depth cs = some (vs, rest) → ∀ v ∈ vs, v.IsSetting) ∧
    ∀ {depth cs es out rest}, Entries.HoldSettings es → entries? n depth cs es = some (out, rest) →
      Entries.HoldSettings out := by
  induction n with
  | zero => refine ⟨fun h => ?_, fun h => ?_, fun _ h => ?_⟩ <;> cases h
  | succ n ih =>
      obtain ⟨hvalue, hitems, hentries⟩ := ih
      refine ⟨fun h => ?_, fun h => ?_, fun hes h => ?_⟩
      · unfold value? at h
        split at h
        · exact isSetting_word? (.bool true) h
        · exact isSetting_word? (.bool false) h
        · split_ifs at h
          split at h
          · cases h
            exact .array nofun
          · obtain ⟨⟨vs, _⟩, hvs, he⟩ := Option.map_eq_some_iff.mp h
            cases he
            exact .array (hitems hvs)
        · split_ifs at h
          split at h
          · cases h
            exact Value.isSetting_object_iff.mpr .nil
          · obtain ⟨⟨es, _⟩, hes, he⟩ := Option.map_eq_some_iff.mp h
            cases he
            exact Value.isSetting_object_iff.mpr (hentries .nil hes).areSettings
        · obtain ⟨⟨text, _⟩, -, he⟩ := Option.map_eq_some_iff.mp h
          cases he
          exact .string _
        · obtain ⟨⟨text, _⟩, -, he⟩ := Option.map_eq_some_iff.mp h
          cases he
          exact .string _
        · rcases Option.or_eq_some_iff.mp h with h | ⟨-, h⟩
          exacts [isSetting_moment? h, isSetting_number? h]
      · unfold items? at h
        obtain ⟨⟨v, _⟩, hv, h⟩ := Option.bind_eq_some_iff.mp h
        dsimp only at h
        split at h
        · split at h
          · cases h
            simpa using hvalue hv
          · obtain ⟨⟨vs, _⟩, hvs, he⟩ := Option.bind_eq_some_iff.mp h
            cases he
            exact List.forall_mem_cons.mpr ⟨hvalue hv, hitems hvs⟩
        · cases h
          simpa using hvalue hv
        · cases h
      · unfold entries? at h
        obtain ⟨⟨keys, _⟩, -, h⟩ := Option.bind_eq_some_iff.mp h
        dsimp only at h
        split at h
        · obtain ⟨⟨v, _⟩, hv, h⟩ := Option.bind_eq_some_iff.mp h
          obtain ⟨more, hmore, h⟩ := Option.bind_eq_some_iff.mp h
          have hmore := hes.assignIn? (hvalue hv) hmore
          dsimp only at h
          split at h
          · exact hentries hmore h
          · cases h
            exact hmore
          · cases h
        · cases h

theorem isSetting_value? (h : value? n depth cs = some (v, rest)) : v.IsSetting := (isSetting_value?_and n).1 h

/-! ## The file -/

/-- The value of an assignment is a setting. -/
def Statement.HoldsSetting : Statement → Prop
  | .assign _ v => v.IsSetting
  | _ => True

theorem holdsSetting_statement? {s : Statement} (h : statement? n cs = some (s, rest)) : s.HoldsSetting := by
  unfold statement? at h
  split at h
  · obtain ⟨⟨keys, _⟩, -, h⟩ := Option.bind_eq_some_iff.mp h
    dsimp only at h
    split at h
    · cases h
      trivial
    · cases h
  · obtain ⟨⟨keys, _⟩, -, h⟩ := Option.bind_eq_some_iff.mp h
    dsimp only at h
    split at h
    · cases h
      trivial
    · cases h
  · obtain ⟨⟨keys, _⟩, -, h⟩ := Option.bind_eq_some_iff.mp h
    dsimp only at h
    split at h
    · obtain ⟨⟨v, _⟩, hv, h⟩ := Option.bind_eq_some_iff.mp h
      cases h
      exact isSetting_value? hv
    · cases h

theorem holdsSetting_statements? {statements : List Statement} (h : statements? n cs = some statements) :
    ∀ s ∈ statements, s.HoldsSetting := by
  induction n generalizing cs statements with
  | zero => cases h
  | succ n ih =>
      unfold statements? at h
      split at h
      · cases h
        exact nofun
      · obtain ⟨⟨s, _⟩, hs, h⟩ := Option.bind_eq_some_iff.mp h
        obtain ⟨_, -, h⟩ := Option.bind_eq_some_iff.mp h
        obtain ⟨more, hmore, h⟩ := Option.bind_eq_some_iff.mp h
        cases h
        exact List.forall_mem_cons.mpr ⟨holdsSetting_statement? hs, ih hmore⟩

/-- What a statement adds to a table of settings makes a table of settings. -/
theorem holdSettings_extend? {s : Statement} {state next : Entries × List String} (hs : s.HoldsSetting)
    (hstate : state.1.HoldSettings) (h : extend? state s = some next) : next.1.HoldSettings := by
  cases s with
  | table keys =>
      obtain ⟨es, hes, rfl⟩ := Option.map_eq_some_iff.mp h
      exact hstate.descend? (fun h => h.openTable?) hes
  | element keys =>
      obtain ⟨es, hes, rfl⟩ := Option.map_eq_some_iff.mp h
      exact hstate.descend? (fun h => h.openElement?) hes
  | assign keys v =>
      obtain ⟨es, hes, rfl⟩ := Option.map_eq_some_iff.mp h
      exact hstate.descend? (fun h => h.assignIn? hs) hes

theorem holdSettings_foldlM {statements : List Statement} {state final : Entries × List String}
    (hs : ∀ s ∈ statements, s.HoldsSetting) (hstate : state.1.HoldSettings)
    (h : statements.foldlM extend? state = some final) : final.1.HoldSettings := by
  induction statements generalizing state with
  | nil =>
      cases h
      exact hstate
  | cons s rest ih =>
      obtain ⟨hfirst, hrest⟩ := List.forall_mem_cons.mp hs
      rw [List.foldlM_cons] at h
      obtain ⟨next, hnext, h⟩ := Option.bind_eq_some_iff.mp h
      exact ih hrest (holdSettings_extend? hfirst hstate hnext) h

theorem areSettings_document? {text : String} {fields : Fields} (h : document? text = some fields) :
    fields.AreSettings := by
  obtain ⟨statements, hstatements, h⟩ := Option.bind_eq_some_iff.mp h
  obtain ⟨⟨es, _⟩, hes, h⟩ := Option.bind_eq_some_iff.mp h
  cases h
  exact (holdSettings_foldlM (holdsSetting_statements? hstatements) .nil hes).areSettings

end ImportCheck.Toml

import ImportCheck.Proofs.Toml.Written

/-!
# Written settings files

How a settings file is written line by line, and that the file holds the sections that are written in it.
-/

namespace ImportCheck.Toml

variable {c : Char} {cs text line rest lines : List Char} {n m : Nat} {v : Value} {key : String} {es inner : Entries}
  {fields : List (String × Value)} {sections : List (String × List (String × Value))} {statements : List Statement}

/-! ## Lines -/

/-- Lines of one section and the fields that they assign; empty lines and comments assign none. -/
inductive WrittenLines : List (String × Value) → List Char → Prop
  | done : WrittenLines [] []
  | empty {fields : List (String × Value)} {text : List Char} (h : WrittenLines fields text) :
      WrittenLines fields ('\n' :: text)
  | comment {fields : List (String × Value)} {cs text : List Char}
      (hcs : ∀ c ∈ cs, c = '\t' ∨ 32 ≤ c.toNat ∧ c.toNat ≠ 127) (h : WrittenLines fields text) :
      WrittenLines fields ('#' :: (cs ++ '\n' :: text))
  | assign {fields : List (String × Value)} {key line text : List Char} {v : Value} (hkey : IsKey key)
      (hv : Written 0 v line) (h : WrittenLines fields text) :
      WrittenLines ((.ofList key, v) :: fields) (key ++ ' ' :: '=' :: ' ' :: (line ++ '\n' :: text))

/-- Sections under their headers. -/
inductive WrittenSections : List (String × List (String × Value)) → List Char → Prop
  | done : WrittenSections [] []
  | header {sections : List (String × List (String × Value))} {fields : List (String × Value)}
      {name lines text : List Char} (hname : IsKey name) (hkeys : (fields.map (·.1)).Nodup)
      (hlines : WrittenLines fields lines) (h : WrittenSections sections text) :
      WrittenSections ((.ofList name, fields) :: sections) ('[' :: (name ++ ']' :: '\n' :: (lines ++ text)))

/-- A settings file with a section for each name. Comments may come before the first one. -/
structure WrittenFile (sections : List (String × List (String × Value))) (text : List Char) : Prop where
  names : (sections.map (·.1)).Nodup
  lines : ∃ start body, WrittenLines [] start ∧ WrittenSections sections body ∧ text = start ++ body

/-! ## Statements -/

/-- With any bound that is enough, the statements are read from the text. -/
def ReadsAs (text : List Char) (statements : List Statement) : Prop :=
  ∀ n, text.length ≤ n → statements? (n + 1) text = some statements

theorem length_skipBlank_le (cs : List Char) : (skipBlank cs).length ≤ cs.length :=
  (List.dropWhile_suffix _).length_le

theorem length_skipComment_le (cs : List Char) : (skipComment cs).length ≤ cs.length := by
  unfold skipComment
  split
  · exact Nat.le_succ_of_le (List.dropWhile_suffix _).length_le
  · exact Nat.le_refl _

theorem length_of_newline? (h : newline? cs = some rest) : rest.length < cs.length := by
  unfold newline? at h
  split at h
  · cases h
    exact Nat.lt_succ_self _
  · cases h
    exact Nat.lt_succ_of_lt (Nat.lt_succ_self _)
  · cases h

/-- A bound of the text's length is enough to skip what says nothing. -/
theorem skipSpace_succ (h : cs.length ≤ n) : skipSpace (n + 1) cs = skipSpace n cs := by
  induction n generalizing cs with
  | zero =>
      rw [List.length_eq_zero_iff.mp (Nat.le_zero.mp h)]
      rfl
  | succ n ih =>
      rw [skipSpace, skipSpace]
      split
      · rfl
      · split
        · rename_i rest hrest
          have hle := (length_skipComment_le (skipBlank cs)).trans (length_skipBlank_le cs)
          have hlt := length_of_newline? hrest
          exact ih (by omega)
        · rfl

theorem statements?_congr {cs' : List Char} (h : skipSpace (n + 1) cs = skipSpace (n + 1) cs') :
    statements? (n + 1) cs = statements? (n + 1) cs' := by
  rw [statements?, statements?, h]

namespace ReadsAs

theorem nil : ReadsAs [] [] := fun _ _ => rfl

theorem empty (h : ReadsAs text statements) : ReadsAs ('\n' :: text) statements := by
  intro n hn
  have hlength : text.length ≤ n := Nat.le_of_succ_le hn
  rw [← h n hlength]
  exact statements?_congr (skipSpace_succ hlength).symm

theorem comment (hcs : ∀ c ∈ cs, c = '\t' ∨ 32 ≤ c.toNat ∧ c.toNat ≠ 127) (h : ReadsAs text statements) :
    ReadsAs ('#' :: (cs ++ '\n' :: text)) statements := by
  intro n hn
  simp only [List.length_cons, List.length_append] at hn
  have hlength : text.length ≤ n := by omega
  have hplain : ∀ c ∈ cs, (!isControl c) = true := by
    intro c hc
    rcases hcs c hc with rfl | hc
    · rfl
    · rw [not_isControl hc, Bool.not_false]
  have hskip : skipComment (skipBlank ('#' :: (cs ++ '\n' :: text))) = '\n' :: text := by
    change (cs ++ '\n' :: text).dropWhile (!isControl ·) = _
    rw [List.dropWhile_append_of_pos hplain]
    rfl
  rw [← h n hlength]
  refine statements?_congr ?_
  rw [skipSpace_succ hlength, skipSpace, hskip]
  rfl

theorem statement {s : Statement} (hc : Begins c) (hs : ∀ m, 2 * cs.length < m →
    statement? (m + 1) (c :: cs) = some (s, '\n' :: text)) (hlength : text.length ≤ cs.length)
    (h : ReadsAs text statements) : ReadsAs (c :: cs) (s :: statements) := by
  intro n hn
  obtain ⟨n, rfl⟩ : ∃ m, n = m + 1 := ⟨n - 1, by simp at hn; omega⟩
  have hread : statement? (2 * (c :: cs).length + 2) (c :: cs) = some (s, '\n' :: text) :=
    hs _ (by simp only [List.length_cons]; omega)
  have hmore : statements? (n + 1) text = some statements := h n (by simp at hn; omega)
  have hend : endOfLine? ('\n' :: text) = some text := rfl
  rw [statements?, skipSpace_of_begins hc]
  simp only [hread, Option.bind_eq_bind, Option.bind_some, hend, hmore]
  rfl

end ReadsAs

theorem statement?_assign {key : List Char} (hkey : IsKey key) (hv : Written 0 v line) (hm : line.length ≤ m) :
    statement? (m + 1) (key ++ ' ' :: '=' :: ' ' :: (line ++ '\n' :: text)) =
      some (.assign [.ofList key] v, '\n' :: text) := by
  have hkeys : keys? (m + 1) (key ++ ' ' :: '=' :: ' ' :: (line ++ '\n' :: text)) =
      some ([.ofList key], '=' :: ' ' :: (line ++ '\n' :: text)) :=
    hkey.keys?_eq (by simp [isBareChar]) (by simp [skipBlank, isBlank])
  have hread : value? (m + 1) 0 (line ++ '\n' :: text) = some (v, '\n' :: text) :=
    hv.value?_eq (by simp [Follows]) (by omega)
  have hblank : skipBlank (' ' :: (line ++ '\n' :: text)) = line ++ '\n' :: text := by
    obtain ⟨c, cs, rfl, hc⟩ := hv.begins
    exact skipBlank_blank hc
  obtain ⟨c, cs, rfl⟩ := List.exists_cons_of_ne_nil hkey.nonempty
  have hc : c ≠ '[' := by
    rintro rfl
    cases isBareChar_of_key (hkey.chars _ List.mem_cons_self)
  unfold statement?
  split
  · next he => exact absurd (List.cons.inj he).1 hc
  · next he => exact absurd (List.cons.inj he).1 hc
  · rw [hkeys]
    simp only [Option.bind_eq_bind, Option.bind_some, hblank, hread]
    rfl

theorem statement?_table {name : List Char} (hname : IsKey name) :
    statement? (m + 1) ('[' :: (name ++ ']' :: rest)) = some (.table [.ofList name], rest) := by
  have hkeys : keys? (m + 1) (name ++ ']' :: rest) = some ([.ofList name], ']' :: rest) :=
    hname.keys?_eq (by simp [isBareChar]) (by simp [skipBlank, isBlank])
  obtain ⟨c, cs, rfl⟩ := List.exists_cons_of_ne_nil hname.nonempty
  have hc : c ≠ '[' := by
    rintro rfl
    cases isBareChar_of_key (hname.chars _ List.mem_cons_self)
  unfold statement?
  split
  · next he => exact absurd (List.cons.inj (List.cons.inj he).2).1 hc
  · next he =>
    cases he
    rw [hkeys]
    rfl
  · next hno => exact absurd rfl (hno _)

/-! ## Reading -/

/-- The assignments of fields. -/
def assignments (fields : List (String × Value)) : List Statement := fields.map fun f => .assign [f.1] f.2

/-- The headers of sections, each with its assignments behind it. -/
def statementsOf (sections : List (String × List (String × Value))) : List Statement :=
  sections.flatMap fun s => .table [s.1] :: assignments s.2

theorem WrittenLines.readsAs (h : WrittenLines fields text) (hrest : ReadsAs rest statements) :
    ReadsAs (text ++ rest) (assignments fields ++ statements) := by
  induction h with
  | done => exact hrest
  | empty _ ih => exact ih.empty
  | comment hcs _ ih =>
      rw [List.cons_append, List.append_assoc]
      exact ih.comment hcs
  | @assign _ key line text v hkey hv _ ih =>
      simp only [List.append_assoc, List.cons_append]
      obtain ⟨c, cs, hcs, hc⟩ := hkey.begins
      have hread (m : Nat) (hm : line.length ≤ m) :
          statement? (m + 1) (key ++ ' ' :: '=' :: ' ' :: (line ++ '\n' :: (text ++ rest))) =
            some (.assign [.ofList key] v, '\n' :: (text ++ rest)) := statement?_assign hkey hv hm
      rw [hcs, List.cons_append] at hread ⊢
      exact ih.statement hc (fun m hm => hread m (by simp at hm; omega)) (by simp; omega)

theorem WrittenSections.readsAs (h : WrittenSections sections text) : ReadsAs text (statementsOf sections) := by
  induction h with
  | done => exact .nil
  | @header sections fields name lines text hname _ hlines _ ih =>
      have hbegins : Begins '[' := by unfold Begins; decide
      exact (hlines.readsAs ih).statement hbegins (fun m _ => statement?_table hname) (by simp; omega)

theorem WrittenFile.read?_eq {text : String} (h : WrittenFile sections text.toList) :
    read? text = some (statementsOf sections) := by
  obtain ⟨start, body, hstart, hbody, htext⟩ := h.lines
  have hmark : skipMark text.toList = text.toList := by
    rw [htext]
    cases hstart with
    | done =>
        cases hbody <;> rfl
    | empty | comment => rfl
  rw [read?, hmark, htext]
  exact hstart.readsAs hbody.readsAs _ (Nat.le_refl _)

/-! ## Tables -/

theorem get?_concat {node : Node} (h : key ∉ es.map (·.1)) : Entries.get? (es ++ [(key, node)]) key = some node := by
  have hnone : es.find? (·.1 == key) = none := Option.map_eq_none_iff.mp (get?_eq_none h)
  simp [Entries.get?, List.find?_append, hnone]

theorem put_concat {node node' : Node} (h : key ∉ es.map (·.1)) :
    Entries.put (es ++ [(key, node)]) key node' = es ++ [(key, node')] := by
  have hkeep : (es.map fun e => if e.1 == key then (key, node') else e) = es := by
    refine (List.map_congr_left fun e he => ?_).trans (List.map_id' es)
    have hne : e.1 ≠ key := fun hk => h (List.mem_map.mpr ⟨e, he, hk⟩)
    simp [hne]
  rw [Entries.put, get?_concat h, Option.isSome_some, if_pos rfl, List.map_append, hkeep]
  simp

theorem extend?_table {name : String} {current : List String} (h : name ∉ es.map (·.1)) :
    extend? (es, current) (.table [name]) = some (es ++ [(name, .table .header [])], [name]) := by
  have hopen : openTable? name es = some (es ++ [(name, .table .header [])]) := by
    rw [openTable?, get?_eq_none h]
    simp only [put_of_get?_eq_none (get?_eq_none h)]
  exact congrArg (Option.map (·, [name])) hopen

theorem extend?_assign {name : String} (h : name ∉ es.map (·.1)) (hkey : key ∉ inner.map (·.1)) :
    extend? (es ++ [(name, .table .header inner)], [name]) (.assign [key] v) =
      some (es ++ [(name, .table .header (inner ++ [(key, .value v)]))], [name]) := by
  have hdescend : descend? (assignIn? v [key]) [name] (es ++ [(name, .table .header inner)]) =
      some (es ++ [(name, .table .header (inner ++ [(key, .value v)]))]) := by
    rw [descend?, get?_concat h]
    simp only [descend?, assignIn?_of_not_mem hkey, Option.map_some, put_concat h]
  exact congrArg (Option.map (·, [name])) hdescend

theorem foldlM_assignments {name : String} (h : name ∉ es.map (·.1))
    (hkeys : (inner.map (·.1) ++ fields.map (·.1)).Nodup) :
    (assignments fields).foldlM extend? (es ++ [(name, .table .header inner)], [name]) =
      some (es ++ [(name, .table .header (inner ++ entriesOf fields))], [name]) := by
  induction fields generalizing inner with
  | nil =>
      rw [entriesOf, List.map_nil, List.append_nil]
      rfl
  | cons f fields ih =>
      obtain ⟨key, v⟩ := f
      have hkey : key ∉ inner.map (·.1) := fun hm => (List.nodup_append.mp hkeys).2.2 _ hm _ (by simp) rfl
      rw [assignments, List.map_cons, List.foldlM_cons, extend?_assign h hkey]
      refine (ih (by simpa using hkeys)).trans ?_
      rw [List.append_assoc]
      rfl

/-- Sections as tables that headers have given. -/
def tablesOf (sections : List (String × List (String × Value))) : Entries :=
  sections.map fun s => (s.1, .table .header (entriesOf s.2))

theorem foldlM_statementsOf {current : List String} (hnames : (es.map (·.1) ++ sections.map (·.1)).Nodup)
    (hkeys : ∀ s ∈ sections, (s.2.map (·.1)).Nodup) :
    ∃ last, (statementsOf sections).foldlM extend? (es, current) = some (es ++ tablesOf sections, last) := by
  induction sections generalizing es current with
  | nil => exact ⟨current, by rw [tablesOf, List.map_nil, List.append_nil]; rfl⟩
  | cons s sections ih =>
      obtain ⟨name, fields⟩ := s
      have hname : name ∉ es.map (·.1) := fun hm => (List.nodup_append.mp hnames).2.2 _ hm _ (by simp) rfl
      obtain ⟨hfields, hkeys⟩ := List.forall_mem_cons.mp hkeys
      have hrest : ((es ++ [(name, Node.table .header (entriesOf fields))]).map (·.1) ++ sections.map (·.1)).Nodup := by
        simpa using hnames
      obtain ⟨last, hlast⟩ := @ih _ [name] hrest hkeys
      refine ⟨last, ?_⟩
      have hassign : (assignments fields).foldlM extend? (es ++ [(name, .table .header [])], [name]) =
          some (es ++ [(name, .table .header (entriesOf fields))], [name]) :=
        foldlM_assignments hname (by simpa using hfields)
      rw [statementsOf, List.flatMap_cons, List.cons_append, List.foldlM_cons, extend?_table hname]
      simp only [Option.bind_eq_bind, Option.bind_some, List.foldlM_append, hassign]
      refine hlast.trans ?_
      rw [List.append_assoc]
      rfl

theorem WrittenSections.nodup_keys (h : WrittenSections sections text) :
    ∀ s ∈ sections, (s.2.map (·.1)).Nodup := by
  induction h with
  | done => exact nofun
  | header _ hkeys _ _ ih => exact List.forall_mem_cons.mpr ⟨hkeys, ih⟩

/-- The fields of a settings file are the sections that are written in it. -/
theorem WrittenFile.document?_eq {text : String} (h : WrittenFile sections text.toList) :
    document? text = some (Fields.ofList (sections.map fun s => (s.1, .ofFields s.2))) := by
  obtain ⟨_, _, -, hbody, -⟩ := h.lines
  have hkeys := hbody.nodup_keys
  have hstart : (([] : Entries).map (·.1) ++ sections.map (·.1)).Nodup := by simpa using h.names
  obtain ⟨last, hlast⟩ : ∃ last, (statementsOf sections).foldlM extend? ([], []) = some (tablesOf sections, last) :=
    foldlM_statementsOf hstart hkeys
  have hnames : (tablesOf sections).map (·.1) = sections.map (·.1) := by
    rw [tablesOf, List.map_map]
    rfl
  rw [document?, h.read?_eq]
  simp only [Option.bind_eq_bind, Option.bind_some, hlast]
  refine congrArg some ((toFields_eq_ofList (hnames ▸ h.names)).trans (congrArg Fields.ofList ?_))
  rw [tablesOf, List.map_map]
  refine List.map_congr_left fun s hs => ?_
  change (s.1, Value.object (Node.toFields (entriesOf s.2))) = _
  rw [toFields_entriesOf (hkeys s hs)]
  rfl

/-- What a settings file holds. Where sections are written line by line, it holds these. -/
structure Holds (text : String) (fields : Fields) : Prop where
  read : document? text = some fields
  written : ∀ sections, WrittenFile sections text.toList →
    fields = Fields.ofList (sections.map fun s => (s.1, .ofFields s.2))

theorem holds_iff {text : String} {fields : Fields} : Holds text fields ↔ document? text = some fields :=
  ⟨Holds.read, fun h => ⟨h, fun _ hw => Option.some.inj (h.symm.trans hw.document?_eq)⟩⟩

end ImportCheck.Toml

import ImportCheck.Options.Variable
import ImportCheck.Proofs.Lemmas.Ascii
import ImportCheck.Proofs.Lemmas.Text

/-!
# Written values of variables

How values are written in the text of a variable, and that such a text has the value that is written.
-/

namespace ImportCheck.Variable

variable {v : Value} {items : List Value} {fields : List (String × Value)} {c : Char} {cs text rest : List Char}
  {n m : Nat}

/-! ## Notations -/

/-- A word that is written as it is. -/
structure IsWord (cs : List Char) : Prop where
  start : ∃ c rest, cs = c :: rest ∧ c.isAlpha
  chars : ∀ c ∈ cs, c.isAlphanum ∨ c = '-' ∨ c = '_' ∨ c = '.'
  not_true : ¬['t', 'r', 'u', 'e'] <+: cs
  not_false : ¬['f', 'a', 'l', 's', 'e'] <+: cs

structure IsKey (cs : List Char) : Prop where
  nonempty : cs ≠ []
  chars : ∀ c ∈ cs, c.isAlphanum ∨ c = '-' ∨ c = '_'

mutual
/-- A value and a text that it is written as. -/
inductive Written : Value → List Char → Prop
  | yes : Written (.bool true) ['t', 'r', 'u', 'e']
  | no : Written (.bool false) ['f', 'a', 'l', 's', 'e']
  | small {n : Nat} (h : n < Nat.pow 2 32) : Written (.number (.place n.toUInt32)) (Nat.toDigits 10 n)
  | large {n : Nat} (hn : Nat.pow 2 32 ≤ n) (h : n < Nat.pow 2 64) :
      Written (.number (.unsigned n)) (Nat.toDigits 10 n)
  | negative {n : Nat} (h : n ≤ Nat.pow 2 63) : Written (.number (.signed (-n))) ('-' :: Nat.toDigits 10 n)
  | word {cs : List Char} (h : IsWord cs) : Written (.string (.ofList cs)) cs
  | quoted {cs : List Char} (h : ∀ c ∈ cs, c ≠ '"' ∧ c ≠ '\\' ∧ 32 ≤ c.toNat ∧ c.toNat ≠ 127) :
      Written (.string (.ofList cs)) ('"' :: (cs ++ ['"']))
  | letter (c : Char) : Written (.letter c) ['\'', c, '\'']
  | noItems : Written (.array []) ['[', ']']
  | array {items : List Value} {text : List Char} (h : WrittenItems items text) :
      Written (.array items) ('[' :: (text ++ [']']))
  | noFields : Written (.object []) ['\x7b', '\x7d']
  | table {fields : List (String × Value)} {text : List Char} (h : WrittenFields fields text) :
      Written (.ofFields fields) ('\x7b' :: (text ++ ['\x7d']))

/-- Items with commas between them, and blanks after the commas. -/
inductive WrittenItems : List Value → List Char → Prop
  | last {v : Value} {text : List Char} (h : Written v text) : WrittenItems [v] text
  | more {v : Value} {items : List Value} {text rest : List Char} (blanks : Nat) (h : Written v text)
      (hrest : WrittenItems items rest) :
      WrittenItems (v :: items) (text ++ ',' :: (List.replicate blanks ' ' ++ rest))

inductive WrittenFields : List (String × Value) → List Char → Prop
  | last {key text : List Char} {v : Value} (hkey : IsKey key) (h : Written v text) :
      WrittenFields [(.ofList key, v)] (key ++ '=' :: text)
  | more {key text rest : List Char} {v : Value} {fields : List (String × Value)} (blanks : Nat) (hkey : IsKey key)
      (h : Written v text) (hrest : WrittenFields fields rest) :
      WrittenFields ((.ofList key, v) :: fields)
        (key ++ '=' :: (text ++ ',' :: (List.replicate blanks ' ' ++ rest)))
end

/-! ## Characters -/

/-- A character of a word separates nothing. -/
theorem plain_of_word (h : c.isAlphanum ∨ c = '-' ∨ c = '_' ∨ c = '.') :
    isSpace c = false ∧ isSeparator c = false ∧ Text.isBlank c = false ∧ c ≠ '"' ∧ c ≠ '\'' := by
  rcases h with h | rfl | rfl | rfl
  · have hc := Text.toNat_of_isAlphanum h
    refine ⟨?_, ?_, ?_, ?_, ?_⟩
    · simp only [isSpace, Bool.or_eq_false_iff, beq_eq_false_iff_ne]
      refine ⟨⟨⟨⟨?_, ?_⟩, ?_⟩, ?_⟩, ?_⟩ <;> rintro rfl <;> simp at hc
    · simp only [isSeparator, Bool.or_eq_false_iff, beq_eq_false_iff_ne]
      refine ⟨⟨⟨⟨?_, ?_⟩, ?_⟩, ?_⟩, ?_⟩ <;> rintro rfl <;> simp at hc
    · simp only [Text.isBlank, Bool.or_eq_false_iff, Bool.and_eq_false_iff, decide_eq_false_iff_not,
        beq_eq_false_iff_ne]
      omega
    · rintro rfl
      simp at hc
    · rintro rfl
      simp at hc
  all_goals decide

/-- What may follow a value. -/
def Follows (rest : List Char) : Prop := ∀ c ∈ rest.head?, c = ',' ∨ c = ']' ∨ c = '\x7d'

/-- A value may begin with the character. -/
def Begins (c : Char) : Prop := isSpace c = false ∧ c ≠ ',' ∧ c ≠ ']' ∧ c ≠ '\x7d'

theorem begins_of_word (h : c.isAlphanum ∨ c = '-' ∨ c = '_' ∨ c = '.') : Begins c := by
  obtain ⟨hspace, hseparator, -⟩ := plain_of_word h
  simp only [isSeparator, Bool.or_eq_false_iff, beq_eq_false_iff_ne] at hseparator
  exact ⟨hspace, hseparator.1.1.1.1, hseparator.1.1.2, hseparator.2⟩

theorem exists_toDigits (n : Nat) : ∃ c cs, Nat.toDigits 10 n = c :: cs ∧ c.isAlphanum := by
  obtain ⟨c, cs, h⟩ := List.exists_cons_of_ne_nil (Nat.toDigits_ne_nil (n := n) (b := 10))
  have hc : c.isDigit := Text.isDigit_of_mem_toDigits (h ▸ List.mem_cons_self)
  exact ⟨c, cs, h, Text.isAlphanum_of_isDigit hc⟩

theorem Written.begins (h : Written v text) : ∃ c cs, text = c :: cs ∧ Begins c := by
  cases h with
  | small | large =>
      obtain ⟨c, cs, hcs, hc⟩ := exists_toDigits _
      exact ⟨c, cs, hcs, begins_of_word (.inl hc)⟩
  | word h =>
      obtain ⟨c, cs, rfl, hc⟩ := h.start
      exact ⟨c, cs, rfl, begins_of_word (.inl (Text.isAlphanum_of_isAlpha hc))⟩
  | _ => exact ⟨_, _, rfl, by unfold Begins; decide⟩

/-! ## Numbers -/

theorem ofDigits_toDigits (n : Nat) : ofDigits (Nat.toDigits 10 n) = n := by
  have hdigits := Nat.ofDigitChars_toDigits (b := 10) (n := n) (by decide) (by decide)
  rw [Nat.ofDigitChars] at hdigits
  conv_rhs => rw [← hdigits]
  refine congrArg (fun f => List.foldl f 0 _) (funext fun m => funext fun c => ?_)
  rw [digitValue, Nat.mul_comm]
  rfl

theorem isNumeral_toDigits (n : Nat) : isNumeral (Nat.toDigits 10 n) = true := by
  have hdigits : ∀ c ∈ Nat.toDigits 10 n, c.isDigit = true := fun c => Text.isDigit_of_mem_toDigits
  simp [isNumeral, Nat.toDigits_ne_nil, List.all_eq_true.mpr hdigits]

theorem signed_toDigits (n : Nat) : signed (Nat.toDigits 10 n) = (false, Nat.toDigits 10 n) := by
  obtain ⟨c, cs, hcs, hc⟩ := exists_toDigits n
  rw [hcs]
  unfold signed
  split
  · cases ‹_›
    cases hc
  · cases ‹_›
    cases hc
  · rfl

theorem point_not_mem_toDigits (n : Nat) : (Nat.toDigits 10 n).contains '.' = false := by
  rw [Bool.eq_false_iff, ne_eq, List.contains_iff_mem]
  intro hm
  cases Text.isDigit_of_mem_toDigits hm

theorem integer?_toDigits (h : n < Nat.pow 2 64) :
    integer? (Nat.toDigits 10 n) = some (if n < Nat.pow 2 32 then .place n.toUInt32 else .unsigned n) := by
  unfold integer?
  split
  · rename_i ds hds
    cases Text.isDigit_of_mem_toDigits (hds ▸ List.mem_cons_self : '-' ∈ Nat.toDigits 10 n)
  · have hlimit : ¬Nat.pow 2 64 ≤ n := Nat.not_le.mpr h
    rw [signed_toDigits]
    dsimp only
    rw [isNumeral_toDigits, ofDigits_toDigits]
    exact (if_neg (not_or.mpr ⟨by decide, hlimit⟩)).trans rfl

theorem bare_toDigits (h : n < Nat.pow 2 64) :
    bare (Nat.toDigits 10 n) = .number (if n < Nat.pow 2 32 then .place n.toUInt32 else .unsigned n) := by
  simp only [bare, point_not_mem_toDigits, integer?_toDigits h, Bool.false_eq_true, if_false]

theorem bare_negative (h : n ≤ Nat.pow 2 63) : bare ('-' :: Nat.toDigits 10 n) = .number (.signed (-n)) := by
  have hpoint : ('-' :: Nat.toDigits 10 n).contains '.' = false := by
    rw [List.contains_cons, point_not_mem_toDigits]
    rfl
  have hinteger : integer? ('-' :: Nat.toDigits 10 n) = some (.signed (-n)) := by
    rw [integer?, isNumeral_toDigits, ofDigits_toDigits, if_pos ⟨rfl, h⟩]
  simp only [bare, hpoint, hinteger, Bool.false_eq_true, if_false]

theorem bare_word (h : IsWord cs) : bare cs = .string (.ofList cs) := by
  obtain ⟨c, rest, rfl, hc⟩ := h.start
  have hdigit := Text.not_isDigit_of_isAlpha hc
  have hsigned : signed (c :: rest) = (false, c :: rest) := by
    unfold signed
    split
    · cases ‹_›
      cases hc
    · cases ‹_›
      cases hc
    · rfl
  have hinteger : integer? (c :: rest) = none := by
    unfold integer?
    split
    · cases ‹_›
      cases hc
    · simp [hsigned, isNumeral, hdigit]
  have hfloat : float? (c :: rest) = none := by
    have hpoint : c ≠ '.' := by
      rintro rfl
      cases hc
    simp [float?, hsigned, hdigit, hpoint]
  simp only [bare, hinteger, hfloat, ite_self]

/-! ## Texts in quotation marks -/

theorem quotedBody?_append (h : ∀ c ∈ cs, c ≠ '"' ∧ c ≠ '\\' ∧ 32 ≤ c.toNat ∧ c.toNat ≠ 127) :
    quotedBody? (cs ++ '"' :: rest) = some (cs, rest) := by
  induction cs with
  | nil => rfl
  | cons c cs ih =>
      obtain ⟨⟨hquote, hescape, hleast, hdelete⟩, hcs⟩ := List.forall_mem_cons.mp h
      rw [List.cons_append, quotedBody?.eq_def]
      split
      · next he => cases he
      · next he => exact absurd (List.cons.inj he).1 hquote
      · next he => exact absurd (List.cons.inj he).1 hescape
      · next he => exact absurd (List.cons.inj he).1 hescape
      · next he => exact absurd (List.cons.inj he).1 hescape
      · next he =>
        cases he
        simp [ih hcs, hescape, hdelete, Nat.not_lt.mpr hleast]

theorem quotedText?_append (h : ∀ c ∈ cs, c ≠ '"' ∧ c ≠ '\\' ∧ 32 ≤ c.toNat ∧ c.toNat ≠ 127) :
    quotedText? (cs ++ '"' :: rest) = some (cs, rest) := by
  have hplain : (cs ++ '"' :: rest).takeWhile (fun c => c != '"' && c != '\\') = cs := by
    rw [List.takeWhile_append_of_pos fun c hc => by simp [(h c hc).1, (h c hc).2.1]]
    simp
  simp [quotedText?, quotedBody?_append h, hplain]

/-! ## Reading -/

theorem skipSpace_of_begins (h : Begins c) : skipSpace (c :: cs) = c :: cs := by
  simp [skipSpace, h.1]

theorem skipSpace_of_follows (h : Follows rest) : skipSpace rest = rest := by
  cases rest with
  | nil => rfl
  | cons c cs => rcases h c rfl with rfl | rfl | rfl <;> rfl

theorem skipSpace_blanks (blanks : Nat) (h : Begins c) :
    skipSpace (List.replicate blanks ' ' ++ c :: cs) = c :: cs := by
  rw [skipSpace, List.dropWhile_append_of_pos fun d hd => by rw [List.eq_of_mem_replicate hd]; rfl]
  exact skipSpace_of_begins h

theorem read?_blanks (blanks : Nat) (h : Begins c) :
    read? n (List.replicate blanks ' ' ++ c :: cs) = read? n (c :: cs) := by
  cases n with
  | zero => rfl
  | succ n => rw [read?, read?, skipSpace_blanks blanks h, skipSpace_of_begins h]

theorem span_of_follows (h : Follows rest) :
    rest.takeWhile (!isSeparator ·) = [] ∧ rest.dropWhile (!isSeparator ·) = rest := by
  cases rest with
  | nil => exact ⟨rfl, rfl⟩
  | cons c cs => rcases h c rfl with rfl | rfl | rfl <;> exact ⟨rfl, rfl⟩

theorem after?_of_follows {mark : List Char} (hrest : Follows rest) (hmark : ∀ c ∈ mark, c.isAlpha)
    (h : ¬mark <+: cs) : Text.after? mark (cs ++ rest) = none := by
  refine Text.after?_eq_none_iff.mpr fun hp => h ?_
  cases rest with
  | nil => simpa using hp
  | cons d rest =>
      refine Text.prefix_of_prefix_append_cons cs (fun hd => ?_) hp
      have halpha := hmark d hd
      rcases hrest d rfl with rfl | rfl | rfl <;> cases halpha

/-- A text without marks of its own goes up to what follows it. -/
theorem read?_plain (hcs : ∀ c ∈ cs, c.isAlphanum ∨ c = '-' ∨ c = '_' ∨ c = '.') (hne : cs ≠ [])
    (htrue : ¬['t', 'r', 'u', 'e'] <+: cs) (hfalse : ¬['f', 'a', 'l', 's', 'e'] <+: cs) (hrest : Follows rest) :
    read? (n + 1) (cs ++ rest) = some (bare cs, rest) := by
  obtain ⟨c, ds, rfl⟩ := List.exists_cons_of_ne_nil hne
  have hseparator : ∀ d ∈ c :: ds, (!isSeparator d) = true := fun d hd => by simp [(plain_of_word (hcs d hd)).2.1]
  obtain ⟨hspace, hc, hblank, hquote, hletter⟩ := plain_of_word (hcs c List.mem_cons_self)
  simp only [isSeparator, Bool.or_eq_false_iff, beq_eq_false_iff_ne] at hc
  have hends : Text.EndsPlain (c :: ds) :=
    ⟨_, _, (List.dropLast_concat_getLast hne).symm, (plain_of_word (hcs _ (List.getLast_mem hne))).2.2.1⟩
  have hword : Text.trim ((c :: ds ++ rest).takeWhile (!isSeparator ·)) = c :: ds := by
    rw [List.takeWhile_append_of_pos hseparator, (span_of_follows hrest).1, List.append_nil]
    exact hends.trim_eq_self rfl hblank
  have hafter : (c :: ds ++ rest).dropWhile (!isSeparator ·) = rest := by
    rw [List.dropWhile_append_of_pos hseparator, (span_of_follows hrest).2]
  have htrue' : Text.after? "true".toList (c :: ds ++ rest) = none := after?_of_follows hrest (by simp) htrue
  have hfalse' : Text.after? "false".toList (c :: ds ++ rest) = none := after?_of_follows hrest (by simp) hfalse
  rw [List.cons_append] at hword hafter htrue' hfalse' ⊢
  rw [read?, skipSpace_of_begins (begins_of_word (hcs c List.mem_cons_self)), htrue', hfalse']
  simp [hc, hquote, hletter, hword, hafter, skipSpace_of_follows hrest]

theorem IsKey.key?_eq (h : IsKey cs) : key? (cs ++ '=' :: rest) = some (cs, '=' :: rest) := by
  have hword : ∀ c ∈ cs, isWordChar c = true := fun c hc => by
    rcases h.chars c hc with hc | rfl | rfl
    · simp [isWordChar, hc]
    · rfl
    · rfl
  have htake : (cs ++ '=' :: rest).takeWhile isWordChar = cs := by
    rw [List.takeWhile_append_of_pos hword]
    simp [isWordChar]
  have hdrop : (cs ++ '=' :: rest).dropWhile isWordChar = '=' :: rest := by
    rw [List.dropWhile_append_of_pos hword]
    simp [isWordChar]
  obtain ⟨c, ds, rfl⟩ := List.exists_cons_of_ne_nil h.nonempty
  unfold key?
  split
  · next he =>
    cases he
    cases hword _ List.mem_cons_self
  · simp only [htake, hdrop, h.nonempty, if_false]

theorem IsKey.begins (h : IsKey cs) : ∃ c ds, cs = c :: ds ∧ Begins c := by
  obtain ⟨c, ds, rfl⟩ := List.exists_cons_of_ne_nil h.nonempty
  refine ⟨c, ds, rfl, begins_of_word ?_⟩
  rcases h.chars c List.mem_cons_self with hc | rfl | rfl <;> simp_all

theorem WrittenItems.begins (h : WrittenItems items text) : ∃ c cs, text = c :: cs ∧ Begins c := by
  cases h with
  | last h => exact h.begins
  | more _ h =>
      obtain ⟨c, cs, rfl, hc⟩ := h.begins
      exact ⟨c, _, rfl, hc⟩

theorem WrittenFields.begins (h : WrittenFields fields text) : ∃ c cs, text = c :: cs ∧ Begins c := by
  cases h with
  | last hkey | more _ hkey =>
      obtain ⟨c, cs, rfl, hc⟩ := hkey.begins
      exact ⟨c, _, rfl, hc⟩

/-- Behind a comma there are blanks, or what comes next begins. -/
theorem exists_cons_blanks (blanks : Nat) (h : Begins c) :
    ∃ d ds, List.replicate blanks ' ' ++ c :: cs = d :: ds ∧ d ≠ ']' ∧ d ≠ '\x7d' := by
  cases blanks with
  | zero => exact ⟨c, cs, rfl, h.2.2⟩
  | succ blanks => exact ⟨' ', _, rfl, by decide, by decide⟩

theorem read?_number (hrest : Follows rest) :
    read? (n + 1) (Nat.toDigits 10 m ++ rest) = some (bare (Nat.toDigits 10 m), rest) := by
  refine read?_plain (fun c hc => ?_) Nat.toDigits_ne_nil ?_ ?_ hrest
  · exact .inl (Text.isAlphanum_of_isDigit (Text.isDigit_of_mem_toDigits hc))
  · intro hp
    cases Text.isDigit_of_mem_toDigits (hp.subset (by simp : 't' ∈ ['t', 'r', 'u', 'e']))
  · intro hp
    cases Text.isDigit_of_mem_toDigits (hp.subset (by simp : 'f' ∈ ['f', 'a', 'l', 's', 'e']))

theorem read?_negative (hrest : Follows rest) :
    read? (n + 1) ('-' :: Nat.toDigits 10 m ++ rest) = some (bare ('-' :: Nat.toDigits 10 m), rest) := by
  refine read?_plain (fun c hc => ?_) (by simp) (by simp) (by simp) hrest
  rcases List.mem_cons.mp hc with rfl | hc
  · exact .inr (.inl rfl)
  · exact .inl (Text.isAlphanum_of_isDigit (Text.isDigit_of_mem_toDigits hc))

theorem read?_array (hc : c ≠ ']') : read? (n + 1) ('[' :: c :: cs) =
    (readItems? n (c :: cs)).map fun (items, rest) => (.array items, skipSpace rest) := by
  rw [read?, show skipSpace ('[' :: c :: cs) = '[' :: c :: cs from rfl]
  simp [Text.after?, hc, Function.comp_def]

theorem read?_table (hc : c ≠ '\x7d') : read? (n + 1) ('\x7b' :: c :: cs) =
    (readFields? n (c :: cs)).map fun (fields, rest) => (.ofFields fields, skipSpace rest) := by
  rw [read?, show skipSpace ('\x7b' :: c :: cs) = '\x7b' :: c :: cs from rfl]
  simp [Text.after?, hc, Function.comp_def]

theorem readItems?_more {blanks : Nat} (hc : Begins c)
    (hread : read? n text = some (v, ',' :: (List.replicate blanks ' ' ++ c :: cs))) :
    readItems? (n + 1) text = (readItems? n (c :: cs)).map fun (items, rest) => (v :: items, rest) := by
  have hblanks : readItems? n (List.replicate blanks ' ' ++ c :: cs) = readItems? n (c :: cs) := by
    cases n with
    | zero => rfl
    | succ n => rw [readItems?, readItems?, read?_blanks blanks hc]
  obtain ⟨d, ds, hd, hne, -⟩ : ∃ d ds, List.replicate blanks ' ' ++ c :: cs = d :: ds ∧ d ≠ ']' ∧ d ≠ '\x7d' :=
    exists_cons_blanks blanks hc
  rw [hd] at hread hblanks
  rw [readItems?, hread, ← hblanks]
  simp only [Option.bind_eq_bind, Option.bind_some]
  split
  · next he =>
    cases he
    exact absurd rfl hne
  · next he =>
    cases he
    cases readItems? n (d :: ds) <;> rfl
  · next he => cases he
  · next hno _ => exact absurd rfl (hno (d :: ds))

theorem IsKey.readFields?_eq (h : IsKey cs) :
    readFields? (n + 1) (cs ++ '=' :: text) = (do
      let (v, rest) ← read? n text
      let field := (String.ofList cs, v)
      match rest with
      | ',' :: '\x7d' :: rest => return ([field], rest)
      | ',' :: rest =>
        let (fields, rest) ← readFields? n rest
        return (field :: fields, rest)
      | '\x7d' :: rest => return ([field], rest)
      | _ => none) := by
  obtain ⟨c, ds, hcs, hc⟩ := h.begins
  have hskip : skipSpace (cs ++ '=' :: text) = cs ++ '=' :: text := by
    rw [hcs]
    exact skipSpace_of_begins hc
  rw [readFields?, hskip, h.key?_eq]
  rfl

theorem readFields?_more {key : List Char} {blanks : Nat} (hkey : IsKey key) (hc : Begins c)
    (hread : read? n text = some (v, ',' :: (List.replicate blanks ' ' ++ c :: cs))) :
    readFields? (n + 1) (key ++ '=' :: text) =
      (readFields? n (c :: cs)).map fun (fields, rest) => ((.ofList key, v) :: fields, rest) := by
  have hblanks : readFields? n (List.replicate blanks ' ' ++ c :: cs) = readFields? n (c :: cs) := by
    cases n with
    | zero => rfl
    | succ n => rw [readFields?, readFields?, skipSpace_blanks blanks hc, skipSpace_of_begins hc]
  obtain ⟨d, ds, hd, -, hne⟩ : ∃ d ds, List.replicate blanks ' ' ++ c :: cs = d :: ds ∧ d ≠ ']' ∧ d ≠ '\x7d' :=
    exists_cons_blanks blanks hc
  rw [hd] at hread hblanks
  rw [hkey.readFields?_eq, hread, ← hblanks]
  simp only [Option.bind_eq_bind, Option.bind_some]
  split
  · next he =>
    cases he
    exact absurd rfl hne
  · next he =>
    cases he
    cases readFields? n (d :: ds) <;> rfl
  · next he => cases he
  · next hno _ => exact absurd rfl (hno (d :: ds))

mutual
theorem Written.read?_eq {v : Value} {text rest : List Char} {n : Nat} (h : Written v text) (hrest : Follows rest)
    (hn : text.length < n) : read? n (text ++ rest) = some (v, rest) := by
  obtain ⟨n, rfl⟩ : ∃ m, n = m + 1 := ⟨n - 1, by omega⟩
  have hskip := skipSpace_of_follows hrest
  match h with
  | .yes | .no | .letter _ | .noItems | .noFields => exact congrArg (fun rest => some (_, rest)) hskip
  | .small h => rw [read?_number hrest, bare_toDigits (h.trans (by decide)), if_pos h]
  | .large hn h => rw [read?_number hrest, bare_toDigits h, if_neg (Nat.not_lt.mpr hn)]
  | .negative h => rw [read?_negative hrest, bare_negative h]
  | .word h =>
      obtain ⟨c, cs, rfl, -⟩ := h.start
      rw [read?_plain h.chars (by simp) h.not_true h.not_false hrest, bare_word h]
  | @Written.quoted cs h =>
      have hread : read? (n + 1) ('"' :: (cs ++ '"' :: rest)) =
          ((quotedText? (cs ++ '"' :: rest)).map fun (text, rest) => (.string (.ofList text), rest)).map
            fun (v, rest) => (v, skipSpace rest) := rfl
      rw [List.cons_append, List.append_assoc]
      exact hread.trans (by simp [quotedText?_append h, hskip])
  | @Written.array items text h =>
      have hread : readItems? n (text ++ ']' :: rest) = some (items, rest) :=
        h.readItems?_eq (by simp at hn; omega)
      obtain ⟨c, cs, hcs, hc⟩ := h.begins
      rw [hcs] at hread
      simp only [hcs, List.cons_append, List.append_assoc, List.nil_append] at hread ⊢
      simp only [read?_array hc.2.2.1, hread, Option.map_some, hskip]
  | @Written.table fields text h =>
      have hread : readFields? n (text ++ '\x7d' :: rest) = some (fields, rest) :=
        h.readFields?_eq (by simp at hn; omega)
      obtain ⟨c, cs, hcs, hc⟩ := h.begins
      rw [hcs] at hread
      simp only [hcs, List.cons_append, List.append_assoc, List.nil_append] at hread ⊢
      simp only [read?_table hc.2.2.2, hread, Option.map_some, hskip]

theorem WrittenItems.readItems?_eq {items : List Value} {text rest : List Char} {n : Nat} (h : WrittenItems items text)
    (hn : text.length + 1 < n) : readItems? n (text ++ ']' :: rest) = some (items, rest) := by
  obtain ⟨n, rfl⟩ : ∃ m, n = m + 1 := ⟨n - 1, by omega⟩
  match h with
  | @WrittenItems.last v text h =>
      have hread : read? n (text ++ ']' :: rest) = some (v, ']' :: rest) := h.read?_eq (by simp [Follows]) (by omega)
      simp [readItems?, hread]
  | @WrittenItems.more v items text more blanks h hmore =>
      simp only [List.length_append, List.length_cons, List.length_replicate] at hn
      have hread : read? n (text ++ ',' :: (List.replicate blanks ' ' ++ (more ++ ']' :: rest))) = some (v, _) :=
        h.read?_eq (by simp [Follows]) (by omega)
      have hreadMore : readItems? n (more ++ ']' :: rest) = some (items, rest) := hmore.readItems?_eq (by omega)
      obtain ⟨c, cs, hcs, hc⟩ := hmore.begins
      rw [hcs] at hread hreadMore
      simp only [hcs, List.append_assoc, List.cons_append] at hread hreadMore ⊢
      rw [readItems?_more hc hread, hreadMore, Option.map_some]

theorem WrittenFields.readFields?_eq {fields : List (String × Value)} {text rest : List Char} {n : Nat}
    (h : WrittenFields fields text) (hn : text.length + 1 < n) :
    readFields? n (text ++ '\x7d' :: rest) = some (fields, rest) := by
  obtain ⟨n, rfl⟩ : ∃ m, n = m + 1 := ⟨n - 1, by omega⟩
  match h with
  | @WrittenFields.last key text v hkey h =>
      simp only [List.length_append, List.length_cons] at hn
      have hread : read? n (text ++ '\x7d' :: rest) = some (v, '\x7d' :: rest) :=
        h.read?_eq (by simp [Follows]) (by omega)
      rw [List.append_assoc, List.cons_append, hkey.readFields?_eq, hread]
      rfl
  | @WrittenFields.more key text more v fields blanks hkey h hmore =>
      simp only [List.length_append, List.length_cons, List.length_replicate] at hn
      have hread : read? n (text ++ ',' :: (List.replicate blanks ' ' ++ (more ++ '\x7d' :: rest))) = some (v, _) :=
        h.read?_eq (by simp [Follows]) (by omega)
      have hreadMore : readFields? n (more ++ '\x7d' :: rest) = some (fields, rest) := hmore.readFields?_eq (by omega)
      obtain ⟨c, cs, hcs, hc⟩ := hmore.begins
      rw [hcs] at hread hreadMore
      simp only [hcs, List.append_assoc, List.cons_append] at hread hreadMore ⊢
      rw [readFields?_more hkey hc hread, hreadMore, Option.map_some]
end

/-- The value of a text is the one that it is written for. -/
theorem value_of_written {text : String} (h : Written v text.toList) : value text = v := by
  have hread : read? (2 * text.length + 2) (text.toList ++ []) = some (v, []) :=
    h.read?_eq (by simp [Follows]) (by rw [String.length_toList]; omega)
  rw [List.append_nil] at hread
  rw [value, hread]

end ImportCheck.Variable

import ImportCheck.Proofs.Lemmas.Ascii
import ImportCheck.Proofs.Lemmas.Text
import ImportCheck.Proofs.Toml.Setting
import Mathlib.Data.List.Basic
import Mathlib.Data.List.TakeWhile

/-!
# Written values of a settings file

How values are written in a settings file, and that what is written there is read.
-/

namespace ImportCheck.Toml

variable {v : Value} {c : Char} {cs text rest : List Char} {n m depth : Nat}

/-! ## Notations -/

/-- A character that needs no escape between double quotation marks. -/
def IsPlain (c : Char) : Prop := c ≠ '"' ∧ c ≠ '\\' ∧ 32 ≤ c.toNat ∧ c.toNat ≠ 127

/-- A text and how it is written between double quotation marks. -/
inductive Escaped : List Char → List Char → Prop
  | nil : Escaped [] []
  | plain {c : Char} {cs text : List Char} (hc : IsPlain c) (h : Escaped cs text) : Escaped (c :: cs) (c :: text)
  | escape {c e : Char} {cs text : List Char}
      (he : (c, e) ∈ [('"', '"'), ('\\', '\\'), ('\n', 'n'), ('\r', 'r'), ('\t', 't')]) (h : Escaped cs text) :
      Escaped (c :: cs) ('\\' :: e :: text)

/-- A key that is written as it is. -/
structure IsKey (cs : List Char) : Prop where
  nonempty : cs ≠ []
  chars : ∀ c ∈ cs, c.isAlphanum ∨ c = '-' ∨ c = '_'

mutual
/-- A value and a text that it is written as inside so many arrays and tables. -/
inductive Written : Nat → Value → List Char → Prop
  | yes {depth : Nat} : Written depth (.bool true) ['t', 'r', 'u', 'e']
  | no {depth : Nat} : Written depth (.bool false) ['f', 'a', 'l', 's', 'e']
  | number {depth n : Nat} (h : n < 2 ^ 63) : Written depth (.number (.signed n)) (Nat.toDigits 10 n)
  | negative {depth n : Nat} (h : n ≤ 2 ^ 63) : Written depth (.number (.signed (-n))) ('-' :: Nat.toDigits 10 n)
  | quoted {depth : Nat} {cs text : List Char} (h : Escaped cs text) :
      Written depth (.string (.ofList cs)) ('"' :: (text ++ ['"']))
  | literal {depth : Nat} {cs : List Char} (h : ∀ c ∈ cs, c ≠ '\'' ∧ 32 ≤ c.toNat ∧ c.toNat ≠ 127) :
      Written depth (.string (.ofList cs)) ('\'' :: (cs ++ ['\'']))
  | noItems {depth : Nat} (hdepth : depth + 1 < 80) : Written depth (.array []) ['[', ']']
  | array {depth : Nat} {items : List Value} {text : List Char} (hdepth : depth + 1 < 80)
      (h : WrittenItems (depth + 1) items text) : Written depth (.array items) ('[' :: (text ++ [']']))
  | noFields {depth : Nat} (hdepth : depth + 1 < 80) : Written depth (.object []) ['\x7b', '\x7d']
  | table {depth : Nat} {fields : List (String × Value)} {text : List Char} (hdepth : depth + 1 < 80)
      (hkeys : (fields.map (·.1)).Nodup) (h : WrittenFields (depth + 1) fields text) :
      Written depth (.ofFields fields) ('\x7b' :: ' ' :: (text ++ [' ', '\x7d']))

/-- Items with a comma and a blank between them. -/
inductive WrittenItems : Nat → List Value → List Char → Prop
  | last {depth : Nat} {v : Value} {text : List Char} (h : Written depth v text) : WrittenItems depth [v] text
  | more {depth : Nat} {v : Value} {items : List Value} {text rest : List Char} (h : Written depth v text)
      (hrest : WrittenItems depth items rest) : WrittenItems depth (v :: items) (text ++ ',' :: ' ' :: rest)

inductive WrittenFields : Nat → List (String × Value) → List Char → Prop
  | last {depth : Nat} {key text : List Char} {v : Value} (hkey : IsKey key) (h : Written depth v text) :
      WrittenFields depth [(.ofList key, v)] (key ++ ' ' :: '=' :: ' ' :: text)
  | more {depth : Nat} {key text rest : List Char} {v : Value} {fields : List (String × Value)} (hkey : IsKey key)
      (h : Written depth v text) (hrest : WrittenFields depth fields rest) :
      WrittenFields depth ((.ofList key, v) :: fields)
        (key ++ ' ' :: '=' :: ' ' :: (text ++ ',' :: ' ' :: rest))
end

/-! ## What follows a value -/

/-- What may follow a value. -/
def Follows (rest : List Char) : Prop := ∀ c ∈ rest.head?, c = ',' ∨ c = ']' ∨ c = ' ' ∨ c = '\n'

/-! ## Numbers -/

theorem ofDigits_toDigits (n : Nat) : ofDigits 10 (Nat.toDigits 10 n) = n := by
  have hdigits := Nat.ofDigitChars_toDigits (b := 10) (n := n) (by decide) (by decide)
  rw [Nat.ofDigitChars] at hdigits
  conv_rhs => rw [← hdigits]
  refine List.foldl_ext _ _ _ fun m c hc => ?_
  rw [digitValue, if_pos (Text.isDigit_of_mem_toDigits hc), Nat.mul_comm]
  rfl

/-- Only zero is written with a zero first. -/
theorem eq_nil_of_toDigits (h : Nat.toDigits 10 n = '0' :: cs) : cs = [] := by
  induction n using Nat.strong_induction_on generalizing cs with
  | _ n ih =>
      by_cases hn : n < 10
      · rw [Nat.toDigits_of_lt_base hn] at h
        exact (List.cons.inj h).2.symm
      · obtain ⟨d, ds, hds⟩ := List.exists_cons_of_ne_nil (Nat.toDigits_ne_nil (n := n / 10) (b := 10))
        rw [Nat.toDigits_of_base_le (by decide) (Nat.le_of_not_lt hn), hds, List.cons_append] at h
        obtain ⟨rfl, -⟩ := List.cons.inj h
        have hzero := ofDigits_toDigits (n / 10)
        rw [hds, ih (n / 10) (Nat.div_lt_self (by omega) (by decide)) hds] at hzero
        change 0 = n / 10 at hzero
        omega

theorem dropWhile_of_follows (h : Follows rest) :
    rest.takeWhile Char.isDigit = [] ∧ rest.dropWhile Char.isDigit = rest := by
  cases rest with
  | nil => exact ⟨rfl, rfl⟩
  | cons c cs => rcases h c rfl with rfl | rfl | rfl | rfl <;> exact ⟨rfl, rfl⟩

/-- A number is followed by what is not a digit. -/
theorem eq_of_digits {ds more : List Char} (h : Follows rest) (he : Nat.toDigits 10 n ++ rest = ds ++ more)
    (hds : ∀ c ∈ ds, c.isDigit = true) (hmore : ∀ c ∈ more.head?, c.isDigit = false) : rest = more := by
  have hleft : (Nat.toDigits 10 n ++ rest).dropWhile Char.isDigit = rest := by
    rw [List.dropWhile_append_of_pos fun c => Text.isDigit_of_mem_toDigits, (dropWhile_of_follows h).2]
  have hright : (ds ++ more).dropWhile Char.isDigit = more := by
    rw [List.dropWhile_append_of_pos hds]
    cases more with
    | nil => rfl
    | cons c more => exact List.dropWhile_cons_of_neg (by simp [hmore c rfl])
  rw [← hleft, he, hright]

/-- Digits cannot go on in another way than what follows the number. -/
theorem digits_append_ne {ds more : List Char} (h : Follows rest) (hds : ∀ d ∈ ds, d.isDigit = true)
    (hc : c.isDigit = false) (hfollows : c ≠ ',' ∧ c ≠ ']' ∧ c ≠ ' ' ∧ c ≠ '\n') :
    Nat.toDigits 10 n ++ rest ≠ ds ++ c :: more := by
  intro he
  cases eq_of_digits h he hds (by simpa using hc)
  simp [Follows, hfollows] at h

theorem digits_append_ne_cons {more : List Char} (h : Follows rest) (hc : c.isDigit = false)
    (hfollows : c ≠ ',' ∧ c ≠ ']' ∧ c ≠ ' ' ∧ c ≠ '\n') : Nat.toDigits 10 n ++ rest ≠ c :: more := by
  have hds : ∀ d ∈ ([] : List Char), d.isDigit = true := nofun
  exact digits_append_ne h hds hc hfollows

theorem day?_toDigits (h : Follows rest) : day? (Nat.toDigits 10 n ++ rest) = none := by
  unfold day?
  split
  · next a b c d more he =>
    refine if_neg fun hdigits => ?_
    have hds : ∀ e ∈ [a, b, c, d], e.isDigit = true := List.all_eq_true.mp hdigits
    exact digits_append_ne h hds (by decide) (by decide) he
  · rfl

theorem clock?_toDigits (h : Follows rest) : clock? (Nat.toDigits 10 n ++ rest) = none := by
  cases hhour : twoDigits? 0 23 (Nat.toDigits 10 n ++ rest) with
  | none => simp [clock?, hhour]
  | some r =>
      have hafter : Text.after? [':'] r.2 = none := by
        unfold twoDigits? at hhour
        split at hhour
        · next a b more he =>
          dsimp only at hhour
          split at hhour
          · next hdigits =>
            cases hhour
            refine Option.eq_none_iff_forall_ne_some.mpr fun more' hmore => ?_
            have hds : ∀ e ∈ [a, b], e.isDigit = true := by simp [hdigits.1, hdigits.2.1]
            have hmore' : more = ':' :: more' := Text.after?_eq_some_iff.mp hmore
            exact digits_append_ne h hds (by decide) (by decide) (hmore' ▸ he)
          · cases hhour
        · cases hhour
      simp [clock?, hhour, hafter]

theorem moment?_toDigits (h : Follows rest) : moment? (Nat.toDigits 10 n ++ rest) = none := by
  rw [moment?, momentText?, day?_toDigits h, clock?_toDigits h]
  rfl

theorem moreDigits_append (hcs : ∀ c ∈ cs, c.isDigit = true) (h : Follows rest) :
    moreDigits Char.isDigit (cs ++ rest) = (cs, rest) := by
  induction cs with
  | nil =>
      cases rest with
      | nil => rfl
      | cons c cs => rcases h c rfl with rfl | rfl | rfl | rfl <;> rfl
  | cons c cs ih =>
      obtain ⟨hc, hcs⟩ := List.forall_mem_cons.mp hcs
      rw [List.cons_append, moreDigits.eq_def]
      split
      · next he =>
        cases (List.cons.inj he).1
        cases hc
      · next he =>
        cases he
        simp [hc, ih hcs]
      · next he => cases he

theorem numeral?_toDigits (h : Follows rest) :
    numeral? Char.isDigit (Nat.toDigits 10 n ++ rest) = some (Nat.toDigits 10 n, rest) := by
  have hdigits : ∀ c ∈ Nat.toDigits 10 n, c.isDigit = true := fun c => Text.isDigit_of_mem_toDigits
  obtain ⟨c, cs, hcs⟩ := List.exists_cons_of_ne_nil (Nat.toDigits_ne_nil (n := n) (b := 10))
  rw [hcs] at hdigits ⊢
  obtain ⟨hc, hdigits⟩ := List.forall_mem_cons.mp hdigits
  simp [numeral?, hc, moreDigits_append hdigits h]

theorem decimal?_toDigits (negative : Bool) (h : Follows rest) :
    decimal? negative (Nat.toDigits 10 n ++ rest) =
      (integer? (if negative then -(n : Int) else n)).map fun v => (v, rest) := by
  have hzero : ¬((Nat.toDigits 10 n).head? = some '0' ∧ (Nat.toDigits 10 n).length ≠ 1) := by
    rintro ⟨hhead, hlength⟩
    obtain ⟨ds, hds⟩ := List.head?_eq_some_iff.mp hhead
    rw [hds, eq_nil_of_toDigits hds] at hlength
    exact hlength rfl
  have hfraction : fraction? rest = some (none, rest) := by
    cases rest with
    | nil => rfl
    | cons c cs => rcases h c rfl with rfl | rfl | rfl | rfl <;> rfl
  have hexponent : exponent? rest = some (none, rest) := by
    cases rest with
    | nil => rfl
    | cons c cs => rcases h c rfl with rfl | rfl | rfl | rfl <;> rfl
  simp only [decimal?, numeral?_toDigits h, hfraction, hexponent, if_neg hzero, ofDigits_toDigits, Option.bind_eq_bind,
    Option.bind_some]
  exact (Option.map_eq_bind ..).symm

theorem number?_of_sign {negative : Bool} (h : Follows rest)
    (hbase : ∀ c more, c = 'x' ∨ c = 'o' ∨ c = 'b' → cs ≠ '0' :: c :: more)
    (hsign : sign cs = (negative, Nat.toDigits 10 n ++ rest)) :
    number? cs = decimal? negative (Nat.toDigits 10 n ++ rest) := by
  unfold number?
  split
  · exact absurd rfl (hbase 'x' _ (by decide))
  · exact absurd rfl (hbase 'o' _ (by decide))
  · exact absurd rfl (hbase 'b' _ (by decide))
  · rw [hsign]
    split
    · next he => exact absurd (Prod.mk.inj he).2 (digits_append_ne_cons h rfl (by decide))
    · next he => exact absurd (Prod.mk.inj he).2 (digits_append_ne_cons h rfl (by decide))
    · next he =>
      cases he
      rfl

theorem number?_toDigits (h : Follows rest) (hn : n < 2 ^ 63) :
    number? (Nat.toDigits 10 n ++ rest) = some (.number (.signed n), rest) := by
  have hbase : ∀ c more, c = 'x' ∨ c = 'o' ∨ c = 'b' → Nat.toDigits 10 n ++ rest ≠ '0' :: c :: more := by
    have hzero : ∀ d ∈ ['0'], d.isDigit = true := by simp
    rintro c more (rfl | rfl | rfl)
    all_goals exact digits_append_ne h hzero (by decide) (by decide)
  have hsign : sign (Nat.toDigits 10 n ++ rest) = (false, Nat.toDigits 10 n ++ rest) := by
    unfold sign
    split
    · next he => exact absurd he (digits_append_ne_cons h rfl (by decide))
    · next he => exact absurd he (digits_append_ne_cons h rfl (by decide))
    · rfl
  rw [number?_of_sign h hbase hsign, decimal?_toDigits false h, if_neg (by simp), integer?, if_pos (by omega)]
  rfl

theorem number?_negative (h : Follows rest) (hn : n ≤ 2 ^ 63) :
    number? ('-' :: (Nat.toDigits 10 n ++ rest)) = some (.number (.signed (-n)), rest) := by
  rw [number?_of_sign h (by simp) rfl, decimal?_toDigits true h, if_pos rfl, integer?, if_pos (by omega)]
  rfl

theorem moment?_of_not_isDigit (hc : c.isDigit = false) : moment? (c :: cs) = none := by
  have hday : day? (c :: cs) = none := by
    unfold day?
    split
    · next he =>
      cases he
      simp [hc]
    · rfl
  have hhour : twoDigits? 0 23 (c :: cs) = none := by
    unfold twoDigits?
    split
    · next he =>
      cases he
      simp [hc]
    · rfl
  simp [moment?, momentText?, hday, clock?, hhour]

/-! ## Texts in quotation marks -/

theorem not_isControl (h : 32 ≤ c.toNat ∧ c.toNat ≠ 127) : isControl c = false := by
  simp [isControl, h.2, Nat.not_lt.mpr h.1]

theorem Escaped.basic?_eq (h : Escaped cs text) (hn : text.length < n) :
    basic? n (text ++ '"' :: rest) = some (cs, rest) := by
  induction h generalizing n with
  | nil =>
      obtain ⟨n, rfl⟩ := Nat.exists_eq_succ_of_ne_zero (Nat.ne_zero_of_lt hn)
      rfl
  | @plain c cs text hc h ih =>
      obtain ⟨n, rfl⟩ := Nat.exists_eq_succ_of_ne_zero (Nat.ne_zero_of_lt hn)
      have hread := ih (Nat.lt_of_succ_lt_succ hn)
      simp [basic?, hc.1, hc.2.1, not_isControl hc.2.2, hread]
  | @escape c e cs text he h ih =>
      obtain ⟨n, rfl⟩ := Nat.exists_eq_succ_of_ne_zero (Nat.ne_zero_of_lt hn)
      have hread := ih (Nat.lt_of_succ_lt (Nat.lt_of_succ_lt_succ hn))
      have hescaped : escaped? (e :: (text ++ '"' :: rest)) = some (c, text ++ '"' :: rest) := by
        simp only [List.mem_cons, Prod.mk.injEq, List.not_mem_nil, or_false] at he
        rcases he with ⟨rfl, rfl⟩ | ⟨rfl, rfl⟩ | ⟨rfl, rfl⟩ | ⟨rfl, rfl⟩ | ⟨rfl, rfl⟩ <;> rfl
      simp [basic?, hescaped, hread]

theorem literal?_append (h : ∀ c ∈ cs, c ≠ '\'' ∧ 32 ≤ c.toNat ∧ c.toNat ≠ 127) :
    literal? (cs ++ '\'' :: rest) = some (cs, rest) := by
  have hplain : ∀ c ∈ cs, (c != '\'' && !isControl c) = true := fun c hc => by
    simp [(h c hc).1, not_isControl (h c hc).2]
  have hdrop : (cs ++ '\'' :: rest).dropWhile (fun c => c != '\'' && !isControl c) = '\'' :: rest := by
    rw [List.dropWhile_append_of_pos hplain]
    rfl
  have htake : (cs ++ '\'' :: rest).takeWhile (fun c => c != '\'' && !isControl c) = cs := by
    rw [List.takeWhile_append_of_pos hplain]
    simp
  simp [literal?, hdrop, htake]

theorem Escaped.append_ne (h : Escaped cs text) (hrest : Follows rest) (more : List Char) :
    text ++ '"' :: rest ≠ '"' :: '"' :: more := by
  intro he
  cases h with
  | nil =>
      cases he
      simp [Follows] at hrest
  | plain hc => exact hc.1 (List.cons.inj he).1
  | escape => cases (List.cons.inj he).1

theorem string?_quoted (h : Escaped cs text) (hrest : Follows rest) (hn : text.length < n) :
    string? n ('"' :: (text ++ '"' :: rest)) = some (cs, rest) := by
  rw [← h.basic?_eq hn]
  unfold string?
  split
  · next he => exact absurd (List.cons.inj he).2 (h.append_ne hrest _)
  · next he => cases he
  · next he =>
    cases he
    rfl
  · next he => cases he
  · next hno _ => exact absurd rfl (hno _)

theorem string?_literal (h : ∀ c ∈ cs, c ≠ '\'' ∧ 32 ≤ c.toNat ∧ c.toNat ≠ 127) (hrest : Follows rest) :
    string? n ('\'' :: (cs ++ '\'' :: rest)) = some (cs, rest) := by
  have hne (more : List Char) : cs ++ '\'' :: rest ≠ '\'' :: '\'' :: more := by
    intro he
    cases cs with
    | nil =>
        cases he
        simp [Follows] at hrest
    | cons c cs => exact (h c List.mem_cons_self).1 (List.cons.inj he).1
  rw [← literal?_append h]
  unfold string?
  split
  · next he => cases he
  · next he => exact absurd (List.cons.inj he).2 (hne _)
  · next he => cases he
  · next he =>
    cases he
    rfl
  · next hno => exact absurd rfl (hno _)

/-! ## Keys -/

theorem isBareChar_of_key (h : c.isAlphanum ∨ c = '-' ∨ c = '_') : isBareChar c = true := by
  rcases h with h | rfl | rfl
  · simp [isBareChar, h]
  · rfl
  · rfl

theorem isBlank_of_isBareChar (h : isBareChar c = true) : isBlank c = false := by
  simp only [isBlank, Bool.or_eq_false_iff, beq_eq_false_iff_ne]
  constructor <;> rintro rfl <;> cases h

/-- A key is read up to a character that no key has, if no point comes next. -/
theorem IsKey.keys?_eq (h : IsKey cs) (hrest : ∀ c ∈ rest.head?, isBareChar c = false)
    (hpoint : ∀ more, skipBlank rest ≠ '.' :: more) :
    keys? (n + 1) (cs ++ rest) = some ([.ofList cs], skipBlank rest) := by
  have hbare : ∀ c ∈ cs, isBareChar c = true := fun c hc => isBareChar_of_key (h.chars c hc)
  have htake : (cs ++ rest).takeWhile isBareChar = cs ∧ (cs ++ rest).dropWhile isBareChar = rest := by
    rw [List.takeWhile_append_of_pos hbare, List.dropWhile_append_of_pos hbare]
    cases rest with
    | nil => simp
    | cons d ds => simp [hrest d rfl]
  obtain ⟨c, ds, hcs⟩ := List.exists_cons_of_ne_nil h.nonempty
  have hc : isBareChar c = true := hbare c (hcs ▸ List.mem_cons_self)
  have hskip : skipBlank (cs ++ rest) = cs ++ rest := by
    rw [hcs]
    exact List.dropWhile_cons_of_neg (by simp [isBlank_of_isBareChar hc])
  have hkey : key? (n + 1) (cs ++ rest) = some (.ofList cs, rest) := by
    unfold key?
    split
    · next he =>
      rw [hcs] at he
      cases (List.cons.inj he).1
      cases hc
    · next he =>
      rw [hcs] at he
      cases (List.cons.inj he).1
      cases hc
    · simp only [htake, h.nonempty, if_false]
  have hpath : keyPath? (n + 1) (cs ++ rest) = some ([.ofList cs], skipBlank rest) := by
    rw [keyPath?, hskip, hkey]
    simp only [Option.bind_eq_bind, Option.bind_some]
    rfl
  rw [keys?, hpath]
  rfl

/-! ## Beginnings -/

/-- A value or a key may begin with the character. -/
def Begins (c : Char) : Prop :=
  isBlank c = false ∧ c ≠ '#' ∧ c ≠ '\n' ∧ c ≠ '\r' ∧ c ≠ ',' ∧ c ≠ ']' ∧ c ≠ '\x7d'

theorem begins_of_isBareChar (h : isBareChar c = true) : Begins c := by
  refine ⟨isBlank_of_isBareChar h, ?_, ?_, ?_, ?_, ?_, ?_⟩ <;> rintro rfl <;> cases h

theorem IsKey.begins (h : IsKey cs) : ∃ c ds, cs = c :: ds ∧ Begins c := by
  obtain ⟨c, ds, rfl⟩ := List.exists_cons_of_ne_nil h.nonempty
  exact ⟨c, ds, rfl, begins_of_isBareChar (isBareChar_of_key (h.chars c List.mem_cons_self))⟩

theorem Written.begins (h : Written depth v text) : ∃ c cs, text = c :: cs ∧ Begins c := by
  cases h with
  | @number _ n =>
      obtain ⟨c, cs, hcs⟩ := List.exists_cons_of_ne_nil (Nat.toDigits_ne_nil (n := n) (b := 10))
      have hc : c.isDigit := Text.isDigit_of_mem_toDigits (hcs ▸ List.mem_cons_self)
      exact ⟨c, cs, hcs, begins_of_isBareChar (isBareChar_of_key (.inl (Text.isAlphanum_of_isDigit hc)))⟩
  | _ => exact ⟨_, _, rfl, by unfold Begins; decide⟩

theorem WrittenItems.begins {items : List Value} (h : WrittenItems depth items text) :
    ∃ c cs, text = c :: cs ∧ Begins c := by
  cases h with
  | last h => exact h.begins
  | more h =>
      obtain ⟨c, cs, rfl, hc⟩ := h.begins
      exact ⟨c, _, rfl, hc⟩

theorem WrittenFields.begins {fields : List (String × Value)} (h : WrittenFields depth fields text) :
    ∃ c cs, text = c :: cs ∧ Begins c := by
  cases h with
  | last hkey | more hkey =>
      obtain ⟨c, cs, rfl, hc⟩ := hkey.begins
      exact ⟨c, _, rfl, hc⟩

theorem skipBlank_of_begins (h : Begins c) : skipBlank (c :: cs) = c :: cs :=
  List.dropWhile_cons_of_neg (by simp [h.1])

theorem skipBlank_blank (h : Begins c) : skipBlank (' ' :: c :: cs) = c :: cs := skipBlank_of_begins h

theorem skipSpace_of_skipBlank (hc : Begins c) (h : skipBlank text = c :: cs) :
    skipSpace (n + 1) text = c :: cs := by
  have hcomment : skipComment (c :: cs) = c :: cs := by
    unfold skipComment
    split
    · next he => exact absurd (List.cons.inj he).1 hc.2.1
    · rfl
  have hline : newline? (c :: cs) = none := by
    unfold newline?
    split
    · next he => exact absurd (List.cons.inj he).1 hc.2.2.1
    · next he => exact absurd (List.cons.inj he).1 hc.2.2.2.1
    · rfl
  simp only [skipSpace, h, hcomment, hline]

theorem skipSpace_of_begins (h : Begins c) : skipSpace n (c :: cs) = c :: cs := by
  cases n with
  | zero => rfl
  | succ n => exact skipSpace_of_skipBlank h (skipBlank_of_begins h)

theorem skipSpace_blank (h : Begins c) : skipSpace (n + 1) (' ' :: c :: cs) = c :: cs :=
  skipSpace_of_skipBlank h (skipBlank_blank h)

/-! ## Tables inside of a line -/

theorem put_of_get?_eq_none {es : Entries} {key : String} {node : Node} (h : es.get? key = none) :
    es.put key node = es ++ [(key, node)] := by
  simp [Entries.put, h]

theorem get?_eq_none {es : Entries} {key : String} (h : key ∉ es.map (·.1)) : es.get? key = none := by
  rw [Entries.get?, Option.map_eq_none_iff, List.find?_eq_none]
  intro e he hk
  exact h (List.mem_map.mpr ⟨e, he, by simpa using hk⟩)

/-- Entries of different keys are the fields of a table. -/
theorem toFields_eq_ofList {es : Entries} (h : (es.map (·.1)).Nodup) :
    Node.toFields es = Fields.ofList (es.map fun e => (e.1, e.2.toValue)) := by
  have hascending : Fields.Ascending (Node.toFields es) := by
    clear h
    induction es with
    | nil => exact .nil
    | cons e es ih => exact ih.set
  have hget (k : String) : Fields.get? (Node.toFields es) k = Fields.get? (es.map fun e => (e.1, e.2.toValue)) k := by
    clear h hascending
    induction es with
    | nil => rfl
    | cons e es ih => rw [Node.toFields, Fields.get?_set, ih, List.map_cons, Fields.get?_cons]
  have hkeys : ((es.map fun e => (e.1, e.2.toValue)).map (·.1)).Nodup := by
    rwa [List.map_map]
  refine hascending.ext (Fields.ascending_ofList _) fun k => Option.ext fun v => ?_
  rw [hget, ← Fields.mem_iff_get?_ofList hkeys, ← Fields.mem_iff_get? hkeys]

/-! ## Reading -/

theorem word?_append (word : String) : word? word v (word.toList ++ rest) = some (v, rest) := by
  rw [word?, if_pos (List.isPrefixOf_iff_prefix.mpr (List.prefix_append ..)), ← String.length_toList, List.drop_left]

theorem value?_plain (hc : c ≠ 't' ∧ c ≠ 'f' ∧ c ≠ '[' ∧ c ≠ '\x7b' ∧ c ≠ '"' ∧ c ≠ '\'') :
    value? (n + 1) depth (c :: cs) = (moment? (c :: cs)).or (number? (c :: cs)) := by
  unfold value?
  split
  · next he => exact absurd (List.cons.inj he).1 hc.1
  · next he => exact absurd (List.cons.inj he).1 hc.2.1
  · next he => exact absurd (List.cons.inj he).1 hc.2.2.1
  · next he => exact absurd (List.cons.inj he).1 hc.2.2.2.1
  · next he => exact absurd (List.cons.inj he).1 hc.2.2.2.2.1
  · next he => exact absurd (List.cons.inj he).1 hc.2.2.2.2.2
  · rfl

theorem value?_number (hrest : Follows rest) (h : n < 2 ^ 63) :
    value? (m + 1) depth (Nat.toDigits 10 n ++ rest) = some (.number (.signed n), rest) := by
  obtain ⟨c, cs, hcs⟩ := List.exists_cons_of_ne_nil (Nat.toDigits_ne_nil (n := n) (b := 10))
  have hc : c.isDigit = true := Text.isDigit_of_mem_toDigits (hcs ▸ List.mem_cons_self)
  have hread := number?_toDigits hrest h
  have hmoment := moment?_toDigits (n := n) hrest
  rw [hcs, List.cons_append] at hread hmoment ⊢
  rw [value?_plain, hmoment, hread]
  · rfl
  · refine ⟨?_, ?_, ?_, ?_, ?_, ?_⟩ <;> rintro rfl <;> cases hc

theorem value?_negative (hrest : Follows rest) (h : n ≤ 2 ^ 63) :
    value? (m + 1) depth ('-' :: (Nat.toDigits 10 n ++ rest)) = some (.number (.signed (-n)), rest) := by
  rw [value?_plain (by decide), moment?_of_not_isDigit rfl, number?_negative hrest h]
  rfl

theorem value?_array (hdepth : depth + 1 < 80) (hc : Begins c) : value? (n + 1) depth ('[' :: c :: cs) =
    (items? n (depth + 1) (c :: cs)).map fun (items, rest) => (.array items, rest) := by
  have hlimit : ¬nestingLimit ≤ depth + 1 := Nat.not_le.mpr hdepth
  rw [value?, if_neg hlimit, skipSpace_of_begins hc]
  split
  · next he => exact absurd (List.cons.inj he).1 hc.2.2.2.2.2.1
  · rfl

theorem value?_table (hdepth : depth + 1 < 80) (hc : Begins c) : value? (n + 1) depth ('\x7b' :: ' ' :: c :: cs) =
    (entries? n (depth + 1) (c :: cs) []).map fun (entries, rest) => (.object (Node.toFields entries), rest) := by
  have hlimit : ¬nestingLimit ≤ depth + 1 := Nat.not_le.mpr hdepth
  rw [value?, if_neg hlimit, skipBlank_blank hc]
  split
  · next he => exact absurd (List.cons.inj he).1 hc.2.2.2.2.2.2
  · rfl

theorem items?_last (hread : value? n depth text = some (v, ']' :: rest)) :
    items? (n + 1) depth text = some ([v], rest) := by
  have hskip : skipSpace n (']' :: rest) = ']' :: rest := by cases n <;> rfl
  rw [items?, hread]
  simp only [Option.bind_eq_bind, Option.bind_some, hskip]
  rfl

theorem items?_more (hc : Begins c) (hread : value? (n + 1) depth text = some (v, ',' :: ' ' :: c :: cs)) :
    items? (n + 2) depth text = (items? (n + 1) depth (c :: cs)).map fun (items, rest) => (v :: items, rest) := by
  have hskip : skipSpace (n + 1) (',' :: ' ' :: c :: cs) = ',' :: ' ' :: c :: cs := rfl
  rw [items?, hread]
  simp only [Option.bind_eq_bind, Option.bind_some, hskip, skipSpace_blank hc]
  split
  · next he => exact absurd (List.cons.inj he).1 hc.2.2.2.2.2.1
  · cases items? (n + 1) depth (c :: cs) <;> rfl

theorem assignIn?_of_not_mem {es : Entries} {key : String} (h : key ∉ es.map (·.1)) :
    assignIn? v [key] es = some (es ++ [(key, .value v)]) := by
  simp only [assignIn?, get?_eq_none h, put_of_get?_eq_none (get?_eq_none h)]

theorem entries?_assign {es : Entries} (hkey : IsKey cs) (hnew : String.ofList cs ∉ es.map (·.1)) (hc : Begins c)
    (hread : value? (n + 1) depth (c :: text) = some (v, rest)) :
    entries? (n + 2) depth (cs ++ ' ' :: '=' :: ' ' :: c :: text) es =
      match skipBlank rest with
      | ',' :: rest => entries? (n + 1) depth rest (es ++ [(.ofList cs, .value v)])
      | '\x7d' :: rest => some (es ++ [(.ofList cs, .value v)], rest)
      | _ => none := by
  have hkeys : keys? (n + 1) (cs ++ ' ' :: '=' :: ' ' :: c :: text) = some ([.ofList cs], '=' :: ' ' :: c :: text) :=
    hkey.keys?_eq (by simp [isBareChar]) (by simp [skipBlank, isBlank])
  rw [entries?, hkeys]
  simp only [Option.bind_eq_bind, Option.bind_some, skipBlank_blank hc, hread, assignIn?_of_not_mem hnew]
  rfl

theorem entries?_blank {es : Entries} : entries? n depth (' ' :: text) es = entries? n depth text es := by
  cases n with
  | zero => rfl
  | succ n =>
      have hkeys : keys? n (' ' :: text) = keys? n text := by cases n <;> rfl
      rw [entries?, entries?, hkeys]

/-- Fields as entries that are given by values. -/
def entriesOf (fields : List (String × Value)) : Entries := fields.map fun f => (f.1, .value f.2)

theorem keys_entriesOf (fields : List (String × Value)) : (entriesOf fields).map (·.1) = fields.map (·.1) := by
  rw [entriesOf, List.map_map]
  rfl

theorem toFields_entriesOf {fields : List (String × Value)} (h : (fields.map (·.1)).Nodup) :
    Node.toFields (entriesOf fields) = Fields.ofList fields := by
  rw [toFields_eq_ofList (keys_entriesOf fields ▸ h), entriesOf, List.map_map]
  exact congrArg Fields.ofList (List.map_id' fields)

mutual
theorem Written.value?_eq {depth : Nat} {v : Value} {text rest : List Char} {n : Nat} (h : Written depth v text)
    (hrest : Follows rest) (hn : text.length < n) : value? n depth (text ++ rest) = some (v, rest) := by
  obtain ⟨n, rfl⟩ : ∃ m, n = m + 1 := ⟨n - 1, by omega⟩
  match h with
  | .yes => exact word?_append "true"
  | .no => exact word?_append "false"
  | .number h => exact value?_number hrest h
  | .negative h => exact value?_negative hrest h
  | @Written.quoted _ cs text h =>
      have hread : string? n ('"' :: (text ++ '"' :: rest)) = some (cs, rest) :=
        string?_quoted h hrest (by simp at hn; omega)
      rw [List.cons_append, List.append_assoc, List.singleton_append, value?, hread]
      rfl
  | @Written.literal _ cs h =>
      have hread : string? n ('\'' :: (cs ++ '\'' :: rest)) = some (cs, rest) := string?_literal h hrest
      rw [List.cons_append, List.append_assoc, List.singleton_append, value?, hread]
      rfl
  | .noItems hdepth =>
      have hlimit : ¬nestingLimit ≤ depth + 1 := Nat.not_le.mpr hdepth
      have hskip : skipSpace n (']' :: rest) = ']' :: rest := by cases n <;> rfl
      rw [List.cons_append, List.singleton_append, value?, if_neg hlimit, hskip]
      rfl
  | .noFields hdepth =>
      have hlimit : ¬nestingLimit ≤ depth + 1 := Nat.not_le.mpr hdepth
      rw [List.cons_append, List.singleton_append, value?, if_neg hlimit]
      rfl
  | @Written.array depth items text hdepth h =>
      have hread : items? n (depth + 1) (text ++ ']' :: rest) = some (items, rest) :=
        h.items?_eq (by simp at hn; omega)
      obtain ⟨c, cs, hcs, hc⟩ := h.begins
      simp only [hcs, List.cons_append, List.append_assoc, List.nil_append] at hread ⊢
      rw [value?_array hdepth hc, hread]
      rfl
  | @Written.table depth fields text hdepth hkeys h =>
      have hread : entries? n (depth + 1) (text ++ ' ' :: '\x7d' :: rest) [] = some (entriesOf fields, rest) :=
        h.entries?_eq hkeys (by simp at hn; omega)
      obtain ⟨c, cs, hcs, hc⟩ := h.begins
      simp only [hcs, List.cons_append, List.append_assoc, List.nil_append] at hread ⊢
      simp only [value?_table hdepth hc, hread, Option.map_some, toFields_entriesOf hkeys, Value.ofFields]

theorem WrittenItems.items?_eq {depth : Nat} {items : List Value} {text rest : List Char} {n : Nat}
    (h : WrittenItems depth items text) (hn : text.length + 1 < n) :
    items? n depth (text ++ ']' :: rest) = some (items, rest) := by
  obtain ⟨n, rfl⟩ : ∃ m, n = m + 2 := ⟨n - 2, by omega⟩
  match h with
  | @WrittenItems.last _ v text h =>
      exact items?_last (h.value?_eq (by simp [Follows]) (by omega))
  | @WrittenItems.more _ v items text more h hmore =>
      simp only [List.length_append, List.length_cons] at hn
      have hread : value? (n + 1) depth (text ++ ',' :: ' ' :: (more ++ ']' :: rest)) = some (v, _) :=
        h.value?_eq (by simp [Follows]) (by omega)
      have hreadMore : items? (n + 1) depth (more ++ ']' :: rest) = some (items, rest) := hmore.items?_eq (by omega)
      obtain ⟨c, cs, hcs, hc⟩ := hmore.begins
      simp only [hcs, List.append_assoc, List.cons_append] at hread hreadMore ⊢
      rw [items?_more hc hread, hreadMore]
      rfl

theorem WrittenFields.entries?_eq {depth : Nat} {fields : List (String × Value)} {es : Entries}
    {text rest : List Char} {n : Nat} (h : WrittenFields depth fields text)
    (hkeys : (es.map (·.1) ++ fields.map (·.1)).Nodup) (hn : text.length + 1 < n) :
    entries? n depth (text ++ ' ' :: '\x7d' :: rest) es = some (es ++ entriesOf fields, rest) := by
  obtain ⟨n, rfl⟩ : ∃ m, n = m + 2 := ⟨n - 2, by omega⟩
  match h with
  | @WrittenFields.last _ key text v hkey h =>
      simp only [List.length_append, List.length_cons] at hn
      have hnew : String.ofList key ∉ es.map (·.1) := fun hm => (List.nodup_append.mp hkeys).2.2 _ hm _ (by simp) rfl
      have hread : value? (n + 1) depth (text ++ ' ' :: '\x7d' :: rest) = some (v, ' ' :: '\x7d' :: rest) :=
        h.value?_eq (by simp [Follows]) (by omega)
      obtain ⟨c, cs, hcs, hc⟩ := h.begins
      simp only [hcs, List.append_assoc, List.cons_append] at hread ⊢
      rw [entries?_assign hkey hnew hc hread]
      rfl
  | @WrittenFields.more _ key text more v fields hkey h hmore =>
      simp only [List.length_append, List.length_cons] at hn
      have hnew : String.ofList key ∉ es.map (·.1) := fun hm => (List.nodup_append.mp hkeys).2.2 _ hm _ (by simp) rfl
      have hread : value? (n + 1) depth (text ++ ',' :: ' ' :: (more ++ ' ' :: '\x7d' :: rest)) = some (v, _) :=
        h.value?_eq (by simp [Follows]) (by omega)
      have hreadMore : entries? (n + 1) depth (more ++ ' ' :: '\x7d' :: rest) (es ++ [(.ofList key, .value v)]) =
          some (es ++ [(.ofList key, .value v)] ++ entriesOf fields, rest) :=
        hmore.entries?_eq (by simpa using hkeys) (by omega)
      obtain ⟨c, cs, hcs, hc⟩ := h.begins
      simp only [hcs, List.append_assoc, List.cons_append] at hread ⊢
      rw [entries?_assign hkey hnew hc hread]
      refine Eq.trans entries?_blank (hreadMore.trans ?_)
      rw [List.append_assoc]
      rfl
end

end ImportCheck.Toml

import ImportCheck.Proofs.Lemmas.Source
import ImportCheck.Proofs.Lemmas.Text

/-!
# Lines as they are printed

A line that imports or refers to a file is printed in one of five forms. Whatever the texts in them, no line is taken
for another one: the references and the modules that are read back are those that were printed, in their order.
-/

namespace ImportCheck

/-- A text on one line between two quotation marks of one kind. -/
structure QuotedText where
  mark : Char
  chars : List Char
  isMark : mark = '\'' ∨ mark = '"' := by decide
  no_mark : mark ∉ chars := by decide
  one_line : '\n' ∉ chars := by decide

namespace QuotedText

def print (q : QuotedText) : List Char := q.mark :: (q.chars ++ [q.mark])

end QuotedText

/-- A line by its form. -/
inductive LineForm
  /-- The line `/// <reference path="target" />`. -/
  | reference (target : List Char) (no_mark : '"' ∉ target) (one_line : '\n' ∉ target)
  /-- The line `import clause from 'specifier'`, with or without a semicolon. The clause is what gets bound, such as
  `{ x }`. -/
  | binding (clause : List Char) (specifier : QuotedText) (closed : Bool)
      (plain : ∀ c ∈ clause, c ≠ '=' ∧ c ≠ '\'' ∧ c ≠ '"' ∧ c ≠ '\n') (no_equals : ¬" = ".toList <:+: specifier.chars)
  /-- The line `import 'specifier'`, with or without a semicolon. -/
  | bare (specifier : QuotedText) (closed : Bool) (no_equals : ¬" = ".toList <:+: specifier.chars)
      (no_from : ¬" from ".toList <:+: specifier.chars)
  /-- The line `import name = require('specifier');`. -/
  | required (name : List Char) (specifier : QuotedText) (one_word : ∀ c ∈ name, c ≠ ' ' ∧ c ≠ '\n')
  /-- The line `import name = target;`, where the target is a name such as `A.B`. -/
  | entity (name target : List Char) (one_word : ∀ c ∈ name, c ≠ ' ' ∧ c ≠ '\n')
      (plain : ∀ c ∈ target, c ≠ '(' ∧ c ≠ '\n')
  /-- A line that neither refers to a file nor imports. -/
  | other (chars : List Char) (one_line : '\n' ∉ chars) (no_reference : ¬"///".toList <+: Text.trim chars)
      (no_import : ¬"import ".toList <+: Text.trim chars)

namespace LineForm

/-- A semicolon, if the line has one. -/
def stop (closed : Bool) : List Char := if closed then [';'] else []

def print : LineForm → List Char
  | reference target _ _ =>
    "///".toList ++ (" <reference ".toList ++ "path=".toList ++ ('"' :: (target ++ '"' :: " />".toList)))
  | binding clause specifier closed _ _ =>
    "import ".toList ++ (clause ++ " from ".toList ++ (specifier.print ++ stop closed))
  | bare specifier closed _ _ => "import ".toList ++ (specifier.print ++ stop closed)
  | required name specifier _ =>
    "import ".toList ++ (name ++ " = ".toList ++ ("require(".toList ++ (specifier.print ++ ");".toList)))
  | entity name target _ _ => "import ".toList ++ (name ++ " = ".toList ++ (target ++ [';']))
  | other chars _ _ _ => chars

/-- The file that the line refers to. -/
def reference? : LineForm → Option String
  | reference target _ _ => some (String.ofList target)
  | _ => none

/-- The module that the line imports. -/
def specifier? : LineForm → Option String
  | binding _ specifier _ _ _ | bare specifier _ _ _ | required _ specifier _ => some (String.ofList specifier.chars)
  | _ => none

/-- What the line is read as. -/
def meaning : LineForm → SourceLine
  | reference target _ _ => .reference target
  | binding _ specifier _ _ _ | bare specifier _ _ _ => .declaration specifier.chars
  | required _ specifier _ => .assignment (.external (String.ofList specifier.chars))
  | entity _ target _ _ => .assignment (SourceLine.ofTarget (target ++ [';']))
  | other _ _ _ _ => .silent

/-- Lines one below the other, each with any blanks before it and with its end; the last one may have none. -/
inductive Layout : List LineForm → List Char → Prop
  | nil : Layout [] []
  | last {indent : List Char} (line : LineForm) (hi : ∀ c ∈ indent, Text.isBlank c = true ∧ c ≠ '\n') :
      Layout [line] (indent ++ line.print)
  | cons {indent stop cs : List Char} {lines : List LineForm} (line : LineForm)
      (hi : ∀ c ∈ indent, Text.isBlank c = true ∧ c ≠ '\n') (hs : stop = ['\n'] ∨ stop = ['\r', '\n'])
      (h : Layout lines cs) : Layout (line :: lines) (indent ++ line.print ++ stop ++ cs)

/-! ## One line -/

/-- A specifier is found after a text without quotation marks. -/
theorem quoted?_print (q : QuotedText) {before : List Char} (h : ∀ c ∈ before, c ≠ '\'' ∧ c ≠ '"') (rest : List Char) :
    Text.quoted? (before ++ (q.print ++ rest)) = some q.chars := by
  simpa [QuotedText.print] using Text.quoted?_append before rest q.isMark h q.no_mark

theorem attribute?_reference {target : List Char} (h : '"' ∉ target) (rest : List Char) :
    SourceLine.attribute? "path=".toList (" <reference ".toList ++ "path=".toList ++ ('"' :: (target ++ '"' :: rest))) =
      some target := by
  have hcut : Text.splitFirst? "path=".toList
      (" <reference ".toList ++ "path=".toList ++ ('"' :: (target ++ '"' :: rest))) =
        some (" <reference ".toList, '"' :: (target ++ '"' :: rest)) :=
    Text.splitFirst?_append (by decide) _
  rw [SourceLine.attribute?, hcut]
  exact Text.quoted?_append [] rest (.inr rfl) nofun h

/-- The quotation marks keep what is between them apart from what is around it. -/
theorem splitFirst?_print_eq_none {mark before : List Char} {q : QuotedText} {closed : Bool} {c : Char}
    (hmark : '\'' ∉ mark ∧ '"' ∉ mark) (hc : c ∈ mark) (hbefore : c ∉ before) (hstop : c ≠ ';')
    (hq : ¬mark <:+: q.chars) : Text.splitFirst? mark (before ++ (q.print ++ stop closed)) = none := by
  have hquote : q.mark ∉ mark := by
    rcases q.isMark with h | h <;> rw [h]
    exacts [hmark.1, hmark.2]
  have hprint : before ++ (q.print ++ stop closed) = before ++ q.mark :: (q.chars ++ q.mark :: stop closed) := by
    simp [QuotedText.print]
  have hclosed : ¬mark <:+: stop closed := fun hi => by
    have := hi.subset hc
    cases closed <;> simp [stop, hstop] at this
  rw [hprint, Text.splitFirst?_eq_none_iff, Text.infix_append_cons_iff _ hquote, Text.infix_append_cons_iff _ hquote]
  rintro (hi | hi | hi)
  exacts [hbefore (hi.subset hc), hq hi, hclosed hi]

theorem ofImport_binding {clause : List Char} {q : QuotedText} (closed : Bool)
    (plain : ∀ c ∈ clause, c ≠ '=' ∧ c ≠ '\'' ∧ c ≠ '"' ∧ c ≠ '\n') (no_equals : ¬" = ".toList <:+: q.chars) :
    SourceLine.ofImport (clause ++ " from ".toList ++ (q.print ++ stop closed)) = .declaration q.chars := by
  have hequals : Text.splitFirst? " = ".toList (clause ++ " from ".toList ++ (q.print ++ stop closed)) = none := by
    refine splitFirst?_print_eq_none (by decide) (by decide : '=' ∈ " = ".toList) (fun hm => ?_) (by decide) no_equals
    rcases List.mem_append.mp hm with hm | hm
    · exact (plain _ hm).1 rfl
    · revert hm
      decide
  obtain ⟨start, more, hcut, hmore⟩ :=
    Text.exists_splitFirst?_append " from ".toList clause (q.print ++ stop closed)
  have hplain : ∀ c ∈ more, c ≠ '\'' ∧ c ≠ '"' := fun c hc => by
    rcases List.mem_append.mp (hmore hc) with hm | hm
    · exact ⟨(plain c hm).2.1, (plain c hm).2.2.1⟩
    · exact (by simp : ∀ c ∈ " from ".toList, c ≠ '\'' ∧ c ≠ '"') c hm
  simp only [SourceLine.ofImport, hequals, hcut, Option.map_some, Option.getD_some, quoted?_print q hplain]

theorem ofImport_bare {q : QuotedText} (closed : Bool) (no_equals : ¬" = ".toList <:+: q.chars)
    (no_from : ¬" from ".toList <:+: q.chars) :
    SourceLine.ofImport (q.print ++ stop closed) = .declaration q.chars := by
  have hequals : Text.splitFirst? " = ".toList ([] ++ (q.print ++ stop closed)) = none :=
    splitFirst?_print_eq_none (by decide) (by decide : '=' ∈ " = ".toList) nofun (by decide) no_equals
  have hfrom : Text.splitFirst? " from ".toList ([] ++ (q.print ++ stop closed)) = none :=
    splitFirst?_print_eq_none (by decide) (by decide : 'f' ∈ " from ".toList) nofun (by decide) no_from
  have hquoted : Text.quoted? ([] ++ (q.print ++ stop closed)) = some q.chars :=
    quoted?_print q (by simp) _
  rw [List.nil_append] at hequals hfrom hquoted
  simp only [SourceLine.ofImport, hequals, hfrom, Option.map_none, Option.getD_none, hquoted]

theorem ofImport_assignment {name : List Char} (h : ' ' ∉ name) (target : List Char) :
    SourceLine.ofImport (name ++ " = ".toList ++ target) = .assignment (SourceLine.ofTarget target) := by
  have hcut : Text.splitFirst? " = ".toList (name ++ " = ".toList ++ target) = some (name, target) :=
    Text.splitFirst?_append h target
  rw [SourceLine.ofImport, hcut]

theorem ofTarget_required (q : QuotedText) :
    SourceLine.ofTarget ("require(".toList ++ (q.print ++ ");".toList)) = .external (String.ofList q.chars) := by
  have htrim : Text.trim (Text.trimEndWhile (· == ';') ("require(".toList ++ (q.print ++ ");".toList))) =
      "require(".toList ++ (q.print ++ [')']) := by
    have hsplit : "require(".toList ++ (q.print ++ ");".toList) = "require(".toList ++ (q.print ++ [')']) ++ [';'] := by
      simp
    have hends : Text.EndsPlain ("require(".toList ++ (q.print ++ [')'])) := .append _ ⟨_, ')', rfl, rfl⟩
    have hkept : Text.trimEndWhile (· == ';') ("require(".toList ++ (q.print ++ [')'])) =
        "require(".toList ++ (q.print ++ [')']) :=
      Text.trimEndWhile_eq_self fun c hc => by
        rw [← List.append_assoc, List.getLast?_concat] at hc
        cases hc
        rfl
    rw [hsplit, Text.trimEndWhile_append (by simp), hkept, hends.trim_eq_self rfl rfl]
  have hquoted : Text.quoted? ([] ++ (q.print ++ [')'])) = some q.chars :=
    quoted?_print q (by simp) _
  rw [List.nil_append] at hquoted
  simp only [SourceLine.ofTarget, htrim, Text.after?_append, hquoted, Option.getD_some]

theorem ofTarget_entity {target : List Char} (h : '(' ∉ target) :
    ∃ name, SourceLine.ofTarget (target ++ [';']) = .entity name := by
  have hprefix : ¬"require(".toList <+: Text.trim (Text.trimEndWhile (· == ';') (target ++ [';'])) := fun hp => by
    have htrimmed := (Text.trim_infix_self _).subset (hp.subset (by decide : '(' ∈ _))
    have hm := (Text.trimEndWhile_prefix_self _ _).subset htrimmed
    simp [h] at hm
  exact ⟨_, by simp only [SourceLine.ofTarget, Text.after?_eq_none_iff.mpr hprefix]; rfl⟩

theorem endsPlain_print (q : QuotedText) (closed : Bool) : Text.EndsPlain (q.print ++ stop closed) := by
  cases closed with
  | true => exact ⟨q.print, ';', rfl, rfl⟩
  | false =>
      refine ⟨q.mark :: q.chars, q.mark, by simp [QuotedText.print, stop], ?_⟩
      rcases q.isMark with h | h <;> rw [h] <;> rfl

theorem ofChars_reference {target : List Char} (h : '"' ∉ target) :
    SourceLine.ofChars
        ("///".toList ++ (" <reference ".toList ++ "path=".toList ++ ('"' :: (target ++ '"' :: " />".toList)))) =
      .reference target := by
  have hends : Text.EndsPlain
      ("///".toList ++ (" <reference ".toList ++ "path=".toList ++ ('"' :: (target ++ '"' :: " />".toList)))) :=
    ⟨"/// <reference path=\"".toList ++ (target ++ "\" /".toList), '>', by simp, rfl⟩
  simp only [SourceLine.ofChars, hends.trim_eq_self rfl rfl, Text.after?_append, attribute?_reference h]

theorem ofChars_import {rest : List Char} (h : Text.EndsPlain rest) :
    SourceLine.ofChars ("import ".toList ++ rest) = SourceLine.ofImport rest := by
  have htrim : Text.trim ("import ".toList ++ rest) = "import ".toList ++ rest := (h.append _).trim_eq_self rfl rfl
  have hreference : Text.after? "///".toList ("import ".toList ++ rest) = none := rfl
  simp only [SourceLine.ofChars, htrim, hreference, Text.after?_append]

theorem ofChars_other {cs : List Char} (no_reference : ¬"///".toList <+: Text.trim cs)
    (no_import : ¬"import ".toList <+: Text.trim cs) : SourceLine.ofChars cs = .silent := by
  simp only [SourceLine.ofChars, Text.after?_eq_none_iff.mpr no_reference, Text.after?_eq_none_iff.mpr no_import]

theorem ofChars_print (line : LineForm) : SourceLine.ofChars line.print = line.meaning := by
  cases line with
  | reference target no_mark => exact ofChars_reference no_mark
  | binding clause q closed plain no_equals =>
      exact (ofChars_import ((endsPlain_print q closed).append _)).trans (ofImport_binding closed plain no_equals)
  | bare q closed no_equals no_from =>
      exact (ofChars_import (endsPlain_print q closed)).trans (ofImport_bare closed no_equals no_from)
  | required name q one_word =>
      have hname : ' ' ∉ name := fun hm => (one_word ' ' hm).1 rfl
      have hends : Text.EndsPlain (q.print ++ ");".toList) := .append _ ⟨[')'], ';', rfl, rfl⟩
      have hrest := (hends.append "require(".toList).append (name ++ " = ".toList)
      calc SourceLine.ofChars (print (required name q one_word))
          = SourceLine.ofImport (name ++ " = ".toList ++ ("require(".toList ++ (q.print ++ ");".toList))) :=
            ofChars_import hrest
        _ = .assignment (SourceLine.ofTarget ("require(".toList ++ (q.print ++ ");".toList))) :=
            ofImport_assignment hname _
        _ = .assignment (.external (String.ofList q.chars)) := by rw [ofTarget_required]
  | entity name target one_word plain =>
      have hname : ' ' ∉ name := fun hm => (one_word ' ' hm).1 rfl
      have hends : Text.EndsPlain (target ++ [';']) := ⟨target, ';', rfl, rfl⟩
      have hrest := hends.append (name ++ " = ".toList)
      calc SourceLine.ofChars (print (entity name target one_word plain))
          = SourceLine.ofImport (name ++ " = ".toList ++ (target ++ [';'])) := ofChars_import hrest
        _ = .assignment (SourceLine.ofTarget (target ++ [';'])) := ofImport_assignment hname _
  | other chars one_line no_reference no_import =>
      exact ofChars_other no_reference no_import

/-- Blanks around a line do not count. -/
theorem ofChars_layout {indent : List Char} (line : LineForm) (blanks : List Char)
    (hi : ∀ c ∈ indent, Text.isBlank c = true) (hb : ∀ c ∈ blanks, Text.isBlank c = true) :
    SourceLine.ofChars (indent ++ line.print ++ blanks) = line.meaning := by
  rw [← ofChars_print line]
  simp only [SourceLine.ofChars, Text.trim_append_blank hb, Text.trim_blank_append hi]

/-! ## All lines -/

theorem newline_not_mem_print (line : LineForm) : '\n' ∉ line.print := by
  have hjoined {before rest : List Char} (hbefore : '\n' ∉ before) (hrest : '\n' ∉ rest) : '\n' ∉ before ++ rest := by
    simp [hbefore, hrest]
  have himport {rest : List Char} (h : '\n' ∉ rest) : '\n' ∉ "import ".toList ++ rest := hjoined (by decide) h
  have hquoted (q : QuotedText) {rest : List Char} (h : '\n' ∉ rest) : '\n' ∉ q.print ++ rest := by
    have hmark : '\n' ≠ q.mark := by rcases q.isMark with hq | hq <;> rw [hq] <;> decide
    simp [QuotedText.print, hmark, q.one_line, h]
  have hstop (closed : Bool) : '\n' ∉ stop closed := by cases closed <;> decide
  have hequals : '\n' ∉ " = ".toList := by decide
  cases line with
  | reference target no_mark one_line =>
      have hvalue : '\n' ∉ '"' :: (target ++ '"' :: " />".toList) :=
        List.not_mem_cons_of_ne_of_not_mem (by decide) (hjoined one_line (by decide))
      exact hjoined (by decide) (hjoined (hjoined (by decide) (by decide)) hvalue)
  | binding clause q closed plain =>
      have hclause : '\n' ∉ clause := fun hm => (plain '\n' hm).2.2.2 rfl
      exact himport (hjoined (hjoined hclause (by decide)) (hquoted q (hstop closed)))
  | bare q closed => exact himport (hquoted q (hstop closed))
  | required name q one_word =>
      have hname : '\n' ∉ name := fun hm => (one_word '\n' hm).2 rfl
      have htarget : '\n' ∉ "require(".toList ++ (q.print ++ ");".toList) := hjoined (by decide) (hquoted q (by decide))
      exact himport (hjoined (hjoined hname hequals) htarget)
  | entity name target one_word plain =>
      have hname : '\n' ∉ name := fun hm => (one_word '\n' hm).2 rfl
      have htarget : '\n' ∉ target ++ [';'] := by simpa using fun hm => (plain '\n' hm).2 rfl
      exact himport (hjoined (hjoined hname hequals) htarget)
  | other chars one_line => exact one_line

/-- Each line is read as what it says. After the end of the last line there may be an empty one. -/
theorem Layout.exists_lines_eq {lines : List LineForm} {cs : List Char} (h : Layout lines cs) :
    ∃ k, (Text.lines cs).map SourceLine.ofChars = lines.map meaning ++ List.replicate k SourceLine.silent := by
  have hline {indent : List Char} (hi : ∀ c ∈ indent, Text.isBlank c = true ∧ c ≠ '\n') (line : LineForm) :
      '\n' ∉ indent ++ line.print := fun hm => by
    rcases List.mem_append.mp hm with hm | hm
    exacts [(hi _ hm).2 rfl, newline_not_mem_print line hm]
  induction h with
  | nil => exact ⟨1, rfl⟩
  | @last indent line hi =>
      have hread := ofChars_layout line [] (fun c hc => (hi c hc).1) nofun
      rw [List.append_nil] at hread
      exact ⟨0, by simp [Text.lines, Text.splitOn_of_not_mem (hline hi line), hread]⟩
  | @cons indent stop cs lines line hi hs h ih =>
      obtain ⟨k, hk⟩ := ih
      obtain ⟨blanks, rfl, hblanks, hnewline⟩ : ∃ blanks, stop = blanks ++ ['\n'] ∧
          (∀ c ∈ blanks, Text.isBlank c = true) ∧ '\n' ∉ blanks := by
        rcases hs with rfl | rfl
        exacts [⟨[], rfl, nofun, nofun⟩, ⟨['\r'], rfl, by simp [Text.isBlank], by decide⟩]
      have hsplit : Text.lines (indent ++ line.print ++ (blanks ++ ['\n']) ++ cs) =
          (indent ++ line.print ++ blanks) :: Text.lines cs := by
        have hfirst : '\n' ∉ indent ++ line.print ++ blanks := by
          rw [List.mem_append, not_or]
          exact ⟨hline hi line, hnewline⟩
        simpa only [Text.lines, List.append_assoc, List.singleton_append] using Text.splitOn_append_cons hfirst cs
      refine ⟨k, ?_⟩
      rw [hsplit, List.map_cons, hk, ofChars_layout line blanks (fun c hc => (hi c hc).1) hblanks, List.map_cons,
        List.cons_append]

theorem filterMap_reference? (lines : List LineForm) (k : Nat) :
    (lines.map meaning ++ List.replicate k SourceLine.silent).filterMap SourceLine.reference? =
      lines.filterMap (·.reference?) := by
  induction lines with
  | nil => simp [List.filterMap_replicate, SourceLine.reference?]
  | cons line lines ih =>
      rw [List.map_cons, List.cons_append, List.filterMap_cons, List.filterMap_cons, ih]
      cases line <;> rfl

theorem dependenciesOf_filterMap_tree? (cwd file : Path) (lines : List LineForm) (k : Nat) :
    SourceTree.dependenciesOf cwd ((lines.map meaning ++ List.replicate k SourceLine.silent).filterMap (·.tree? file)) =
      (lines.filterMap (·.specifier?)).map (.specifier file) := by
  induction lines with
  | nil => simp [SourceLine.tree?, SourceTree.dependenciesOf]
  | cons line lines ih =>
      rw [List.map_cons, List.cons_append]
      cases line with
      | reference | other => exact ih
      | binding clause q | bare q | required name q =>
          exact congrArg (Dependency.specifier file (String.ofList q.chars) :: ·) ih
      | entity name target one_word plain =>
          -- The name of an entity is a reference like that of a required module, but it adds nothing.
          obtain ⟨entity, hentity⟩ := ofTarget_entity fun hm => (plain '(' hm).1 rfl
          rw [meaning, hentity]
          exact ih

end LineForm

/-- What a text says is read back from it: the files that its lines refer to, in order, and after them the modules that
its lines import, in order. The name of an entity and any other line add nothing. -/
theorem SourceTree.dependencies_of_layout {lines : List LineForm} {text : String}
    (h : LineForm.Layout lines text.toList) (cwd file : Path) :
    (ofText file text).dependencies cwd =
      (lines.filterMap (·.reference?)).map
          (fun target => .reference (Path.resolveAgainst cwd file.directory (.ofString target))) ++
        (lines.filterMap (·.specifier?)).map (.specifier file) := by
  obtain ⟨k, hlines⟩ := h.exists_lines_eq
  simp only [ofText, hlines, dependencies, contribution, LineForm.filterMap_reference?,
    LineForm.dependenciesOf_filterMap_tree?]

/-- Quotation marks of the other kind, semicolons and the words of other forms in a specifier, an empty one, and both
ends of a line. -/
theorem SourceTree.dependencies_of_layout_seven :
    (ofText (.ofString "/p/src/a.ts")
        ("/// <reference path=\"../it's.d.ts\" />\r\n" ++ "  import \x7b x \x7d from './\"é\" from;';\n" ++
          "\timport \"\"\r\n" ++ "import fs = require('a = b');\n" ++ "import N = A.B;\n" ++ "\n" ++
          "let s = 'import ';")).dependencies (.ofString "/w") =
      [.reference (.ofString "/p/it's.d.ts"), .specifier (.ofString "/p/src/a.ts") "./\"é\" from;",
        .specifier (.ofString "/p/src/a.ts") "", .specifier (.ofString "/p/src/a.ts") "a = b"] := by
  have hlayout :=
    @LineForm.Layout.cons [] ['\r', '\n'] _ _ (.reference "../it's.d.ts".toList (by decide) (by decide)) nofun
      (.inr rfl) <|
    @LineForm.Layout.cons "  ".toList ['\n'] _ _
      (.binding "\x7b x \x7d".toList { mark := '\'', chars := "./\"é\" from;".toList } true (by simp) (by decide))
      (by simp [Text.isBlank]) (.inl rfl) <|
    @LineForm.Layout.cons ['\t'] ['\r', '\n'] _ _ (.bare { mark := '"', chars := [] } false (by decide) (by decide))
      (by simp [Text.isBlank]) (.inr rfl) <|
    @LineForm.Layout.cons [] ['\n'] _ _ (.required "fs".toList { mark := '\'', chars := "a = b".toList } (by simp))
      nofun (.inl rfl) <|
    @LineForm.Layout.cons [] ['\n'] _ _ (.entity "N".toList "A.B".toList (by simp) (by simp)) nofun (.inl rfl) <|
    @LineForm.Layout.cons [] ['\n'] _ _ (.other [] (by decide) (by decide) (by decide)) nofun (.inl rfl) <|
    @LineForm.Layout.last []
      (.other "let s = 'import ';".toList (by decide) (by decide) (by decide)) nofun
  exact (dependencies_of_layout (cast (congrArg (LineForm.Layout _) (by decide +kernel)) hlayout) _ _).trans (by rfl)

end ImportCheck

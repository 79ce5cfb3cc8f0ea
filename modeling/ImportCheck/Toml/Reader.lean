import ImportCheck.Toml.Moment
import ImportCheck.Toml.Table

/-!
The lines of a settings file: table headers and assignments. Values are read here; how they make up one
table is left to the document.
-/
namespace ImportCheck.Toml

/-- One line that says something. -/
inductive Statement
  | table (keys : List String)
  | element (keys : List String)
  | assign (keys : List String) (v : Value)

def isBlank (c : Char) : Bool := c == ' ' || c == '\t'

def skipBlank (cs : List Char) : List Char := cs.dropWhile isBlank

/-- A control character that may not stand in the file. -/
def isControl (c : Char) : Bool := (c.toNat < 32 && c != '\t') || c.toNat == 127

/-- The rest of a text after the end of a line. -/
def newline? : List Char → Option (List Char)
  | '\n' :: cs => some cs
  | '\r' :: '\n' :: cs => some cs
  | _ => none

/-- The text at the end of a comment, if one starts here. -/
def skipComment : List Char → List Char
  | '#' :: cs => cs.dropWhile (!isControl ·)
  | cs => cs

/-- What follows blanks, a comment and the end of the line. -/
def endOfLine? (cs : List Char) : Option (List Char) :=
  match skipComment (skipBlank cs) with
  | [] => some []
  | cs => newline? cs

/-- Skips blanks, comments and line ends. A bound of the text's length is enough. -/
def skipSpace : Nat → List Char → List Char
  | 0, cs => cs
  | n + 1, cs =>
    match skipComment (skipBlank cs) with
    | [] => []
    | cs =>
      match newline? cs with
      | some rest => skipSpace n rest
      | none => cs

def character? (ds : List Char) : Option Char :=
  let n := ofDigits 16 ds
  if ds.all isHexDigit ∧ n.isValidChar then some (Char.ofNat n) else none

def escape? : Char → Option Char
  | '"' => some '"'
  | '\\' => some '\\'
  | 'b' => some '\x08'
  | 'f' => some '\x0c'
  | 'n' => some '\n'
  | 'r' => some '\r'
  | 't' => some '\t'
  | _ => none

/-- An escape after its backslash. -/
def escaped? : List Char → Option (Char × List Char)
  | 'u' :: a :: b :: c :: d :: cs => (character? [a, b, c, d]).map (·, cs)
  | 'U' :: a :: b :: c :: d :: e :: f :: g :: h :: cs =>
    (character? [a, b, c, d, e, f, g, h]).map (·, cs)
  | c :: cs => (escape? c).map (·, cs)
  | [] => none

/-- The rest of a string in double quotes on one line. The bound is the length of the text. -/
def basic? : Nat → List Char → Option (List Char × List Char)
  | 0, _ => none
  | n + 1, cs =>
    match cs with
    | '"' :: rest => some ([], rest)
    | '\\' :: rest => do
      let (c, rest) ← escaped? rest
      let (text, rest) ← basic? n rest
      return (c :: text, rest)
    | c :: rest =>
      if isControl c then none
      else (basic? n rest).map fun (text, rest) => (c :: text, rest)
    | [] => none

/-- The rest of a string in single quotes on one line. -/
def literal? (cs : List Char) : Option (List Char × List Char) :=
  match cs.dropWhile fun c => c != '\'' && !isControl c with
  | '\'' :: rest => some (cs.takeWhile (fun c => c != '\'' && !isControl c), rest)
  | _ => none

/-- Three quotation marks and the at most two more before them that belong to the text. -/
def closing? (mark : Char) (cs : List Char) : Option (List Char × List Char) :=
  let marks := cs.takeWhile (· == mark)
  if 3 ≤ marks.length then
    let extra := min (marks.length - 3) 2
    some (List.replicate extra mark, cs.drop (extra + 3))
  else none

/-- A line end without the blanks and line ends behind it, at the end of which the text goes on. -/
def continuation? (n : Nat) (cs : List Char) : Option (List Char) :=
  (newline? (skipBlank cs)).map fun rest => blankLines n rest
where
  blankLines : Nat → List Char → List Char
    | 0, cs => cs
    | n + 1, cs =>
      match newline? (skipBlank cs) with
      | some rest => blankLines n rest
      | none => skipBlank cs

/-- The rest of a string in three double quotes. -/
def multiBasic? : Nat → List Char → Option (List Char × List Char)
  | 0, _ => none
  | n + 1, cs =>
    match closing? '"' cs with
    | some r => some r
    | none =>
      match newline? cs with
      | some rest => (multiBasic? n rest).map fun (text, rest) => ('\n' :: text, rest)
      | none =>
        match cs with
        | '\\' :: rest =>
          match continuation? n rest with
          | some rest => multiBasic? n rest
          | none => do
            let (c, rest) ← escaped? rest
            let (text, rest) ← multiBasic? n rest
            return (c :: text, rest)
        | c :: rest =>
          if isControl c then none
          else (multiBasic? n rest).map fun (text, rest) => (c :: text, rest)
        | [] => none

/-- The rest of a string in three single quotes. -/
def multiLiteral? : Nat → List Char → Option (List Char × List Char)
  | 0, _ => none
  | n + 1, cs =>
    match closing? '\'' cs with
    | some r => some r
    | none =>
      match newline? cs with
      | some rest => (multiLiteral? n rest).map fun (text, rest) => ('\n' :: text, rest)
      | none =>
        match cs with
        | c :: rest =>
          if isControl c then none
          else (multiLiteral? n rest).map fun (text, rest) => (c :: text, rest)
        | [] => none

/-- The line end right after three opening quotation marks is not part of the text. -/
def skipNewline (cs : List Char) : List Char := (newline? cs).getD cs

def string? (n : Nat) : List Char → Option (List Char × List Char)
  | '"' :: '"' :: '"' :: cs => multiBasic? n (skipNewline cs)
  | '\'' :: '\'' :: '\'' :: cs => multiLiteral? n (skipNewline cs)
  | '"' :: cs => basic? n cs
  | '\'' :: cs => literal? cs
  | _ => none

def isBareChar (c : Char) : Bool := c.isAlphanum || c == '_' || c == '-'

def key? (n : Nat) : List Char → Option (String × List Char)
  | '"' :: cs => (basic? n cs).map fun (text, rest) => (String.ofList text, rest)
  | '\'' :: cs => (literal? cs).map fun (text, rest) => (String.ofList text, rest)
  | cs =>
    let word := cs.takeWhile isBareChar
    if word = [] then none else some (String.ofList word, cs.dropWhile isBareChar)

/-- Keys with points between them, and what follows the blanks behind them. -/
def keyPath? : Nat → List Char → Option (List String × List Char)
  | 0, _ => none
  | n + 1, cs => do
    let (key, rest) ← key? (n + 1) (skipBlank cs)
    match skipBlank rest with
    | '.' :: rest =>
      let (keys, rest) ← keyPath? n rest
      return (key :: keys, rest)
    | rest => return ([key], rest)

/-- Tables and arrays inside each other are fewer than this in one value, and so are the keys of one
path. -/
def nestingLimit : Nat := 80

def keys? (n : Nat) (cs : List Char) : Option (List String × List Char) :=
  (keyPath? n cs).filter fun (keys, _) => keys.length < nestingLimit

def word? (word : String) (v : Value) (cs : List Char) : Option (Value × List Char) :=
  if word.toList.isPrefixOf cs then some (v, cs.drop word.length) else none

mutual
/-- A value inside so many tables and arrays. The bound counts nested calls, of which each has less
text. -/
def value? : Nat → Nat → List Char → Option (Value × List Char)
  | 0, _, _ => none
  | n + 1, depth, cs =>
    match cs with
    | 't' :: _ => word? "true" (.bool true) cs
    | 'f' :: _ => word? "false" (.bool false) cs
    | '[' :: rest =>
      if nestingLimit ≤ depth + 1 then none
      else
        match skipSpace n rest with
        | ']' :: rest => some (.array [], rest)
        | rest => (items? n (depth + 1) rest).map fun (items, rest) => (.array items, rest)
    | '\x7b' :: rest =>
      if nestingLimit ≤ depth + 1 then none
      else
        match skipBlank rest with
        | '\x7d' :: rest => some (.object [], rest)
        | rest =>
          (entries? n (depth + 1) rest []).map fun (entries, rest) =>
            (.object (Node.toFields entries), rest)
    | '"' :: _ => (string? n cs).map fun (text, rest) => (.string (String.ofList text), rest)
    | '\'' :: _ => (string? n cs).map fun (text, rest) => (.string (String.ofList text), rest)
    | cs => (moment? cs).or (number? cs)

/-- The items of an array; a comma may follow the last one. -/
def items? : Nat → Nat → List Char → Option (List Value × List Char)
  | 0, _, _ => none
  | n + 1, depth, cs => do
    let (v, rest) ← value? n depth cs
    match skipSpace n rest with
    | ',' :: rest =>
      match skipSpace n rest with
      | ']' :: rest => return ([v], rest)
      | rest =>
        let (vs, rest) ← items? n depth rest
        return (v :: vs, rest)
    | ']' :: rest => return ([v], rest)
    | _ => none

/-- The assignments between braces, which stand on one line, after those already read. -/
def entries? : Nat → Nat → List Char → Entries → Option (Entries × List Char)
  | 0, _, _, _ => none
  | n + 1, depth, cs, entries => do
    let (keys, rest) ← keys? n cs
    match rest with
    | '=' :: rest =>
      let (v, rest) ← value? n depth (skipBlank rest)
      let entries ← assignIn? v keys entries
      match skipBlank rest with
      | ',' :: rest => entries? n depth rest entries
      | '\x7d' :: rest => return (entries, rest)
      | _ => none
    | _ => none
end

def statement? (n : Nat) (cs : List Char) : Option (Statement × List Char) := do
  match cs with
  | '[' :: '[' :: rest =>
    let (keys, rest) ← keys? n rest
    match rest with
    | ']' :: ']' :: rest => return (.element keys, rest)
    | _ => none
  | '[' :: rest =>
    let (keys, rest) ← keys? n rest
    match rest with
    | ']' :: rest => return (.table keys, rest)
    | _ => none
  | cs =>
    let (keys, rest) ← keys? n cs
    match rest with
    | '=' :: rest =>
      let (v, rest) ← value? n 0 (skipBlank rest)
      return (.assign keys v, rest)
    | _ => none

/-- The statements of a text, each on a line of its own. -/
def statements? : Nat → List Char → Option (List Statement)
  | 0, _ => none
  | n + 1, cs =>
    match skipSpace (n + 1) cs with
    | [] => some []
    | cs => do
      let (s, rest) ← statement? (2 * cs.length + 2) cs
      let rest ← endOfLine? rest
      let more ← statements? n rest
      return s :: more

/-- Drops the mark that may stand before the first character of a file. -/
def skipMark : List Char → List Char
  | '\uFEFF' :: cs => cs
  | cs => cs

def read? (text : String) : Option (List Statement) :=
  let cs := skipMark text.toList
  statements? (cs.length + 1) cs

end ImportCheck.Toml

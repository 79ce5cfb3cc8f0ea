/-!
Texts as lists of characters: blanks, lines, and the first place where a text holds another one.
-/
namespace ImportCheck.Text

/-- A character that separates words in any script. -/
def isBlank (c : Char) : Bool :=
  let n := c.toNat
  (9 ≤ n && n ≤ 13) || n == 32 || n == 133 || n == 160 || n == 5760 || (8192 ≤ n && n ≤ 8202) ||
    n == 8232 || n == 8233 || n == 8239 || n == 8287 || n == 12288

def trimStart (cs : List Char) : List Char := cs.dropWhile isBlank

def trimEndWhile (p : Char → Bool) (cs : List Char) : List Char := (cs.reverse.dropWhile p).reverse

def trimEnd (cs : List Char) : List Char := trimEndWhile isBlank cs

def trim (cs : List Char) : List Char := trimEnd (trimStart cs)

/-- The parts of a text between the occurrences of a character. -/
def splitOn (c : Char) : List Char → List (List Char)
  | [] => [[]]
  | d :: ds =>
    match splitOn c ds with
    | [] => [[d]]
    | first :: rest => if d = c then [] :: first :: rest else (d :: first) :: rest

/-- The lines of a text. A carriage return at the end of a line is left to `trim`. -/
def lines (cs : List Char) : List (List Char) := splitOn '\n' cs

/-- What follows a text at the start of another. -/
def after? : List Char → List Char → Option (List Char)
  | [], cs => some cs
  | _ :: _, [] => none
  | m :: ms, c :: cs => if m = c then after? ms cs else none

/-- What stands before and after the first occurrence of a text. -/
def splitFirst? (mark : List Char) : List Char → Option (List Char × List Char)
  | [] => if mark = [] then some ([], []) else none
  | c :: cs =>
    match after? mark (c :: cs) with
    | some rest => some ([], rest)
    | none => (splitFirst? mark cs).map fun (before, rest) => (c :: before, rest)

/-- What stands between the first quotation mark, single or double, and the next one of its kind. -/
def quoted? (cs : List Char) : Option (List Char) :=
  match cs.dropWhile fun c => !(c == '\'' || c == '"') with
  | [] => none
  | quote :: rest => (splitFirst? [quote] rest).map (·.1)

end ImportCheck.Text

import ImportCheck.Text.Search
import ImportCheck.Toml.Number

/-!
Dates and times of a settings file. Every moment has one written form, and is held as that text in an
object with one field.
-/
namespace ImportCheck.Toml

/-- The key of the field that holds the text of a moment. -/
def momentKey : String := "$__toml_private_datetime"

/-- Two digits whose value lies between bounds. -/
def twoDigits? (least most : Nat) : List Char → Option (List Char × List Char)
  | a :: b :: rest =>
    let n := ofDigits 10 [a, b]
    if a.isDigit ∧ b.isDigit ∧ least ≤ n ∧ n ≤ most then some ([a, b], rest) else none
  | _ => none

def isLeapYear (year : Nat) : Bool := year % 4 == 0 && (year % 100 != 0 || year % 400 == 0)

def lastDay (year month : Nat) : Nat :=
  if month = 2 then (if isLeapYear year then 29 else 28)
  else if month = 4 ∨ month = 6 ∨ month = 9 ∨ month = 11 then 30
  else 31

/-- A day of the calendar, its year in four digits. -/
def day? : List Char → Option (List Char × List Char)
  | a :: b :: c :: d :: '-' :: rest =>
    let year := [a, b, c, d]
    if year.all Char.isDigit then do
      let (month, rest) ← twoDigits? 1 12 rest
      let rest ← Text.after? ['-'] rest
      let (day, rest) ← twoDigits? 1 (lastDay (ofDigits 10 year) (ofDigits 10 month)) rest
      return (year ++ '-' :: month ++ '-' :: day, rest)
    else none
  | _ => none

/-- Nine digits of a fraction of a second without the zeros at their end. -/
def secondPart (digits : List Char) : List Char :=
  match Text.trimEndWhile (· == '0') (digits.take 9) with
  | [] => []
  | ds => '.' :: ds

/-- A time of day to the second, or more exact. A minute may have one second more. -/
def clock? (cs : List Char) : Option (List Char × List Char) := do
  let (hour, rest) ← twoDigits? 0 23 cs
  let rest ← Text.after? [':'] rest
  let (minute, rest) ← twoDigits? 0 59 rest
  let rest ← Text.after? [':'] rest
  let (second, rest) ← twoDigits? 0 60 rest
  let text := hour ++ ':' :: minute ++ ':' :: second
  match rest with
  | '.' :: rest =>
    let digits := rest.takeWhile Char.isDigit
    if digits = [] then none
    else return (text ++ secondPart digits, rest.dropWhile Char.isDigit)
  | rest => return (text, rest)

/-- How far a time of day is from universal time, if that is said. No distance has a plus sign. -/
def offset? : List Char → Option (List Char × List Char)
  | c :: rest =>
    if c = 'Z' ∨ c = 'z' then some (['Z'], rest)
    else if c = '+' ∨ c = '-' then do
      let (hour, rest) ← twoDigits? 0 23 rest
      let rest ← Text.after? [':'] rest
      let (minute, rest) ← twoDigits? 0 59 rest
      let distance := hour ++ ':' :: minute
      return ((if distance = "00:00".toList then '+' else c) :: distance, rest)
    else some ([], c :: rest)
  | [] => some ([], [])

/-- What may follow a day: a letter or one space, a time of day and an offset. -/
def clockAfterDay? : List Char → Option (List Char × List Char)
  | c :: rest =>
    if c = 'T' ∨ c = 't' ∨ c = ' ' then do
      let (clock, rest) ← clock? rest
      let (offset, rest) ← offset? rest
      return ('T' :: clock ++ offset, rest)
    else none
  | [] => none

/-- The text of a day with or without a time, or of a time alone. -/
def momentText? (cs : List Char) : Option (List Char × List Char) :=
  match day? cs with
  | some (day, rest) =>
    match clockAfterDay? rest with
    | some (clock, rest) => some (day ++ clock, rest)
    | none => some (day, rest)
  | none => clock? cs

def moment? (cs : List Char) : Option (Value × List Char) :=
  (momentText? cs).map fun (text, rest) => (.object [(momentKey, .string (String.ofList text))], rest)

end ImportCheck.Toml

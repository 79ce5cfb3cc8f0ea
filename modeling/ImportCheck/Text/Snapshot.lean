/-!
Texts cut at byte offsets of their UTF-8 form.
-/
namespace ImportCheck.Text

def byteCount : List Char → Nat
  | [] => 0
  | c :: cs => c.utf8Size + byteCount cs

/-- The characters of the first `n` bytes; none when `n` falls inside a character or past the end. -/
def takeBytes? : Nat → List Char → Option (List Char)
  | 0, _ => some []
  | _ + 1, [] => none
  | n + 1, c :: cs =>
    if c.utf8Size ≤ n + 1 then (takeBytes? (n + 1 - c.utf8Size) cs).map (c :: ·) else none

/-- The characters after the first `n` bytes; none when `n` falls inside a character or past the end. -/
def dropBytes? : Nat → List Char → Option (List Char)
  | 0, cs => some cs
  | _ + 1, [] => none
  | n + 1, c :: cs => if c.utf8Size ≤ n + 1 then dropBytes? (n + 1 - c.utf8Size) cs else none

/-- The text between two byte offsets, which are moved into the text first. An inverted range, or one
that ends inside a character, is empty. -/
def slice (text : String) (start stop : Nat) : String :=
  let cs := text.toList
  let stop := min stop (byteCount cs)
  let start := min start stop
  String.ofList (((takeBytes? stop cs).bind (dropBytes? start)).getD [])

end ImportCheck.Text

import ImportCheck.Text.Hidden

/-!
Texts in double quotation marks, as messages show them: one line, and every hidden character written by
its code point.
-/
namespace ImportCheck.Text

/-- A character between quotation marks. -/
def shown (c : Char) : List Char :=
  if c = '"' then ['\\', '"']
  else if c = '\\' then ['\\', '\\']
  else if c = '\n' then ['\\', 'n']
  else if c = '\r' then ['\\', 'r']
  else if c = '\t' then ['\\', 't']
  else if c = '\x00' then ['\\', '0']
  else if isHidden c then '\\' :: 'u' :: '\x7b' :: Nat.toDigits 16 c.toNat ++ ['\x7d']
  else [c]

def quote (s : String) : String := String.ofList ('"' :: s.toList.flatMap shown ++ ['"'])

end ImportCheck.Text

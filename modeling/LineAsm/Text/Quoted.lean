import LineAsm.Text.Hidden

set_option autoImplicit false

/-!
# Quoted text

A message quotes a text so that it can be read on one line: between double quotes, with quotes,
backslashes and the common controls marked by a backslash, and every hidden character spelled by
its code point.
-/

namespace LineAsm.Text

/-- A code point in lower case base sixteen, as it stands in a quoted text. -/
def codePoint (c : Char) : List Char :=
  ['\\', 'u', '{'] ++ Nat.toDigits 16 c.toNat ++ ['}']

def quotedChar (c : Char) : List Char :=
  match c with
  | '"' => ['\\', '"']
  | '\\' => ['\\', '\\']
  | '\n' => ['\\', 'n']
  | '\r' => ['\\', 'r']
  | '\t' => ['\\', 't']
  | '\x00' => ['\\', '0']
  | c => if isHidden c then codePoint c else [c]

def quoted (s : String) : String :=
  .ofList ('"' :: s.toList.flatMap quotedChar ++ ['"'])

end LineAsm.Text

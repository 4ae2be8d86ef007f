import SigilExpr.Text.Hidden

/-!
# Texts with every character visible

`Text.visible` puts a text between quotes in such a way that no character of it is lost on a reader:
quotes and backslashes are escaped, line breaks, tabs and the null character have short escapes, and
every other hidden character is spelled as its code point.
-/

namespace SigilExpr.Text

/-- The digits of a code point, hexadecimal in lower case. -/
def codePoint (c : Char) : List Char :=
  Nat.toDigits 16 c.toNat

/-- What stands for a character between the quotes. -/
def visibleChar (c : Char) : List Char :=
  match c with
  | '"' => ['\\', '"']
  | '\\' => ['\\', '\\']
  | '\n' => ['\\', 'n']
  | '\r' => ['\\', 'r']
  | '\t' => ['\\', 't']
  | '\x00' => ['\\', '0']
  | c => if isHidden c then ['\\', 'u', '\x7b'] ++ codePoint c ++ ['\x7d'] else [c]

/-- A text between quotes, with every character visible. -/
def visible (text : String) : String :=
  String.ofList ('"' :: (text.toList.flatMap visibleChar ++ ['"']))

end SigilExpr.Text

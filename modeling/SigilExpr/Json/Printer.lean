import SigilExpr.Json.Basic

/-!
# Texts of JSON values

Two layouts of one grammar: `Json.text` has no blanks at all, `Json.pretty` gives every item and
field a line of its own, two blanks deeper than its container. Both write fields in their order and
escape only the quote, the backslash and the control characters below `U+0020`.
-/

namespace SigilExpr.Json

/-- A hexadecimal digit, lower case. -/
def hexDigit (n : Nat) : Char :=
  Nat.digitChar n

/-- The characters that stand for `c` inside a string. -/
def escape (c : Char) : List Char :=
  match c with
  | '"' => ['\\', '"']
  | '\\' => ['\\', '\\']
  | '\n' => ['\\', 'n']
  | '\r' => ['\\', 'r']
  | '\t' => ['\\', 't']
  | '\x08' => ['\\', 'b']
  | '\x0c' => ['\\', 'f']
  | c =>
    if c.toNat < 0x20 then
      ['\\', 'u', '0', '0', hexDigit (c.toNat / 16), hexDigit (c.toNat % 16)]
    else [c]

/-- A string between quotes. -/
def quote (s : String) : String :=
  String.ofList ('"' :: (s.toList.flatMap escape ++ ['"']))

/-! ### The compact layout -/

mutual

/-- The text of a value without blanks. -/
def text : Json → String
  | .null => "null"
  | .bool true => "true"
  | .bool false => "false"
  | .num n => n.text
  | .str s => quote s
  | .arr items => "[" ++ textOfItems items ++ "]"
  | .obj fields => "\x7b" ++ textOfFields fields ++ "\x7d"

/-- The texts of items, with commas between them. -/
def textOfItems : List Json → String
  | [] => ""
  | v :: rest => if rest.isEmpty then v.text else v.text ++ "," ++ textOfItems rest

/-- The texts of fields, with commas between them. -/
def textOfFields : List (String × Json) → String
  | [] => ""
  | (k, v) :: rest =>
    let entry := quote k ++ ":" ++ v.text
    if rest.isEmpty then entry else entry ++ "," ++ textOfFields rest

end

/-! ### The indented layout -/

/-- A line break, and the indentation of a line at this level. -/
def lineAt (level : Nat) : String :=
  String.ofList ('\n' :: List.replicate (2 * level) ' ')

mutual

/-- The text of a value that stands at an indentation level. -/
def prettyAt (level : Nat) : Json → String
  | .arr items =>
    if items.isEmpty then "[]"
    else "[" ++ prettyItems (level + 1) items ++ lineAt level ++ "]"
  | .obj fields =>
    if fields.isEmpty then "\x7b\x7d"
    else "\x7b" ++ prettyFields (level + 1) fields ++ lineAt level ++ "\x7d"
  | v => v.text

/-- The lines of items, with commas at their ends. -/
def prettyItems (level : Nat) : List Json → String
  | [] => ""
  | v :: rest =>
    let line := lineAt level ++ v.prettyAt level
    if rest.isEmpty then line else line ++ "," ++ prettyItems level rest

/-- The lines of fields, with commas at their ends. -/
def prettyFields (level : Nat) : List (String × Json) → String
  | [] => ""
  | (k, v) :: rest =>
    let line := lineAt level ++ quote k ++ ": " ++ v.prettyAt level
    if rest.isEmpty then line else line ++ "," ++ prettyFields level rest

end

/-- The indented text of a value. -/
def pretty (v : Json) : String :=
  v.prettyAt 0

example : (Json.arr [.null, .obj [("a", .str "\x01\"")]]).text
    = "[null,\x7b\"a\":\"\\u0001\\\"\"\x7d]" := by decide +kernel

end SigilExpr.Json

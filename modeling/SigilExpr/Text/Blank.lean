/-!
# Blank characters and names

The characters with the `White_Space` property, and the two operations that a name written by hand
goes through before it is compared: blanks around it are dropped and ASCII letters are lowered.
-/

namespace SigilExpr.Text

/-- The ranges of the `White_Space` property, ends included. -/
def blankRanges : List (Nat × Nat) :=
  [(0x09, 0x0d), (0x20, 0x20), (0x85, 0x85), (0xa0, 0xa0), (0x1680, 0x1680), (0x2000, 0x200a),
    (0x2028, 0x2029), (0x202f, 0x202f), (0x205f, 0x205f), (0x3000, 0x3000)]

/-- A character with the `White_Space` property. -/
def isBlank (c : Char) : Bool :=
  blankRanges.any fun range => range.1 ≤ c.toNat && c.toNat ≤ range.2

/-- The text without the blanks at its two ends. -/
def trim (text : String) : String :=
  String.ofList ((text.toList.dropWhile isBlank).reverse.dropWhile isBlank).reverse

/-- The text with `A` to `Z` lowered and every other character as it is. -/
def lowerAscii (text : String) : String :=
  String.ofList (text.toList.map Char.toLower)

example : trim " \u3000dev\u0085\n" = "dev" := by decide +kernel

example : trim "\u200bdev" = "\u200bdev" := by decide +kernel

example : lowerAscii "ProDÜ" = "prodÜ" := by decide +kernel

end SigilExpr.Text

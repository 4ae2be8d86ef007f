import SigilExpr.Json.Basic

/-!
# Tokens of JSON text

The lexical half of reading JSON: a text is cut into punctuation, scalars and strings, with blanks
(space, tab, line feed, carriage return) between them. A text that holds anything else has no
tokens: control characters inside a string, unknown escapes, surrogate halves that stand alone,
numbers with leading zeros or without digits where digits have to be.

Each step of `Token.scan?` goes on with a shorter text, which is what its recursion rests on.
-/

namespace SigilExpr.Json

/-- A token of JSON text. -/
inductive Token where
  /-- An opening square bracket. -/
  | openItems
  /-- A closing square bracket. -/
  | closeItems
  /-- An opening curly bracket. -/
  | openFields
  /-- A closing curly bracket. -/
  | closeFields
  /-- A comma. -/
  | comma
  /-- A colon. -/
  | colon
  /-- A number or one of the three words. -/
  | scalar (value : Json)
  /-- A string. -/
  | string (value : String)

namespace Token

/-- The characters that may stand between tokens. -/
def isSpace (c : Char) : Bool :=
  c == ' ' || c == '\t' || c == '\n' || c == '\r'

/-! ### Strings -/

/-- The value of a hexadecimal digit of either case. -/
def hexValue? (c : Char) : Option Nat :=
  if '0' ≤ c ∧ c ≤ '9' then some (c.toNat - '0'.toNat)
  else if 'a' ≤ c ∧ c ≤ 'f' then some (c.toNat - 'a'.toNat + 10)
  else if 'A' ≤ c ∧ c ≤ 'F' then some (c.toNat - 'A'.toNat + 10)
  else none

/-- Four hexadecimal digits as a number, and the text after them. -/
def hexUnit? : List Char → Option (Nat × List Char)
  | a :: b :: c :: d :: rest => do
    let a ← hexValue? a
    let b ← hexValue? b
    let c ← hexValue? c
    let d ← hexValue? d
    some (a * 4096 + b * 256 + c * 16 + d, rest)
  | _ => none

/-- The character of a `\u` escape, whose digits come first in the text. A leading surrogate must be
followed by the escape of a trailing one. -/
def unicodeEscape? (cs : List Char) : Option (Char × List Char) := do
  let (unit, rest) ← hexUnit? cs
  if unit < 0xd800 ∨ 0xe000 ≤ unit then
    some (Char.ofNat unit, rest)
  else if unit < 0xdc00 then
    match rest with
    | '\\' :: 'u' :: more => do
      let (trail, rest) ← hexUnit? more
      if 0xdc00 ≤ trail ∧ trail < 0xe000 then
        some (Char.ofNat (0x10000 + (unit - 0xd800) * 0x400 + (trail - 0xdc00)), rest)
      else none
    | _ => none
  else none

/-- The next character of a string, escaped or not, and the text after it. -/
def character? : List Char → Option (Char × List Char)
  | '\\' :: 'u' :: rest => unicodeEscape? rest
  | '\\' :: c :: rest =>
    match c with
    | '"' => some ('"', rest)
    | '\\' => some ('\\', rest)
    | '/' => some ('/', rest)
    | 'b' => some ('\x08', rest)
    | 'f' => some ('\x0c', rest)
    | 'n' => some ('\n', rest)
    | 'r' => some ('\r', rest)
    | 't' => some ('\t', rest)
    | _ => none
  | c :: rest => if c == '\\' || c.toNat < 0x20 then none else some (c, rest)
  | [] => none

theorem length_of_hexUnit? {cs rest : List Char} {n : Nat} (h : hexUnit? cs = some (n, rest)) :
    rest.length < cs.length := by
  unfold hexUnit? at h
  split at h
  · simp only [Option.bind_eq_bind, Option.bind_eq_some_iff, Option.some.injEq, Prod.mk.injEq] at h
    obtain ⟨_, _, _, _, _, _, _, _, _, rfl⟩ := h
    simp only [List.length_cons]
    omega
  · simp at h

theorem length_of_unicodeEscape? {cs rest : List Char} {c : Char}
    (h : unicodeEscape? cs = some (c, rest)) : rest.length < cs.length := by
  simp only [unicodeEscape?, Option.bind_eq_bind, Option.bind_eq_some_iff, Prod.exists] at h
  obtain ⟨unit, after, hunit, h⟩ := h
  have hlt := length_of_hexUnit? hunit
  split at h
  · simp only [Option.some.injEq, Prod.mk.injEq] at h
    exact h.2 ▸ hlt
  · split at h
    · split at h
      · simp only [Option.bind_eq_some_iff, Prod.exists] at h
        obtain ⟨trail, last, htrail, h⟩ := h
        have hmore := length_of_hexUnit? htrail
        split at h
        · simp only [Option.some.injEq, Prod.mk.injEq] at h
          simp only [List.length_cons] at hlt
          rw [← h.2]
          omega
        · simp at h
      · simp at h
    · simp at h

/-- A character of a string takes up text. -/
theorem length_of_character? {cs rest : List Char} {c : Char}
    (h : character? cs = some (c, rest)) : rest.length < cs.length := by
  unfold character? at h
  split at h
  · have := length_of_unicodeEscape? h
    simp only [List.length_cons]
    omega
  · split at h
    case h_9 => simp at h
    all_goals
      simp only [Option.some.injEq, Prod.mk.injEq] at h
      simp only [← h.2, List.length_cons]
      omega
  · split at h <;> simp_all
  · simp at h

/-- The characters of a string up to its closing quote, and the text after that. -/
def unquote? (cs : List Char) : Option (List Char × List Char) :=
  match cs with
  | '"' :: rest => some ([], rest)
  | cs =>
    match _h : character? cs with
    | none => none
    | some (c, rest) => (unquote? rest).map fun (chars, after) => (c :: chars, after)
termination_by cs.length
decreasing_by exact length_of_character? _h

/-- A string takes up text. -/
theorem length_of_unquote? {cs chars rest : List Char} (h : unquote? cs = some (chars, rest)) :
    rest.length < cs.length := by
  fun_induction unquote? cs generalizing chars with
  | case1 => simp_all
  | case2 => simp at h
  | case3 cs _ c after hc ih =>
    simp only [Option.map_eq_some_iff, Prod.exists, Prod.mk.injEq] at h
    obtain ⟨tail, last, htail, -, rfl⟩ := h
    exact Nat.lt_trans (ih htail) (length_of_character? hc)

/-! ### Numbers -/

/-- The digits at the front of a text, of which there must be one, and the text after them. -/
def digits? (cs : List Char) : Option (List Char × List Char) :=
  match cs.takeWhile Char.isDigit with
  | [] => none
  | digits => some (digits, cs.dropWhile Char.isDigit)

/-- The exponent at the front of a text: whether it is negative and its digits. -/
def exponent? : List Char → Option ((Bool × List Char) × List Char)
  | c :: rest =>
    if c == 'e' || c == 'E' then
      match rest with
      | '-' :: rest => (digits? rest).map fun (digits, after) => ((true, digits), after)
      | '+' :: rest => (digits? rest).map fun (digits, after) => ((false, digits), after)
      | rest => (digits? rest).map fun (digits, after) => ((false, digits), after)
    else some ((false, []), c :: rest)
  | [] => some ((false, []), [])

/-- The fraction digits at the front of a text, none without a point. -/
def fraction? : List Char → Option (List Char × List Char)
  | '.' :: rest => digits? rest
  | cs => some ([], cs)

/-- The literal at the front of a text, sign included, and the text after it. -/
def literal? (cs : List Char) : Option (Number.Literal × List Char) := do
  let (negative, cs) := match cs with
    | '-' :: rest => (true, rest)
    | cs => (false, cs)
  let (ahead, cs) ← digits? cs
  if ahead.length > 1 && ahead.head? == some '0' then none
  else do
    let (behind, cs) ← fraction? cs
    let ((shrinks, power), cs) ← exponent? cs
    some (⟨negative, ahead, behind, shrinks, power⟩, cs)

/-! ### The cut -/

/-- The token at the front of a text, which is not a blank, and the text after it. -/
def next? : List Char → Option (Token × List Char)
  | '[' :: rest => some (.openItems, rest)
  | ']' :: rest => some (.closeItems, rest)
  | '\x7b' :: rest => some (.openFields, rest)
  | '\x7d' :: rest => some (.closeFields, rest)
  | ',' :: rest => some (.comma, rest)
  | ':' :: rest => some (.colon, rest)
  | '"' :: rest => (unquote? rest).map fun (chars, after) => (.string (String.ofList chars), after)
  | 'n' :: 'u' :: 'l' :: 'l' :: rest => some (.scalar .null, rest)
  | 't' :: 'r' :: 'u' :: 'e' :: rest => some (.scalar (.bool true), rest)
  | 'f' :: 'a' :: 'l' :: 's' :: 'e' :: rest => some (.scalar (.bool false), rest)
  | cs => do
    let (literal, rest) ← literal? cs
    let number ← Number.ofLiteral? literal
    some (.scalar (.num number), rest)

theorem length_of_digits? {cs digits rest : List Char} (h : digits? cs = some (digits, rest)) :
    rest.length < cs.length := by
  unfold digits? at h
  split at h
  · simp at h
  · rename_i hne
    simp only [Option.some.injEq, Prod.mk.injEq] at h
    obtain ⟨rfl, rfl⟩ := h
    have hlen : (cs.takeWhile Char.isDigit ++ cs.dropWhile Char.isDigit).length = cs.length :=
      congrArg List.length List.takeWhile_append_dropWhile
    have hpos : 0 < (cs.takeWhile Char.isDigit).length := List.length_pos_iff.2 hne
    simp only [List.length_append] at hlen
    omega

theorem length_of_fraction? {cs digits rest : List Char} (h : fraction? cs = some (digits, rest)) :
    rest.length ≤ cs.length := by
  unfold fraction? at h
  split at h
  · have := length_of_digits? h
    simp only [List.length_cons]
    omega
  · simp_all

theorem length_of_exponent? {cs rest : List Char} {e : Bool × List Char}
    (h : exponent? cs = some (e, rest)) : rest.length ≤ cs.length := by
  unfold exponent? at h
  split at h
  · split at h
    · split at h <;>
      · simp only [Option.map_eq_some_iff, Prod.exists, Prod.mk.injEq] at h
        obtain ⟨digits, after, hd, -, rfl⟩ := h
        have := length_of_digits? hd
        simp only [List.length_cons]
        omega
    · simp_all
  · simp_all

theorem length_of_literal? {cs rest : List Char} {l : Number.Literal}
    (h : literal? cs = some (l, rest)) : rest.length < cs.length := by
  simp only [literal?, Option.bind_eq_bind, Option.bind_eq_some_iff, Prod.exists] at h
  obtain ⟨ahead, cs₁, h₁, h⟩ := h
  have hlt := length_of_digits? h₁
  have hle : (match cs with
      | '-' :: rest => (true, rest)
      | cs => (false, cs)).2.length ≤ cs.length := by
    split <;> simp
  split at h
  · simp at h
  · simp only [Option.bind_eq_some_iff, Prod.exists, Option.some.injEq, Prod.mk.injEq] at h
    obtain ⟨behind, cs₂, h₂, shrinks, power, cs₃, h₃, -, rfl⟩ := h
    have := length_of_fraction? h₂
    have := length_of_exponent? h₃
    omega

/-- A token takes up text. -/
theorem length_of_next? {cs rest : List Char} {t : Token} (h : next? cs = some (t, rest)) :
    rest.length < cs.length := by
  unfold next? at h
  split at h
  case h_7 =>
    simp only [Option.map_eq_some_iff, Prod.exists, Prod.mk.injEq] at h
    obtain ⟨chars, after, hu, -, rfl⟩ := h
    have := length_of_unquote? hu
    simp only [List.length_cons]
    omega
  case h_11 =>
    simp only [Option.bind_eq_bind, Option.bind_eq_some_iff, Prod.exists, Option.some.injEq,
      Prod.mk.injEq] at h
    obtain ⟨l, after, hl, _, _, -, rfl⟩ := h
    exact length_of_literal? hl
  all_goals simp_all <;> omega

/-- The tokens of a text, if it has nothing but tokens and blanks. -/
def scan? (cs : List Char) : Option (List Token) :=
  match cs with
  | [] => some []
  | c :: rest =>
    if isSpace c then scan? rest
    else
      match _h : next? (c :: rest) with
      | none => none
      | some (token, after) => (scan? after).map (token :: ·)
termination_by cs.length
decreasing_by
  · simp
  · exact length_of_next? _h

end Token

end SigilExpr.Json

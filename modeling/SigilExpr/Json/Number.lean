import SigilExpr.Decimal.Shortest

/-!
# JSON numbers

A number is a whole number between `-2 ^ 63` and `2 ^ 64 - 1`, held exactly, or a finite double.
The two kinds stay apart: `1` and `1.0` are different numbers, with different texts.

Reading a literal (`Number.ofLiteral?`) keeps whole literals in range exactly. Every other literal
becomes a double: its digits are collected into a significand below `2 ^ 64`, digits that no longer
fit are dropped, and one multiplication or division by a power of ten follows (several divisions
below `10 ^ -308`). A literal too large for a double is refused.

Writing (`Number.text`) gives a double its shortest digits, in positional notation when the leading
digit stands between `10 ^ -5` and `10 ^ 15`, and always with a point or an exponent.
-/

namespace SigilExpr

/-- The whole numbers that are kept exactly. -/
def Number.Fits (value : Int) : Prop :=
  -Int.pow 2 63 ≤ value ∧ value < Int.pow 2 64

instance (value : Int) : Decidable (Number.Fits value) :=
  inferInstanceAs (Decidable (_ ∧ _))

/-- A JSON number. -/
inductive Number where
  /-- A whole number in range. -/
  | whole (value : Int) (fits : Number.Fits value := by decide)
  /-- A double. -/
  | float (value : Binary64)
deriving DecidableEq

namespace Number

/-- Equality of numbers within one kind. -/
def same : Number → Number → Bool
  | .whole a _, .whole b _ => a == b
  | .float x, .float y => x.sameNumber y
  | _, _ => false

theorem same_self (n : Number) : n.same n = true := by
  cases n with
  | whole => simp [same]
  | float x => exact x.sameNumber_self

/-- The nearest double. -/
def toFloat : Number → Float
  | .whole value _ =>
    if 0 ≤ value then (UInt64.ofNat value.toNat).toFloat
    else -(UInt64.ofNat (-value).toNat).toFloat
  | .float x => x.toFloat

/-- A whole number in the signed 64-bit range. -/
def toSigned? : Number → Option Int
  | .whole value _ => if value < Int.pow 2 63 then some value else none
  | .float _ => none

/-- A whole number that is not negative. -/
def toNat? : Number → Option Nat
  | .whole value _ => if 0 ≤ value then some value.toNat else none
  | .float _ => none

/-- The whole number `value`, if it is in range. -/
def ofInt? (value : Int) : Option Number :=
  if h : Fits value then some (.whole value h) else none

/-- The number that a double holds, if it is finite. -/
def ofFloat? (f : Float) : Option Number :=
  (Binary64.ofFloat? f).map .float

/-! ### Writing -/

/-- The digits of a decimal in positional notation, with at least one digit on each side of the
point. -/
def positional (digits : List Char) (leading : Int) : List Char :=
  if leading < 0 then
    ['0', '.'] ++ List.replicate ((-leading).toNat - 1) '0' ++ digits
  else
    let places := leading.toNat + 1
    let ahead := digits.take places ++ List.replicate (places - digits.length) '0'
    let behind := digits.drop places
    ahead ++ ['.'] ++ (if behind.isEmpty then ['0'] else behind)

/-- The digits of a decimal with one digit before the point and a signed exponent; a single digit
has no point. -/
def scientific (digits : List Char) (leading : Int) : List Char :=
  let sign := if leading < 0 then '-' else '+'
  let point := if digits.length ≤ 1 then [] else ['.']
  digits.take 1 ++ point ++ digits.drop 1 ++ ['e', sign] ++ Decimal.digits leading.natAbs

/-- The exponents of the leading digit that are written positionally. -/
def isPositional (leading : Int) : Bool :=
  decide (-5 ≤ leading) && decide (leading ≤ 15)

/-- The text of a double. -/
def floatText (x : Binary64) : String :=
  let sign := if x.isNegative then ['-'] else []
  let body :=
    if x.isZero then ['0', '.', '0']
    else
      let d := x.shortest
      if isPositional d.leading then positional d.significant d.leading
      else scientific d.significant d.leading
  String.ofList (sign ++ body)

/-- The text of a number. -/
def text : Number → String
  | .whole value _ =>
    String.ofList ((if value < 0 then ['-'] else []) ++ Decimal.digits value.natAbs)
  | .float x => floatText x

example : (Number.whole (-7)).text = "-7" := by decide +kernel

example : (Number.float ⟨0x4340000000000000, by decide⟩).text = "9007199254740992.0" := by
  decide +kernel

example : (Number.float ⟨0x3ee4f8b588e368f1, by decide⟩).text = "0.00001" := by decide +kernel

example : (Number.float ⟨0x4341c37937e08000, by decide⟩).text = "1e+16" := by decide +kernel

example : (Number.float ⟨0xbe112e0be826d695, by decide⟩).text = "-1e-9" := by decide +kernel

/-! ### Reading -/

/-- The parts of a number literal; the digit lists are as written. -/
structure Literal where
  /-- A minus sign stands in front. -/
  negative : Bool
  /-- The digits before the point. -/
  ahead : List Char
  /-- The digits after the point, none if there is no point. -/
  behind : List Char := []
  /-- There is an exponent, and it is negative. -/
  shrinks : Bool := false
  /-- The digits of the exponent, none if there is none. -/
  power : List Char := []

namespace Literal

/-- The value of a digit. -/
def digitValue (c : Char) : Nat :=
  c.toNat - '0'.toNat

/-- The number that digits stand for. -/
def natOf (digits : List Char) : Nat :=
  digits.foldl (fun n c => 10 * n + digitValue c) 0

/-- The literal is written without point and exponent. -/
def isWhole (l : Literal) : Bool :=
  l.behind.isEmpty && l.power.isEmpty

/-- Appends digits to a significand for as long as it stays below `2 ^ 64`, and tells how many
digits are left over from the first that no longer fits. -/
def collect (significand : Nat) : List Char → Nat × Nat
  | [] => (significand, 0)
  | c :: rest =>
    let next := 10 * significand + digitValue c
    if next < Nat.pow 2 64 then collect next rest else (significand, rest.length + 1)

/-- The power of ten `10 ^ e` as a double. -/
def powerOfTen (e : Nat) : Float :=
  Float.ofScientific 1 false e

/-- Divides by `10 ^ e`, at most `10 ^ 308` at a time. -/
def divideByPower (f : Float) (e : Nat) : Float :=
  if e ≤ 308 then f / powerOfTen e
  else if f == 0 then f
  else divideByPower (f / powerOfTen 308) (e - 308)
termination_by e

/-- `significand * 10 ^ e` by floating-point arithmetic; nothing if that leaves the range. -/
def scale? (significand : Nat) (e : Int) : Option Float :=
  let f := (UInt64.ofNat significand).toFloat
  if e < 0 then some (divideByPower f (-e).toNat)
  else if f == 0 then some f
  else if e ≤ 308 then
    let g := f * powerOfTen e.toNat
    if g.isInf then none else some g
  else none

/-- The double that a literal stands for. -/
def toFloat? (l : Literal) : Option Float :=
  let (start, dropped) := collect 0 l.ahead
  let (significand, left) := collect start l.behind
  let shift := (dropped : Int) - (l.behind.length - left : Nat)
  let power : Int := if l.shrinks then -(natOf l.power : Int) else natOf l.power
  (scale? significand (shift + power)).map fun f => if l.negative then -f else f

end Literal

/-- The number that a literal stands for; `-0` is the negative zero, and a whole literal outside
the range of whole numbers is a double. -/
def ofLiteral? (l : Literal) : Option Number :=
  let value : Int := if l.negative then -(Literal.natOf l.ahead : Int) else Literal.natOf l.ahead
  if l.isWhole && !(l.negative && value == 0) then
    match ofInt? value with
    | some n => some n
    | none => l.toFloat?.bind ofFloat?
  else l.toFloat?.bind ofFloat?

end Number

end SigilExpr

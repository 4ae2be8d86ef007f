import SigilExpr.Decimal.Binary64

/-!
# Shortest decimal digits of a double

Every double `m * 2 ^ q` is the nearest double to all reals of an interval around it. Among the
decimals in that interval `Binary64.shortest` takes one with the fewest digits, of several such the
nearest to the number, and of two equally near ones the one with the even last digit.

On a decimal grid with `n` digits only the two neighbours of the number need a look: if any point of
the grid lies in the interval then so does one of them. All of it is exact arithmetic on naturals:
the number and the ends of the interval are quarters of a unit over a common denominator.
-/

namespace SigilExpr

/-- A positive decimal `coefficient * 10 ^ power`. -/
structure Decimal where
  /-- The digits, read as one number. -/
  coefficient : Nat
  /-- The power of ten. -/
  power : Int
deriving DecidableEq, Repr

namespace Decimal

/-- The decimal digits of a natural number, without leading zeros; `0` has the digit `0`. -/
def digits (n : Nat) : List Char :=
  Nat.toDigits 10 n

/-- The digits of the coefficient without its trailing zeros. -/
def significant (d : Decimal) : List Char :=
  ((digits d.coefficient).reverse.dropWhile (· == '0')).reverse

/-- The exponent of the leading digit: `d` is `c.ccc * 10 ^ leading`. -/
def leading (d : Decimal) : Int :=
  (digits d.coefficient).length - 1 + d.power

end Decimal

namespace Binary64

/-- A number and the interval that rounds to it, in quarters of the unit of the last place, as
naturals over one denominator. -/
structure Neighbourhood where
  /-- The number. -/
  centre : Nat
  /-- The lower end of the interval. -/
  lower : Nat
  /-- The upper end of the interval. -/
  upper : Nat
  /-- The common denominator. -/
  denominator : Nat
  /-- The ends belong to the interval. -/
  closed : Bool

/-- The interval around the magnitude of `x`. The gap below a binade start is half as wide, and the
ends round to `x` exactly if its mantissa is even. -/
def neighbourhood (x : Binary64) : Neighbourhood :=
  let m := x.mantissa
  let scale := Nat.pow 2 (x.exponent - 2).toNat
  { centre := 4 * m * scale
    lower := (4 * m - if x.isBinadeStart then 1 else 2) * scale
    upper := (4 * m + 2) * scale
    denominator := Nat.pow 2 (2 - x.exponent).toNat
    closed := m % 2 == 0 }

namespace Neighbourhood

/-- `num / den * 10 ^ power`, as a fraction. -/
def scaled (num den : Nat) (power : Int) : Nat × Nat :=
  (num * Nat.pow 10 power.toNat, den * Nat.pow 10 (-power).toNat)

/-- The exponent `e` of the leading digit: `10 ^ e` is at most the number and `10 ^ (e + 1)` is
above it. -/
def leading (n : Neighbourhood) : Int :=
  if n.denominator ≤ n.centre then
    (Decimal.digits (n.centre / n.denominator)).length - 1
  else
    let places := (Decimal.digits (n.denominator / n.centre)).length
    if n.denominator ≤ n.centre * Nat.pow 10 (places - 1) then 1 - (places : Int)
    else -(places : Int)

/-- Whether `c * 10 ^ power` lies in the interval. -/
def admits (n : Neighbourhood) (power : Int) (c : Nat) : Bool :=
  let (num, den) := scaled c 1 power
  let here := num * n.denominator
  if n.closed then
    decide (n.lower * den ≤ here) && decide (here ≤ n.upper * den)
  else
    decide (n.lower * den < here) && decide (here < n.upper * den)

/-- The point of the grid of multiples of `10 ^ power` that stands for the number, if one of the
two neighbours of the number on that grid lies in the interval. -/
def onGrid? (n : Neighbourhood) (power : Int) : Option Decimal :=
  let (num, den) := scaled n.centre n.denominator (-power)
  let below := num / den
  let above := below + 1
  let pick (c : Nat) : Option Decimal := some ⟨c, power⟩
  match decide (0 < below) && n.admits power below, n.admits power above with
  | false, false => none
  | true, false => pick below
  | false, true => pick above
  | true, true =>
    let past := 2 * (num - below * den)
    if past < den then pick below
    else if den < past then pick above
    else if below % 2 = 0 then pick below
    else pick above

end Neighbourhood

/-- The decimal with the fewest digits that reads back as the magnitude of `x`, which is not zero.
Seventeen digits always suffice. -/
def shortest (x : Binary64) : Decimal :=
  let n := x.neighbourhood
  let lead := n.leading
  ((List.range 17).findSome? fun k : Nat => n.onGrid? (lead - (k : Int))).getD ⟨0, 0⟩

example : (⟨0x3fb999999999999a, by decide⟩ : Binary64).shortest = ⟨1, -1⟩ := by decide +kernel

example : (⟨1, by decide⟩ : Binary64).shortest = ⟨5, -324⟩ := by decide +kernel

example : (⟨0x7fefffffffffffff, by decide⟩ : Binary64).shortest = ⟨17976931348623157, 292⟩ := by
  decide +kernel

end Binary64

end SigilExpr

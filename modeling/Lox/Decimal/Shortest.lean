import Lox.Decimal.Dyadic

/-!
# The shortest decimal that reads back

Every real number near enough to a double rounds to it when it is read.  These numbers form an
interval, and a decimal stands for the double exactly if it lies in that interval.

**Method.**  For one digit, two digits and so on, the decimals with that many digits form a grid,
and only the two grid points next to the double have to be tried: if any point of the grid lies
in the interval, one of these two does.  The first grid with a hit gives the fewest digits.  Of
two hits the nearer one is taken, and the one with an even last digit if both are equally near.
Seventeen digits always suffice.
-/

namespace Lox
namespace Decimal

/-- The number `coefficient * 10 ^ exponent`. -/
structure Scientific where
  coefficient : Nat
  exponent : Int
  deriving DecidableEq, Repr

/--
The numbers that round to one double: a lower end, the double itself and an upper end, all over
one denominator.  The ends belong to the interval if they are ties that round to the double.
-/
structure RoundingInterval where
  low : Nat
  middle : Nat
  high : Nat
  denominator : Nat
  closed : Bool
  deriving Repr

/--
The ends lie halfway to the neighbouring doubles.  Below a power of two the neighbour is only
half as far away, unless the power is the first one with a full significand.
-/
def RoundingInterval.ofDyadic (d : Dyadic) : RoundingInterval :=
  let narrow := d.significand == fullSignificand && leastExponent < d.exponent
  let quarter := d.exponent - 2
  let scale := Nat.pow 2 quarter.toNat
  { low := (4 * d.significand - if narrow then 1 else 2) * scale
    middle := 4 * d.significand * scale
    high := (4 * d.significand + 2) * scale
    denominator := Nat.pow 2 (-quarter).toNat
    closed := d.significand % 2 == 0 }

/-- Multiplies the three numerators. -/
def RoundingInterval.scale (i : RoundingInterval) (factor : Nat) : RoundingInterval :=
  { i with low := i.low * factor, middle := i.middle * factor, high := i.high * factor }

/-- The same interval measured in units of `10 ^ k`. -/
def RoundingInterval.inUnits (i : RoundingInterval) (k : Int) : RoundingInterval :=
  let finer := i.scale (Nat.pow 10 (-k).toNat)
  { finer with denominator := i.denominator * Nat.pow 10 k.toNat }

/-- The natural number `c` lies in the interval. -/
def RoundingInterval.contains (i : RoundingInterval) (c : Nat) : Bool :=
  let numerator := c * i.denominator
  if i.closed then
    decide (i.low ≤ numerator) && decide (numerator ≤ i.high)
  else
    decide (i.low < numerator) && decide (numerator < i.high)

/--
Of the two natural numbers next to the middle, the one in the interval; of two, the nearer one,
and of two equally near ones the even one.
-/
def RoundingInterval.neighbour? (i : RoundingInterval) : Option Nat :=
  let below := i.middle / i.denominator
  let above := below + 1
  match i.contains below, i.contains above with
  | false, false => none
  | true, false => some below
  | false, true => some above
  | true, true =>
      match compare (2 * i.middle) ((below + above) * i.denominator) with
      | .lt => some below
      | .gt => some above
      | .eq => if below % 2 == 0 then some below else some above

/--
The decimal exponent of the first digit of the middle.  Multiplied by `10 ^ 330`, every positive
double has an integer part, and the number of its digits tells the exponent.
-/
def RoundingInterval.leadingExponent (i : RoundingInterval) : Int :=
  let shifted := i.middle * Nat.pow 10 330 / i.denominator
  ((Nat.toDigits 10 shifted).length : Int) - 331

/-- The most digits that a shortest decimal of a double has. -/
def mostDigits : Nat := 17

/-- The shortest decimal that reads back as the given positive magnitude. -/
def Dyadic.shortest (d : Dyadic) : Scientific :=
  let interval := RoundingInterval.ofDyadic d
  let leading := interval.leadingExponent
  let hit (fewer : Nat) : Option Scientific :=
    let exponent := leading - fewer
    ((interval.inUnits exponent).neighbour?).map (⟨·, exponent⟩)
  ((List.range mostDigits).findSome? hit).getD ⟨0, 0⟩

end Decimal
end Lox

/-!
# Doubles as dyadic numbers

A finite double is a sign and a natural number times a power of two.  Everything that the
library writes about a number (its shortest decimal, its exact integer) is computed from this
form with natural numbers only, so that no step of it rounds.
-/

namespace Lox
namespace Decimal

/-- The magnitude `significand * 2 ^ exponent`. -/
structure Dyadic where
  significand : Nat
  exponent : Int
  deriving DecidableEq, Repr

/-- What the sixty-four bits of a double stand for. -/
inductive Reading
  | notANumber
  | infinite (negative : Bool)
  | finite (negative : Bool) (magnitude : Dyadic)
  deriving DecidableEq, Repr

/-- The exponent of the smallest positive double. -/
def leastExponent : Int := -1074

/-- The smallest significand with all fifty-three bits in use. -/
def fullSignificand : Nat := Nat.pow 2 52

/--
Splits a word into sign, biased exponent and fraction.  The biased exponent zero marks the
numbers without a leading bit, and the greatest one marks infinities and the not-a-number.
-/
def Reading.ofBits (word : Nat) : Reading :=
  let negative := word / Nat.pow 2 63 % 2 == 1
  let biased := word / Nat.pow 2 52 % Nat.pow 2 11
  let fraction := word % Nat.pow 2 52
  if biased == Nat.pow 2 11 - 1 then
    if fraction == 0 then .infinite negative else .notANumber
  else if biased == 0 then
    .finite negative ⟨fraction, leastExponent⟩
  else
    .finite negative ⟨fullSignificand + fraction, leastExponent + (biased - 1 : Nat)⟩

/-- What a double stands for. -/
def Reading.ofFloat (x : Float) : Reading :=
  Reading.ofBits x.toBits.toNat

/-- The magnitude as a natural number, if it is one. -/
def Dyadic.toNat? (d : Dyadic) : Option Nat :=
  if 0 ≤ d.exponent then
    some (d.significand * Nat.pow 2 d.exponent.toNat)
  else
    let unit := Nat.pow 2 (-d.exponent).toNat
    if d.significand % unit == 0 then some (d.significand / unit) else none

end Decimal
end Lox

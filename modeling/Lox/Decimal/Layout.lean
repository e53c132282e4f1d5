import Lox.Decimal.Shortest

/-!
# Writing decimals

A layout says when a decimal is written positionally, how wide its exponent is otherwise, and how
the values that are no numbers are spelled.
-/

namespace Lox
namespace Decimal

/-- The decisions of a number format. -/
structure Layout where
  /-- The least exponent of the first digit that is written positionally. -/
  positionalFrom : Int
  /-- The least greater exponent that is no longer written positionally. -/
  positionalBelow : Int
  /-- The least number of digits of a written exponent. -/
  exponentWidth : Nat
  notANumber : String
  infinity : String

/-- The digits of a number without the zeros at its end. -/
def significantDigits (n : Nat) : List Char :=
  ((Nat.toDigits 10 n).reverse.dropWhile (· == '0')).reverse

/-- Digits with a point after the first `point` of them; zeros fill what is missing. -/
def positional (digits : List Char) (point : Int) : List Char :=
  if point ≤ 0 then
    '0' :: '.' :: List.replicate (-point).toNat '0' ++ digits
  else if digits.length ≤ point.toNat then
    digits ++ List.replicate (point.toNat - digits.length) '0'
  else
    digits.take point.toNat ++ '.' :: digits.drop point.toNat

/-- The point stands after the first digit, and a power of ten follows with its sign. -/
def exponential (width : Nat) (digits : List Char) (exponent : Int) : List Char :=
  let written := Nat.toDigits 10 exponent.natAbs
  let padded := List.replicate (width - written.length) '0' ++ written
  positional digits 1 ++ 'e' :: (if exponent < 0 then '-' else '+') :: padded

/-- The text of a positive decimal. -/
def Layout.magnitude (layout : Layout) (number : Scientific) : List Char :=
  let leading := number.exponent + ((Nat.toDigits 10 number.coefficient).length : Int) - 1
  let digits := significantDigits number.coefficient
  if layout.positionalFrom ≤ leading && leading < layout.positionalBelow then
    positional digits (leading + 1)
  else
    exponential layout.exponentWidth digits leading

/-- A text with a sign before it, if there is one. -/
def signed (negative : Bool) (text : String) : String :=
  if negative then "-" ++ text else text

/-- The text of a double: the shortest decimal that reads back, in the given layout. -/
def Layout.text (layout : Layout) (x : Float) : String :=
  match Reading.ofFloat x with
  | .notANumber => layout.notANumber
  | .infinite negative => signed negative layout.infinity
  | .finite negative ⟨0, _⟩ => signed negative "0"
  | .finite negative magnitude =>
      signed negative (String.ofList (layout.magnitude magnitude.shortest))

end Decimal
end Lox

import Lox.Decimal.Layout

/-!
# Numbers of the language

All numbers are doubles.  They are read from decimals, printed as the shortest decimal that reads
back, and written in trees as exact integers where they are integers.
-/

namespace Lox
namespace Number

/--
Printed numbers are positional from one ten-thousandth up to sixteen digits before the point, and
an exponent has at least two digits.
-/
def layout : Decimal.Layout where
  positionalFrom := -4
  positionalBelow := 16
  exponentWidth := 2
  notANumber := "nan"
  infinity := "inf"

/-- The text of a number as `print` shows it. -/
def text (x : Float) : String :=
  layout.text x

/-- The text of a number in a tree: an integer has all its digits and no sign on zero. -/
def treeText (x : Float) : String :=
  match Decimal.Reading.ofFloat x with
  | .finite negative magnitude =>
      match magnitude.toNat? with
      | some n => if negative && n != 0 then "-" ++ toString n else toString n
      | none => text x
  | _ => text x

/-- The value of a row of decimal digits. -/
def digitsValue (digits : List Char) : Nat :=
  digits.foldl (fun value c => 10 * value + (c.toNat - '0'.toNat)) 0

/-- The double nearest to `whole.fraction`, both given by their digits. -/
def ofDigits (whole fraction : List Char) : Float :=
  Float.ofScientific (digitsValue (whole ++ fraction)) true fraction.length

/-- The double nearest to a decimal: digits, and perhaps a point and more digits. -/
def ofDecimal (decimal : List Char) : Float :=
  ofDigits (decimal.takeWhile (· != '.')) ((decimal.dropWhile (· != '.')).drop 1)

end Number
end Lox

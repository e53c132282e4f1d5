import Lox.Value.Basic
import Lox.Value.Fault

/-!
# Operators

Arithmetic is that of doubles, so that no division fails.  Strings can be joined with strings and
with numbers.  An operator token that stands for no operator is a fault of its own.
-/

namespace Lox

/-- Both operands as numbers. -/
def onNumbers (f : Float → Float → Value) (left right : Value) : Except RuntimeFault Value :=
  match left, right with
  | .number x, .number y => .ok (f x y)
  | _, _ => .error .operandsNotNumbers

/-- Adds numbers, and joins texts if an operand is a string. -/
def Value.add : Value → Value → Except RuntimeFault Value
  | .number x, .number y => .ok (.number (x + y))
  | .string a, .string b => .ok (.string (a ++ b))
  | .string a, .number y => .ok (.string (a ++ Number.text y))
  | .number x, .string b => .ok (.string (Number.text x ++ b))
  | _, _ => .error .operandsNotAddable

/-- The value of a unary operator. -/
def Value.unary (operator : Token) (operand : Value) : Except RuntimeFault Value :=
  match operator.kind with
  | .bang => .ok (.boolean (!operand.isTruthy))
  | .minus =>
      match operand with
      | .number x => .ok (.number (-x))
      | _ => .error .operandNotNumber
  | _ => .error (.unsupportedUnary operator.lexeme)

/-- The value of a binary operator. -/
def Value.binary (left : Value) (operator : Token) (right : Value) : Except RuntimeFault Value :=
  match operator.kind with
  | .equalEqual => .ok (.boolean (left.equal right))
  | .bangEqual => .ok (.boolean (!left.equal right))
  | .plus => left.add right
  | .minus => onNumbers (fun x y => .number (x - y)) left right
  | .star => onNumbers (fun x y => .number (x * y)) left right
  | .slash => onNumbers (fun x y => .number (x / y)) left right
  | .greater => onNumbers (fun x y => .boolean (decide (y < x))) left right
  | .greaterEqual => onNumbers (fun x y => .boolean (decide (y ≤ x))) left right
  | .less => onNumbers (fun x y => .boolean (decide (x < y))) left right
  | .lessEqual => onNumbers (fun x y => .boolean (decide (x ≤ y))) left right
  | _ => .error (.unsupportedBinary operator.lexeme)

/--
A logical operator ends with its left operand if that decides the result.  Every operator but `or`
acts as `and`.
-/
def Value.decides (left : Value) (operator : Token) : Bool :=
  if operator.kind == .orWord then left.isTruthy else !left.isTruthy

end Lox

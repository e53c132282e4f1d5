import Lox.Tree.Parse.Basic

/-!
# Parsing expressions

The binary operators form levels of precedence, given as data from the loosest to the tightest.
Operators of one level associate to the left.  Below the levels stand unary operators, and below
them chains of calls and properties on a primary expression; above them stands assignment, which
associates to the right.

**Nesting.**  Expressions nest through assignment, unary operators, parentheses and arguments.
Each of these steps uses one unit of an allowance, and a parser without allowance gives up.
-/

namespace Lox

/-- Operators of one precedence and the node they build. -/
structure OperatorLevel where
  operators : List TokenKind
  node : Expr → Token → Expr → Expr

/-- The levels of precedence, the loosest first. -/
def operatorLevels : List OperatorLevel :=
  [⟨[.orWord], .logical⟩,
    ⟨[.andWord], .logical⟩,
    ⟨[.bangEqual, .equalEqual], .binary⟩,
    ⟨[.greater, .greaterEqual, .less, .lessEqual], .binary⟩,
    ⟨[.minus, .plus], .binary⟩,
    ⟨[.slash, .star], .binary⟩]

namespace Parser

/-- Continues an expression with operators of one level as long as they follow. -/
def chainOnto
    (level : OperatorLevel) (operand : Parser Expr) : List Token → Expr → Parser Expr
  | [], left => pure left
  | _ :: bound, left => do
      match ← accept level.operators with
      | some operator => do
          let right ← operand
          chainOnto level operand bound (level.node left operator right)
      | none => pure left

/-- Operands joined by operators of the given levels. -/
def joined : List OperatorLevel → Parser Expr → Parser Expr
  | [], operand => operand
  | level :: tighter, operand => do
      let left ← joined tighter operand
      bounded fun bound => chainOnto level (joined tighter operand) bound left

/-- The expressions that a single token opens. -/
def primary (expression : Parser Expr) : Parser Expr := do
  match ← peek with
  | none => fail .expression
  | some t =>
      match t.kind with
      | .falseWord => do advance; pure (.literal (.boolean false))
      | .trueWord => do advance; pure (.literal (.boolean true))
      | .nilWord => do advance; pure (.literal .nil)
      | .number => do advance; pure (.literal t.literal)
      | .string => do advance; pure (.literal t.literal)
      | .superWord => do
          advance
          let _ ← expect .dot .superDot
          let method ← expect .identifier .superMethod
          pure (.super t method .unresolved)
      | .thisWord => do advance; pure (.this t .unresolved)
      | .identifier => do advance; pure (.read ⟨t, .unresolved⟩)
      | .leftParen => do
          advance
          let inner ← expression
          let _ ← expect .rightParen .groupingEnd
          pure (.grouping inner)
      | _ => fail .expression

/-- Continues an expression with calls and properties as long as they follow. -/
def postfixOnto (expression : Parser Expr) : List Token → Expr → Parser Expr
  | [], object => pure object
  | _ :: bound, object => do
      match ← accept [.leftParen, .dot] with
      | none => pure object
      | some t =>
          if t.kind == .leftParen then do
            let arguments ← inParentheses .tooManyArguments expression
            let closing ← expect .rightParen .argumentListEnd
            postfixOnto expression bound (.call object closing arguments)
          else do
            let name ← expect .identifier .propertyName
            postfixOnto expression bound (.get object name)

/-- A primary expression with the calls and properties that follow it. -/
def postfixed (expression : Parser Expr) : Parser Expr := do
  let object ← primary expression
  bounded fun bound => postfixOnto expression bound object

/--
An assignment or the expression that stands in its place.  An invalid target is reported at the
equals sign, and the target alone is kept.
-/
def assignment (operand value : Parser Expr) : Parser Expr := do
  let target ← joined operatorLevels operand
  match ← accept [.equal] with
  | none => pure target
  | some equals => do
      let value ← value
      match target.assignment? value with
      | some result => pure result
      | none => do
          report .invalidTarget (some equals)
          pure target

mutual

/-- An expression, with an allowance for nesting. -/
def expression : Nat → Parser Expr
  | 0 => tooDeep
  | allowance + 1 => assignment (unary allowance) (expression allowance)

/-- An operand of the binary operators, with an allowance for nesting. -/
def unary : Nat → Parser Expr
  | 0 => tooDeep
  | allowance + 1 => do
      match ← accept [.bang, .minus] with
      | some operator => do
          let operand ← unary allowance
          pure (.unary operator operand)
      | none => postfixed (expression allowance)

end

end Parser
end Lox

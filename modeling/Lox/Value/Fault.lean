/-!
# Runtime faults

What can go wrong while a program runs, and the words for it.  An error is a fault together with
the line of the token at fault, if there is one.
-/

namespace Lox

inductive RuntimeFault
  | undefinedVariable (name : String)
  | assignmentToConstant
  | notCallable
  | wrongArgumentCount (expected given : Nat)
  | superclassNotClass
  | undefinedProperty (name : String)
  | propertyOfNonInstance
  | fieldOfNonInstance
  | operandNotNumber
  | operandsNotNumbers
  | operandsNotAddable
  | unsupportedUnary (operator : String)
  | unsupportedBinary (operator : String)
  | superWithoutClass
  | thisNotInstance
  | stackOverflow
  deriving DecidableEq, Repr

def RuntimeFault.message : RuntimeFault → String
  | .undefinedVariable name => "Undefined variable '" ++ name ++ "'."
  | .assignmentToConstant => "You cannot assign a value to a constant."
  | .notCallable => "Can only call functions and classes."
  | .wrongArgumentCount expected given =>
      "Expected " ++ toString expected ++ " arguments but got " ++ toString given ++ "."
  | .superclassNotClass => "Superclass must be a class."
  | .undefinedProperty name => "Undefined property '" ++ name ++ "'."
  | .propertyOfNonInstance => "Only instances have properties."
  | .fieldOfNonInstance => "Only instances have fields."
  | .operandNotNumber => "Operand must be a number."
  | .operandsNotNumbers => "Operands must be numbers."
  | .operandsNotAddable => "Operands must be numbers or strings."
  | .unsupportedUnary operator => "Unsupported unary operator '" ++ operator ++ "'."
  | .unsupportedBinary operator => "Unsupported binary operator '" ++ operator ++ "'."
  | .superWithoutClass => "Can't use 'super' outside of a subclass method."
  | .thisNotInstance => "'this' is not an instance."
  | .stackOverflow => "Stack overflow."

structure RuntimeError where
  fault : RuntimeFault
  line : Option Int
  deriving DecidableEq, Repr

/-- An error in one line of text. -/
def RuntimeError.text (e : RuntimeError) : String :=
  match e.line with
  | some line => e.fault.message ++ " (line " ++ toString line ++ ")"
  | none => e.fault.message

end Lox

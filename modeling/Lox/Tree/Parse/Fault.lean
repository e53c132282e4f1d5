import Lox.Diagnostic

/-!
# What a parse can report

A fault is found at a token or at the end of the text.  Most faults say what was expected there.
-/

namespace Lox

/-- Functions and methods are declared alike but named apart in messages. -/
inductive RoutineSort
  | function
  | method
  deriving DecidableEq, Repr

def RoutineSort.text : RoutineSort → String
  | .function => "function"
  | .method => "method"

/-- The things that can be missing. -/
inductive Expectation
  | className
  | superclassName
  | classBody
  | classEnd
  | routineName (sort : RoutineSort)
  | parameterList (sort : RoutineSort)
  | parameterName
  | parameterListEnd
  | routineBody (sort : RoutineSort)
  | variableName
  | variableEnd
  | constantName
  | constantEnd
  | forClauses
  | forConditionEnd
  | forClausesEnd
  | ifCondition
  | ifConditionEnd
  | printEnd
  | returnEnd
  | whileCondition
  | whileConditionEnd
  | blockEnd
  | expressionEnd
  | propertyName
  | argumentListEnd
  | superDot
  | superMethod
  | groupingEnd
  | expression
  deriving DecidableEq, Repr

def Expectation.text : Expectation → String
  | .className => "class name"
  | .superclassName => "superclass name"
  | .classBody => "'\x7b' before class body"
  | .classEnd => "'\x7d' after class body"
  | .routineName sort => sort.text ++ " name"
  | .parameterList sort => "'(' after " ++ sort.text ++ " name"
  | .parameterName => "parameter name"
  | .parameterListEnd => "')' after parameters"
  | .routineBody sort => "'\x7b' before " ++ sort.text ++ " body"
  | .variableName => "variable name"
  | .variableEnd => "';' after variable declaration"
  | .constantName => "constant name"
  | .constantEnd => "';' after constant declaration"
  | .forClauses => "'(' after 'for'"
  | .forConditionEnd => "';' after loop condition"
  | .forClausesEnd => "')' after for clauses"
  | .ifCondition => "'(' after 'if'"
  | .ifConditionEnd => "')' after if condition"
  | .printEnd => "';' after value"
  | .returnEnd => "';' after return value"
  | .whileCondition => "'(' after 'while'"
  | .whileConditionEnd => "')' after condition"
  | .blockEnd => "'\x7d' after block"
  | .expressionEnd => "';' after expression"
  | .propertyName => "property name after '.'"
  | .argumentListEnd => "')' after arguments"
  | .superDot => "'.' after 'super'"
  | .superMethod => "superclass method name"
  | .groupingEnd => "')' after expression"
  | .expression => "expression"

inductive ParseFault
  | expected (missing : Expectation)
  | invalidTarget
  | tooManyParameters
  | tooManyArguments
  | nestingTooDeep
  deriving DecidableEq, Repr

/-- The report that a program is nested too deeply to be handled. -/
def nestingTooDeepMessage : String := "Expression nesting too deep."

/-- A parser reports it and goes on, since nothing is missing. -/
def ParseFault.isMinor : ParseFault → Bool
  | .invalidTarget | .tooManyParameters | .tooManyArguments => true
  | .expected _ | .nestingTooDeep => false

def ParseFault.message : ParseFault → String
  | .expected missing => "Expect " ++ missing.text ++ "."
  | .invalidTarget => "Invalid assignment target."
  | .tooManyParameters => "Can't have more than 255 parameters."
  | .tooManyArguments => "Can't have more than 255 arguments."
  | .nestingTooDeep => nestingTooDeepMessage

/-- A fault and the token where it was found; no token stands for the end of the text. -/
structure ParseError where
  fault : ParseFault
  found : Option Token
  deriving DecidableEq, Repr

def ParseError.diagnostic (endLine : Int) (e : ParseError) : Diagnostic :=
  .located endLine e.fault.message e.found

end Lox

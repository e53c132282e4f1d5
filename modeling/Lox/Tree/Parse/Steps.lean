import Lox.Tree.Parse.Stmt

/-!
# Parsers of any kind

The parsers are made of a few steps: they look at the next token, take it, report a fault, give up
or repeat.  Here they are written for every monad that has such steps, so that a parser can be
compared with one that keeps track of more.  How a declaration recovers from an error is left open
too.

**Main definitions.**
* `Steps`: the steps.
* `Steps.program`, `Steps.declaration`, `Steps.expression`: the parsers.
* `Steps.strictly`: the way of a parser that does not recover.
-/

namespace Lox

/-- The steps that parsers are made of. -/
class Steps (m : Type → Type) [Monad m] where
  /-- The next token is of one of the kinds. -/
  check : List TokenKind → m Bool
  /-- Takes the next token if it is of one of the kinds. -/
  accept : List TokenKind → m (Option Token)
  /-- Reports a fault at the next token and goes on. -/
  reportNext : ParseFault → m Unit
  /-- Reports that something is missing at the next token, and gives up. -/
  fail {α : Type} : Expectation → m α
  /-- Gives up because the nesting is too deep. -/
  tooDeep {α : Type} : m α
  /--
  What a parser yields behind a token of the given kind, if that token is there.  If it is of no
  use, a fault is reported at the token.
  -/
  behind {α β : Type} :
    TokenKind → m α → (α → Option β) → ParseFault → m (Option (Option β))
  /-- The items up to a closing token or the end. -/
  upTo {α : Type} : List TokenKind → m (Option α) → m (List α)
  /-- Changes a value as long as a token of one of the kinds follows. -/
  repeating {α : Type} : List TokenKind → (Token → α → m α) → α → m α

namespace Steps

variable {m : Type → Type} [Monad m] [Steps m] {α : Type}

/-- Takes a token of the given kind, or fails. -/
def expect (kind : TokenKind) (missing : Expectation) : m Token := do
  match ← accept [kind] with
  | some t => pure t
  | none => fail missing

/-- The items between two parentheses, of which the opening one is already taken. -/
def inParentheses (excess : ParseFault) (item : m α) : m (List α) := do
  if ← check [.rightParen] then
    pure []
  else
    let first ← item
    let found ← repeating [.comma] (fun _ found => do
      if mostArguments ≤ found.length then
        reportNext excess
      let x ← item
      pure (x :: found)) [first]
    pure found.reverse

/-- Operands joined by operators of the given levels. -/
def joined : List OperatorLevel → m Expr → m Expr
  | [], operand => operand
  | level :: tighter, operand => do
      let left ← joined tighter operand
      repeating level.operators
        (fun operator left => level.node left operator <$> joined tighter operand) left

/-- The kinds of tokens that open a primary expression. -/
def primaryStarts : List TokenKind :=
  [.falseWord, .trueWord, .nilWord, .number, .string, .superWord, .thisWord, .identifier,
    .leftParen]

/-- The expressions that a single token opens. -/
def primary (expression : m Expr) : m Expr := do
  match ← accept primaryStarts with
  | none => fail .expression
  | some t =>
      match t.kind with
      | .falseWord => pure (.literal (.boolean false))
      | .trueWord => pure (.literal (.boolean true))
      | .nilWord => pure (.literal .nil)
      | .superWord => do
          let _ ← expect .dot .superDot
          let method ← expect .identifier .superMethod
          pure (.super t method .unresolved)
      | .thisWord => pure (.this t .unresolved)
      | .identifier => pure (.read ⟨t, .unresolved⟩)
      | .leftParen => do
          let inner ← expression
          let _ ← expect .rightParen .groupingEnd
          pure (.grouping inner)
      | _ => pure (.literal t.literal)

/-- A primary expression with the calls and properties that follow it. -/
def postfixed (expression : m Expr) : m Expr := do
  let object ← primary expression
  repeating [.leftParen, .dot] (fun t object =>
    if t.kind == .leftParen then do
      let arguments ← inParentheses .tooManyArguments expression
      let closing ← expect .rightParen .argumentListEnd
      pure (.call object closing arguments)
    else do
      let name ← expect .identifier .propertyName
      pure (.get object name)) object

/-- An assignment or the expression that stands in its place. -/
def assignment (operand value : m Expr) : m Expr := do
  let target ← joined operatorLevels operand
  match ← behind .equal value target.assignment? .invalidTarget with
  | some (some result) => pure result
  | _ => pure target

mutual

/-- An expression, with an allowance for nesting. -/
def expression : Nat → m Expr
  | 0 => tooDeep
  | allowance + 1 => assignment (unary allowance) (expression allowance)

/-- An operand of the binary operators, with an allowance for nesting. -/
def unary : Nat → m Expr
  | 0 => tooDeep
  | allowance + 1 => do
      match ← accept [.bang, .minus] with
      | some operator => do
          let operand ← unary allowance
          pure (.unary operator operand)
      | none => postfixed (expression allowance)

end

/-- The names between the parentheses of a function. -/
def parameters : m (List Token) :=
  inParentheses .tooManyParameters (expect .identifier .parameterName)

/-- Declarations up to the closing brace of a block, which is taken too. -/
def blockBody (declaration : m (Option Stmt)) : m (List Stmt) := do
  let body ← upTo [.rightBrace] declaration
  let _ ← expect .rightBrace .blockEnd
  pure body

/-- A function or method from its name on. -/
def routine (sort : RoutineSort) (declaration : m (Option Stmt)) : m FunctionDecl := do
  let name ← expect .identifier (.routineName sort)
  let _ ← expect .leftParen (.parameterList sort)
  let names ← parameters
  let _ ← expect .rightParen .parameterListEnd
  let _ ← expect .leftBrace (.routineBody sort)
  let body ← blockBody declaration
  pure ⟨name, names, body⟩

/-- The superclass that follows a class name, if one does. -/
def superclass : m (Option Expr) := do
  match ← accept [.less] with
  | none => pure none
  | some _ => do
      let name ← expect .identifier .superclassName
      pure (some (.read ⟨name, .unresolved⟩))

/-- A class from its name on. -/
def classDeclaration (declaration : m (Option Stmt)) : m Stmt := do
  let name ← expect .identifier .className
  let parent ← superclass
  let _ ← expect .leftBrace .classBody
  let methods ← upTo [.rightBrace] (some <$> routine .method declaration)
  let _ ← expect .rightBrace .classEnd
  pure (.classDecl name parent methods)

/-- The initializer that follows the name of a variable or constant, if one does. -/
def initializer (expression : m Expr) : m (Option Expr) := do
  match ← accept [.equal] with
  | none => pure none
  | some _ => some <$> expression

/-- A variable from its name on. -/
def variableDeclaration (expression : m Expr) : m Stmt := do
  let name ← expect .identifier .variableName
  let value ← initializer expression
  let _ ← expect .semicolon .variableEnd
  pure (.varDecl name value)

/-- A constant from its name on. -/
def constantDeclaration (expression : m Expr) : m Stmt := do
  let name ← expect .identifier .constantName
  let value ← initializer expression
  let _ ← expect .semicolon .constantEnd
  pure (.constDecl name value)

def expressionStatement (expression : m Expr) : m Stmt := do
  let value ← expression
  let _ ← expect .semicolon .expressionEnd
  pure (.exprStmt value)

/-- An expression that is absent if the given token follows at once. -/
def unlessAt (closing : TokenKind) (expression : m Expr) : m (Option Expr) := do
  if ← check [closing] then
    pure none
  else
    some <$> expression

/-- The first clause of a `for` loop. -/
def forInitializer (expression : m Expr) : m (Option Stmt) := do
  match ← accept [.semicolon, .varWord] with
  | none => some <$> expressionStatement expression
  | some t =>
      if t.kind == .semicolon then
        pure none
      else
        some <$> variableDeclaration expression

/-- A `for` loop from its clauses on. -/
def forStatement (expression : m Expr) (statement : m Stmt) : m Stmt := do
  let _ ← expect .leftParen .forClauses
  let first ← forInitializer expression
  let condition ← unlessAt .semicolon expression
  let _ ← expect .semicolon .forConditionEnd
  let increment ← unlessAt .rightParen expression
  let _ ← expect .rightParen .forClausesEnd
  let body ← statement
  pure (.forLoop first condition increment body)

/-- A conditional from its condition on. -/
def ifStatement (expression : m Expr) (statement : m Stmt) : m Stmt := do
  let _ ← expect .leftParen .ifCondition
  let condition ← expression
  let _ ← expect .rightParen .ifConditionEnd
  let thenBranch ← statement
  match ← accept [.elseWord] with
  | none => pure (.ifStmt condition thenBranch none)
  | some _ => do
      let elseBranch ← statement
      pure (.ifStmt condition thenBranch (some elseBranch))

def printStatement (expression : m Expr) : m Stmt := do
  let value ← expression
  let _ ← expect .semicolon .printEnd
  pure (.printStmt value)

def returnStatement (keyword : Token) (expression : m Expr) : m Stmt := do
  let value ← unlessAt .semicolon expression
  let _ ← expect .semicolon .returnEnd
  pure (.returnStmt keyword value)

def whileStatement (expression : m Expr) (statement : m Stmt) : m Stmt := do
  let _ ← expect .leftParen .whileCondition
  let condition ← expression
  let _ ← expect .rightParen .whileConditionEnd
  let body ← statement
  pure (.whileStmt condition body)

/-- A statement, chosen by its first token. -/
def statementOf
    (expression : m Expr)
    (statement : m Stmt)
    (declaration : m (Option Stmt)) : m Stmt := do
  match ← accept [.forWord, .ifWord, .printWord, .returnWord, .whileWord, .leftBrace] with
  | none => expressionStatement expression
  | some t =>
      match t.kind with
      | .forWord => forStatement expression statement
      | .ifWord => ifStatement expression statement
      | .printWord => printStatement expression
      | .returnWord => returnStatement t expression
      | .whileWord => whileStatement expression statement
      | _ => .block <$> blockBody declaration

/-- A declaration or statement, chosen by its first token. -/
def declarationOf
    (expression : m Expr)
    (statement : m Stmt)
    (declaration : m (Option Stmt)) : m Stmt := do
  match ← accept [.classWord, .funWord, .constWord, .varWord] with
  | none => statement
  | some t =>
      match t.kind with
      | .classWord => classDeclaration declaration
      | .funWord => .funDecl <$> routine .function declaration
      | .constWord => constantDeclaration expression
      | _ => variableDeclaration expression

section Recovery

variable (recover : m Stmt → m (Option Stmt))

mutual

/-- A declaration, with an allowance for nesting; `none` after an error. -/
def declaration : Nat → m (Option Stmt)
  | 0 => tooDeep
  | allowance + 1 =>
      recover
        (declarationOf (expression allowance) (statement allowance) (declaration allowance))

/-- A statement, with an allowance for nesting. -/
def statement : Nat → m Stmt
  | 0 => tooDeep
  | allowance + 1 =>
      statementOf (expression allowance) (statement allowance) (declaration allowance)

end

/-- All declarations up to the end. -/
def program (allowance : Nat) : m (List Stmt) :=
  upTo [] (declaration recover allowance)

end Recovery

/-- An error is not recovered from, so that the first one ends the parse. -/
def strictly (statement : m Stmt) : m (Option Stmt) :=
  some <$> statement

end Steps

namespace Parser

variable {α : Type}

/-- Repeats a step as long as a token of one of the kinds follows. -/
def repeatOnto (kinds : List TokenKind) (step : Token → α → Parser α) :
    List Token → α → Parser α
  | [], v => pure v
  | _ :: bound, v => do
      match ← accept kinds with
      | none => pure v
      | some t => do
          let next ← step t v
          repeatOnto kinds step bound next

/-- What a parser yields behind a token; if it is of no use, that is a fault at the token. -/
def behind {β : Type} (kind : TokenKind) (x : Parser α) (use : α → Option β) (fault : ParseFault) :
    Parser (Option (Option β)) := do
  match ← accept [kind] with
  | none => pure none
  | some t => do
      let a ← x
      match use a with
      | some b => pure (some (some b))
      | none => do
          report fault (some t)
          pure (some none)

instance : Steps Parser where
  check := check
  accept := accept
  reportNext fault := do report fault (← peek)
  fail := fail
  tooDeep := tooDeep
  behind := behind
  upTo := upTo
  repeating kinds step v := bounded fun bound => repeatOnto kinds step bound v

end Parser
end Lox

import Lox.Tree.Parse.Expr

/-!
# Parsing statements

Declarations may stand at the top, in blocks and in bodies; the branches of a conditional and the
body of a loop are statements proper.  A declaration that cannot be parsed is dropped, and parsing
goes on behind it.

**Main definitions.**
* `Parse.within`: parses a list of tokens with an allowance for nesting.
* `Parse.ofTokens`: parses a list of tokens of any nesting, since no list nests deeper than twice
  its length.
-/

namespace Lox
namespace Parser

/-- The names between the parentheses of a function. -/
def parameters : Parser (List Token) :=
  inParentheses .tooManyParameters (expect .identifier .parameterName)

/-- Declarations up to the closing brace of a block, which is taken too. -/
def blockBody (declaration : Parser (Option Stmt)) : Parser (List Stmt) := do
  let body ← upTo [.rightBrace] declaration
  let _ ← expect .rightBrace .blockEnd
  pure body

/-- A function or method from its name on. -/
def routine (sort : RoutineSort) (declaration : Parser (Option Stmt)) : Parser FunctionDecl := do
  let name ← expect .identifier (.routineName sort)
  let _ ← expect .leftParen (.parameterList sort)
  let names ← parameters
  let _ ← expect .rightParen .parameterListEnd
  let _ ← expect .leftBrace (.routineBody sort)
  let body ← blockBody declaration
  pure ⟨name, names, body⟩

/-- The superclass that follows a class name, if one does. -/
def superclass : Parser (Option Expr) := do
  match ← accept [.less] with
  | none => pure none
  | some _ => do
      let name ← expect .identifier .superclassName
      pure (some (.read ⟨name, .unresolved⟩))

/-- A class from its name on. -/
def classDeclaration (declaration : Parser (Option Stmt)) : Parser Stmt := do
  let name ← expect .identifier .className
  let parent ← superclass
  let _ ← expect .leftBrace .classBody
  let methods ← upTo [.rightBrace] (some <$> routine .method declaration)
  let _ ← expect .rightBrace .classEnd
  pure (.classDecl name parent methods)

/-- The initializer that follows the name of a variable or constant, if one does. -/
def initializer (expression : Parser Expr) : Parser (Option Expr) := do
  match ← accept [.equal] with
  | none => pure none
  | some _ => some <$> expression

/-- A variable from its name on. -/
def variableDeclaration (expression : Parser Expr) : Parser Stmt := do
  let name ← expect .identifier .variableName
  let value ← initializer expression
  let _ ← expect .semicolon .variableEnd
  pure (.varDecl name value)

/-- A constant from its name on; that it has a value is checked with the scopes. -/
def constantDeclaration (expression : Parser Expr) : Parser Stmt := do
  let name ← expect .identifier .constantName
  let value ← initializer expression
  let _ ← expect .semicolon .constantEnd
  pure (.constDecl name value)

def expressionStatement (expression : Parser Expr) : Parser Stmt := do
  let value ← expression
  let _ ← expect .semicolon .expressionEnd
  pure (.exprStmt value)

/-- An expression that is absent if the given token follows at once. -/
def unlessAt (closing : TokenKind) (expression : Parser Expr) : Parser (Option Expr) := do
  if ← check [closing] then
    pure none
  else
    some <$> expression

/-- The first clause of a `for` loop. -/
def forInitializer (expression : Parser Expr) : Parser (Option Stmt) := do
  match ← accept [.semicolon, .varWord] with
  | none => some <$> expressionStatement expression
  | some t =>
      if t.kind == .semicolon then
        pure none
      else
        some <$> variableDeclaration expression

/-- A `for` loop from its clauses on. -/
def forStatement (expression : Parser Expr) (statement : Parser Stmt) : Parser Stmt := do
  let _ ← expect .leftParen .forClauses
  let first ← forInitializer expression
  let condition ← unlessAt .semicolon expression
  let _ ← expect .semicolon .forConditionEnd
  let increment ← unlessAt .rightParen expression
  let _ ← expect .rightParen .forClausesEnd
  let body ← statement
  pure (.forLoop first condition increment body)

/-- A conditional from its condition on.  An `else` belongs to the nearest conditional. -/
def ifStatement (expression : Parser Expr) (statement : Parser Stmt) : Parser Stmt := do
  let _ ← expect .leftParen .ifCondition
  let condition ← expression
  let _ ← expect .rightParen .ifConditionEnd
  let thenBranch ← statement
  match ← accept [.elseWord] with
  | none => pure (.ifStmt condition thenBranch none)
  | some _ => do
      let elseBranch ← statement
      pure (.ifStmt condition thenBranch (some elseBranch))

def printStatement (expression : Parser Expr) : Parser Stmt := do
  let value ← expression
  let _ ← expect .semicolon .printEnd
  pure (.printStmt value)

def returnStatement (keyword : Token) (expression : Parser Expr) : Parser Stmt := do
  let value ← unlessAt .semicolon expression
  let _ ← expect .semicolon .returnEnd
  pure (.returnStmt keyword value)

def whileStatement (expression : Parser Expr) (statement : Parser Stmt) : Parser Stmt := do
  let _ ← expect .leftParen .whileCondition
  let condition ← expression
  let _ ← expect .rightParen .whileConditionEnd
  let body ← statement
  pure (.whileStmt condition body)

/-- A statement, chosen by its first token. -/
def statementOf
    (expression : Parser Expr)
    (statement : Parser Stmt)
    (declaration : Parser (Option Stmt)) : Parser Stmt := do
  match ← accept [.forWord, .ifWord, .printWord, .returnWord, .whileWord, .leftBrace] with
  | none => expressionStatement expression
  | some t =>
      match t.kind with
      | .forWord => forStatement expression statement
      | .ifWord => ifStatement expression statement
      | .printWord => printStatement expression
      | .returnWord => returnStatement t expression
      | .whileWord => whileStatement expression statement
      | _ => .block <$> blockBody declaration

/-- A declaration or statement, chosen by its first token. -/
def declarationOf
    (expression : Parser Expr)
    (statement : Parser Stmt)
    (declaration : Parser (Option Stmt)) : Parser Stmt := do
  match ← accept [.classWord, .funWord, .constWord, .varWord] with
  | none => statement
  | some t =>
      match t.kind with
      | .classWord => classDeclaration declaration
      | .funWord => .funDecl <$> routine .function declaration
      | .constWord => constantDeclaration expression
      | _ => variableDeclaration expression

mutual

/-- A declaration, with an allowance for nesting; `none` after an error. -/
def declaration : Nat → Parser (Option Stmt)
  | 0 => tooDeep
  | allowance + 1 =>
      recovering
        (declarationOf (expression allowance) (statement allowance) (declaration allowance))

/-- A statement, with an allowance for nesting. -/
def statement : Nat → Parser Stmt
  | 0 => tooDeep
  | allowance + 1 =>
      statementOf (expression allowance) (statement allowance) (declaration allowance)

end

/-- All declarations up to the end. -/
def program (allowance : Nat) : Parser (List Stmt) :=
  upTo [] (declaration allowance)

end Parser

/-- What a parse finds: the statements that could be parsed, and the errors in order. -/
structure Parse where
  statements : List Stmt
  errors : List ParseError

/--
Parses a list of tokens.  If the nesting uses up the allowance, that is the last error, and there
are no statements.
-/
def Parse.within (allowance : Nat) (tokens : List Token) : Parse :=
  match Parser.program allowance ⟨tokens, []⟩ with
  | .ok statements s => ⟨statements, s.errors.reverse⟩
  | .error _ s => ⟨[], (⟨.nestingTooDeep, s.ahead.head?⟩ :: s.errors).reverse⟩

/-- Parses a list of tokens of any nesting. -/
def Parse.ofTokens (tokens : List Token) : Parse :=
  Parse.within (2 * tokens.length + 4) tokens

end Lox

import Lox.Token.Basic

/-!
# The grammar

The rules of the language in plain form.  Repetitions are left-recursive categories of their own,
and so are optional parts.  Precedence and associativity are in the rules; the only choice that they
leave open is the conditional to which an `else` belongs, and it belongs to the nearest one.
-/

namespace Lox
namespace Grammar

inductive Category
  | program
  | declarations
  | declaration
  | classDecl
  | parent
  | methods
  | funDecl
  | routine
  | parameterList
  | parameters
  | constDecl
  | varDecl
  | initializer
  | statement
  | exprStmt
  | forStmt
  | forFirst
  | optionalExpression
  | ifStmt
  | printStmt
  | returnStmt
  | whileStmt
  | block
  | expression
  | assignment
  | logicOr
  | logicAnd
  | equality
  | comparison
  | term
  | factor
  | unary
  | call
  | argumentList
  | arguments
  | primary
  deriving DecidableEq, Repr

inductive Symbol
  | terminal (kind : TokenKind)
  | category (c : Category)
  deriving DecidableEq, Repr

/-- What a rule means for the tree. -/
inductive Meaning
  /-- The tree of the only part. -/
  | same
  | noStatements
  | moreStatements
  | classDecl
  | noParent
  | parent
  | noMethods
  | moreMethods
  | funDecl
  | routine
  | noNames
  | oneName
  | moreNames
  | constDecl
  | varDecl
  | noExpression
  | anExpression
  | initializer
  | exprStmt
  | forStmt
  | noFirst
  | first
  | ifStmt
  | ifElseStmt
  | printStmt
  | returnStmt
  | whileStmt
  | block
  | assign
  | logical
  | binary
  | unary
  | call
  | noArguments
  | oneArgument
  | moreArguments
  | get
  | constant
  | this
  | super
  | read
  | grouping
  deriving DecidableEq, Repr

structure Rule where
  category : Category
  meaning : Meaning
  symbols : List Symbol
  deriving DecidableEq, Repr

/-- Rules that only pass on one of several categories. -/
def alternatives (c : Category) (choices : List Category) : List Rule :=
  choices.map fun choice => ⟨c, .same, [.category choice]⟩

/-- The rules of a level of binary operators that associate to the left. -/
def binaryLevel
    (c tighter : Category) (meaning : Meaning) (operators : List TokenKind) : List Rule :=
  alternatives c [tighter]
    ++ operators.map fun operator =>
      ⟨c, meaning, [.category c, .terminal operator, .category tighter]⟩

/-- The rules of declarations. -/
def declarationRules : List Rule :=
  [⟨.program, .same, [.category .declarations]⟩,
    ⟨.declarations, .noStatements, []⟩,
    ⟨.declarations, .moreStatements, [.category .declarations, .category .declaration]⟩]
    ++ alternatives .declaration [.classDecl, .funDecl, .constDecl, .varDecl, .statement]
    ++ [⟨.classDecl, .classDecl,
        [.terminal .classWord, .terminal .identifier, .category .parent, .terminal .leftBrace,
          .category .methods, .terminal .rightBrace]⟩,
      ⟨.parent, .noParent, []⟩,
      ⟨.parent, .parent, [.terminal .less, .terminal .identifier]⟩,
      ⟨.methods, .noMethods, []⟩,
      ⟨.methods, .moreMethods, [.category .methods, .category .routine]⟩,
      ⟨.funDecl, .funDecl, [.terminal .funWord, .category .routine]⟩,
      ⟨.routine, .routine,
        [.terminal .identifier, .terminal .leftParen, .category .parameterList,
          .terminal .rightParen, .terminal .leftBrace, .category .declarations,
          .terminal .rightBrace]⟩,
      ⟨.parameterList, .noNames, []⟩,
      ⟨.parameterList, .same, [.category .parameters]⟩,
      ⟨.parameters, .oneName, [.terminal .identifier]⟩,
      ⟨.parameters, .moreNames,
        [.category .parameters, .terminal .comma, .terminal .identifier]⟩,
      ⟨.constDecl, .constDecl,
        [.terminal .constWord, .terminal .identifier, .category .initializer,
          .terminal .semicolon]⟩,
      ⟨.varDecl, .varDecl,
        [.terminal .varWord, .terminal .identifier, .category .initializer,
          .terminal .semicolon]⟩,
      ⟨.initializer, .noExpression, []⟩,
      ⟨.initializer, .initializer, [.terminal .equal, .category .expression]⟩]

/-- The rules of statements. -/
def statementRules : List Rule :=
  alternatives .statement
      [.exprStmt, .forStmt, .ifStmt, .printStmt, .returnStmt, .whileStmt, .block]
    ++ [⟨.exprStmt, .exprStmt, [.category .expression, .terminal .semicolon]⟩,
      ⟨.forStmt, .forStmt,
        [.terminal .forWord, .terminal .leftParen, .category .forFirst,
          .category .optionalExpression, .terminal .semicolon, .category .optionalExpression,
          .terminal .rightParen, .category .statement]⟩,
      ⟨.forFirst, .first, [.category .varDecl]⟩,
      ⟨.forFirst, .first, [.category .exprStmt]⟩,
      ⟨.forFirst, .noFirst, [.terminal .semicolon]⟩,
      ⟨.optionalExpression, .noExpression, []⟩,
      ⟨.optionalExpression, .anExpression, [.category .expression]⟩,
      ⟨.ifStmt, .ifStmt,
        [.terminal .ifWord, .terminal .leftParen, .category .expression, .terminal .rightParen,
          .category .statement]⟩,
      ⟨.ifStmt, .ifElseStmt,
        [.terminal .ifWord, .terminal .leftParen, .category .expression, .terminal .rightParen,
          .category .statement, .terminal .elseWord, .category .statement]⟩,
      ⟨.printStmt, .printStmt,
        [.terminal .printWord, .category .expression, .terminal .semicolon]⟩,
      ⟨.returnStmt, .returnStmt,
        [.terminal .returnWord, .category .optionalExpression, .terminal .semicolon]⟩,
      ⟨.whileStmt, .whileStmt,
        [.terminal .whileWord, .terminal .leftParen, .category .expression,
          .terminal .rightParen, .category .statement]⟩,
      ⟨.block, .block,
        [.terminal .leftBrace, .category .declarations, .terminal .rightBrace]⟩]

/-- The rules of expressions. -/
def expressionRules : List Rule :=
  alternatives .expression [.assignment]
    ++ [⟨.assignment, .assign,
        [.category .logicOr, .terminal .equal, .category .assignment]⟩]
    ++ alternatives .assignment [.logicOr]
    ++ binaryLevel .logicOr .logicAnd .logical [.orWord]
    ++ binaryLevel .logicAnd .equality .logical [.andWord]
    ++ binaryLevel .equality .comparison .binary [.bangEqual, .equalEqual]
    ++ binaryLevel .comparison .term .binary [.greater, .greaterEqual, .less, .lessEqual]
    ++ binaryLevel .term .factor .binary [.minus, .plus]
    ++ binaryLevel .factor .unary .binary [.slash, .star]
    ++ [⟨.unary, .unary, [.terminal .bang, .category .unary]⟩,
      ⟨.unary, .unary, [.terminal .minus, .category .unary]⟩,
      ⟨.unary, .same, [.category .call]⟩,
      ⟨.call, .same, [.category .primary]⟩,
      ⟨.call, .call,
        [.category .call, .terminal .leftParen, .category .argumentList,
          .terminal .rightParen]⟩,
      ⟨.call, .get, [.category .call, .terminal .dot, .terminal .identifier]⟩,
      ⟨.argumentList, .noArguments, []⟩,
      ⟨.argumentList, .same, [.category .arguments]⟩,
      ⟨.arguments, .oneArgument, [.category .expression]⟩,
      ⟨.arguments, .moreArguments,
        [.category .arguments, .terminal .comma, .category .expression]⟩,
      ⟨.primary, .constant, [.terminal .trueWord]⟩,
      ⟨.primary, .constant, [.terminal .falseWord]⟩,
      ⟨.primary, .constant, [.terminal .nilWord]⟩,
      ⟨.primary, .constant, [.terminal .number]⟩,
      ⟨.primary, .constant, [.terminal .string]⟩,
      ⟨.primary, .this, [.terminal .thisWord]⟩,
      ⟨.primary, .super, [.terminal .superWord, .terminal .dot, .terminal .identifier]⟩,
      ⟨.primary, .read, [.terminal .identifier]⟩,
      ⟨.primary, .grouping,
        [.terminal .leftParen, .category .expression, .terminal .rightParen]⟩]

/-- All rules of the grammar. -/
def rules : List Rule :=
  declarationRules ++ statementRules ++ expressionRules

end Grammar
end Lox

import Lox.Tree.Basic

/-!
# The text of a tree

A tree is written in prefix form with every node in parentheses.  The text shows names, operators
and values but neither lines nor links, so it can be used to compare trees.
-/

namespace Lox

/-- Words with a space between any two. -/
def spaced : List String → String
  | [] => ""
  | [word] => word
  | word :: words => word ++ " " ++ spaced words

/-- Words in parentheses. -/
def parenthesized (words : List String) : String :=
  "(" ++ spaced words ++ ")"

/-- The text of a value in a tree; a string stands in quotes as it was read. -/
def Literal.text : Literal → String
  | .nil => "nil"
  | .boolean true => "true"
  | .boolean false => "false"
  | .number x => Number.treeText x
  | .string s => "\"" ++ s ++ "\""

mutual

def Expr.text : Expr → String
  | .literal value => value.text
  | .grouping inner => parenthesized ["group", inner.text]
  | .unary operator operand => parenthesized [operator.lexeme, operand.text]
  | .binary left operator right => parenthesized [operator.lexeme, left.text, right.text]
  | .logical left operator right => parenthesized [operator.lexeme, left.text, right.text]
  | .read target => target.name.lexeme
  | .readConstant target => target.name.lexeme
  | .assign target value => parenthesized ["=", target.name.lexeme, value.text]
  | .call callee _ arguments => parenthesized ("call" :: callee.text :: Expr.texts arguments)
  | .get object name => parenthesized [".", object.text, name.lexeme]
  | .set object name value => parenthesized [".=", object.text, name.lexeme, value.text]
  | .this _ _ => "this"
  | .super _ method _ => parenthesized ["super", method.lexeme]

def Expr.texts : List Expr → List String
  | [] => []
  | e :: es => e.text :: Expr.texts es

end

/-- The name of a superclass. -/
def superclassText (superclass : Expr) : String :=
  (superclass.name?.map Token.lexeme).getD ""

/-- A declaration with its initializer, if there is one. -/
def declarationText (word : String) (name : Token) (initializer : Option Expr) : String :=
  parenthesized (word :: name.lexeme :: (initializer.map Expr.text).toList)

mutual

def Stmt.text : Stmt → String
  | .block body => parenthesized ("block" :: Stmt.texts body)
  | .funDecl declaration => declaration.text
  | .classDecl name none methods =>
      parenthesized ("class" :: name.lexeme :: FunctionDecl.texts methods)
  | .classDecl name (some superclass) methods =>
      parenthesized
        ("class" :: name.lexeme :: "<" :: superclassText superclass :: FunctionDecl.texts methods)
  | .varDecl name initializer => declarationText "var" name initializer
  | .constDecl name initializer => declarationText "const" name initializer
  | .exprStmt expression => parenthesized [";", expression.text]
  | .ifStmt condition thenBranch none =>
      parenthesized ["if", condition.text, thenBranch.text]
  | .ifStmt condition thenBranch (some elseBranch) =>
      parenthesized ["if", condition.text, thenBranch.text, elseBranch.text]
  | .printStmt expression => parenthesized ["print", expression.text]
  | .returnStmt _ value => parenthesized ("return" :: (value.map Expr.text).toList)
  | .whileStmt condition body => parenthesized ["while", condition.text, body.text]

def Stmt.texts : List Stmt → List String
  | [] => []
  | s :: ss => s.text :: Stmt.texts ss

def FunctionDecl.text : FunctionDecl → String
  | ⟨name, parameters, body⟩ =>
      parenthesized
        ("fun" :: name.lexeme :: ("(" ++ spaced (parameters.map Token.lexeme) ++ ")")
          :: Stmt.texts body)

def FunctionDecl.texts : List FunctionDecl → List String
  | [] => []
  | f :: fs => f.text :: FunctionDecl.texts fs

end

/-- The text of a program: its statements with a space between any two. -/
def programText (program : List Stmt) : String :=
  spaced (Stmt.texts program)

end Lox

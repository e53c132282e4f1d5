import Lox.Grammar.Derivation
import Lox.Tree.Basic

/-!
# The tree of a derivation

Every rule builds a phrase of the tree from the phrases of its parts.  A derivation has no tree if
it assigns to something that cannot be assigned, or if it has too many parameters or arguments.
-/

namespace Lox
namespace Grammar

/-- The parts of a tree that rules build. -/
inductive Phrase
  | token (t : Token)
  | expr (e : Expr)
  | optionalExpr (e : Option Expr)
  | exprs (es : List Expr)
  | names (names : List Token)
  | parent (name : Option Token)
  | stmt (s : Stmt)
  | optionalStmt (s : Option Stmt)
  | stmts (ss : List Stmt)
  | routine (f : FunctionDecl)
  | routines (fs : List FunctionDecl)

/-- The value of a token that stands for one. -/
def constantOf (t : Token) : Literal :=
  match t.kind with
  | .trueWord => .boolean true
  | .falseWord => .boolean false
  | _ => t.literal

/-- A list that is not longer than a call allows. -/
def limited {α : Type} (items : List α) : Option (List α) :=
  if items.length ≤ mostArguments then some items else none

/-- The phrase that a rule builds. -/
def phraseOf : Meaning → List Phrase → Option Phrase
  | .same, [part] => some part
  | .noStatements, [] => some (.stmts [])
  | .moreStatements, [.stmts ss, .stmt s] => some (.stmts (ss ++ [s]))
  | .classDecl, [_, .token name, .parent parent, _, .routines methods, _] =>
      some (.stmt (.classDecl name (parent.map fun p => .read ⟨p, .unresolved⟩) methods))
  | .noParent, [] => some (.parent none)
  | .parent, [_, .token name] => some (.parent (some name))
  | .noMethods, [] => some (.routines [])
  | .moreMethods, [.routines fs, .routine f] => some (.routines (fs ++ [f]))
  | .funDecl, [_, .routine f] => some (.stmt (.funDecl f))
  | .routine, [.token name, _, .names names, _, _, .stmts body, _] =>
      (limited names).map fun names => .routine ⟨name, names, body⟩
  | .noNames, [] => some (.names [])
  | .oneName, [.token name] => some (.names [name])
  | .moreNames, [.names names, _, .token name] => some (.names (names ++ [name]))
  | .constDecl, [_, .token name, .optionalExpr value, _] => some (.stmt (.constDecl name value))
  | .varDecl, [_, .token name, .optionalExpr value, _] => some (.stmt (.varDecl name value))
  | .noExpression, [] => some (.optionalExpr none)
  | .anExpression, [.expr e] => some (.optionalExpr (some e))
  | .initializer, [_, .expr e] => some (.optionalExpr (some e))
  | .exprStmt, [.expr e, _] => some (.stmt (.exprStmt e))
  | .forStmt, [_, _, .optionalStmt first, .optionalExpr condition, _, .optionalExpr increment, _,
      .stmt body] =>
      some (.stmt (.forLoop first condition increment body))
  | .noFirst, [_] => some (.optionalStmt none)
  | .first, [.stmt s] => some (.optionalStmt (some s))
  | .ifStmt, [_, _, .expr condition, _, .stmt s] => some (.stmt (.ifStmt condition s none))
  | .ifElseStmt, [_, _, .expr condition, _, .stmt s, _, .stmt other] =>
      some (.stmt (.ifStmt condition s (some other)))
  | .printStmt, [_, .expr e, _] => some (.stmt (.printStmt e))
  | .returnStmt, [.token keyword, .optionalExpr value, _] =>
      some (.stmt (.returnStmt keyword value))
  | .whileStmt, [_, _, .expr condition, _, .stmt body] =>
      some (.stmt (.whileStmt condition body))
  | .block, [_, .stmts body, _] => some (.stmt (.block body))
  | .assign, [.expr target, _, .expr value] => (target.assignment? value).map Phrase.expr
  | .logical, [.expr left, .token operator, .expr right] =>
      some (.expr (.logical left operator right))
  | .binary, [.expr left, .token operator, .expr right] =>
      some (.expr (.binary left operator right))
  | .unary, [.token operator, .expr operand] => some (.expr (.unary operator operand))
  | .call, [.expr callee, _, .exprs arguments, .token closing] =>
      (limited arguments).map fun arguments => .expr (.call callee closing arguments)
  | .noArguments, [] => some (.exprs [])
  | .oneArgument, [.expr e] => some (.exprs [e])
  | .moreArguments, [.exprs es, _, .expr e] => some (.exprs (es ++ [e]))
  | .get, [.expr object, _, .token name] => some (.expr (.get object name))
  | .constant, [.token t] => some (.expr (.literal (constantOf t)))
  | .this, [.token keyword] => some (.expr (.this keyword .unresolved))
  | .super, [.token keyword, _, .token method] =>
      some (.expr (.super keyword method .unresolved))
  | .read, [.token name] => some (.expr (.read ⟨name, .unresolved⟩))
  | .grouping, [_, .expr e, _] => some (.expr (.grouping e))
  | _, _ => none

mutual

/-- The phrase of a derivation. -/
def Derivation.phrase? : Derivation → Option Phrase
  | .leaf t => some (.token t)
  | .node rule parts => (Derivation.phrases? parts).bind (phraseOf rule.meaning)

def Derivation.phrases? : List Derivation → Option (List Phrase)
  | [] => some []
  | d :: ds => do
      let phrase ← d.phrase?
      let phrases ← Derivation.phrases? ds
      pure (phrase :: phrases)

end

/-- The program of a derivation. -/
def Derivation.program? (d : Derivation) : Option (List Stmt) :=
  match d.phrase? with
  | some (.stmts program) => some program
  | _ => none

end Grammar
end Lox

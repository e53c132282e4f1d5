import Lox.Tree.Basic

/-!
# The links of a program

The references of a program, listed in one of two orders: as they are written, or as scope
resolution comes to them, which looks at the value of a property assignment before the object.

Where some links are given from the start, the history of the links names those first, and then the
links that resolution has added.
-/

namespace Lox

inductive ReferenceSort
  | read
  | readConstant
  | assign
  | this
  | super
  deriving DecidableEq, Repr

/-- A reference, with the token that names it. -/
structure LinkRecord where
  sort : ReferenceSort
  name : Token
  link : Link
  deriving DecidableEq, Repr

inductive ListingOrder
  | written
  | resolved
  deriving DecidableEq, Repr

mutual

/-- The references of an expression; a value comes before the name to which it is assigned. -/
def Expr.references (order : ListingOrder) : Expr → List LinkRecord
  | .literal _ => []
  | .grouping inner => inner.references order
  | .unary _ operand => operand.references order
  | .binary left _ right => left.references order ++ right.references order
  | .logical left _ right => left.references order ++ right.references order
  | .read target => [⟨.read, target.name, target.link⟩]
  | .readConstant target => [⟨.readConstant, target.name, target.link⟩]
  | .assign target value => value.references order ++ [⟨.assign, target.name, target.link⟩]
  | .call callee _ arguments => callee.references order ++ Expr.referencesAll order arguments
  | .get object _ => object.references order
  | .set object _ value =>
      match order with
      | .written => object.references order ++ value.references order
      | .resolved => value.references order ++ object.references order
  | .this keyword link => [⟨.this, keyword, link⟩]
  | .super _ method link => [⟨.super, method, link⟩]

def Expr.referencesAll (order : ListingOrder) : List Expr → List LinkRecord
  | [] => []
  | e :: es => e.references order ++ Expr.referencesAll order es

end

/-- The references of an expression that may be absent. -/
def optionReferences (order : ListingOrder) : Option Expr → List LinkRecord
  | none => []
  | some e => e.references order

mutual

def Stmt.references (order : ListingOrder) : Stmt → List LinkRecord
  | .block body => Stmt.referencesAll order body
  | .funDecl declaration => declaration.references order
  | .classDecl _ none methods => FunctionDecl.referencesAll order methods
  | .classDecl _ (some parent) methods =>
      parent.references order ++ FunctionDecl.referencesAll order methods
  | .varDecl _ initializer => optionReferences order initializer
  | .constDecl _ initializer => optionReferences order initializer
  | .exprStmt expression => expression.references order
  | .ifStmt condition thenBranch none =>
      condition.references order ++ thenBranch.references order
  | .ifStmt condition thenBranch (some elseBranch) =>
      condition.references order
        ++ thenBranch.references order
        ++ elseBranch.references order
  | .printStmt expression => expression.references order
  | .returnStmt _ value => optionReferences order value
  | .whileStmt condition body => condition.references order ++ body.references order

def Stmt.referencesAll (order : ListingOrder) : List Stmt → List LinkRecord
  | [] => []
  | s :: ss => s.references order ++ Stmt.referencesAll order ss

def FunctionDecl.references (order : ListingOrder) : FunctionDecl → List LinkRecord
  | ⟨_, _, body⟩ => Stmt.referencesAll order body

def FunctionDecl.referencesAll (order : ListingOrder) : List FunctionDecl → List LinkRecord
  | [] => []
  | f :: fs => f.references order ++ FunctionDecl.referencesAll order fs

end

/-- A reference and one of the numbers of its link. -/
structure LinkEntry where
  sort : ReferenceSort
  name : Token
  depth : Nat
  deriving DecidableEq, Repr

/-- The entry of a reference whose link has the number in question. -/
def LinkRecord.part? (part : Link → Option Nat) (r : LinkRecord) : Option LinkEntry :=
  (part r.link).map fun depth => ⟨r.sort, r.name, depth⟩

/--
The links of a program after resolution in the order in which they came about: first those that
the program had before, as written, and then the others in the order of resolution.
-/
def linkHistory (part : Link → Option Nat) (before after : List Stmt) : List LinkEntry :=
  let pairs (order : ListingOrder) : List (LinkRecord × LinkRecord) :=
    (Stmt.referencesAll order before).zip (Stmt.referencesAll order after)
  let given := (pairs .written).filter fun p => (part p.1.link).isSome
  let added := (pairs .resolved).filter fun p => (part p.1.link).isNone
  (given ++ added).filterMap fun p => p.2.part? part

end Lox

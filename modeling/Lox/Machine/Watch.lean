import Lox.Machine.Basic

/-!
# Watched runs

Running code says what it is about to do: it evaluates an expression, it opens a frame, or it binds
the name of a declaration.  A run proper pays no attention to this (`Watch Run`), and whoever wants
to follow a run executes the same code in a monad that does.
-/

namespace Lox

/-- What opens a frame. -/
inductive Opening
  /-- A block is entered. -/
  | block (body : List Stmt)
  /-- A function is called; the frame holds its parameters and its body together. -/
  | call (declaration : FunctionDecl)
  /-- A method is made for an instance; the frame binds `this`. -/
  | receiver
  /-- A class with a superclass is declared; the frame binds `super`. -/
  | superclass (name : Token) (methods : List FunctionDecl)

/-- What running code is about to do. -/
inductive Act
  | evaluates (frame : FrameId) (e : Expr)
  /-- The frame that is added next is opened. -/
  | opens (opening : Opening)
  /-- A declaration binds a name in the frame in which it is executed. -/
  | binds (frame : FrameId) (name : String) (constant : Bool)

/-- A monad in which code can run and say what it is about to do. -/
class Watch (M : Type → Type) extends Monad M where
  perform {α : Type} : Run α → M α
  note : Act → M Unit

/-- A run proper takes no note of anything. -/
@[always_inline, inline]
instance : Watch Run where
  perform x := x
  note _ := pure ()

end Lox

import Lox.Tree.Basic

/-!
# Values

Numbers, strings, booleans and `nil` are compared by value.  Functions, classes and instances have
an identity: every function and class that comes into being gets a serial number, and an instance
is known by the place of its fields.

A class holds the layers that it consists of: its own name and methods, and those of the classes it
inherits from, nearest first.  The layers of a class never change, and there are finitely many.
-/

namespace Lox

/-- Frames are numbered in the order in which they come into being. -/
abbrev FrameId := Nat

/-- Instances are numbered in the order in which they come into being. -/
abbrev InstanceId := Nat

/-- A function together with the frame in which it was made. -/
structure Closure where
  serial : Nat
  declaration : FunctionDecl
  frame : FrameId
  isInitializer : Bool

/-- What one class declaration contributes to a class. -/
structure ClassLayer where
  serial : Nat
  name : String
  methods : List FunctionDecl
  /-- The frame in which the methods were made. -/
  frame : FrameId

structure ClassObject where
  own : ClassLayer
  /-- The layers of the superclass, nearest first. -/
  inherited : List ClassLayer

/-- The functions that the language provides. -/
inductive Native
  | clock
  deriving DecidableEq, Repr

inductive Value
  | nil
  | boolean (value : Bool)
  | number (value : Float)
  | string (value : String)
  | native (function : Native)
  | function (closure : Closure)
  | classObject (object : ClassObject)
  | object (id : InstanceId) (ofClass : ClassObject)

/-- A method of a class, with the frame in which it was made. -/
structure Method where
  declaration : FunctionDecl
  frame : FrameId

/-- Of two methods of one name, a class keeps the later one. -/
def ClassLayer.method? (layer : ClassLayer) (name : String) : Option Method :=
  (layer.methods.reverse.find? (·.name.lexeme == name)).map (⟨·, layer.frame⟩)

/-- All layers of a class, nearest first. -/
def ClassObject.layers (c : ClassObject) : List ClassLayer :=
  c.own :: c.inherited

/-- The method of the nearest layer that has one of the given name. -/
def ClassObject.method? (c : ClassObject) (name : String) : Option Method :=
  c.layers.findSome? (·.method? name)

/-- A new layer on top of the superclass, if there is one. -/
def ClassLayer.extending (layer : ClassLayer) : Option ClassObject → ClassObject
  | none => ⟨layer, []⟩
  | some parent => ⟨layer, parent.layers⟩

/-- The number of arguments of a function. -/
def FunctionDecl.arity (f : FunctionDecl) : Nat := f.parameters.length

def Native.arity : Native → Nat
  | .clock => 0

/-- A class takes the arguments of its initializer. -/
def ClassObject.arity (c : ClassObject) : Nat :=
  match c.method? initializerName with
  | some method => method.declaration.arity
  | none => 0

/-- The number of arguments that a value takes when it is called, if it can be called. -/
def Value.arity? : Value → Option Nat
  | .native f => some f.arity
  | .function f => some f.declaration.arity
  | .classObject c => some c.arity
  | _ => none

/-- The value that a literal denotes. -/
def Literal.toValue : Literal → Value
  | .nil => .nil
  | .boolean b => .boolean b
  | .number x => .number x
  | .string s => .string s

/-- The text of a value as `print` shows it. -/
def Value.text : Value → String
  | .nil => "nil"
  | .boolean true => "true"
  | .boolean false => "false"
  | .number x => Number.text x
  | .string s => s
  | .native _ => "<native fn>"
  | .function f => "<fn " ++ f.declaration.name.lexeme ++ ">"
  | .classObject c => c.own.name
  | .object _ c => c.own.name ++ " instance"

/-- Everything but `nil` and `false` counts as true. -/
def Value.isTruthy : Value → Bool
  | .nil => false
  | .boolean b => b
  | _ => true

/-- Numbers are equal as numbers, and what is not a number is equal to itself. -/
def numbersEqual (x y : Float) : Bool :=
  x == y || x.isNaN && y.isNaN

/-- Equality of values; values of different kinds are never equal. -/
def Value.equal : Value → Value → Bool
  | .nil, .nil => true
  | .boolean a, .boolean b => a == b
  | .number x, .number y => numbersEqual x y
  | .string a, .string b => a == b
  | .native f, .native g => f == g
  | .function f, .function g => f.serial == g.serial
  | .classObject c, .classObject d => c.own.serial == d.own.serial
  | .object i _, .object j _ => i == j
  | _, _ => false

end Lox

import Lox.Machine.Basic

/-!
# Environments

A frame can keep the values of its names and the names of its constants apart: the values under the
names in a table, the constants in a set of names of their own.  Nothing in this form says that a
constant has a value.  A definition writes both; an assignment writes the table alone.

**Main definitions.**
* `Environment`: a frame with its table and its set.
* `Environments`: a store of them, with the operations of `Store`.
-/

namespace Lox

structure Environment where
  enclosing : Option FrameId
  /-- The values, in the order in which their names were first defined. -/
  values : Fields
  /-- The names of the constants, each of them once. -/
  constants : List String

namespace Environment

/-- Binds a name, and makes it a constant or not. -/
def define (e : Environment) (name : String) (value : Value) (constant : Bool) : Environment :=
  { e with
    values := putField name value e.values
    constants := if constant then e.constants.insert name else e.constants.filter (· != name) }

/-- Changes the value under a name. -/
def put (e : Environment) (name : String) (value : Value) : Environment :=
  { e with values := putField name value e.values }

end Environment

structure Environments where
  all : Array Environment

namespace Environments

def empty : Environments := ⟨#[]⟩

/-- Adds an environment without names. -/
def extend (es : Environments) (enclosing : Option FrameId) : Environments :=
  ⟨es.all.push ⟨enclosing, [], []⟩⟩

def enclosing? (es : Environments) (id : FrameId) : Option FrameId :=
  es.all[id]?.bind Environment.enclosing

/-- The value under a name of one environment. -/
def value? (es : Environments) (id : FrameId) (name : String) : Option Value :=
  es.all[id]?.bind (·.values.lookup name)

/-- A name is a constant of this very environment. -/
def isConstant (es : Environments) (id : FrameId) (name : String) : Bool :=
  es.all[id]?.any (·.constants.contains name)

def define
    (es : Environments) (id : FrameId) (name : String) (value : Value) (constant : Bool) :
    Environments :=
  ⟨es.all.modify id fun e => e.define name value constant⟩

def put (es : Environments) (id : FrameId) (name : String) (value : Value) : Environments :=
  ⟨es.all.modify id fun e => e.put name value⟩

/-- The nearest environment from the given one outward with a value under a name, and that value. -/
def holder? (es : Environments) (name : String) (id : FrameId) : Option (FrameId × Value) :=
  match es.value? id name with
  | some value => some (id, value)
  | none =>
      match es.enclosing? id with
      | some outer => if outer < id then es.holder? name outer else none
      | none => none
termination_by id

def find (es : Environments) (id : FrameId) (name : String) :
    Except AccessFault (FrameId × Value) :=
  match es.holder? name id with
  | some found => .ok found
  | none => .error (.undefined name)

def get (es : Environments) (id : FrameId) (name : String) : Except AccessFault Value :=
  (es.find id name).map Prod.snd

def assign
    (es : Environments) (id : FrameId) (name : String) (value : Value) :
    Except AccessFault Environments :=
  (es.find id name).map fun found => es.put found.1 name value

def ancestor? (es : Environments) : FrameId → Nat → Option FrameId
  | id, 0 => some id
  | id, distance + 1 => (es.enclosing? id).bind fun outer => es.ancestor? outer distance

def findAt
    (es : Environments) (id : FrameId) (distance : Nat) (name : String) :
    Except AccessFault (FrameId × Value) :=
  match es.ancestor? id distance with
  | none => .error (.shortChain distance)
  | some holder =>
      match es.value? holder name with
      | some value => .ok (holder, value)
      | none => .error (.undefined name)

def getAt (es : Environments) (id : FrameId) (distance : Nat) (name : String) :
    Except AccessFault Value :=
  (es.findAt id distance name).map Prod.snd

def assignAt
    (es : Environments) (id : FrameId) (distance : Nat) (name : String) (value : Value) :
    Except AccessFault Environments :=
  (es.findAt id distance name).map fun found => es.put found.1 name value

end Environments
end Lox

import Lox.Machine.Store
import Lox.Value.Operators

/-!
# Machines

A machine holds everything that a running program can change: the frames, the fields of instances,
the readings of the clock that are still to come and the texts printed so far.  Its first frame is
the global one.

Running code either ends with a result or is interrupted.  An interruption never undoes what has
been changed before it.
-/

namespace Lox

/-- The fields of one instance. -/
abbrev Fields := List (String × Value)

/-- Puts a field in the place of the one with its name, or at the end. -/
def putField (name : String) (value : Value) : Fields → Fields
  | [] => [(name, value)]
  | field :: rest =>
      if field.1 == name then (name, value) :: rest else field :: putField name value rest

structure Machine where
  store : Store
  /-- The fields of every instance, by its number. -/
  fields : Array Fields
  /-- The serial number of the function or class that is made next. -/
  serial : Nat
  /-- The readings of the clock; the last one stays. -/
  clock : List Float
  /-- The texts printed so far. -/
  printed : Array String

/-- The global frame. -/
def globalFrame : FrameId := 0

/-- Why running code stops before its end. -/
inductive Interrupt
  | error (e : RuntimeError)
  /-- A link leads farther than there are frames. -/
  | shortChain (distance : Nat)
  /-- A loop has used up its rounds. -/
  | unfinished
  deriving DecidableEq, Repr

abbrev Run := EStateM Interrupt Machine

/-- The value that a `return` passes on to the call; `none` if there was no `return`. -/
abbrev Completion := Option Value

/-- The global frame at the beginning. -/
def Store.initial : Store :=
  let store := Store.empty.extend none
  let store := store.define globalFrame "clock" (.native .clock) false
  let store := store.define globalFrame "current_state" (.number 0) false
  store.define globalFrame "last_state" (.number 0) false

/-- A machine on which nothing has run. -/
def Machine.initial (clock : List Float) : Machine where
  store := .initial
  fields := #[]
  serial := 0
  clock := clock
  printed := #[]

/-- The names of the global frame. -/
def Machine.globals (m : Machine) : List Slot :=
  ((m.store.frame? globalFrame).map Frame.slots).getD []

namespace Run

variable {α : Type}

/-- Stops with an error at a token. -/
def fail (fault : RuntimeFault) (place : Token) : Run α :=
  throw (.error ⟨fault, some place.line⟩)

/-- Stops because calls or nodes are nested too deeply. -/
def overflow : Run α :=
  throw (.error ⟨.stackOverflow, none⟩)

/-- A result, or an error at a token. -/
def ofExcept (place : Token) : Except RuntimeFault α → Run α
  | .ok a => pure a
  | .error fault => fail fault place

/-- A result, or the error that a name is not found. -/
def ofAccess (place : Token) : Except AccessFault α → Run α
  | .ok a => pure a
  | .error (.undefined name) => fail (.undefinedVariable name) place
  | .error (.shortChain distance) => throw (.shortChain distance)

/-- Adds a frame that binds some variables. -/
def newFrame (enclosing : FrameId) (bindings : List (String × Value)) : Run FrameId :=
  fun m =>
    let frame := m.store.nextId
    let store := (m.store.extend (some enclosing)).defineAll frame bindings
    .ok frame { m with store := store }

/-- Takes the next serial number. -/
def newSerial : Run Nat :=
  fun m => .ok m.serial { m with serial := m.serial + 1 }

/-- Makes an instance without fields. -/
def newInstance (c : ClassObject) : Run (InstanceId × ClassObject) :=
  fun m => .ok (m.fields.size, c) { m with fields := m.fields.push [] }

/-- Binds a name in a frame. -/
def define (frame : FrameId) (name : String) (value : Value) (constant : Bool) : Run Unit :=
  fun m => .ok () { m with store := m.store.define frame name value constant }

/-- Prints a text. -/
def print (text : String) : Run Unit :=
  fun m => .ok () { m with printed := m.printed.push text }

/-- The reading of the clock, and the readings after it. -/
def nextReading : List Float → Float × List Float
  | [] => (0, [])
  | [last] => (last, [last])
  | reading :: rest => (reading, rest)

/-- Reads the clock. -/
def readClock : Run Float :=
  fun m =>
    let next := nextReading m.clock
    .ok next.1 { m with clock := next.2 }

/-- The slot of a name in the frame at a distance, and that frame. -/
def findAt
    (frame : FrameId) (distance : Nat) (name : String) (place : Token) :
    Run (FrameId × Slot) := do
  ofAccess place ((← get).store.findAt frame distance name)

/-- The slot that a name with its link leads to: without a distance it is a global one. -/
def locate (frame : FrameId) (name : Token) (link : Link) : Run (FrameId × Slot) := do
  match link.depth with
  | some distance => findAt frame distance name.lexeme name
  | none => ofAccess name ((← get).store.find globalFrame name.lexeme)

/-- The value of a name in the frame at a distance. -/
def getAt (frame : FrameId) (distance : Nat) (name : String) (place : Token) : Run Value := do
  let found ← findAt frame distance name place
  pure found.2.value

/-- Changes the value of a slot of a frame. -/
def update (frame : FrameId) (slot : Slot) (value : Value) : Run Unit :=
  fun m => .ok () { m with store := m.store.update frame slot value }

/-- The value of a name with its link. -/
def readName (frame : FrameId) (name : Token) (link : Link) : Run Value := do
  let found ← locate frame name link
  pure found.2.value

/-- Gives a new value to a name with its link. -/
def assignName (frame : FrameId) (target : Reference) (value : Value) : Run Unit := do
  let found ← locate frame target.name target.link
  update found.1 found.2 value

/-- Gives a new value to a name in the nearest frame that binds it. -/
def reassign (frame : FrameId) (name : Token) (value : Value) : Run Unit := do
  let found ← ofAccess name ((← get).store.find frame name.lexeme)
  update found.1 found.2 value

/-- A name that is assigned is a constant. -/
def isConstant (target : Reference) : Run Bool := do
  if target.link.constantDepth.isSome then
    pure true
  else if target.link.depth.isSome then
    pure false
  else
    pure ((← get).store.isConstant globalFrame target.name.lexeme)

/-- The field of an instance. -/
def field? (id : InstanceId) (name : String) : Run (Option Value) := do
  pure (((← get).fields[id]?).bind (·.lookup name))

/-- Gives a field of an instance a value. -/
def setField (id : InstanceId) (name : String) (value : Value) : Run Unit :=
  fun m => .ok () { m with fields := m.fields.modify id (putField name value) }

end Run
end Lox

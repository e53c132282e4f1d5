import Lox.Value.Basic
import Lox.Value.Fault

/-!
# Frames

A frame binds names to values and remembers which of them are constants.  Frames refer to the frame
that encloses them and are shared by everything that was made in them, so they live in a store and
are referred to by number.  A frame is enclosed by an earlier one, and so the way outward ends.

A name can be looked for along the whole way outward, or at a known distance.
-/

namespace Lox

/-- A name in a frame. -/
structure Slot where
  name : String
  value : Value
  constant : Bool

/-- Puts a slot in the place of the one with its name, or at the end. -/
def putSlot (slot : Slot) : List Slot → List Slot
  | [] => [slot]
  | s :: rest => if s.name == slot.name then slot :: rest else s :: putSlot slot rest

structure Frame where
  enclosing : Option FrameId
  /-- The names in the order of their first definition. -/
  slots : List Slot

namespace Frame

def slot? (frame : Frame) (name : String) : Option Slot :=
  frame.slots.find? (·.name == name)

/-- Binds a name, whatever it was bound to before. -/
def define (frame : Frame) (name : String) (value : Value) (constant : Bool) : Frame :=
  { frame with slots := putSlot ⟨name, value, constant⟩ frame.slots }

/-- Changes the value of a name that is bound. -/
def update (frame : Frame) (slot : Slot) (value : Value) : Frame :=
  { frame with slots := putSlot { slot with value := value } frame.slots }

end Frame

/-- Why a name is not found. -/
inductive AccessFault
  | undefined (name : String)
  /-- There are fewer enclosing frames than the distance says. -/
  | shortChain (distance : Nat)
  deriving DecidableEq, Repr

/-- The words for a name that is not found. -/
def AccessFault.message : AccessFault → String
  | .undefined name => (RuntimeFault.undefinedVariable name).message
  | .shortChain distance =>
      "Environment chain shorter than resolved distance " ++ toString distance

structure Store where
  frames : Array Frame

namespace Store

def empty : Store := ⟨#[]⟩

/-- Adds a frame without names. -/
def extend (store : Store) (enclosing : Option FrameId) : Store :=
  ⟨store.frames.push ⟨enclosing, []⟩⟩

/-- The number of the frame that is added next. -/
def nextId (store : Store) : FrameId := store.frames.size

def frame? (store : Store) (id : FrameId) : Option Frame := store.frames[id]?

/-- The slot of a name in one frame. -/
def slot? (store : Store) (id : FrameId) (name : String) : Option Slot :=
  (store.frame? id).bind (·.slot? name)

/-- Binds a name in one frame. -/
def define
    (store : Store) (id : FrameId) (name : String) (value : Value) (constant : Bool) : Store :=
  ⟨store.frames.modify id fun frame => frame.define name value constant⟩

/-- Binds variables in one frame, one after the other. -/
def defineAll (store : Store) (id : FrameId) (bindings : List (String × Value)) : Store :=
  bindings.foldl (fun store v => store.define id v.1 v.2 false) store

/-- Changes the value of a name that one frame binds. -/
def update (store : Store) (id : FrameId) (slot : Slot) (value : Value) : Store :=
  ⟨store.frames.modify id fun frame => frame.update slot value⟩

/-- A name is a constant of this very frame. -/
def isConstant (store : Store) (id : FrameId) (name : String) : Bool :=
  (store.slot? id name).any Slot.constant

/-- The frame that encloses a frame. -/
def enclosing? (store : Store) (id : FrameId) : Option FrameId :=
  (store.frame? id).bind Frame.enclosing

/-- The nearest frame from the given one outward that binds a name, and its slot. -/
def holder? (store : Store) (name : String) (id : FrameId) : Option (FrameId × Slot) :=
  match store.slot? id name with
  | some slot => some (id, slot)
  | none =>
      match store.enclosing? id with
      | some outer => if outer < id then store.holder? name outer else none
      | none => none
termination_by id

/-- The slot of a name in the nearest frame that binds it, and that frame. -/
def find (store : Store) (id : FrameId) (name : String) : Except AccessFault (FrameId × Slot) :=
  match store.holder? name id with
  | some found => .ok found
  | none => .error (.undefined name)

/-- The value of a name in the nearest frame that binds it. -/
def get (store : Store) (id : FrameId) (name : String) : Except AccessFault Value :=
  (store.find id name).map fun found => found.2.value

/-- Changes the value of a name in the nearest frame that binds it. -/
def assign
    (store : Store) (id : FrameId) (name : String) (value : Value) : Except AccessFault Store :=
  (store.find id name).map fun found => store.update found.1 found.2 value

/-- The frame at a distance. -/
def ancestor? (store : Store) : FrameId → Nat → Option FrameId
  | id, 0 => some id
  | id, distance + 1 => (store.enclosing? id).bind fun outer => store.ancestor? outer distance

/-- The slot of a name in the frame at a distance, and that frame. -/
def findAt
    (store : Store) (id : FrameId) (distance : Nat) (name : String) :
    Except AccessFault (FrameId × Slot) :=
  match store.ancestor? id distance with
  | none => .error (.shortChain distance)
  | some holder =>
      match store.slot? holder name with
      | some slot => .ok (holder, slot)
      | none => .error (.undefined name)

/-- The value of a name in the frame at a distance. -/
def getAt
    (store : Store) (id : FrameId) (distance : Nat) (name : String) :
    Except AccessFault Value :=
  (store.findAt id distance name).map fun found => found.2.value

/-- Changes the value of a name in the frame at a distance. -/
def assignAt
    (store : Store) (id : FrameId) (distance : Nat) (name : String) (value : Value) :
    Except AccessFault Store :=
  (store.findAt id distance name).map fun found => store.update found.1 found.2 value

/-- The names of a frame and of the frames around it. -/
def text (store : Store) (id : FrameId) : String :=
  let names := ((store.frame? id).map Frame.slots).getD []
  let own := "<env " ++ ", ".intercalate (names.map Slot.name) ++ ">"
  match store.enclosing? id with
  | some outer => if outer < id then own ++ " -> " ++ store.text outer else own
  | none => own
termination_by id

end Store
end Lox

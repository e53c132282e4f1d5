import Lox.Proofs.Machine.MapValues
import Lox.Proofs.Tree.Relabel

/-!
# Relabeled values and machines

Functions and classes hold the code that they were made of, and so do the frames and the fields in
which they are kept.  What a program can find out about a value does not depend on the lines and
links of that code.

**Main definition.**
* `Machine.relabel`: a machine with all the code that it holds relabeled.

**Results.**
* `Value.text_relabel`, `Value.binary_relabel`: values are shown and combined as before.
* `Store.find_relabel`, `Store.findAt_relabel`: names are found where they were.
* `Machine.relabel_relabel`: two changes are one.
-/

namespace Lox

section Definitions

variable (c : Relabeling)

def Closure.relabel (f : Closure) : Closure :=
  { f with declaration := f.declaration.relabel c }

def ClassLayer.relabel (layer : ClassLayer) : ClassLayer :=
  { layer with methods := layer.methods.map (FunctionDecl.relabel c) }

def ClassObject.relabel (o : ClassObject) : ClassObject :=
  ⟨o.own.relabel c, o.inherited.map (ClassLayer.relabel c)⟩

def Method.relabel (m : Method) : Method :=
  { m with declaration := m.declaration.relabel c }

def Value.relabel : Value → Value
  | .nil => .nil
  | .boolean b => .boolean b
  | .number x => .number x
  | .string s => .string s
  | .native f => .native f
  | .function f => .function (f.relabel c)
  | .classObject o => .classObject (o.relabel c)
  | .object id o => .object id (o.relabel c)

def Slot.relabel (s : Slot) : Slot :=
  { s with value := s.value.relabel c }

def Frame.relabel (f : Frame) : Frame :=
  { f with slots := f.slots.map (Slot.relabel c) }

def Store.relabel (s : Store) : Store :=
  ⟨s.frames.map (Frame.relabel c)⟩

/-- A name with a value, as variables and fields are given. -/
def relabelBinding (b : String × Value) : String × Value :=
  (b.1, b.2.relabel c)

/-- A machine with all the code that it holds relabeled. -/
def Machine.relabel (m : Machine) : Machine :=
  { m with
    store := m.store.relabel c
    fields := m.fields.map (List.map (relabelBinding c)) }

def RuntimeError.relabel (e : RuntimeError) : RuntimeError :=
  { e with line := e.line.map c.line }

def Interrupt.relabel : Interrupt → Interrupt
  | .error e => .error (e.relabel c)
  | .shortChain distance => .shortChain distance
  | .unfinished => .unfinished

end Definitions

section Values

variable (c d : Relabeling)

@[simp] theorem Value.text_relabel (v : Value) : (v.relabel c).text = v.text := by
  cases v with
  | function f => simp [Value.relabel, Value.text, Closure.relabel]
  | _ => rfl

@[simp] theorem Value.isTruthy_relabel (v : Value) : (v.relabel c).isTruthy = v.isTruthy := by
  cases v <;> rfl

@[simp] theorem Value.equal_relabel (v w : Value) :
    (v.relabel c).equal (w.relabel c) = v.equal w := by
  cases v <;> cases w <;> rfl

@[simp] theorem Value.relabel_toValue (l : Literal) : l.toValue.relabel c = l.toValue := by
  cases l <;> rfl

theorem ClassLayer.method?_relabel (layer : ClassLayer) (name : String) :
    (layer.relabel c).method? name = (layer.method? name).map (Method.relabel c) := by
  unfold ClassLayer.method? ClassLayer.relabel
  rw [← List.map_reverse, List.find?_map, Option.map_map, Option.map_map]
  have hname : (fun f : FunctionDecl => f.name.lexeme == name) ∘ FunctionDecl.relabel c =
      fun f => f.name.lexeme == name := by
    funext f
    simp
  rw [hname]
  rfl

theorem ClassObject.layers_relabel (o : ClassObject) :
    (o.relabel c).layers = o.layers.map (ClassLayer.relabel c) := rfl

theorem ClassObject.method?_relabel (o : ClassObject) (name : String) :
    (o.relabel c).method? name = (o.method? name).map (Method.relabel c) := by
  unfold ClassObject.method?
  rw [ClassObject.layers_relabel]
  induction o.layers with
  | nil => rfl
  | cons layer layers ih =>
      simp only [List.map_cons, List.findSome?_cons, ClassLayer.method?_relabel]
      cases layer.method? name with
      | none => exact ih
      | some method => rfl

theorem ClassLayer.extending_relabel (layer : ClassLayer) (parent : Option ClassObject) :
    (layer.relabel c).extending (parent.map (ClassObject.relabel c)) =
      (layer.extending parent).relabel c := by
  cases parent <;> rfl

@[simp] theorem FunctionDecl.arity_relabel (f : FunctionDecl) :
    (f.relabel c).arity = f.arity := by
  simp [FunctionDecl.arity]

theorem Value.arity?_relabel (v : Value) : (v.relabel c).arity? = v.arity? := by
  cases v with
  | function f => simp [Value.relabel, Value.arity?, Closure.relabel]
  | classObject o =>
      simp only [Value.relabel, Value.arity?, ClassObject.arity, ClassObject.method?_relabel]
      cases o.method? initializerName <;> simp [Method.relabel]
  | _ => rfl

theorem Value.unary_relabel (operator : Token) (v : Value) :
    (v.relabel c).unary (operator.relabel c) =
      (v.unary operator).map (Value.relabel c) := by
  unfold Value.unary
  simp only [Token.kind_relabel, Token.lexeme_relabel, Value.isTruthy_relabel]
  cases operator.kind <;> cases v <;> rfl

theorem onNumbers_relabel
    {f : Float → Float → Value}
    (hf : ∀ x y, (f x y).relabel c = f x y)
    (v w : Value) :
    onNumbers f (v.relabel c) (w.relabel c) = (onNumbers f v w).map (Value.relabel c) := by
  cases v <;> cases w <;> first | rfl | exact congrArg Except.ok (hf _ _).symm

theorem Value.binary_relabel (v : Value) (operator : Token) (w : Value) :
    (v.relabel c).binary (operator.relabel c) (w.relabel c) =
      (v.binary operator w).map (Value.relabel c) := by
  have hadd : (v.relabel c).add (w.relabel c) = (v.add w).map (Value.relabel c) := by
    cases v <;> cases w <;> rfl
  unfold Value.binary
  simp only [Token.kind_relabel, Token.lexeme_relabel, Value.equal_relabel, hadd]
  cases operator.kind <;> first | rfl | exact onNumbers_relabel c (fun _ _ => rfl) v w

@[simp] theorem Value.decides_relabel (v : Value) (operator : Token) :
    (v.relabel c).decides (operator.relabel c) = v.decides operator := by
  simp [Value.decides]

end Values

section Stores

variable (c : Relabeling)

namespace Store

variable (store : Store)

@[simp] theorem nextId_relabel : (store.relabel c).nextId = store.nextId :=
  store.nextId_mapValues (Value.relabel c)

theorem frame?_relabel (id : FrameId) :
    (store.relabel c).frame? id = (store.frame? id).map (Frame.relabel c) :=
  store.frame?_mapValues (Value.relabel c) id

theorem extend_relabel (enclosing : Option FrameId) :
    (store.relabel c).extend enclosing = (store.extend enclosing).relabel c :=
  store.extend_mapValues (Value.relabel c) enclosing

theorem define_relabel (id : FrameId) (name : String) (v : Value) (constant : Bool) :
    (store.relabel c).define id name (v.relabel c) constant =
      (store.define id name v constant).relabel c :=
  store.define_mapValues (Value.relabel c) id name v constant

theorem update_relabel (id : FrameId) (slot : Slot) (v : Value) :
    (store.relabel c).update id (slot.relabel c) (v.relabel c) =
      (store.update id slot v).relabel c :=
  store.update_mapValues (Value.relabel c) id slot v

theorem defineAll_relabel (id : FrameId) (bindings : List (String × Value)) :
    (store.relabel c).defineAll id (bindings.map (relabelBinding c)) =
      (store.defineAll id bindings).relabel c :=
  store.defineAll_mapValues (Value.relabel c) id bindings

theorem isConstant_relabel (id : FrameId) (name : String) :
    (store.relabel c).isConstant id name = store.isConstant id name :=
  store.isConstant_mapValues (Value.relabel c) id name

/-- A frame with a relabeled slot of it. -/
def relabelFound (found : FrameId × Slot) : FrameId × Slot :=
  (found.1, found.2.relabel c)

theorem find_relabel (id : FrameId) (name : String) :
    (store.relabel c).find id name = (store.find id name).map (relabelFound c) :=
  store.find_mapValues (Value.relabel c) id name

theorem findAt_relabel (id : FrameId) (distance : Nat) (name : String) :
    (store.relabel c).findAt id distance name =
      (store.findAt id distance name).map (relabelFound c) :=
  store.findAt_mapValues (Value.relabel c) id distance name

end Store

theorem lookup_relabel (name : String) (fields : Fields) :
    (fields.map (relabelBinding c)).lookup name = (fields.lookup name).map (Value.relabel c) :=
  lookup_map_snd (Value.relabel c) name fields

theorem putField_relabel (name : String) (v : Value) (fields : Fields) :
    putField name (v.relabel c) (fields.map (relabelBinding c)) =
      (putField name v fields).map (relabelBinding c) :=
  putField_map_snd (Value.relabel c) name v fields

end Stores

section Composition

variable (c d : Relabeling)

theorem FunctionDecl.map_relabel_relabel (fs : List FunctionDecl) :
    (fs.map (FunctionDecl.relabel d)).map (FunctionDecl.relabel c) =
      fs.map (FunctionDecl.relabel (c.comp d)) := by
  rw [List.map_map]
  exact List.map_congr_left fun f _ => f.relabel_relabel c d

@[simp] theorem ClassLayer.relabel_relabel (layer : ClassLayer) :
    (layer.relabel d).relabel c = layer.relabel (c.comp d) := by
  simp only [ClassLayer.relabel, FunctionDecl.map_relabel_relabel]

@[simp] theorem ClassObject.relabel_relabel (o : ClassObject) :
    (o.relabel d).relabel c = o.relabel (c.comp d) := by
  simp [ClassObject.relabel]

@[simp] theorem Value.relabel_relabel (v : Value) :
    (v.relabel d).relabel c = v.relabel (c.comp d) := by
  cases v <;> simp [Value.relabel, Closure.relabel, FunctionDecl.relabel_relabel]

@[simp] theorem Frame.relabel_relabel (frame : Frame) :
    (frame.relabel d).relabel c = frame.relabel (c.comp d) := by
  simp [Frame.relabel, Slot.relabel]

/-- Two changes of a machine are one. -/
theorem Machine.relabel_relabel (m : Machine) :
    (m.relabel d).relabel c = m.relabel (c.comp d) := by
  simp [Machine.relabel, Store.relabel, relabelBinding, Function.comp_def]

@[simp] theorem ClassLayer.relabel_none (layer : ClassLayer) : layer.relabel .none = layer := by
  have hmethods : layer.methods.map (FunctionDecl.relabel .none) = layer.methods := by
    rw [show FunctionDecl.relabel .none = id from funext FunctionDecl.relabel_none, List.map_id]
  simp only [ClassLayer.relabel, hmethods]

@[simp] theorem ClassObject.relabel_none (o : ClassObject) : o.relabel .none = o := by
  simp [ClassObject.relabel, show ClassLayer.relabel .none = id from funext ClassLayer.relabel_none]

@[simp] theorem Value.relabel_none (v : Value) : v.relabel .none = v := by
  cases v <;> simp [Value.relabel, Closure.relabel, FunctionDecl.relabel_none]

@[simp] theorem Slot.relabel_none (slot : Slot) : slot.relabel .none = slot := by
  simp [Slot.relabel]

@[simp] theorem Frame.relabel_none (frame : Frame) : frame.relabel .none = frame := by
  simp [Frame.relabel, show Slot.relabel .none = id from funext Slot.relabel_none]

@[simp] theorem relabelBinding_none (b : String × Value) : relabelBinding .none b = b := by
  simp [relabelBinding]

/-- No change leaves a machine as it is. -/
@[simp] theorem Machine.relabel_none (m : Machine) : m.relabel .none = m := by
  simp [Machine.relabel, Store.relabel, show Frame.relabel .none = id from
    funext Frame.relabel_none, show relabelBinding .none = id from funext relabelBinding_none]

end Composition

end Lox

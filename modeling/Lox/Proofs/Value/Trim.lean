import Lox.Proofs.Tree.Trim
import Lox.Value.Operators

/-!
# Values with trimmed code

Functions and classes hold the code that they were made of.  What a program can find out about a
value does not depend on what follows a return in that code.

**Main definition.**
* `Value.trimmed`: a value with all the code in it trimmed.

**Results.**
* `Value.text_trimmed`, `Value.binary_trimmed`: values are shown and combined as before.
* `ClassObject.method?_trimmed`: a class finds the same methods.
-/

namespace Lox

def Closure.trimmed (f : Closure) : Closure :=
  { f with declaration := f.declaration.trimmed }

def ClassLayer.trimmed (layer : ClassLayer) : ClassLayer :=
  { layer with methods := layer.methods.map FunctionDecl.trimmed }

def ClassObject.trimmed (o : ClassObject) : ClassObject :=
  ⟨o.own.trimmed, o.inherited.map ClassLayer.trimmed⟩

def Method.trimmed (m : Method) : Method :=
  { m with declaration := m.declaration.trimmed }

/-- A value with all the code in it trimmed. -/
def Value.trimmed : Value → Value
  | .nil => .nil
  | .boolean b => .boolean b
  | .number x => .number x
  | .string s => .string s
  | .native f => .native f
  | .function f => .function f.trimmed
  | .classObject o => .classObject o.trimmed
  | .object id o => .object id o.trimmed

section Classes

@[simp] theorem FunctionDecl.arity_trimmed (f : FunctionDecl) : f.trimmed.arity = f.arity := by
  rw [FunctionDecl.arity, FunctionDecl.parameters_trimmed, FunctionDecl.arity]

@[simp] theorem FunctionDecl.isInitializer_trimmed (f : FunctionDecl) :
    f.trimmed.isInitializer = f.isInitializer := by
  rw [FunctionDecl.isInitializer, FunctionDecl.name_trimmed, FunctionDecl.isInitializer]

theorem ClassLayer.method?_trimmed (layer : ClassLayer) (name : String) :
    layer.trimmed.method? name = (layer.method? name).map Method.trimmed := by
  have hname : (fun f : FunctionDecl => f.name.lexeme == name) ∘ FunctionDecl.trimmed =
      fun f => f.name.lexeme == name :=
    funext fun f => congrArg (fun t : Token => t.lexeme == name) f.name_trimmed
  unfold ClassLayer.method? ClassLayer.trimmed
  rw [← List.map_reverse, List.find?_map, Option.map_map, Option.map_map, hname]
  rfl

theorem ClassObject.method?_trimmed (o : ClassObject) (name : String) :
    o.trimmed.method? name = (o.method? name).map Method.trimmed := by
  have hlayers : o.trimmed.layers = o.layers.map ClassLayer.trimmed := rfl
  unfold ClassObject.method?
  rw [hlayers]
  induction o.layers with
  | nil => rfl
  | cons layer layers ih =>
      simp only [List.map_cons, List.findSome?_cons, ClassLayer.method?_trimmed]
      cases layer.method? name with
      | none => exact ih
      | some method => rfl

theorem ClassLayer.extending_trimmed (layer : ClassLayer) (parent : Option ClassObject) :
    layer.trimmed.extending (parent.map ClassObject.trimmed) =
      (layer.extending parent).trimmed := by
  cases parent <;> rfl

theorem ClassObject.arity_trimmed (o : ClassObject) : o.trimmed.arity = o.arity := by
  unfold ClassObject.arity
  rw [ClassObject.method?_trimmed]
  cases o.method? initializerName with
  | none => rfl
  | some method => exact method.declaration.arity_trimmed

end Classes

section Values

@[simp] theorem Value.text_trimmed (v : Value) : v.trimmed.text = v.text := by
  cases v with
  | function f =>
      exact congrArg (fun t : Token => "<fn " ++ t.lexeme ++ ">") f.declaration.name_trimmed
  | _ => rfl

@[simp] theorem Value.isTruthy_trimmed (v : Value) : v.trimmed.isTruthy = v.isTruthy := by
  cases v <;> rfl

theorem Value.equal_trimmed (v w : Value) : v.trimmed.equal w.trimmed = v.equal w := by
  cases v <;> cases w <;> rfl

@[simp] theorem Value.trimmed_toValue (l : Literal) : l.toValue.trimmed = l.toValue := by
  cases l <;> rfl

theorem Value.arity?_trimmed (v : Value) : v.trimmed.arity? = v.arity? := by
  cases v with
  | function f => exact congrArg some f.declaration.arity_trimmed
  | classObject o => exact congrArg some o.arity_trimmed
  | _ => rfl

theorem Value.unary_trimmed (operator : Token) (v : Value) :
    v.trimmed.unary operator = (v.unary operator).map Value.trimmed := by
  unfold Value.unary
  rw [Value.isTruthy_trimmed]
  cases operator.kind <;> cases v <;> rfl

theorem onNumbers_trimmed
    {f : Float → Float → Value}
    (hf : ∀ x y, (f x y).trimmed = f x y)
    (v w : Value) :
    onNumbers f v.trimmed w.trimmed = (onNumbers f v w).map Value.trimmed := by
  cases v <;> cases w <;> first | rfl | exact congrArg Except.ok (hf _ _).symm

theorem Value.binary_trimmed (v : Value) (operator : Token) (w : Value) :
    v.trimmed.binary operator w.trimmed = (v.binary operator w).map Value.trimmed := by
  have hadd : v.trimmed.add w.trimmed = (v.add w).map Value.trimmed := by
    cases v <;> cases w <;> rfl
  unfold Value.binary
  rw [Value.equal_trimmed, hadd]
  cases operator.kind <;> first | rfl | exact onNumbers_trimmed (fun _ _ => rfl) v w

@[simp] theorem Value.decides_trimmed (v : Value) (operator : Token) :
    v.trimmed.decides operator = v.decides operator := by
  simp only [Value.decides, Value.isTruthy_trimmed]

end Values

end Lox

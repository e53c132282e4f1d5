import Lox.Proofs.Scope.Widen
import Lox.Value.Operators

/-!
# Values of machines with additional frames

Of two machines the second has all that the first has, and besides some frames that bind nothing and
that lie in the chains of other frames.  For every frame of the second machine a *pairing* says for
which frame of the first it stands, and how many frames there are from it to the additional one.  An
additional frame stands for the frame around it.

A function holds its code and the frame in which it was made, and so a value of the one machine and
a value of the other are compared under a pairing.  More frames come into being while programs run;
the pairs of those that are there stay.

**Main definitions.**
* `Pairing`: what the frames of the second machine stand for.
* `Value.Widened`: a value of the first machine, and the value in its place on the second.

**Results.**
* `Value.Widened.mono`: values stay related when frames are added.
* `Value.Widened.text`, `Value.Widened.binary`: what a program can find out about a value.
-/

namespace Lox

/--
For every frame of the second machine, the frame of the first for which it stands, and its gap.
-/
abbrev Pairing := List (FrameId × Gap)

/-- The second frame stands for the first. -/
def Pairing.Pairs (W : Pairing) (frame frame' : FrameId) (gap : Gap) : Prop :=
  W[frame']? = some (frame, gap)

namespace Pairing

variable
  {W W' : Pairing}
  {frame frame' : FrameId}
  {gap : Gap}

theorem Pairs.mono (h : W.Pairs frame frame' gap) (hW : W <+: W') :
    W'.Pairs frame frame' gap := by
  obtain ⟨rest, rfl⟩ := hW
  rw [Pairs, List.getElem?_append_left (List.getElem?_eq_some_iff.mp h).1]
  exact h

theorem Pairs.lt_length (h : W.Pairs frame frame' gap) : frame' < W.length :=
  (List.getElem?_eq_some_iff.mp h).1

/-- The frames of a longer pairing are the old ones and the new one. -/
theorem pairs_concat {added : FrameId} {addedGap : Gap} :
    Pairs (W ++ [(added, addedGap)]) frame frame' gap ↔
      W.Pairs frame frame' gap ∨ frame' = W.length ∧ frame = added ∧ gap = addedGap := by
  unfold Pairs
  rcases Nat.lt_trichotomy frame' W.length with hlt | rfl | hgt
  · simp [List.getElem?_append_left hlt, hlt.ne]
  · simp [eq_comm]
  · simp [hgt.ne', hgt.le, List.getElem?_append_right, Nat.sub_ne_zero_of_lt hgt]

end Pairing

section Definitions

variable (W : Pairing)

/-- An initializer is made in the frame of its instance, which is no additional one. -/
inductive Closure.Widened : Closure → Closure → Prop
  | mk
      {serial : Nat}
      {declaration declaration' : FunctionDecl}
      {frame frame' : FrameId}
      {isInitializer : Bool}
      {gap : Gap}
      (hframe : W.Pairs frame frame' gap)
      (hinitializer : isInitializer = true → gap ≠ some 0)
      (hdeclaration : declaration.Widened gap declaration') :
      Closure.Widened ⟨serial, declaration, frame, isInitializer⟩
        ⟨serial, declaration', frame', isInitializer⟩

/-- The methods of a class stand inside of the scope of the instance. -/
inductive ClassLayer.Widened : ClassLayer → ClassLayer → Prop
  | mk
      {serial : Nat}
      {name : String}
      {methods methods' : List FunctionDecl}
      {frame frame' : FrameId}
      {gap : Gap}
      (hframe : W.Pairs frame frame' gap)
      (hmethods : FunctionDecl.WidenedAll gap.inner methods methods') :
      ClassLayer.Widened ⟨serial, name, methods, frame⟩ ⟨serial, name, methods', frame'⟩

inductive ClassObject.Widened : ClassObject → ClassObject → Prop
  | mk
      {own own' : ClassLayer}
      {inherited inherited' : List ClassLayer}
      (hown : own.Widened W own')
      (hinherited : List.Forall₂ (ClassLayer.Widened W) inherited inherited') :
      ClassObject.Widened ⟨own, inherited⟩ ⟨own', inherited'⟩

inductive Method.Widened : Method → Method → Prop
  | mk
      {declaration declaration' : FunctionDecl}
      {frame frame' : FrameId}
      {gap : Gap}
      (hframe : W.Pairs frame frame' gap)
      (hdeclaration : declaration.Widened gap.inner declaration') :
      Method.Widened ⟨declaration, frame⟩ ⟨declaration', frame'⟩

/-- A value of the first machine, and the value in its place on the second. -/
inductive Value.Widened : Value → Value → Prop
  | nil : Value.Widened .nil .nil
  | boolean (b : Bool) : Value.Widened (.boolean b) (.boolean b)
  | number (x : Float) : Value.Widened (.number x) (.number x)
  | string (s : String) : Value.Widened (.string s) (.string s)
  | native (f : Native) : Value.Widened (.native f) (.native f)
  | function {f f' : Closure} (hf : f.Widened W f') : Value.Widened (.function f) (.function f')
  | classObject {o o' : ClassObject} (ho : o.Widened W o') :
      Value.Widened (.classObject o) (.classObject o')
  | object (id : InstanceId) {o o' : ClassObject} (ho : o.Widened W o') :
      Value.Widened (.object id o) (.object id o')

end Definitions

section Growth

variable
  {W W' : Pairing}

theorem Closure.Widened.mono
    {f f' : Closure}
    (h : f.Widened W f')
    (hW : W <+: W') :
    f.Widened W' f' := by
  cases h with
  | mk hframe hinitializer hdeclaration => exact .mk (hframe.mono hW) hinitializer hdeclaration

theorem ClassLayer.Widened.mono
    {layer layer' : ClassLayer}
    (h : layer.Widened W layer')
    (hW : W <+: W') :
    layer.Widened W' layer' := by
  cases h with
  | mk hframe hmethods => exact .mk (hframe.mono hW) hmethods

theorem ClassObject.Widened.mono
    {o o' : ClassObject}
    (h : o.Widened W o')
    (hW : W <+: W') :
    o.Widened W' o' := by
  cases h with
  | mk hown hinherited => exact .mk (hown.mono hW) (hinherited.imp fun _ _ h => h.mono hW)

theorem Method.Widened.mono
    {method method' : Method}
    (h : method.Widened W method')
    (hW : W <+: W') :
    method.Widened W' method' := by
  cases h with
  | mk hframe hdeclaration => exact .mk (hframe.mono hW) hdeclaration

/-- Values stay related when frames are added. -/
theorem Value.Widened.mono
    {v v' : Value}
    (h : v.Widened W v')
    (hW : W <+: W') :
    v.Widened W' v' := by
  cases h with
  | function hf => exact .function (hf.mono hW)
  | classObject ho => exact .classObject (ho.mono hW)
  | object id ho => exact .object id (ho.mono hW)
  | nil => exact .nil
  | boolean b => exact .boolean b
  | number x => exact .number x
  | string s => exact .string s
  | native f => exact .native f

end Growth

section Functions

variable
  {gap : Gap}
  {f f' : FunctionDecl}

theorem FunctionDecl.Widened.name (h : f.Widened gap f') : f'.name = f.name := by
  cases h
  rfl

theorem FunctionDecl.Widened.parameters (h : f.Widened gap f') : f'.parameters = f.parameters := by
  cases h
  rfl

theorem FunctionDecl.Widened.isInitializer (h : f.Widened gap f') :
    f'.isInitializer = f.isInitializer := by
  simp only [FunctionDecl.isInitializer, h.name]

theorem FunctionDecl.Widened.arity (h : f.Widened gap f') : f'.arity = f.arity := by
  simp only [FunctionDecl.arity, h.parameters]

/-- The functions of two lists, one by one. -/
theorem FunctionDecl.WidenedAll.forall₂ :
    ∀ {fs fs' : List FunctionDecl}, FunctionDecl.WidenedAll gap fs fs' →
      List.Forall₂ (FunctionDecl.Widened gap) fs fs'
  | _, _, .nil => .nil
  | _, _, .cons hfirst hrest => .cons hfirst hrest.forall₂

end Functions

section Classes

variable
  {W : Pairing}

theorem ClassLayer.Widened.method?
    {layer layer' : ClassLayer}
    (h : layer.Widened W layer')
    (name : String) :
    Option.Rel (Method.Widened W) (layer.method? name) (layer'.method? name) := by
  obtain ⟨hframe, hmethods⟩ := h
  have hreverse := List.rel_reverse hmethods.forall₂
  unfold ClassLayer.method?
  dsimp only
  generalize List.reverse _ = fs at hreverse ⊢
  generalize List.reverse _ = fs' at hreverse ⊢
  induction hreverse with
  | nil => exact .none
  | @cons f f' fs fs' hf _ ih =>
      simp only [List.find?_cons, hf.name]
      cases f.name.lexeme == name with
      | true => exact .some (.mk hframe hf)
      | false => exact ih

theorem ClassObject.Widened.layers
    {o o' : ClassObject}
    (h : o.Widened W o') :
    List.Forall₂ (ClassLayer.Widened W) o.layers o'.layers := by
  cases h with
  | mk hown hinherited => exact .cons hown hinherited

theorem ClassObject.Widened.method?
    {o o' : ClassObject}
    (h : o.Widened W o')
    (name : String) :
    Option.Rel (Method.Widened W) (o.method? name) (o'.method? name) := by
  unfold ClassObject.method?
  have hlayers := h.layers
  generalize o.layers = layers at hlayers ⊢
  generalize o'.layers = layers' at hlayers ⊢
  induction hlayers with
  | nil => exact .none
  | @cons layer layer' _ _ hlayer _ ih =>
      have hmethod := hlayer.method? name
      simp only [List.findSome?_cons]
      generalize layer.method? name = found at hmethod ⊢
      generalize layer'.method? name = found' at hmethod ⊢
      cases hmethod with
      | none => exact ih
      | some hmethod => exact .some hmethod

theorem ClassObject.Widened.name
    {o o' : ClassObject}
    (h : o.Widened W o') :
    o'.own.name = o.own.name := by
  obtain ⟨⟨⟩, _⟩ := h
  rfl

theorem ClassObject.Widened.serial
    {o o' : ClassObject}
    (h : o.Widened W o') :
    o'.own.serial = o.own.serial := by
  obtain ⟨⟨⟩, _⟩ := h
  rfl

theorem ClassLayer.Widened.extending
    {layer layer' : ClassLayer}
    (h : layer.Widened W layer')
    {parent parent' : Option ClassObject}
    (hparent : Option.Rel (ClassObject.Widened W) parent parent') :
    (layer.extending parent).Widened W (layer'.extending parent') := by
  cases hparent with
  | none => exact .mk h .nil
  | some hparent => exact .mk h hparent.layers

end Classes

namespace Value.Widened

variable
  {W : Pairing}
  {v v' w w' : Value}

theorem text (h : v.Widened W v') : v'.text = v.text := by
  cases h with
  | function hf =>
      obtain ⟨_, _, hdeclaration⟩ := hf
      simp only [Value.text, hdeclaration.name]
  | classObject ho => exact ho.name
  | object id ho => exact congrArg (· ++ " instance") ho.name
  | _ => rfl

theorem isTruthy (h : v.Widened W v') : v'.isTruthy = v.isTruthy := by
  cases h <;> rfl

theorem equal
    (hv : v.Widened W v')
    (hw : w.Widened W w') :
    v'.equal w' = v.equal w := by
  cases hv with
  | function hf =>
      cases hw with
      | function hg =>
          cases hf
          cases hg
          rfl
      | _ => rfl
  | classObject ho =>
      cases hw with
      | classObject hp => simp only [Value.equal, ho.serial, hp.serial]
      | _ => rfl
  | _ => cases hw <;> rfl

theorem arity? (h : v.Widened W v') : v'.arity? = v.arity? := by
  cases h with
  | function hf =>
      obtain ⟨_, _, hdeclaration⟩ := hf
      exact congrArg some hdeclaration.arity
  | @classObject o o' ho =>
      have hmethod := ho.method? initializerName
      refine congrArg some ?_
      unfold ClassObject.arity
      generalize o.method? initializerName = found at hmethod ⊢
      generalize o'.method? initializerName = found' at hmethod ⊢
      cases hmethod with
      | none => rfl
      | some hmethod =>
          obtain ⟨_, hdeclaration⟩ := hmethod
          exact hdeclaration.arity
  | _ => rfl

theorem of_literal (l : Literal) : l.toValue.Widened W l.toValue := by
  cases l with
  | nil => exact .nil
  | boolean b => exact .boolean b
  | number x => exact .number x
  | string s => exact .string s

/-- The result of an operator is a value without code or a fault. -/
def Plain (W : Pairing) (r : Except RuntimeFault Value) : Prop :=
  ∀ v, r = .ok v → v.Widened W v

theorem plain_ok {v : Value} (h : v.Widened W v) : Plain W (.ok v) := by
  rintro _ ⟨⟩
  exact h

theorem plain_error (fault : RuntimeFault) : Plain W (.error fault) := nofun

theorem unary
    (h : v.Widened W v')
    (operator : Token) :
    v'.unary operator = v.unary operator ∧ Plain W (v.unary operator) := by
  unfold Value.unary
  rw [h.isTruthy]
  cases operator.kind with
  | minus =>
      cases h with
      | number x => exact ⟨rfl, plain_ok (.number _)⟩
      | _ => exact ⟨rfl, plain_error _⟩
  | bang => exact ⟨rfl, plain_ok (.boolean _)⟩
  | _ => exact ⟨rfl, plain_error _⟩

theorem onNumbers
    (hv : v.Widened W v')
    (hw : w.Widened W w')
    {f : Float → Float → Value}
    (hf : ∀ x y, Plain W (.ok (f x y))) :
    onNumbers f v' w' = onNumbers f v w ∧ Plain W (onNumbers f v w) := by
  cases hv with
  | number x =>
      cases hw with
      | number y => exact ⟨rfl, hf x y⟩
      | _ => exact ⟨rfl, plain_error _⟩
  | _ => exact ⟨rfl, plain_error _⟩

theorem add
    (hv : v.Widened W v')
    (hw : w.Widened W w') :
    v'.add w' = v.add w ∧ Plain W (v.add w) := by
  cases hv with
  | number x =>
      cases hw with
      | number y => exact ⟨rfl, plain_ok (.number _)⟩
      | string b => exact ⟨rfl, plain_ok (.string _)⟩
      | _ => exact ⟨rfl, plain_error _⟩
  | string a =>
      cases hw with
      | number y => exact ⟨rfl, plain_ok (.string _)⟩
      | string b => exact ⟨rfl, plain_ok (.string _)⟩
      | _ => exact ⟨rfl, plain_error _⟩
  | _ => exact ⟨by cases hw <;> rfl, by cases hw <;> exact plain_error _⟩

theorem binary
    (hv : v.Widened W v')
    (operator : Token)
    (hw : w.Widened W w') :
    v'.binary operator w' = v.binary operator w ∧ Plain W (v.binary operator w) := by
  have hnumber : ∀ x : Float, Plain W (.ok (.number x)) := fun x => plain_ok (.number x)
  have hboolean : ∀ b : Bool, Plain W (.ok (.boolean b)) := fun b => plain_ok (.boolean b)
  unfold Value.binary
  rw [hv.equal hw]
  cases operator.kind with
  | equalEqual => exact ⟨rfl, hboolean _⟩
  | bangEqual => exact ⟨rfl, hboolean _⟩
  | plus => exact hv.add hw
  | minus => exact hv.onNumbers hw fun _ _ => hnumber _
  | star => exact hv.onNumbers hw fun _ _ => hnumber _
  | slash => exact hv.onNumbers hw fun _ _ => hnumber _
  | greater => exact hv.onNumbers hw fun _ _ => hboolean _
  | greaterEqual => exact hv.onNumbers hw fun _ _ => hboolean _
  | less => exact hv.onNumbers hw fun _ _ => hboolean _
  | lessEqual => exact hv.onNumbers hw fun _ _ => hboolean _
  | _ => exact ⟨rfl, plain_error _⟩

theorem decides
    (h : v.Widened W v')
    (operator : Token) :
    v'.decides operator = v.decides operator := by
  simp only [Value.decides, h.isTruthy]

end Value.Widened

end Lox

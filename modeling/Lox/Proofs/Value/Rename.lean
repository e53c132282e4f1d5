import Lox.Proofs.Scope.Renamable
import Lox.Value.Operators

/-!
# Values of renamed programs

A function holds its code and the frame in which it was made, and which of the scopes around that
frame are marked decides what becomes of the code.  So a value and the value that it becomes are
compared under a marking of all frames.  More frames come into being while a program runs; the
marks of those that are there stay.

**Main definitions.**
* `Marking`: the marks of the scopes around every frame.
* `Value.Renamed`: a value and what becomes of it.

**Results.**
* `Value.Renamed.mono`: values stay related when frames are added.
* `Value.Renamed.text`, `Value.Renamed.binary`: what a program can find out about a value.
-/

namespace Lox

/-- For every frame by its number, which of the scopes around it are marked, its own first. -/
abbrev Marking := List (List Bool)

/-- A frame has these marks around it. -/
def Marking.Around (W : Marking) (frame : FrameId) (marks : List Bool) : Prop :=
  W[frame]? = some marks

theorem Marking.Around.mono
    {W W' : Marking}
    {frame : FrameId}
    {marks : List Bool}
    (h : W.Around frame marks)
    (hW : W <+: W') :
    W'.Around frame marks := by
  obtain ⟨rest, rfl⟩ := hW
  rw [Around, List.getElem?_append_left (List.getElem?_eq_some_iff.mp h).1]
  exact h

/-- The frames of a longer marking are the old ones and the new one. -/
theorem Marking.around_concat
    {W : Marking}
    {frame : FrameId}
    {marks added : List Bool} :
    Marking.Around (W ++ [added]) frame marks ↔
      W.Around frame marks ∨ frame = W.length ∧ marks = added := by
  unfold Around
  rcases Nat.lt_trichotomy frame W.length with hlt | rfl | hgt
  · simp [List.getElem?_append_left hlt, hlt.ne]
  · simp [eq_comm]
  · simp [hgt.ne', hgt.le, List.getElem?_append_right, Nat.sub_ne_zero_of_lt hgt]

section Definitions

variable (ρ : Renaming) (refers : Mentions) (W : Marking)

/-- A function that can be renamed, and the renamed one. -/
def FunctionDecl.Renamed (marks : List Bool) (f f' : FunctionDecl) : Prop :=
  ∃ t, f.Renamable ρ refers t marks ∧ f' = f.renamed ρ t marks

inductive Closure.Renamed : Closure → Closure → Prop
  | mk
      {serial : Nat}
      {declaration declaration' : FunctionDecl}
      {frame : FrameId}
      {isInitializer : Bool}
      {marks : List Bool} :
      W.Around frame marks → declaration.Renamed ρ refers marks declaration' →
        Closure.Renamed ⟨serial, declaration, frame, isInitializer⟩
          ⟨serial, declaration', frame, isInitializer⟩

/-- The methods of a class stand in the unmarked scope of the instance. -/
inductive ClassLayer.Renamed : ClassLayer → ClassLayer → Prop
  | mk
      {serial : Nat}
      {name : String}
      {methods methods' : List FunctionDecl}
      {frame : FrameId}
      {marks : List Bool} :
      W.Around frame marks → List.Forall₂ (FunctionDecl.Renamed ρ refers (false :: marks))
        methods methods' →
        ClassLayer.Renamed ⟨serial, name, methods, frame⟩ ⟨serial, name, methods', frame⟩

inductive ClassObject.Renamed : ClassObject → ClassObject → Prop
  | mk
      {own own' : ClassLayer}
      {inherited inherited' : List ClassLayer} :
      own.Renamed ρ refers W own' →
        List.Forall₂ (ClassLayer.Renamed ρ refers W) inherited inherited' →
        ClassObject.Renamed ⟨own, inherited⟩ ⟨own', inherited'⟩

inductive Method.Renamed : Method → Method → Prop
  | mk
      {declaration declaration' : FunctionDecl}
      {frame : FrameId}
      {marks : List Bool} :
      W.Around frame marks → declaration.Renamed ρ refers (false :: marks) declaration' →
        Method.Renamed ⟨declaration, frame⟩ ⟨declaration', frame⟩

/-- A value, and the value in its place when a renamed program runs. -/
inductive Value.Renamed : Value → Value → Prop
  | nil : Value.Renamed .nil .nil
  | boolean (b : Bool) : Value.Renamed (.boolean b) (.boolean b)
  | number (x : Float) : Value.Renamed (.number x) (.number x)
  | string (s : String) : Value.Renamed (.string s) (.string s)
  | native (f : Native) : Value.Renamed (.native f) (.native f)
  | function {f f' : Closure} : f.Renamed ρ refers W f' → Value.Renamed (.function f) (.function f')
  | classObject {o o' : ClassObject} :
      o.Renamed ρ refers W o' → Value.Renamed (.classObject o) (.classObject o')
  | object (id : InstanceId) {o o' : ClassObject} :
      o.Renamed ρ refers W o' → Value.Renamed (.object id o) (.object id o')

end Definitions

section Growth

variable
  {ρ : Renaming}
  {refers : Mentions}
  {W W' : Marking}

theorem Closure.Renamed.mono
    {f f' : Closure}
    (h : f.Renamed ρ refers W f')
    (hW : W <+: W') :
    f.Renamed ρ refers W' f' := by
  cases h with
  | mk hframe hdeclaration => exact .mk (hframe.mono hW) hdeclaration

theorem ClassLayer.Renamed.mono
    {layer layer' : ClassLayer}
    (h : layer.Renamed ρ refers W layer')
    (hW : W <+: W') :
    layer.Renamed ρ refers W' layer' := by
  cases h with
  | mk hframe hmethods => exact .mk (hframe.mono hW) hmethods

theorem ClassObject.Renamed.mono
    {o o' : ClassObject}
    (h : o.Renamed ρ refers W o')
    (hW : W <+: W') :
    o.Renamed ρ refers W' o' := by
  cases h with
  | mk hown hinherited => exact .mk (hown.mono hW) (hinherited.imp fun _ _ h => h.mono hW)

theorem Method.Renamed.mono
    {method method' : Method}
    (h : method.Renamed ρ refers W method')
    (hW : W <+: W') :
    method.Renamed ρ refers W' method' := by
  cases h with
  | mk hframe hdeclaration => exact .mk (hframe.mono hW) hdeclaration

/-- Values stay related when frames are added. -/
theorem Value.Renamed.mono
    {v v' : Value}
    (h : v.Renamed ρ refers W v')
    (hW : W <+: W') :
    v.Renamed ρ refers W' v' := by
  cases h with
  | function hf => exact .function (hf.mono hW)
  | classObject ho => exact .classObject (ho.mono hW)
  | object id ho => exact .object id (ho.mono hW)
  | nil => exact .nil
  | boolean b => exact .boolean b
  | number x => exact .number x
  | string s => exact .string s
  | native f => exact .native f

end Growth

section Functions

variable
  {ρ : Renaming}
  {refers : Mentions}
  {marks : List Bool}
  {f f' : FunctionDecl}

theorem FunctionDecl.Renamed.name (h : f.Renamed ρ refers marks f') : f'.name = f.name := by
  obtain ⟨t, _, rfl⟩ := h
  exact FunctionDecl.name_renamed ρ f t marks

theorem FunctionDecl.Renamed.isInitializer
    (h : f.Renamed ρ refers marks f') :
    f'.isInitializer = f.isInitializer := by
  obtain ⟨t, _, rfl⟩ := h
  exact FunctionDecl.isInitializer_renamed ρ f t marks

theorem FunctionDecl.Renamed.arity (h : f.Renamed ρ refers marks f') : f'.arity = f.arity := by
  obtain ⟨t, _, rfl⟩ := h
  obtain ⟨name, parameters, body⟩ := f
  exact List.length_map _

/-- The methods of a class, one by one. -/
theorem FunctionDecl.renamed_of_renamableAll :
    ∀ (fs : List FunctionDecl) (t : Trail), FunctionDecl.RenamableAll ρ refers fs t marks →
      List.Forall₂ (FunctionDecl.Renamed ρ refers marks) fs (FunctionDecl.renamedAll ρ fs t marks)
  | [], _, _ => .nil
  | _ :: fs, t, h =>
      .cons ⟨t.first, h.1, rfl⟩ (FunctionDecl.renamed_of_renamableAll fs t.others h.2)

end Functions

section Classes

variable
  {ρ : Renaming}
  {refers : Mentions}
  {W : Marking}

theorem ClassLayer.Renamed.method?
    {layer layer' : ClassLayer}
    (h : layer.Renamed ρ refers W layer')
    (name : String) :
    Option.Rel (Method.Renamed ρ refers W) (layer.method? name) (layer'.method? name) := by
  obtain ⟨hframe, hmethods⟩ := h
  have hreverse := List.rel_reverse hmethods
  unfold ClassLayer.method?
  dsimp only
  generalize List.reverse _ = fs at hreverse ⊢
  generalize List.reverse _ = fs' at hreverse ⊢
  induction hreverse with
  | nil => exact .none
  | @cons f f' fs fs' hf _ ih =>
      simp only [List.find?_cons, hf.name]
      cases f.name.lexeme == name with
      | true => exact .some (.mk hframe hf)
      | false => exact ih

theorem ClassObject.Renamed.layers
    {o o' : ClassObject}
    (h : o.Renamed ρ refers W o') :
    List.Forall₂ (ClassLayer.Renamed ρ refers W) o.layers o'.layers := by
  cases h with
  | mk hown hinherited => exact .cons hown hinherited

theorem ClassObject.Renamed.method?
    {o o' : ClassObject}
    (h : o.Renamed ρ refers W o')
    (name : String) :
    Option.Rel (Method.Renamed ρ refers W) (o.method? name) (o'.method? name) := by
  unfold ClassObject.method?
  have hlayers := h.layers
  generalize o.layers = layers at hlayers ⊢
  generalize o'.layers = layers' at hlayers ⊢
  induction hlayers with
  | nil => exact .none
  | @cons layer layer' _ _ hlayer _ ih =>
      have hmethod := hlayer.method? name
      simp only [List.findSome?_cons]
      generalize layer.method? name = found at hmethod ⊢
      generalize layer'.method? name = found' at hmethod ⊢
      cases hmethod with
      | none => exact ih
      | some hmethod => exact .some hmethod

theorem ClassObject.Renamed.name
    {o o' : ClassObject}
    (h : o.Renamed ρ refers W o') :
    o'.own.name = o.own.name := by
  obtain ⟨⟨⟩, _⟩ := h
  rfl

theorem ClassObject.Renamed.serial
    {o o' : ClassObject}
    (h : o.Renamed ρ refers W o') :
    o'.own.serial = o.own.serial := by
  obtain ⟨⟨⟩, _⟩ := h
  rfl

theorem ClassLayer.Renamed.extending
    {layer layer' : ClassLayer}
    (h : layer.Renamed ρ refers W layer')
    {parent parent' : Option ClassObject}
    (hparent : Option.Rel (ClassObject.Renamed ρ refers W) parent parent') :
    (layer.extending parent).Renamed ρ refers W (layer'.extending parent') := by
  cases hparent with
  | none => exact .mk h .nil
  | some hparent => exact .mk h hparent.layers

end Classes

namespace Value.Renamed

variable
  {ρ : Renaming}
  {refers : Mentions}
  {W : Marking}
  {v v' w w' : Value}

theorem text (h : v.Renamed ρ refers W v') : v'.text = v.text := by
  cases h with
  | function hf =>
      obtain ⟨_, hdeclaration⟩ := hf
      simp only [Value.text, hdeclaration.name]
  | classObject ho => exact ho.name
  | object id ho => exact congrArg (· ++ " instance") ho.name
  | _ => rfl

theorem isTruthy (h : v.Renamed ρ refers W v') : v'.isTruthy = v.isTruthy := by
  cases h <;> rfl

theorem equal
    (hv : v.Renamed ρ refers W v')
    (hw : w.Renamed ρ refers W w') :
    v'.equal w' = v.equal w := by
  cases hv with
  | function hf =>
      cases hw with
      | function hg =>
          obtain ⟨_, _⟩ := hf
          obtain ⟨_, _⟩ := hg
          rfl
      | _ => rfl
  | classObject ho =>
      cases hw with
      | classObject hp => simp only [Value.equal, ho.serial, hp.serial]
      | _ => rfl
  | _ => cases hw <;> rfl

theorem arity? (h : v.Renamed ρ refers W v') : v'.arity? = v.arity? := by
  cases h with
  | function hf =>
      obtain ⟨_, hdeclaration⟩ := hf
      exact congrArg some hdeclaration.arity
  | @classObject o o' ho =>
      have hmethod := ho.method? initializerName
      refine congrArg some ?_
      unfold ClassObject.arity
      generalize o.method? initializerName = found at hmethod ⊢
      generalize o'.method? initializerName = found' at hmethod ⊢
      cases hmethod with
      | none => rfl
      | some hmethod =>
          obtain ⟨_, hdeclaration⟩ := hmethod
          exact hdeclaration.arity
  | _ => rfl

theorem of_literal (l : Literal) : l.toValue.Renamed ρ refers W l.toValue := by
  cases l with
  | nil => exact .nil
  | boolean b => exact .boolean b
  | number x => exact .number x
  | string s => exact .string s

/-- The result of an operator: a value that holds no code, or a fault that names no variable. -/
def Plain (ρ : Renaming) (refers : Mentions) (W : Marking) : Except RuntimeFault Value → Prop
  | .ok v => v.Renamed ρ refers W v
  | .error fault => ∀ name, fault ≠ .undefinedVariable name

theorem unary
    (h : v.Renamed ρ refers W v')
    (operator : Token) :
    v'.unary operator = v.unary operator ∧ Plain ρ refers W (v.unary operator) := by
  unfold Value.unary
  rw [h.isTruthy]
  cases operator.kind with
  | minus =>
      cases h with
      | number x => exact ⟨rfl, .number _⟩
      | _ => exact ⟨rfl, nofun⟩
  | bang => exact ⟨rfl, .boolean _⟩
  | _ => exact ⟨rfl, nofun⟩

theorem onNumbers
    (hv : v.Renamed ρ refers W v')
    (hw : w.Renamed ρ refers W w')
    {f : Float → Float → Value}
    (hf : ∀ x y, Plain ρ refers W (.ok (f x y))) :
    onNumbers f v' w' = onNumbers f v w ∧ Plain ρ refers W (onNumbers f v w) := by
  cases hv with
  | number x =>
      cases hw with
      | number y => exact ⟨rfl, hf x y⟩
      | _ => exact ⟨rfl, nofun⟩
  | _ => exact ⟨rfl, nofun⟩

theorem add
    (hv : v.Renamed ρ refers W v')
    (hw : w.Renamed ρ refers W w') :
    v'.add w' = v.add w ∧ Plain ρ refers W (v.add w) := by
  cases hv with
  | number x =>
      cases hw with
      | number y => exact ⟨rfl, .number _⟩
      | string b => exact ⟨rfl, .string _⟩
      | _ => exact ⟨rfl, nofun⟩
  | string a =>
      cases hw with
      | number y => exact ⟨rfl, .string _⟩
      | string b => exact ⟨rfl, .string _⟩
      | _ => exact ⟨rfl, nofun⟩
  | _ => exact ⟨by cases hw <;> rfl, by cases hw <;> exact nofun⟩

theorem binary
    (hv : v.Renamed ρ refers W v')
    (operator : Token)
    (hw : w.Renamed ρ refers W w') :
    v'.binary operator w' = v.binary operator w ∧ Plain ρ refers W (v.binary operator w) := by
  unfold Value.binary
  rw [hv.equal hw]
  cases operator.kind with
  | equalEqual => exact ⟨rfl, .boolean _⟩
  | bangEqual => exact ⟨rfl, .boolean _⟩
  | plus => exact hv.add hw
  | minus => exact hv.onNumbers hw fun _ _ => .number _
  | star => exact hv.onNumbers hw fun _ _ => .number _
  | slash => exact hv.onNumbers hw fun _ _ => .number _
  | greater => exact hv.onNumbers hw fun _ _ => .boolean _
  | greaterEqual => exact hv.onNumbers hw fun _ _ => .boolean _
  | less => exact hv.onNumbers hw fun _ _ => .boolean _
  | lessEqual => exact hv.onNumbers hw fun _ _ => .boolean _
  | _ => exact ⟨rfl, nofun⟩

theorem decides
    (h : v.Renamed ρ refers W v')
    (operator : Token) :
    v'.decides operator = v.decides operator := by
  simp only [Value.decides, h.isTruthy]

end Value.Renamed

end Lox

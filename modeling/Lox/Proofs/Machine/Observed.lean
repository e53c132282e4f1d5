import Lox.Proofs.Machine.Closed

/-!
# What code can tell about machines

A program sees the texts that are printed, the names that are bound and the values under them, and
of a function or a class only which one it is.  What it does when it is called shows later.  So two
runs are *indistinguishable* from some frames if they show the same there, and go on doing so
whatever code is executed in these frames afterwards, piece by piece.

**Main definitions.**
* `Machine.shown`: what shows of a machine, with the bindings of its first frames.
* `Indistinguishable`: two results that no later code tells apart.

**Result.**
* `ResultWidened.indistinguishable`: runs that correspond are indistinguishable from the frames that
  stand for themselves.
-/

namespace Lox

/--
What shows of a layer of a class: which one it is, and the names and parameters of its methods.
-/
structure LayerFace where
  serial : Nat
  name : String
  methods : List (Token × List Token)

/-- What shows of a value without calling it. -/
inductive Face
  | nil
  | boolean (b : Bool)
  | number (x : Float)
  | string (s : String)
  | native (f : Native)
  | function (serial : Nat) (name : Token) (parameters : List Token) (isInitializer : Bool)
  | classObject (layers : List LayerFace)
  | object (id : InstanceId) (layers : List LayerFace)

def ClassLayer.face (layer : ClassLayer) : LayerFace :=
  ⟨layer.serial, layer.name, layer.methods.map fun f => (f.name, f.parameters)⟩

def Value.face : Value → Face
  | .nil => .nil
  | .boolean b => .boolean b
  | .number x => .number x
  | .string s => .string s
  | .native f => .native f
  | .function f => .function f.serial f.declaration.name f.declaration.parameters f.isInitializer
  | .classObject o => .classObject (o.layers.map ClassLayer.face)
  | .object id o => .object id (o.layers.map ClassLayer.face)

/-- A name, what shows of its value, and whether it is a constant. -/
def Slot.shown (slot : Slot) : String × Face × Bool :=
  (slot.name, slot.value.face, slot.constant)

/-- What shows of a machine. -/
structure Shown where
  printed : Array String
  clock : List Float
  /-- The serial number of the function or class that is made next. -/
  serial : Nat
  /-- The bindings of the frames from which the machine is seen. -/
  bindings : List (Option (List (String × Face × Bool)))
  fields : Array (List (String × Face))

/-- What shows of a machine from its first frames, as many as are given. -/
def Machine.shown (outside : Nat) (m : Machine) : Shown where
  printed := m.printed
  clock := m.clock
  serial := m.serial
  bindings := (List.range outside).map fun id =>
    (m.store.frame? id).map fun frame => frame.slots.map Slot.shown
  fields := m.fields.map fun fields => fields.map fun field => (field.1, field.2.face)

/-- How a statement ends. -/
inductive Finish
  | completed (returned : Option Face)
  | failed (e : RuntimeError)
  /-- A link leads farther than there are frames. -/
  | strayed
  | unfinished

/-- What shows of a result, and the machine that is left. -/
def finishOf : EStateM.Result Interrupt Machine Completion → Finish × Machine
  | .ok returned m => (.completed (returned.map Value.face), m)
  | .error (.error e) m => (.failed e, m)
  | .error (.shortChain _) m => (.strayed, m)
  | .error .unfinished m => (.unfinished, m)

/-- A piece of code that is executed later, whether or not the code before has failed. -/
structure LaterCode where
  frame : FrameId
  rounds : Nat
  room : Nat
  code : Stmt

/-- What shows of a result, and of what later pieces of code lead to, one after the other. -/
def observations (outside : Nat) :
    List LaterCode → EStateM.Result Interrupt Machine Completion → List (Finish × Shown)
  | [], r => [((finishOf r).1, (finishOf r).2.shown outside)]
  | piece :: later, r =>
      ((finishOf r).1, (finishOf r).2.shown outside) ::
        observations outside later
          (Run.execute piece.rounds piece.room piece.frame piece.code (finishOf r).2)

/-- Whatever is executed later in the first frames, as many as are given, shows the same. -/
def Indistinguishable (outside : Nat) (r r' : EStateM.Result Interrupt Machine Completion) : Prop :=
  ∀ later : List LaterCode, (∀ piece ∈ later, piece.frame < outside) →
    observations outside later r' = observations outside later r

section Correspondence

variable
  {W : Pairing}

theorem FunctionDecl.WidenedAll.signatures :
    ∀ {gap : Gap} {fs fs' : List FunctionDecl}, FunctionDecl.WidenedAll gap fs fs' →
      (fs'.map fun f => (f.name, f.parameters)) = fs.map fun f => (f.name, f.parameters)
  | _, _, _, .nil => rfl
  | _, _, _, .cons hfirst hrest => by
      simp only [List.map_cons, hfirst.name, hfirst.parameters, hrest.signatures]

theorem ClassLayer.Widened.face {layer layer' : ClassLayer} (h : layer.Widened W layer') :
    layer'.face = layer.face := by
  cases h with
  | mk _ hmethods => simp only [ClassLayer.face, hmethods.signatures]

/-- Related lists give the same list if related members give the same. -/
theorem map_eq_of_forall₂
    {α β γ : Type}
    {R : α → β → Prop}
    {f : α → γ}
    {g : β → γ}
    (hR : ∀ a b, R a b → g b = f a)
    {l : List α}
    {l' : List β}
    (h : List.Forall₂ R l l') :
    l'.map g = l.map f := by
  induction h with
  | nil => rfl
  | cons hab _ ih => rw [List.map_cons, List.map_cons, hR _ _ hab, ih]

theorem ClassObject.Widened.face {o o' : ClassObject} (h : o.Widened W o') :
    o'.layers.map ClassLayer.face = o.layers.map ClassLayer.face :=
  map_eq_of_forall₂ (fun _ _ hlayer => hlayer.face) h.layers

theorem Value.Widened.face {v v' : Value} (h : v.Widened W v') : v'.face = v.face := by
  cases h with
  | function hf =>
      obtain ⟨_, _, hdeclaration⟩ := hf
      simp only [Value.face, hdeclaration.name, hdeclaration.parameters]
  | classObject ho => simp only [Value.face, ho.face]
  | object id ho => simp only [Value.face, ho.face]
  | _ => rfl

theorem Slot.Widened.shown {slot slot' : Slot} (h : slot.Widened W slot') :
    slot'.shown = slot.shown := by
  simp only [Slot.shown, h.name, h.value.face, h.constant]

/-- Machines that correspond show the same from the frames that stand for themselves. -/
theorem Machine.Widened.shown
    {m m' : Machine}
    (h : m.Widened W m')
    {outside : Nat}
    (hW : Pairing.identity outside <+: W) :
    m'.shown outside = m.shown outside := by
  have hbindings : ∀ id ∈ List.range outside,
      (m'.store.frame? id).map (fun frame => frame.slots.map Slot.shown) =
        (m.store.frame? id).map fun frame => frame.slots.map Slot.shown := by
    intro id hid
    have hpairs := (Pairing.pairs_identity_self (List.mem_range.mp hid)).mono hW
    obtain ⟨f, f', hf, hf', hframe⟩ := h.store.frame hpairs (Gap.none_ne 0)
    rw [hf, hf', Option.map_some, Option.map_some,
      map_eq_of_forall₂ (fun _ _ hslot => hslot.shown) hframe.slots]
  have hfields : m'.fields.map (fun fields => fields.map fun field => (field.1, field.2.face)) =
      m.fields.map fun fields => fields.map fun field => (field.1, field.2.face) := by
    refine Array.ext_getElem? fun id => ?_
    rw [Array.getElem?_map, Array.getElem?_map]
    have hrelated := h.fields id
    generalize m.fields[id]? = fields at hrelated ⊢
    generalize m'.fields[id]? = fields' at hrelated ⊢
    cases hrelated with
    | none => rfl
    | some hrelated =>
        rw [Option.map_some, Option.map_some, map_eq_of_forall₂ (fun _ _ hb => ?_) hrelated]
        rw [hb.1, hb.2.face]
  simp only [Machine.shown, h.printed, h.clock, h.serial, hfields, List.map_congr_left hbindings]

/-- Runs that correspond end alike, and leave machines that correspond. -/
theorem ResultWidened.finishOf
    {r r' : EStateM.Result Interrupt Machine Completion}
    (h : ResultWidened W Completion.Widened r r') :
    (finishOf r').1 = (finishOf r).1
      ∧ ∃ W', W <+: W' ∧ (Lox.finishOf r).2.Widened W' (Lox.finishOf r').2 := by
  cases h with
  | ok hW hR hm =>
      refine ⟨?_, _, hW, hm⟩
      cases hR with
      | none => rfl
      | some hv => simp only [Lox.finishOf, Option.map_some, hv.face]
  | @error W' interrupt interrupt' m m' hW hinterrupt hm =>
      cases hinterrupt with
      | same => cases interrupt <;> exact ⟨rfl, W', hW, hm⟩
      | shortChain => exact ⟨rfl, W', hW, hm⟩

/-- Runs that correspond are indistinguishable from the frames that stand for themselves. -/
theorem ResultWidened.indistinguishable
    {outside : Nat}
    (hW : Pairing.identity outside <+: W)
    {r r' : EStateM.Result Interrupt Machine Completion}
    (h : ResultWidened W Completion.Widened r r') :
    Indistinguishable outside r r' := by
  intro later hlater
  induction later generalizing W r r' with
  | nil =>
      obtain ⟨hfinish, W', hgrowth, hm⟩ := h.finishOf
      simp only [observations, hfinish, hm.shown (hW.trans hgrowth)]
  | cons piece later ih =>
      obtain ⟨hfinish, W', hgrowth, hm⟩ := h.finishOf
      obtain ⟨hpiece, hlater⟩ := List.forall_mem_cons.mp hlater
      have hframe := (Pairing.pairs_identity_self hpiece).mono (hW.trans hgrowth)
      have hnext := Run.execute_widened piece.rounds piece.room hframe
        piece.code.widened_refl _ _ hm
      simp only [observations, hfinish, hm.shown (hW.trans hgrowth),
        ih (hW.trans hgrowth) hnext hlater]

end Correspondence

end Lox

import Lox.Proofs.Machine.Steps

/-!
# Frames keep their names

No frame ever loses a name.  Code that is executed in a frame adds names to no other frame that was
there before, and to its own frame only those of the declarations that stand in it directly: what a
block, a function or a method declares goes to a frame of its own, and an assignment adds nothing.

All this is proved for every tree, every machine and every way in which code can end.

**Main definitions.**
* `Stmt.declares`: the names that a statement declares in its own frame.
* `Confined`: what happens to the names of all frames while code is executed in one of them.

**Results.**
* `Code.confined_evaluate`, `Code.confined_execute`: all code is confined to its frame.
-/

namespace Lox

/-- The names that a statement declares in the frame in which it is executed. -/
def Stmt.declares : Stmt → List String
  | .funDecl declaration => [declaration.name.lexeme]
  | .classDecl name _ _ => [name.lexeme]
  | .varDecl name _ => [name.lexeme]
  | .constDecl name _ => [name.lexeme]
  | .ifStmt _ thenBranch none => thenBranch.declares
  | .ifStmt _ thenBranch (some elseBranch) => thenBranch.declares ++ elseBranch.declares
  | .whileStmt _ body => body.declares
  | .block _ => []
  | .exprStmt _ => []
  | .printStmt _ => []
  | .returnStmt _ _ => []

/-- A frame binds a name. -/
def Store.Holds (store : Store) (f : FrameId) (name : String) : Prop :=
  (store.slot? f name).isSome

/-- No frame has lost a name. -/
def Store.Retains (store store' : Store) : Prop :=
  ∀ f name, store.Holds f name → store'.Holds f name

/--
Code that is executed in a frame leads through moments to another machine: no frame loses a name at
any time, the frames that were there get the names that declarations bind in them, and declarations
bind names in that one frame only, and only those given.
-/
structure Confined
    (frame : FrameId)
    (direct : List String)
    (m : Machine)
    (L : History)
    (m' : Machine) : Prop where
  size : m.store.nextId ≤ m'.store.nextId
  retains : m.store.Retains m'.store
  moments : ∀ x ∈ L, m.store.Retains x.machine.store ∧ x.machine.store.Retains m'.store
  names : ∀ f < m.store.nextId, ∀ name,
    m'.store.Holds f name ↔ m.store.Holds f name ∨ Binds L f name
  binds : ∀ f < m.store.nextId, ∀ name, Binds L f name → f = frame ∧ name ∈ direct

namespace Confined

variable {frame : FrameId} {direct : List String} {m m₁ m₂ : Machine} {L₁ L₂ : History}

/-- Code that does nothing leaves all frames as they are. -/
theorem refl (frame : FrameId) (direct : List String) (m : Machine) :
    Confined frame direct m [] m where
  size := le_rfl
  retains _ _ h := h
  moments _ h := absurd h List.not_mem_nil
  names _ _ _ := (or_iff_left (binds_nil _ _)).symm
  binds _ _ _ h := absurd h (binds_nil _ _)

/-- Two runs one after the other bind only what one of them binds directly. -/
theorem trans
    (h₁ : Confined frame direct m L₁ m₁)
    (h₂ : Confined frame direct m₁ L₂ m₂) :
    Confined frame direct m (L₁ ++ L₂) m₂ where
  size := h₁.size.trans h₂.size
  retains f name h := h₂.retains f name (h₁.retains f name h)
  moments x hx := by
    rcases List.mem_append.mp hx with hx | hx
    · obtain ⟨hbefore, hafter⟩ := h₁.moments x hx
      exact ⟨hbefore, fun f name h => h₂.retains f name (hafter f name h)⟩
    · obtain ⟨hbefore, hafter⟩ := h₂.moments x hx
      exact ⟨fun f name h => hbefore f name (h₁.retains f name h), hafter⟩
  names f hf name := by
    rw [h₂.names f (hf.trans_le h₁.size), h₁.names f hf, binds_append, or_assoc]
  binds f hf name hbinds := by
    rcases binds_append.mp hbinds with hbinds | hbinds
    · exact h₁.binds f hf name hbinds
    · exact h₂.binds f (hf.trans_le h₁.size) name hbinds

/-- More names may be bound directly. -/
theorem mono
    {direct' : List String}
    (h : Confined frame direct m L₁ m₁)
    (hsub : direct ⊆ direct') :
    Confined frame direct' m L₁ m₁ :=
  { h with binds := fun f hf name hbinds => (h.binds f hf name hbinds).imp_right fun hn => hsub hn }

/-- A change of the machine that leaves the names of all frames alone. -/
theorem of_same_names
    (hsize : m₁.store.nextId = m.store.nextId)
    (hnames : ∀ f name, m₁.store.Holds f name ↔ m.store.Holds f name) :
    Confined frame direct m [] m₁ where
  size := hsize.ge
  retains f name := (hnames f name).mpr
  moments _ h := absurd h List.not_mem_nil
  names f _ name := (hnames f name).trans (or_iff_left (binds_nil _ _)).symm
  binds _ _ _ h := absurd h (binds_nil _ _)

end Confined

/-- Wherever its frame is there, code is confined to the frame. -/
def ConfinedCode
    {α : Type}
    (frame : FrameId)
    (direct : List String)
    (x : Recorded α) : Prop :=
  ∀ m : Machine, frame < m.store.nextId → Confined frame direct m (x m).1 (x.final m)

namespace ConfinedCode

variable {α β : Type} {frame : FrameId} {direct : List String}

theorem mono
    {direct' : List String}
    {x : Recorded α}
    (h : ConfinedCode frame direct x)
    (hsub : direct ⊆ direct') :
    ConfinedCode frame direct' x :=
  fun m hm => (h m hm).mono hsub

theorem pure (a : α) : ConfinedCode frame direct (Pure.pure a) :=
  fun m _ => .refl frame direct m

theorem bind
    {x : Recorded α}
    {f : α → Recorded β}
    (hx : ConfinedCode frame direct x)
    (hf : ∀ a, ConfinedCode frame direct (f a)) :
    ConfinedCode frame direct (x >>= f) := by
  intro m hm
  have h := hx m hm
  change Confined frame direct m (Recorded.andThen x f m).1
    (Recorded.final (Recorded.andThen x f) m)
  simp only [Recorded.andThen, Recorded.final] at h ⊢
  cases hresult : (x m).2 with
  | ok a m₁ =>
      rw [hresult] at h
      exact h.trans (hf a m₁ (hm.trans_le h.size))
  | error interrupt m₁ =>
      rw [hresult] at h
      exact h

theorem map
    {x : Recorded α}
    (hx : ConfinedCode frame direct x)
    (f : α → β) :
    ConfinedCode frame direct (f <$> x) :=
  hx.bind fun a => .pure (f a)

/-- Taking note of something that binds no name. -/
theorem note
    {act : Act}
    (hact : ∀ f name constant, act ≠ .binds f name constant) :
    ConfinedCode frame direct (Watch.note act) := by
  intro m _
  have hnone : ∀ f name, ¬ Binds [⟨m, act⟩] f name := by
    rintro f name ⟨x, hx, constant, hbinds⟩
    cases List.mem_singleton.mp hx
    exact hact f name constant hbinds
  refine ⟨le_rfl, fun _ _ h => h, fun x hx => ?_, fun f _ name => ?_, fun f _ name h => ?_⟩
  · cases List.mem_singleton.mp hx
    exact ⟨fun _ _ h => h, fun _ _ h => h⟩
  · exact (or_iff_left (hnone f name)).symm
  · exact absurd h (hnone f name)

end ConfinedCode

section Operations

variable {α : Type}

/-- The machine that a run leaves, however it ends. -/
def Run.leaves (x : Run α) (m : Machine) : Machine :=
  match x m with
  | .ok _ m' => m'
  | .error _ m' => m'

/-- Code that only looks leaves the machine that it starts from. -/
theorem Looks.leaves
    {x : Run α}
    {m : Machine}
    {P : α → Prop}
    {E : Interrupt → Prop}
    (h : Looks x m P E) :
    x.leaves m = m := by
  unfold Run.leaves
  cases hx : x m with
  | ok a m' => exact (h.1 a m' hx).1
  | error interrupt m' => exact (h.2 interrupt m' hx).1

/-- The frames are the same, and they bind the same names. -/
def Store.SameNames (store store' : Store) : Prop :=
  store'.nextId = store.nextId ∧ ∀ f name, store'.Holds f name ↔ store.Holds f name

theorem Store.SameNames.refl (store : Store) : store.SameNames store :=
  ⟨rfl, fun _ _ => Iff.rfl⟩

/-- A slot that is there can be given any value. -/
theorem Store.sameNames_update
    {store : Store}
    {f : FrameId}
    {name : String}
    {slot : Slot}
    (hslot : store.slot? f name = some slot)
    (value : Value) :
    store.SameNames (store.update f slot value) := by
  refine ⟨store.nextId_update f slot value, fun g n => ?_⟩
  rw [Holds, Holds, Store.slot?_update store (Store.lt_nextId_of_slot? hslot),
    Store.name_of_slot? hslot]
  split
  · next h =>
      obtain ⟨rfl, rfl⟩ := h
      rw [hslot]
      exact iff_of_true rfl rfl
  · exact Iff.rfl

/-- Where a name is located, its slot stands in the store. -/
theorem Run.looks_locate_slot
    (m : Machine)
    (frame : FrameId)
    (name : Token)
    (link : Link) :
    Looks (locate frame name link) m
      (fun found => m.store.slot? found.1 name.lexeme = some found.2) fun _ => True := by
  unfold locate
  cases link.depth with
  | some distance =>
      exact looks_mono (looks_findAt m frame distance name.lexeme name) (fun _ h => h.2)
        fun _ _ => trivial
  | none =>
      refine looks_bind (looks_get m) fun m' hm' => looks_ofAccess name (fun found hfound => ?_)
        (fun _ _ => trivial) fun _ _ => trivial
      subst hm'
      exact Store.slot?_of_find hfound

theorem Run.looks_readName
    (m : Machine)
    (frame : FrameId)
    (name : Token)
    (link : Link) :
    Looks (readName frame name link) m (fun _ => True) fun _ => True :=
  looks_bind (Run.looks_locate_slot m frame name link) fun _ _ => looks_pure trivial

theorem Run.looks_getAt
    (m : Machine)
    (frame : FrameId)
    (distance : Nat)
    (name : String)
    (place : Token) :
    Looks (getAt frame distance name place) m (fun _ => True) fun _ => True :=
  looks_mono
    (looks_bind (looks_findAt m frame distance name place) fun _ _ => looks_pure trivial)
    (fun _ h => h) fun _ _ => trivial

theorem Run.looks_isConstant
    (m : Machine)
    (target : Reference) :
    Looks (isConstant target) m (fun _ => True) fun _ => True := by
  unfold isConstant
  split
  · exact looks_pure trivial
  · split
    · exact looks_pure trivial
    · exact looks_bind (looks_get m) fun _ _ => looks_pure trivial

theorem Run.looks_field?
    (m : Machine)
    (id : InstanceId)
    (name : String) :
    Looks (field? id name) m (fun _ => True) fun _ => True :=
  looks_bind (looks_get m) fun _ _ => looks_pure trivial

/-- An assignment gives a value to a name that is there. -/
theorem Run.sameNames_assignName
    (m : Machine)
    (frame : FrameId)
    (target : Reference)
    (value : Value) :
    m.store.SameNames ((assignName frame target value).leaves m).store := by
  have hlook := Run.looks_locate_slot m frame target.name target.link
  cases hout : locate frame target.name target.link m with
  | ok found m' =>
      obtain ⟨rfl, hslot⟩ := hlook.1 found m' hout
      rw [Run.leaves, assignName, Run.bind_of_ok hout]
      exact Store.sameNames_update hslot value
  | error interrupt m' =>
      obtain ⟨rfl, -⟩ := hlook.2 interrupt m' hout
      rw [Run.leaves, assignName, Run.bind_of_error hout]
      exact .refl _

/-- Reassignment keeps the names of all frames, also where it fails. -/
theorem Run.sameNames_reassign
    (m : Machine)
    (frame : FrameId)
    (name : Token)
    (value : Value) :
    m.store.SameNames ((reassign frame name value).leaves m).store := by
  have hrun : reassign frame name value m =
      (ofAccess name (m.store.find frame name.lexeme) >>= fun found =>
        update found.1 found.2 value) m := rfl
  have hlook : Looks (ofAccess name (m.store.find frame name.lexeme)) m
      (fun found => m.store.slot? found.1 name.lexeme = some found.2) fun _ => True :=
    looks_ofAccess name (fun _ => Store.slot?_of_find) (fun _ _ => trivial) fun _ _ => trivial
  rw [Run.leaves, hrun]
  cases hout : ofAccess name (m.store.find frame name.lexeme) m with
  | ok found m' =>
      obtain ⟨rfl, hslot⟩ := hlook.1 found m' hout
      rw [Run.bind_of_ok hout]
      exact Store.sameNames_update hslot value
  | error interrupt m' =>
      obtain ⟨rfl, -⟩ := hlook.2 interrupt m' hout
      rw [Run.bind_of_error hout]
      exact .refl _

end Operations

namespace ConfinedCode

variable {α β : Type} {frame : FrameId} {direct : List String}

/-- An operation that changes no names. -/
theorem perform
    {x : Run α}
    (h : ∀ m : Machine, m.store.SameNames (x.leaves m).store) :
    ConfinedCode frame direct (Watch.perform x) :=
  fun m _ => .of_same_names (h m).1 (h m).2

/-- An operation that only looks something up. -/
theorem look
    {x : Run α}
    {P : α → Prop}
    {E : Interrupt → Prop}
    (h : ∀ m, Looks x m P E) :
    ConfinedCode frame direct (Watch.perform x) :=
  .perform fun m => (h m).leaves.symm ▸ .refl _

/-- An operation that leaves the frames alone. -/
theorem aside
    {x : Run α}
    (h : ∀ m : Machine, (x.leaves m).store = m.store) :
    ConfinedCode frame direct (Watch.perform x) :=
  .perform fun m => (h m).symm ▸ .refl _

theorem stop (interrupt : Interrupt) :
    ConfinedCode frame direct (Watch.perform (throw interrupt : Run α)) :=
  .aside fun _ => rfl

theorem fail
    (fault : RuntimeFault)
    (place : Token) :
    ConfinedCode frame direct (Watch.perform (Run.fail fault place : Run α)) :=
  .stop _

theorem ofExcept
    (place : Token)
    (result : Except RuntimeFault α) :
    ConfinedCode frame direct (Watch.perform (Run.ofExcept place result)) := by
  cases result with
  | ok a => exact .aside fun _ => rfl
  | error fault => exact .fail fault place

/-- Code in a frame of its own adds names to no frame that was there. -/
theorem openFrame_bind
    (opening : Opening)
    (enclosing : FrameId)
    (bindings : List (String × Value))
    (inner : List String)
    {f : FrameId → Recorded β}
    (hf : ∀ new, ConfinedCode new inner (f new)) :
    ConfinedCode frame direct (Code.openFrame opening enclosing bindings >>= f) := by
  intro m hm
  let x : Moment := ⟨m, .opens opening⟩
  let m₁ : Machine :=
    { m with store := (m.store.extend (some enclosing)).defineAll m.store.nextId bindings }
  have hid : m.store.nextId < (m.store.extend (some enclosing)).nextId := by simp
  have hsize : m.store.nextId < m₁.store.nextId := by simp [m₁]
  have hslot : ∀ g, g ≠ m.store.nextId → ∀ name, m₁.store.slot? g name = m.store.slot? g name := by
    intro g hg name
    simp only [m₁]
    rw [Store.slot?_defineAll_of_ne _ hid (Ne.symm hg), Store.slot?_extend]
  have hretains : m.store.Retains m₁.store := by
    intro g name h
    have hg : g ≠ m.store.nextId := by
      rintro rfl
      rw [Store.Holds, Store.slot?_of_nextId_le _ le_rfl] at h
      cases h
    rwa [Store.Holds, hslot g hg]
  have hbinds : ∀ L g name, Binds (x :: L) g name ↔ Binds L g name := by
    intro L g name
    rw [← List.singleton_append, binds_append]
    refine or_iff_right ?_
    rintro ⟨y, hy, constant, hact⟩
    cases List.mem_singleton.mp hy
    cases hact
  have hrest := hf m.store.nextId m₁ hsize
  have hhistory : (Code.openFrame opening enclosing bindings >>= f : Recorded β) m =
      (x :: (f m.store.nextId m₁).1, (f m.store.nextId m₁).2) := rfl
  rw [hhistory, show (Code.openFrame opening enclosing bindings >>= f : Recorded β).final m =
    (f m.store.nextId).final m₁ from rfl]
  refine ⟨hsize.le.trans hrest.size, fun g name h => hrest.retains g name (hretains g name h),
    fun y hy => ?_, fun g hg name => ?_, fun g hg name h => ?_⟩
  · rcases List.mem_cons.mp hy with rfl | hy
    · exact ⟨fun _ _ h => h, fun g name h => hrest.retains g name (hretains g name h)⟩
    · obtain ⟨hbefore, hafter⟩ := hrest.moments y hy
      exact ⟨fun g name h => hbefore g name (hretains g name h), hafter⟩
  · rw [hrest.names g (hg.trans hsize), hbinds, Store.Holds, hslot g (Nat.ne_of_lt hg)]
    rfl
  · exact absurd (hrest.binds g (hg.trans hsize) name ((hbinds _ _ _).mp h)).1 (Nat.ne_of_lt hg)

/-- A declaration binds its name in its own frame. -/
theorem bindDeclared
    (name : Token)
    (value : Value)
    (constant : Bool) :
    ConfinedCode frame [name.lexeme] (Code.bindDeclared frame name value constant) := by
  intro m hm
  let x : Moment := ⟨m, .binds frame name.lexeme constant⟩
  let m₁ : Machine := { m with store := m.store.define frame name.lexeme value constant }
  have hbinds : ∀ g n, Binds [x] g n ↔ frame = g ∧ name.lexeme = n := by
    intro g n
    constructor
    · rintro ⟨y, hy, c, hact⟩
      cases List.mem_singleton.mp hy
      cases hact
      exact ⟨rfl, rfl⟩
    · rintro ⟨rfl, rfl⟩
      exact ⟨x, List.mem_singleton_self x, constant, rfl⟩
  have hholds : ∀ g n, m₁.store.Holds g n ↔ m.store.Holds g n ∨ Binds [x] g n := by
    intro g n
    rw [hbinds, Store.Holds, Store.slot?_define m.store hm]
    split
    · next h => exact iff_of_true rfl (.inr h)
    · next h => exact (or_iff_left h).symm
  change Confined frame [name.lexeme] m [x] m₁
  refine ⟨(m.store.nextId_define _ _ _ _).ge, fun g n h => (hholds g n).mpr (.inl h),
    fun y hy => ?_, fun g _ n => hholds g n, fun g _ n h => ?_⟩
  · cases List.mem_singleton.mp hy
    exact ⟨fun _ _ h => h, fun g n h => (hholds g n).mpr (.inl h)⟩
  · obtain ⟨rfl, rfl⟩ := (hbinds g n).mp h
    exact ⟨rfl, List.mem_singleton_self _⟩

end ConfinedCode

namespace Code

open ConfinedCode

variable {frame : FrameId} {direct : List String}

/-- Statements up to a `return` are confined as each of them is. -/
theorem confined_untilReturn
    {step : Stmt → Recorded Completion}
    {body : List Stmt}
    (h : ∀ s ∈ body, ConfinedCode frame direct (step s)) :
    ConfinedCode frame direct (untilReturn step body) := by
  induction body with
  | nil => exact .pure none
  | cons s rest ih =>
      refine (h s List.mem_cons_self).bind fun completion => ?_
      cases completion with
      | none => exact ih fun t ht => h t (List.mem_cons_of_mem s ht)
      | some value => exact .pure (some value)

theorem confined_each
    {step : Stmt → Recorded Completion}
    {program : List Stmt}
    (h : ∀ s ∈ program, ConfinedCode frame direct (step s)) :
    ConfinedCode frame direct (each step program) := by
  induction program with
  | nil => exact .pure ()
  | cons s rest ih =>
      exact (h s List.mem_cons_self).bind fun _ => ih fun t ht => h t (List.mem_cons_of_mem s ht)

theorem confined_values
    {evaluate : Expr → Recorded Value}
    (h : ∀ e, ConfinedCode frame direct (evaluate e))
    (es : List Expr) :
    ConfinedCode frame direct (values evaluate es) := by
  induction es with
  | nil => exact .pure []
  | cons e rest ih => exact (h e).bind fun value => ih.bind fun others => .pure (value :: others)

theorem confined_orNil
    {evaluate : Expr → Recorded Value}
    (h : ∀ e, ConfinedCode frame direct (evaluate e))
    (e : Option Expr) :
    ConfinedCode frame direct (orNil evaluate e) := by
  cases e with
  | none => exact .pure Value.nil
  | some e => exact h e

theorem confined_repeating
    {condition : Recorded Value}
    {body : Recorded Completion}
    (hcondition : ConfinedCode frame direct condition)
    (hbody : ConfinedCode frame direct body)
    (rounds : Nat) :
    ConfinedCode frame direct (repeating condition body rounds) := by
  induction rounds with
  | zero => exact .stop _
  | succ rounds ih =>
      refine hcondition.bind fun value => ?_
      split
      · refine hbody.bind fun completion => ?_
        cases completion with
        | none => exact ih
        | some value => exact .pure (some value)
      · exact .pure none

theorem confined_bindMethod
    (method : Method)
    (id : InstanceId)
    (c : ClassObject) :
    ConfinedCode frame direct (bindMethod method id c) :=
  .openFrame_bind _ _ _ [] fun _ => (aside fun _ => rfl).bind fun _ => .pure _

section Calls

variable
  {body : FrameId → List Stmt → Recorded Completion}
  (hbody : ∀ inner ss, ConfinedCode inner (ss.flatMap Stmt.declares) (body inner ss))
include hbody

/-- A call binds nothing in the frame of the caller: its parameters go to a frame of its own. -/
theorem confined_callFunction
    (f : Closure)
    (arguments : List Value) :
    ConfinedCode frame direct (callFunction body f arguments) := by
  refine .openFrame_bind _ _ _ _ fun inner => (hbody inner _).bind fun completion => ?_
  split
  · exact .look fun m => Run.looks_getAt m _ _ _ _
  · exact .pure _

/-- Making an instance binds nothing directly, with or without an initializer. -/
theorem confined_instantiate
    (c : ClassObject)
    (arguments : List Value) :
    ConfinedCode frame direct (instantiate body c arguments) := by
  refine (aside fun _ => rfl).bind fun made => ?_
  obtain ⟨id, made⟩ := made
  cases hmethod : made.method? initializerName with
  | none =>
      simp only [hmethod]
      exact .pure _
  | some method =>
      simp only [hmethod]
      exact (confined_bindMethod _ _ _).bind fun f =>
        (confined_callFunction hbody f arguments).bind fun _ => .pure _

/-- No call binds a name in the frame of the caller. -/
theorem confined_call
    (callee : Value)
    (arguments : List Value)
    (place : Token) :
    ConfinedCode frame direct (call body callee arguments place) := by
  unfold call
  split
  · exact .fail _ _
  · split
    · cases callee with
      | native f =>
          cases f
          exact (aside fun _ => rfl).bind fun _ => .pure _
      | function f => exact confined_callFunction hbody f arguments
      | classObject c => exact confined_instantiate hbody c arguments
      | _ => exact .fail _ _
    · exact .fail _ _

end Calls

theorem confined_getProperty
    (object : Value)
    (name : Token) :
    ConfinedCode frame direct (getProperty object name) := by
  cases object with
  | object id c =>
      refine (look fun m => Run.looks_field? m _ _).bind fun found => ?_
      cases found with
      | some value => exact .pure value
      | none =>
          dsimp only
          split
          · exact (confined_bindMethod _ _ _).map _
          · exact .fail _ _
  | _ => exact .fail _ _

/-- Reading a method of a superclass looks names up and binds the receiver in a frame of its own. -/
theorem confined_getInherited
    (holder : FrameId)
    (keyword method : Token)
    (link : Link) :
    ConfinedCode frame direct (getInherited holder keyword method link) := by
  unfold getInherited
  split
  · exact .fail _ _
  · refine (look fun m => Run.looks_getAt m _ _ _ _).bind fun parent => ?_
    cases parent with
    | classObject parent =>
        refine (look fun m => Run.looks_getAt m _ _ _ _).bind fun receiver => ?_
        cases receiver with
        | object id c =>
            dsimp only
            split
            · exact (confined_bindMethod _ _ _).map _
            · exact .fail _ _
        | _ => exact .fail _ _
    | _ => exact .fail _ _

theorem confined_superclassOf
    {evaluate : Expr → Recorded Value}
    (h : ∀ e, ConfinedCode frame direct (evaluate e))
    (name : Token)
    (parent : Option Expr) :
    ConfinedCode frame direct (superclassOf evaluate name parent) := by
  cases parent with
  | none => exact .pure none
  | some parent =>
      refine (h parent).bind fun value => ?_
      cases value with
      | classObject c => exact .pure (some c)
      | _ => exact .fail _ _

/-- A class declaration binds the name of the class directly; `super` goes to a frame of its own. -/
theorem confined_declareClass
    (name : Token)
    (superclass : Option ClassObject)
    (methods : List FunctionDecl) :
    ConfinedCode frame [name.lexeme] (declareClass frame name superclass methods) := by
  -- Once the name is bound, nothing else is: the class takes the place of the value `nil`.
  have hclass : ∀ holder names inner, ConfinedCode holder names (do
      let serial ← Watch.perform Run.newSerial
      let layer : ClassLayer := ⟨serial, name.lexeme, methods, inner⟩
      Watch.perform (Run.reassign frame name (.classObject (layer.extending superclass)))) :=
    fun _ _ _ => (aside fun _ => rfl).bind fun _ => .perform fun m => Run.sameNames_reassign m _ _ _
  refine (ConfinedCode.bindDeclared name .nil false).bind fun _ => ?_
  cases superclass with
  | none => exact hclass frame _ frame
  | some parent => exact .openFrame_bind _ _ _ [] fun inner => hclass inner [] inner

/-- A function declaration binds the name of the function and nothing else. -/
theorem confined_declareFunction
    (declaration : FunctionDecl) :
    ConfinedCode frame [declaration.name.lexeme] (declareFunction frame declaration) :=
  (aside fun _ => rfl).bind fun _ => ConfinedCode.bindDeclared _ _ _

/-- An assignment changes slots that exist and binds no name. -/
theorem confined_assign
    {value : Recorded Value}
    (h : ConfinedCode frame direct value)
    (target : Reference) :
    ConfinedCode frame direct (assign frame target value) := by
  refine (look fun m => Run.looks_isConstant m target).bind fun constant => ?_
  split
  · exact .fail _ _
  · exact h.bind fun v => (perform fun m => Run.sameNames_assignName m _ _ _).bind fun _ => .pure v

/-- Fields are no names in a frame. -/
theorem confined_setProperty
    {value : Recorded Value}
    (h : ConfinedCode frame direct value)
    (object : Value)
    (name : Token) :
    ConfinedCode frame direct (setProperty object name value) := by
  cases object with
  | object id c => exact h.bind fun v => (aside fun _ => rfl).bind fun _ => .pure v
  | _ => exact .fail _ _

mutual

/-- The evaluation of an expression binds no name in any frame that was there. -/
theorem confined_evaluate
    (rounds room : Nat)
    (frame : FrameId)
    (e : Expr) :
    ConfinedCode frame [] (evaluate rounds room frame e) := by
  match room with
  | 0 => exact .stop _
  | room + 1 =>
      have ihE := confined_evaluate rounds room
      have ihS := confined_execute rounds room
      refine (note (by simp)).bind fun _ => ?_
      cases e with
      | literal value => exact .pure _
      | grouping inner => exact ihE frame inner
      | unary operator operand => exact (ihE frame operand).bind fun _ => .ofExcept _ _
      | binary left operator right =>
          exact (ihE frame left).bind fun _ => (ihE frame right).bind fun _ => .ofExcept _ _
      | logical left operator right =>
          refine (ihE frame left).bind fun l => ?_
          split
          · exact .pure l
          · exact ihE frame right
      | read target => exact .look fun m => Run.looks_readName m _ _ _
      | readConstant target => exact .look fun m => Run.looks_readName m _ _ _
      | assign target value => exact confined_assign (ihE frame value) target
      | call callee closing arguments =>
          refine (ihE frame callee).bind fun f =>
            (confined_values (ihE frame) arguments).bind fun vs =>
              confined_call (fun inner ss => confined_untilReturn fun s hs => ?_) f vs closing
          exact (ihS inner s).mono fun name h => List.mem_flatMap.mpr ⟨s, hs, h⟩
      | get object name => exact (ihE frame object).bind fun o => confined_getProperty o name
      | set object name value =>
          exact (ihE frame object).bind fun o => confined_setProperty (ihE frame value) o name
      | this keyword link => exact .look fun m => Run.looks_readName m _ _ _
      | super keyword method link => exact confined_getInherited frame keyword method link

/-- The execution of a statement binds the names that it declares directly. -/
theorem confined_execute
    (rounds room : Nat)
    (frame : FrameId)
    (s : Stmt) :
    ConfinedCode frame s.declares (execute rounds room frame s) := by
  match room with
  | 0 => exact .stop _
  | room + 1 =>
      have ihE {direct : List String} (frame : FrameId) (e : Expr) :
          ConfinedCode frame direct (evaluate rounds room frame e) :=
        (confined_evaluate rounds room frame e).mono (List.nil_subset _)
      have ihS := confined_execute rounds room
      cases s with
      | block body =>
          refine .openFrame_bind _ _ _ (body.flatMap Stmt.declares) fun inner =>
            confined_untilReturn fun s hs => ?_
          exact (ihS inner s).mono fun name h => List.mem_flatMap.mpr ⟨s, hs, h⟩
      | funDecl declaration =>
          exact (confined_declareFunction declaration).bind fun _ => .pure none
      | classDecl name parent methods =>
          exact (confined_superclassOf (ihE frame) name parent).bind fun superclass =>
            (confined_declareClass name superclass methods).bind fun _ => .pure none
      | varDecl name initializer =>
          exact (confined_orNil (ihE frame) initializer).bind fun value =>
            (ConfinedCode.bindDeclared name value false).bind fun _ => .pure none
      | constDecl name initializer =>
          exact (confined_orNil (ihE frame) initializer).bind fun value =>
            (ConfinedCode.bindDeclared name value true).bind fun _ => .pure none
      | exprStmt expression => exact (ihE frame expression).bind fun _ => .pure none
      | ifStmt condition thenBranch elseBranch =>
          refine (ihE frame condition).bind fun value => ?_
          cases elseBranch with
          | none =>
              split
              · exact ihS frame thenBranch
              · exact .pure none
          | some other =>
              split
              · exact (ihS frame thenBranch).mono (List.subset_append_left _ _)
              · exact (ihS frame other).mono (List.subset_append_right _ _)
      | printStmt expression =>
          exact (ihE frame expression).bind fun value =>
            (aside fun _ => rfl).bind fun _ => .pure none
      | returnStmt keyword value => exact (confined_orNil (ihE frame) value).map some
      | whileStmt condition body =>
          exact confined_repeating (ihE frame condition) (ihS frame body) rounds

end

end Code

end Lox

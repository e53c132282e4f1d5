import Lox.Proofs.Machine.History
import Lox.Proofs.Machine.Store
import Lox.Proofs.Scope.Accepted

/-!
# Frames and scopes

The frames outward from running code mirror the scopes around it: there is one frame for every
scope, opened by what opened the scope, and behind them the global frame.  A frame binds the names
that its scope has declared.  The frame in which code is being executed binds no others, while a
frame that a function was made in may have been given more names since then.

**Main definitions.**
* `Fits`: the frames outward from a frame mirror a list of scopes with their openings.
* `Stands`: code at a site is executed in a frame.
* `Grows`: what can have happened to a store between two times.
* `Sound`: every function and every class of a machine was made at a fitting site.
-/

namespace Lox

/-- A frame was opened in this way. -/
def Opened
    (H : History)
    (f : FrameId)
    (o : Opening) : Prop :=
  ∃ x ∈ H, x.act = .opens o ∧ x.machine.store.nextId = f

/-- A declaration has bound a name in a frame. -/
def Binds
    (H : History)
    (f : FrameId)
    (name : String) : Prop :=
  ∃ x ∈ H, ∃ constant, x.act = .binds f name constant

theorem Opened.later
    {H H' : History}
    {f : FrameId}
    {o : Opening}
    (h : Opened H f o)
    (hH : H <+: H') :
    Opened H' f o := by
  obtain ⟨x, hx, hact⟩ := h
  exact ⟨x, hH.subset hx, hact⟩

@[simp] theorem binds_nil
    (f : FrameId)
    (name : String) :
    ¬ Binds [] f name := by
  simp [Binds]

@[simp] theorem binds_append
    {H L : History}
    {f : FrameId}
    {name : String} :
    Binds (H ++ L) f name ↔ Binds H f name ∨ Binds L f name := by
  simp only [Binds, List.mem_append]
  constructor
  · rintro ⟨x, hx | hx, hact⟩
    · exact .inl ⟨x, hx, hact⟩
    · exact .inr ⟨x, hx, hact⟩
  · rintro (⟨x, hx, hact⟩ | ⟨x, hx, hact⟩)
    · exact ⟨x, .inl hx, hact⟩
    · exact ⟨x, .inr hx, hact⟩

section Scopes

/-- Whether a name with this standing is bound, and then whether it is a constant. -/
def Standing.flag? : Standing → Option Bool
  | .pending => none
  | .variable => some false
  | .constant => some true

/-- Whether a scope has bound a name, and then whether the name is a constant. -/
def Scope.flag?
    (scope : Scope)
    (name : String) : Option Bool :=
  (scope.standing? name).bind Standing.flag?

/-- Whether a frame binds a name, and then whether the name is a constant there. -/
def Store.flag?
    (store : Store)
    (f : FrameId)
    (name : String) : Option Bool :=
  (store.slot? f name).map Slot.constant

@[simp] theorem Scope.flag?_nil (name : String) : Scope.flag? [] name = none := rfl

theorem Scope.standing?_cons
    (declared : Declared)
    (scope : Scope)
    (name : String) :
    Scope.standing? (declared :: scope) name =
      if declared.name = name then some declared.standing else scope.standing? name := by
  simp only [Scope.standing?, List.find?_cons]
  by_cases h : declared.name = name
  · simp [h]
  · have hne : (declared.name == name) = false := by simpa using h
    simp [h, hne]

@[simp] theorem Scope.flag?_cons
    (declared : Declared)
    (scope : Scope)
    (name : String) :
    Scope.flag? (declared :: scope) name =
      if declared.name = name then declared.standing.flag? else scope.flag? name := by
  simp only [Scope.flag?, Scope.standing?_cons]
  split <;> rfl

/-- A frame binds what a scope has bound. -/
def Covers
    (store : Store)
    (f : FrameId)
    (scope : Scope) : Prop :=
  ∀ name constant, scope.flag? name = some constant → store.flag? f name = some constant

/-- A frame binds exactly what a scope has bound. -/
def Exact
    (store : Store)
    (f : FrameId)
    (scope : Scope) : Prop :=
  ∀ name, store.flag? f name = scope.flag? name

theorem Exact.covers
    {store : Store}
    {f : FrameId}
    {scope : Scope}
    (h : Exact store f scope) :
    Covers store f scope :=
  fun name _ hflag => (h name).trans hflag

end Scopes

/--
The frames outward from a frame mirror some scopes: every scope has its frame, which was opened by
what opened the scope and binds what the scope has bound, and the global frame comes last.
-/
inductive Fits
    (H : History)
    (store : Store) :
    FrameId → List Scope → List Opening → Prop
  | global : Fits H store globalFrame [] []
  | inside
      {f outer : FrameId} {scope : Scope} {scopes : List Scope} {o : Opening} {os : List Opening} :
      f ≠ globalFrame →
      Opened H f o →
      store.enclosing? f = some outer →
      Covers store f scope →
      Fits H store outer scopes os →
      Fits H store f (scope :: scopes) (o :: os)

/--
Code at a site is executed in a frame: the frames outward mirror the scopes, and the frame itself
binds no more than the innermost scope has bound.
-/
structure Stands
    (H : History)
    (store : Store)
    (f : FrameId)
    (p : Site) : Prop where
  fits : Fits H store f p.context.scopes p.openings
  exact_innermost : ∀ scope ∈ p.context.scopes.head?, Exact store f scope

/--
An expression of a site is about to be evaluated in a frame.  While the superclass of a class is
evaluated, the name of the class is declared already but not bound yet.
-/
inductive Present
    (H : History)
    (store : Store)
    (f : FrameId) : Site → Expr → Prop
  | here {p : Site} {e : Expr} : Stands H store f p → Present H store f p e
  | superclass {p : Site} {name : Token} {parent : Reference} :
      Stands H store f p →
      parent.name.lexeme ≠ name.lexeme →
      Present H store f (p.moved (p.context.atSuperclass name)) (.read parent)

/-- The frames outward from a frame, up to the global one. -/
theorem Fits.chain
    {H : History}
    {store : Store}
    (hroot : store.enclosing? globalFrame = none)
    {f : FrameId}
    {scopes : List Scope}
    {os : List Opening}
    (h : Fits H store f scopes os) :
    ∃ frames : List FrameId,
      (∀ i, store.ancestor? f i = (frames ++ [globalFrame])[i]?)
        ∧ globalFrame ∉ frames
        ∧ List.Forall₂ (Opened H) frames os
        ∧ List.Forall₂ (Covers store) frames scopes := by
  induction h with
  | global =>
      refine ⟨[], fun i => ?_, List.not_mem_nil, .nil, .nil⟩
      cases i with
      | zero => rfl
      | succ i => simp [Store.ancestor?, hroot]
  | @inside f outer scope scopes o os hf hopened houter hcovers _ ih =>
      obtain ⟨frames, hancestor, hglobal, hopenings, hscopes⟩ := ih
      refine ⟨f :: frames, fun i => ?_, ?_, .cons hopened hopenings, .cons hcovers hscopes⟩
      · cases i with
        | zero => rfl
        | succ i => simpa [Store.ancestor?, houter] using hancestor i
      · simpa [Ne.symm hf] using hglobal

/-- The frame at the distance of a scope is the frame of that scope. -/
theorem Fits.ancestor?
    {H : History}
    {store : Store}
    {f : FrameId}
    {scopes : List Scope}
    {os : List Opening}
    (h : Fits H store f scopes os)
    {d : Nat}
    {scope : Scope}
    (hscope : scopes[d]? = some scope) :
    ∃ g o, store.ancestor? f d = some g ∧ g ≠ globalFrame ∧ os[d]? = some o ∧ Opened H g o
      ∧ Covers store g scope := by
  induction h generalizing d with
  | global => simp at hscope
  | @inside f outer inner scopes o os hf hopened houter hcovers _ ih =>
      cases d with
      | zero =>
          cases hscope
          exact ⟨f, o, rfl, hf, rfl, hopened, hcovers⟩
      | succ d =>
          obtain ⟨g, o', hg, hrest⟩ := ih hscope
          exact ⟨g, o', by simpa [Store.ancestor?, houter] using hg, hrest⟩

/--
The frame at the distance at which a name is found binds the name as the scope says; a name that is
pending is not bound.
-/
theorem Stands.flag?_found
    {H : History}
    {store : Store}
    {f : FrameId}
    {p : Site}
    (h : Stands H store f p)
    (hsettled : Scope.AllSettled p.context.scopes.tail)
    {name : String}
    {d : Nat}
    {standing : Standing}
    (hfound : findScope? name p.context.scopes = some (d, standing)) :
    ∃ g, store.ancestor? f d = some g ∧ store.flag? g name = standing.flag? := by
  obtain ⟨scope, hscope, hstanding⟩ := findScope?_eq_some hfound
  have hflag : scope.flag? name = standing.flag? := by simp [Scope.flag?, hstanding]
  cases standing with
  | pending =>
      obtain rfl := hsettled.eq_zero_of_pending hfound
      have hexact := h.exact_innermost scope (by simpa [List.head?_eq_getElem?] using hscope)
      exact ⟨f, rfl, (hexact name).trans hflag⟩
  | «variable» =>
      obtain ⟨g, _, hancestor, _, _, _, hcovers⟩ := h.fits.ancestor? hscope
      exact ⟨g, hancestor, hcovers name false hflag⟩
  | constant =>
      obtain ⟨g, _, hancestor, _, _, _, hcovers⟩ := h.fits.ancestor? hscope
      exact ⟨g, hancestor, hcovers name true hflag⟩

/-- This also holds while a superclass is evaluated, since it is not called as the class. -/
theorem Present.flag?_found
    {H : History}
    {store : Store}
    {f : FrameId}
    {p : Site}
    {e : Expr}
    (h : Present H store f p e)
    (hsettled : Scope.AllSettled p.context.scopes.tail)
    {name : String}
    (hname : ∀ target, e = .read target → target.name.lexeme = name)
    {d : Nat}
    {standing : Standing}
    (hfound : findScope? name p.context.scopes = some (d, standing)) :
    ∃ g, store.ancestor? f d = some g ∧ store.flag? g name = standing.flag? := by
  cases h with
  | here hstands => exact hstands.flag?_found hsettled hfound
  | @superclass p declared parent hstands hne =>
      rw [hname parent rfl] at hne
      simp only [Site.moved_context, Context.atSuperclass, Context.define,
        findScope?_declareIn_of_ne (Ne.symm hne)] at hfound
      refine hstands.flag?_found ?_ hfound
      cases hscopes : p.context.scopes with
      | nil => exact fun scope hscope => absurd hscope List.not_mem_nil
      | cons scope outer =>
          simpa [Context.atSuperclass, Context.define, declareIn, hscopes] using hsettled

end Lox

import Lox.Proofs.Machine.Heap
import Lox.Proofs.Scope.Inheritance

/-!
# The frames of an instance and its superclass

Where code looks for a method of the superclass, the frames outward from it hold an instance and,
right outside of that, the superclass.  They belong to one class declaration: the superclass is the
one that this declaration was given, and the class that it made is among the classes that the class
of the instance consists of.

**Main definition.**
* `SuperFrames`: the two frames and what they bind.

**Result.**
* `Sound.superFrames`: code that names the superclass finds the two frames.
-/

namespace Lox

theorem Store.ancestor?_succ
    (store : Store)
    (f : FrameId)
    (d : Nat) :
    store.ancestor? f (d + 1) = (store.ancestor? f d).bind store.enclosing? := by
  induction d generalizing f with
  | zero =>
      cases h : store.enclosing? f <;> simp [Store.ancestor?, h]
  | succ d ih =>
      rw [Store.ancestor?, Store.ancestor?]
      cases h : store.enclosing? f with
      | none => rfl
      | some outer => exact ih outer

/-- There is a frame at the distance of every scope. -/
theorem Fits.isSome_ancestor?
    {H : History}
    {store : Store}
    {f : FrameId}
    {scopes : List Scope}
    {os : List Opening}
    (h : Fits H store f scopes os)
    {d : Nat}
    (hd : d < scopes.length) :
    (store.ancestor? f d).isSome := by
  obtain ⟨g, _, hg, _⟩ := h.ancestor? (List.getElem?_eq_getElem hd)
  rw [hg]
  rfl

/-- What has opened a local frame is what has opened the innermost scope. -/
theorem Fits.opened
    {H : History}
    {store : Store}
    {f : FrameId}
    {scopes : List Scope}
    {os : List Opening}
    (h : Fits H store f scopes os)
    (hlocal : f ≠ globalFrame) :
    ∃ o ∈ os.head?, Opened H f o := by
  cases h with
  | global => exact absurd rfl hlocal
  | @inside _ _ _ _ o _ _ hopened _ _ _ => exact ⟨o, rfl, hopened⟩

/--
Outward from a frame, at a distance, lies the frame of an instance, and right outside of it the
frame of the methods of a class, which binds the superclass of that class.  The class of the
instance is this class or inherits from it.
-/
structure SuperFrames
    (H : History)
    (store : Store)
    (f : FrameId)
    (distance : Nat)
    (name : Token)
    (owner parent : ClassObject)
    (id : InstanceId)
    (c : ClassObject) : Prop where
  receiver : ∃ g, store.ancestor? f distance = some g
    ∧ store.slot? g "this" = some ⟨"this", .object id c, false⟩
  superclass : store.ancestor? f (distance + 1) = some owner.own.frame
  inherits : Inherits H store owner name parent
  descends : owner.layers <:+ c.layers

/-- A frame that was opened for a superclass is that of the class that owns it. -/
theorem Sound.inherits
    {accepted : List Stmt → Prop}
    {H : History}
    {m : Machine}
    (hsound : Sound accepted H m)
    {owner : ClassObject}
    (howner : OwnLayerFits accepted H m.store owner)
    {name : Token}
    {methods : List FunctionDecl}
    (hopened : Opened H owner.own.frame (.superclass name methods))
    (hlocal : owner.own.frame ≠ globalFrame) :
    owner.own.name = name.lexeme ∧ owner.own.methods = methods
      ∧ ∃ parent, Inherits H m.store owner name parent := by
  obtain ⟨program, q, name', parent', methods', haccepted, hreaches, hname, _, hfits, hinherits⟩ :=
    howner
  cases parent' with
  | none =>
      -- without a superclass the methods are made where the declaration stands, in a frame of code
      obtain ⟨o, ho, hcode⟩ := hfits.opened hlocal
      obtain rfl := hsound.openings.eq hopened hcode
      exact (hreaches.isCode_opening (by simp) _ ho).elim
  | some parent' =>
      obtain ⟨parent, hinherits⟩ := hinherits rfl
      obtain ⟨x, hx, hact, hid, _⟩ := hinherits.opened
      obtain ⟨rfl, rfl⟩ := Opening.superclass.inj (hsound.openings.eq hopened ⟨x, hx, hact, hid⟩)
      exact ⟨hname, rfl, parent, hinherits⟩

/-- Code that stands among the methods of a class finds the instance and the superclass. -/
theorem Sound.superFrames
    {accepted : List Stmt → Prop}
    {H : History}
    {m : Machine}
    (hsound : Sound accepted H m)
    {program : List Stmt}
    {p q : Site}
    {name : Token}
    {methods : List FunctionDecl}
    {inner : List Opening}
    (hamong : Among program p q name methods inner)
    {f : FrameId}
    (hfits : Fits H m.store f p.context.scopes p.openings) :
    ∃ owner parent id c,
      SuperFrames H m.store f inner.length name owner parent id c
        ∧ ClassFits accepted H m.store c
        ∧ owner.own.name = name.lexeme
        ∧ owner.own.methods =
          FunctionDecl.resolveMethods methods ((q.context.define name).inClass true) := by
  obtain ⟨innerScopes, hscopes, hlength, _⟩ := hamong.scopes
  have hthis : p.context.scopes[inner.length]? = some [⟨"this", .variable⟩] := by
    simp [hscopes, ← hlength, Context.inClass]
  have hsuper : p.context.scopes[inner.length + 1]? = some [⟨"super", .variable⟩] := by
    rw [hscopes, ← hlength, List.getElem?_append_right (Nat.le_succ _)]
    simp [Context.inClass]
  obtain ⟨h, o, hh, _, ho, hopened, _⟩ := hfits.ancestor? hthis
  obtain ⟨g, o', hg, hlocal, ho', hopened', _⟩ := hfits.ancestor? hsuper
  obtain rfl := Option.some.inj (hamong.getElem?_receiver.symm.trans ho)
  obtain rfl := Option.some.inj (hamong.getElem?_superclass.symm.trans ho')
  obtain ⟨id, c, owner, hslot, houter, howner⟩ := hsound.receivers h hopened
  obtain rfl : g = owner.own.frame := by
    rw [Store.ancestor?_succ, hh, Option.bind_some, houter] at hg
    exact (Option.some.inj hg).symm
  have hc : ClassFits accepted H m.store c := hsound.slots h "this" _ hslot
  obtain ⟨hname, hmethods, parent, hinherits⟩ :=
    hsound.inherits (hc owner howner) hopened' hlocal
  exact ⟨owner, parent, id, c, ⟨⟨h, hh, hslot⟩, hg, hinherits, howner⟩, hc, hname, hmethods⟩

end Lox

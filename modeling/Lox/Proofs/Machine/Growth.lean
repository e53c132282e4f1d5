import Lox.Proofs.Machine.Frames

/-!
# Growth of the store

Between two times of a run, frames are added and slots are given values.  Frames that were there
keep what encloses them, a slot keeps being a constant or not, and a constant keeps its value, all
of this unless a declaration binds the name again; and only in the global frame can a declaration
bind a name that is bound already.  The instance and the superclass are never declared or assigned.

**Results.**
* `Grows.trans`: growth adds up.
* `Fits.grow`, `Stands.grow`: frames go on mirroring scopes.
-/

namespace Lox

/-- The slot of a name at two times between which no declaration has bound the name. -/
structure SameSlot (before after : Option Slot) : Prop where
  flag : after.map Slot.constant = before.map Slot.constant
  constant : ∀ slot ∈ before, slot.constant = true → after = some slot

theorem SameSlot.refl (slot : Option Slot) : SameSlot slot slot :=
  ⟨rfl, fun _ h _ => h⟩

theorem SameSlot.trans
    {a b c : Option Slot}
    (hab : SameSlot a b)
    (hbc : SameSlot b c) :
    SameSlot a c where
  flag := hbc.flag.trans hab.flag
  constant slot hslot hconstant := hbc.constant slot (hab.constant slot hslot hconstant) hconstant

/-- The names of the instance and of the superclass. -/
def Reserved (name : String) : Prop :=
  name = "this" ∨ name = "super"

theorem Token.IsName.not_reserved
    {t : Token}
    (h : t.IsName) :
    ¬ Reserved t.lexeme :=
  fun hreserved => hreserved.elim h.1 h.2

/-- What can have happened to a store while the moments of a history went by. -/
structure Grows
    (L : History)
    (store store' : Store) : Prop where
  size : store.nextId ≤ store'.nextId
  enclosing : ∀ f < store.nextId, store'.enclosing? f = store.enclosing? f
  slots : ∀ f < store.nextId, ∀ name, ¬ Binds L f name →
    SameSlot (store.slot? f name) (store'.slot? f name)
  /-- A local declaration binds a name that was not bound. -/
  fresh : ∀ f < store.nextId, f ≠ globalFrame → ∀ name, Binds L f name →
    store.slot? f name = none
  reserved : ∀ f < store.nextId, ∀ name, Reserved name → store'.slot? f name = store.slot? f name

theorem Grows.refl (store : Store) : Grows [] store store where
  size := Nat.le_refl _
  enclosing _ _ := rfl
  slots _ _ _ _ := .refl _
  fresh _ _ _ _ h := absurd h (binds_nil _ _)
  reserved _ _ _ _ := rfl

theorem Grows.trans
    {L₁ L₂ : History}
    {store store₁ store₂ : Store}
    (h₁ : Grows L₁ store store₁)
    (h₂ : Grows L₂ store₁ store₂) :
    Grows (L₁ ++ L₂) store store₂ where
  size := Nat.le_trans h₁.size h₂.size
  enclosing f hf := by
    rw [h₂.enclosing f (Nat.lt_of_lt_of_le hf h₁.size), h₁.enclosing f hf]
  slots f hf name hbinds := by
    rw [binds_append, not_or] at hbinds
    exact (h₁.slots f hf name hbinds.1).trans
      (h₂.slots f (Nat.lt_of_lt_of_le hf h₁.size) name hbinds.2)
  fresh f hf hglobal name hbinds := by
    by_cases hfirst : Binds L₁ f name
    · exact h₁.fresh f hf hglobal name hfirst
    · have hsecond := (binds_append.mp hbinds).resolve_left hfirst
      have hnone := h₂.fresh f (Nat.lt_of_lt_of_le hf h₁.size) hglobal name hsecond
      have hflag := (h₁.slots f hf name hfirst).flag
      simpa [hnone] using hflag.symm
  reserved f hf name hname := by
    rw [h₂.reserved f (Nat.lt_of_lt_of_le hf h₁.size) name hname, h₁.reserved f hf name hname]

/-- What a local frame has bound stays bound, and stays a constant or not. -/
theorem Grows.flag?_local
    {L : History}
    {store store' : Store}
    (h : Grows L store store')
    {f : FrameId}
    (hlocal : f ≠ globalFrame)
    {name : String}
    {constant : Bool}
    (hflag : store.flag? f name = some constant) :
    store'.flag? f name = some constant := by
  obtain ⟨slot, hslot, hconstant⟩ := Option.map_eq_some_iff.mp hflag
  have hf := Store.lt_nextId_of_slot? hslot
  have hbinds : ¬ Binds L f name := by
    intro hbinds
    rw [h.fresh f hf hlocal name hbinds] at hslot
    cases hslot
  exact (h.slots f hf name hbinds).flag.trans hflag

/-- The frames outward from a frame stay the same. -/
theorem Grows.ancestor?
    {L : History}
    {store store' : Store}
    (h : Grows L store store')
    {f g : FrameId}
    {d : Nat}
    (hancestor : store.ancestor? f d = some g) :
    store'.ancestor? f d = some g := by
  induction d generalizing f with
  | zero => exact hancestor
  | succ d ih =>
      obtain ⟨outer, houter, hrest⟩ := Option.bind_eq_some_iff.mp hancestor
      have hsame := h.enclosing f (Store.lt_nextId_of_enclosing? houter)
      simpa [Store.ancestor?, hsame, houter] using ih hrest

/-- A frame binds the same names as before if no declaration has bound a name in it. -/
theorem Grows.flag?_eq
    {L : History}
    {store store' : Store}
    (h : Grows L store store')
    {f : FrameId}
    (hf : f < store.nextId)
    {name : String}
    (hbinds : ¬ Binds L f name) :
    store'.flag? f name = store.flag? f name :=
  (h.slots f hf name hbinds).flag

/-- A constant keeps its value until its name is declared again in its frame. -/
theorem Grows.constant
    {L : History}
    {store store' : Store}
    (h : Grows L store store')
    {f : FrameId}
    {name : String}
    {slot : Slot}
    (hslot : store.slot? f name = some slot)
    (hconstant : slot.constant = true)
    (hbinds : ¬ Binds L f name) :
    store'.slot? f name = some slot :=
  (h.slots f (Store.lt_nextId_of_slot? hslot) name hbinds).constant slot hslot hconstant

/-- What the instance or the superclass is in a frame stays the same. -/
theorem Grows.slot?_reserved
    {L : History}
    {store store' : Store}
    (h : Grows L store store')
    {f : FrameId}
    {name : String}
    (hname : Reserved name)
    {slot : Slot}
    (hslot : store.slot? f name = some slot) :
    store'.slot? f name = some slot :=
  (h.reserved f (Store.lt_nextId_of_slot? hslot) name hname).trans hslot

/-- The name of a local constant is not declared again in its frame. -/
theorem Grows.not_binds_local
    {L : History}
    {store store' : Store}
    (h : Grows L store store')
    {f : FrameId}
    (hlocal : f ≠ globalFrame)
    {name : String}
    {slot : Slot}
    (hslot : store.slot? f name = some slot) :
    ¬ Binds L f name := by
  intro hbinds
  rw [h.fresh f (Store.lt_nextId_of_slot? hslot) hlocal name hbinds] at hslot
  cases hslot

/-- Frames go on mirroring scopes. -/
theorem Fits.grow
    {H H' L : History}
    {store store' : Store}
    (hH : H <+: H')
    (hgrows : Grows L store store')
    {f : FrameId}
    {scopes : List Scope}
    {os : List Opening}
    (h : Fits H store f scopes os) :
    Fits H' store' f scopes os := by
  induction h with
  | global => exact .global
  | @inside f outer scope scopes o os hf hopened houter hcovers _ ih =>
      refine .inside hf (hopened.later hH) ?_ ?_ ih
      · rw [hgrows.enclosing f (Store.lt_nextId_of_enclosing? houter), houter]
      · exact fun name constant hflag => hgrows.flag?_local hf (hcovers name constant hflag)

/-- A frame that mirrors scopes is there. -/
theorem Fits.lt_nextId
    {H : History}
    {store : Store}
    (hglobal : globalFrame < store.nextId)
    {f : FrameId}
    {scopes : List Scope}
    {os : List Opening}
    (h : Fits H store f scopes os) :
    f < store.nextId := by
  cases h with
  | global => exact hglobal
  | inside _ _ houter _ _ => exact Store.lt_nextId_of_enclosing? houter

/-- Code goes on standing in its frame if nothing is declared in that frame meanwhile. -/
theorem Stands.grow
    {H H' L : History}
    {store store' : Store}
    (hH : H <+: H')
    (hgrows : Grows L store store')
    (hglobal : globalFrame < store.nextId)
    {f : FrameId}
    {p : Site}
    (h : Stands H store f p)
    (hbinds : ∀ name, ¬ Binds L f name) :
    Stands H' store' f p where
  fits := h.fits.grow hH hgrows
  exact_innermost scope hscope name :=
    (hgrows.flag?_eq (h.fits.lt_nextId hglobal) (hbinds name)).trans
      (h.exact_innermost scope hscope name)

/-- Growth depends on the names that were declared meanwhile, and on no other moments. -/
theorem Grows.congr
    {L L' : History}
    {store store' : Store}
    (h : Grows L store store')
    (hbinds : ∀ f name, Binds L' f name ↔ Binds L f name) :
    Grows L' store store' where
  size := h.size
  enclosing := h.enclosing
  slots f hf name hnot := h.slots f hf name fun hb => hnot ((hbinds f name).mpr hb)
  fresh f hf hglobal name hb := h.fresh f hf hglobal name ((hbinds f name).mp hb)
  reserved := h.reserved

/-- While the value of a new name is evaluated, the code still stands in its frame. -/
theorem Stands.declare
    {H : History}
    {store : Store}
    {f : FrameId}
    {p : Site}
    (h : Stands H store f p)
    {name : Token}
    (hfree : p.context.innermost? name = none) :
    Stands H store f (p.moved (p.context.declare name)) := by
  obtain ⟨⟨scopes, routine, owner⟩, openings⟩ := p
  obtain ⟨hfits, hexact⟩ := h
  cases hfits with
  | global => exact ⟨.global, by simp [Context.declare, declareIn]⟩
  | @inside _ outer scope scopes o os hf hopened houter hcovers hrest =>
      have hnew : Exact store f (⟨name.lexeme, .pending⟩ :: scope) := by
        intro n
        rw [Scope.flag?_cons, hexact scope rfl n]
        split
        · next hn =>
            subst hn
            have hnone : scope.standing? name.lexeme = none := hfree
            simp [Scope.flag?, hnone, Standing.flag?]
        · rfl
      refine ⟨.inside hf hopened houter hnew.covers hrest, fun s hs => ?_⟩
      cases hs
      exact hnew

/-- After the declaration of a name, the code behind it stands in the same frame. -/
theorem Stands.define
    {H H' L : History}
    {store store' : Store}
    (hH : H <+: H')
    (hgrows : Grows L store store')
    {f : FrameId}
    {p : Site}
    (h : Stands H store f p)
    {name : String}
    {standing : Standing}
    {constant : Bool}
    (hflag : ∀ n, store'.flag? f n = if name = n then some constant else store.flag? f n)
    (hstanding : standing.flag? = some constant)
    {c : Context}
    (hc : c.scopes = declareIn name standing p.context.scopes) :
    Stands H' store' f (p.moved c) := by
  obtain ⟨⟨scopes, routine, owner⟩, openings⟩ := p
  obtain ⟨hfits, hexact⟩ := h
  have hfits' := hfits.grow hH hgrows
  cases hfits' with
  | global => exact ⟨by rw [Site.moved_context, hc]; exact .global, by simp [hc, declareIn]⟩
  | @inside _ outer scope scopes o os hf hopened houter hcovers hrest =>
      have hnew : Exact store' f (⟨name, standing⟩ :: scope) := by
        intro n
        rw [Scope.flag?_cons, hflag n, hexact scope rfl n, hstanding]
      refine ⟨?_, fun s hs => ?_⟩
      · rw [Site.moved_context, hc]
        exact .inside hf hopened houter hnew.covers hrest
      · rw [Site.moved_context, hc] at hs
        cases hs
        exact hnew

/-- A local name that the innermost scope does not know is not bound in the frame of the code. -/
theorem Stands.flag?_eq_none
    {H : History}
    {store : Store}
    {f : FrameId}
    {p : Site}
    (h : Stands H store f p)
    (hlocal : f ≠ globalFrame)
    {name : Token}
    (hfree : p.context.innermost? name = none) :
    store.flag? f name.lexeme = none := by
  obtain ⟨⟨scopes, routine, owner⟩, openings⟩ := p
  obtain ⟨hfits, hexact⟩ := h
  cases hfits with
  | global => exact absurd rfl hlocal
  | @inside _ outer scope scopes o os hf hopened houter hcovers hrest =>
      have hnone : scope.standing? name.lexeme = none := hfree
      rw [hexact scope rfl name.lexeme, Scope.flag?, hnone]
      rfl

section Steps

variable (store : Store)

/-- Adding a frame with variables is growth. -/
theorem grows_newFrame
    (enclosing : Option FrameId)
    (bindings : List (String × Value)) :
    Grows [] store ((store.extend enclosing).defineAll store.nextId bindings) where
  size := by simp
  enclosing f hf := by
    rw [Store.enclosing?_defineAll, Store.enclosing?_extend, if_neg (Nat.ne_of_lt hf)]
  slots f hf name _ := by
    rw [Store.slot?_defineAll_of_ne _ (by simp) (Ne.symm (Nat.ne_of_lt hf)), Store.slot?_extend]
    exact .refl _
  fresh _ _ _ _ h := absurd h (binds_nil _ _)
  reserved f hf name _ := by
    rw [Store.slot?_defineAll_of_ne _ (by simp) (Ne.symm (Nat.ne_of_lt hf)), Store.slot?_extend]

/-- Giving a new value to a slot that is no constant is growth. -/
theorem grows_update
    {f : FrameId}
    {name : String}
    {slot : Slot}
    (hslot : store.slot? f name = some slot)
    (hconstant : slot.constant = false)
    (hname : ¬ Reserved name)
    (value : Value) :
    Grows [] store (store.update f slot value) where
  size := by simp
  enclosing _ _ := by simp
  slots g _ n _ := by
    rw [Store.slot?_update store (Store.lt_nextId_of_slot? hslot)]
    split
    · next h =>
        obtain ⟨rfl, rfl⟩ := h
        have hname := Store.name_of_slot? hslot
        subst hname
        rw [hslot]
        refine ⟨rfl, fun other hother htrue => ?_⟩
        cases hother
        rw [hconstant] at htrue
        cases htrue
    · exact .refl _
  fresh _ _ _ _ h := absurd h (binds_nil _ _)
  reserved g _ n hn := by
    rw [Store.slot?_update store (Store.lt_nextId_of_slot? hslot), if_neg]
    rintro ⟨rfl, rfl⟩
    exact hname (Store.name_of_slot? hslot ▸ hn)

/-- Binding the name of a declaration is growth; a local name must not be bound yet. -/
theorem grows_define
    {L : History}
    {f : FrameId}
    (hf : f < store.nextId)
    {name : String}
    (hL : ∀ g n, Binds L g n ↔ g = f ∧ n = name)
    (hfresh : f ≠ globalFrame → store.slot? f name = none)
    (hname : ¬ Reserved name)
    (value : Value)
    (constant : Bool) :
    Grows L store (store.define f name value constant) where
  size := by simp
  enclosing _ _ := by simp
  slots g _ n hbinds := by
    rw [Store.slot?_define store hf, if_neg fun h => hbinds ((hL g n).mpr ⟨h.1.symm, h.2.symm⟩)]
    exact .refl _
  fresh g _ hglobal n hbinds := by
    obtain ⟨rfl, rfl⟩ := (hL g n).mp hbinds
    exact hfresh hglobal
  reserved g _ n hn := by
    rw [Store.slot?_define store hf, if_neg]
    rintro ⟨rfl, rfl⟩
    exact hname hn

end Steps

end Lox

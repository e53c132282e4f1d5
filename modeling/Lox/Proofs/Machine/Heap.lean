import Lox.Proofs.Machine.Growth

/-!
# Sound machines

Whatever a machine holds was made by code of accepted programs: a function was made at the site of
its declaration, in a frame whose frames outward mirror the scopes there, and the methods of a class
likewise.  The frame in which a method was made for an instance binds the instance, and its class
has the class to which the method belongs among the classes that it consists of.  The programs in
question are those of a whole session, given as a predicate.

**Main definitions.**
* `ClosureFits`, `ClassFits`, `ValueFits`: what was made fits the site where it was made.
* `ReceiverFits`: a frame that was opened for an instance binds a suitable one.
* `Sound`: every value that can be read from a machine fits.
-/

namespace Lox

/-- The class that a class inherits from directly. -/
def ClassObject.superclass? (c : ClassObject) : Option ClassObject :=
  match c.inherited with
  | [] => none
  | own :: inherited => some ⟨own, inherited⟩

@[simp] theorem ClassLayer.superclass?_extending
    (layer : ClassLayer)
    (superclass : Option ClassObject) :
    (layer.extending superclass).superclass? = superclass := by
  cases superclass <;> rfl

/-- A class consists of its own layer and of the layers of its superclass. -/
theorem ClassObject.layers_suffix_of_superclass?
    {c parent : ClassObject}
    (h : c.superclass? = some parent) :
    parent.layers <:+ c.layers := by
  obtain ⟨own, inherited⟩ := c
  cases inherited with
  | nil => cases h
  | cons layer rest =>
      cases h
      exact List.suffix_cons own (layer :: rest)

/-- A class is determined by its layers. -/
theorem ClassObject.layers_injective
    {c d : ClassObject}
    (h : c.layers = d.layers) :
    c = d := by
  obtain ⟨own, inherited⟩ := c
  obtain ⟨own', inherited'⟩ := d
  obtain ⟨rfl, rfl⟩ := List.cons.inj h
  rfl

/--
The methods of a class were made in a frame that was opened for the declaration of the class and
binds the superclass.
-/
structure Inherits
    (H : History)
    (store : Store)
    (c : ClassObject)
    (name : Token)
    (parent : ClassObject) : Prop where
  superclass : c.superclass? = some parent
  bound : store.slot? c.own.frame "super" = some ⟨"super", .classObject parent, false⟩
  opened : ∃ x ∈ H, x.act = .opens (.superclass name c.own.methods)
    ∧ x.machine.store.nextId = c.own.frame
    ∧ x.machine.serial = c.own.serial

/-- A frame that was opened for an instance binds one whose class has the methods made there. -/
def ReceiverFits
    (store : Store)
    (f : FrameId) : Prop :=
  ∃ (id : InstanceId) (c owner : ClassObject),
    store.slot? f "this" = some ⟨"this", .object id c, false⟩
      ∧ store.enclosing? f = some owner.own.frame
      ∧ owner.layers <:+ c.layers

/-- Every frame was opened once. -/
structure OpenedOnce
    (H : History)
    (store : Store) : Prop where
  there : ∀ x ∈ H, ∀ o, x.act = .opens o → x.machine.store.nextId < store.nextId
  once : ∀ x ∈ H, ∀ y ∈ H, ∀ o o', x.act = .opens o → y.act = .opens o' →
    x.machine.store.nextId = y.machine.store.nextId → x = y

variable (accepted : List Stmt → Prop)

/-- A function was made at the site of its declaration. -/
def ClosureFits
    (H : History)
    (store : Store)
    (f : Closure) : Prop :=
  ∃ program p routine declaration,
    accepted program
      ∧ Reaches program p (.function routine declaration)
      ∧ f.declaration = declaration.resolve routine p.context
      ∧ Fits H store f.frame p.context.scopes p.openings

/--
The own methods of a class were made at the site of its declaration, outside of any instance and
inside of its superclass.
-/
def OwnLayerFits
    (H : History)
    (store : Store)
    (c : ClassObject) : Prop :=
  ∃ program p name parent methods,
    accepted program
      ∧ Reaches program p (.statement (.classDecl name parent methods))
      ∧ c.own.name = name.lexeme
      ∧ c.own.methods =
          FunctionDecl.resolveMethods methods (p.inClass name parent.isSome methods).context
      ∧ Fits H store c.own.frame
          (p.inClass name parent.isSome methods).context.scopes.tail
          (p.classOpenings name parent.isSome methods)
      ∧ (parent.isSome → ∃ inherited, Inherits H store c name inherited)

/-- A class and the classes that it inherits from were made at the sites of their declarations. -/
def ClassFits
    (H : History)
    (store : Store)
    (c : ClassObject) : Prop :=
  ∀ d : ClassObject, d.layers <:+ c.layers → OwnLayerFits accepted H store d

/-- The functions and classes in a value were made at the sites of their declarations. -/
def ValueFits
    (H : History)
    (store : Store) : Value → Prop
  | .function f => ClosureFits accepted H store f
  | .classObject c => ClassFits accepted H store c
  | .object _ c => ClassFits accepted H store c
  | _ => True

/-- The field of an instance on a machine. -/
def Machine.field?
    (m : Machine)
    (id : InstanceId)
    (name : String) : Option Value :=
  (m.fields[id]?).bind (·.lookup name)

/--
All values of a machine fit, its first frame is the outermost one, and the frames of instances bind
them.
-/
structure Sound
    (H : History)
    (m : Machine) : Prop where
  global : globalFrame < m.store.nextId
  root : m.store.enclosing? globalFrame = none
  slots : ∀ f name slot, m.store.slot? f name = some slot →
    ValueFits accepted H m.store slot.value
  fields : ∀ id name value, m.field? id name = some value → ValueFits accepted H m.store value
  receivers : ∀ f, Opened H f .receiver → ReceiverFits m.store f
  openings : OpenedOnce H m.store

variable {accepted}

section Growth

variable
    {H H' L : History} {store store' : Store} (hH : H <+: H') (hgrows : Grows L store store')
include hH hgrows

theorem ClosureFits.grow
    {f : Closure}
    (h : ClosureFits accepted H store f) :
    ClosureFits accepted H' store' f := by
  obtain ⟨program, p, routine, declaration, haccepted, hreaches, hdeclaration, hfits⟩ := h
  exact ⟨program, p, routine, declaration, haccepted, hreaches, hdeclaration, hfits.grow hH hgrows⟩

theorem Inherits.grow
    {c parent : ClassObject}
    {name : Token}
    (h : Inherits H store c name parent) :
    Inherits H' store' c name parent where
  superclass := h.superclass
  bound := hgrows.slot?_reserved (.inr rfl) h.bound
  opened :=
    have ⟨x, hx, hact⟩ := h.opened
    ⟨x, hH.subset hx, hact⟩

theorem OwnLayerFits.grow
    {c : ClassObject}
    (h : OwnLayerFits accepted H store c) :
    OwnLayerFits accepted H' store' c := by
  obtain ⟨program, p, name, parent, methods, haccepted, hreaches, hname, hmethods, hfits,
    hinherits⟩ := h
  refine ⟨program, p, name, parent, methods, haccepted, hreaches, hname, hmethods,
    hfits.grow hH hgrows, fun hparent => ?_⟩
  obtain ⟨inherited, h⟩ := hinherits hparent
  exact ⟨inherited, h.grow hH hgrows⟩

theorem ClassFits.grow
    {c : ClassObject}
    (h : ClassFits accepted H store c) :
    ClassFits accepted H' store' c :=
  fun d hd => (h d hd).grow hH hgrows

/-- A value goes on fitting. -/
theorem ValueFits.grow
    {value : Value}
    (h : ValueFits accepted H store value) :
    ValueFits accepted H' store' value := by
  cases value with
  | function f => exact ClosureFits.grow hH hgrows h
  | classObject c => exact ClassFits.grow hH hgrows h
  | object id c => exact ClassFits.grow hH hgrows h
  | _ => trivial

end Growth

/-- A frame goes on binding the instance for which it was opened. -/
theorem ReceiverFits.grow
    {L : History}
    {store store' : Store}
    (hgrows : Grows L store store')
    {f : FrameId}
    (h : ReceiverFits store f) :
    ReceiverFits store' f := by
  obtain ⟨id, c, owner, hslot, houter, howner⟩ := h
  refine ⟨id, c, owner, hgrows.slot?_reserved (.inl rfl) hslot, ?_, howner⟩
  rw [hgrows.enclosing f (Store.lt_nextId_of_slot? hslot), houter]

/-- A frame was opened before the last moment or at that moment. -/
theorem Opened.of_snoc
    {H : History}
    {x : Moment}
    {f : FrameId}
    {o : Opening}
    (h : Opened (H ++ [x]) f o) :
    Opened H f o ∨ x.act = .opens o ∧ x.machine.store.nextId = f := by
  obtain ⟨y, hy, hact⟩ := h
  rcases List.mem_append.mp hy with hy | hy
  · exact .inl ⟨y, hy, hact⟩
  · exact .inr (List.mem_singleton.mp hy ▸ hact)

namespace OpenedOnce

variable {H : History} {store store' : Store}

theorem grow
    (h : OpenedOnce H store)
    (hsize : store.nextId ≤ store'.nextId) :
    OpenedOnce H store' where
  there x hx o ho := Nat.lt_of_lt_of_le (h.there x hx o ho) hsize
  once := h.once

/-- At one more moment the frame that is added next can be opened. -/
theorem snoc
    (h : OpenedOnce H store)
    (hsize : store.nextId ≤ store'.nextId)
    {x : Moment}
    (hx : ∀ o, x.act = .opens o →
      x.machine.store.nextId = store.nextId ∧ store.nextId < store'.nextId) :
    OpenedOnce (H ++ [x]) store' where
  there y hy o ho := by
    rcases List.mem_append.mp hy with hy | hy
    · exact Nat.lt_of_lt_of_le (h.there y hy o ho) hsize
    · cases List.mem_singleton.mp hy
      obtain ⟨hid, hlt⟩ := hx o ho
      exact hid ▸ hlt
  once y hy z hz o o' ho ho' heq := by
    rcases List.mem_append.mp hy with hy | hy <;> rcases List.mem_append.mp hz with hz | hz
    · exact h.once y hy z hz o o' ho ho' heq
    · cases List.mem_singleton.mp hz
      exact absurd (heq.trans (hx o' ho').1) (Nat.ne_of_lt (h.there y hy o ho))
    · cases List.mem_singleton.mp hy
      exact absurd (heq.symm.trans (hx o ho).1) (Nat.ne_of_lt (h.there z hz o' ho'))
    · exact (List.mem_singleton.mp hy).trans (List.mem_singleton.mp hz).symm

/-- What has opened a frame is determined. -/
theorem eq
    (h : OpenedOnce H store)
    {f : FrameId}
    {o o' : Opening}
    (ho : Opened H f o)
    (ho' : Opened H f o') :
    o = o' := by
  obtain ⟨x, hx, hact, hid⟩ := ho
  obtain ⟨y, hy, hact', hid'⟩ := ho'
  obtain rfl := h.once x hx y hy o o' hact hact' (hid.trans hid'.symm)
  exact Act.opens.inj (hact.symm.trans hact')

end OpenedOnce

/-- What a field is put under is found there, and every other field is found as before. -/
theorem lookup_putField
    (name : String)
    (value : Value)
    (fields : Fields)
    (n : String) :
    (putField name value fields).lookup n =
      if name = n then some value else fields.lookup n := by
  induction fields with
  | nil =>
      by_cases h : name = n
      · simp [putField, h]
      · have hne : (n == name) = false := by simpa using Ne.symm h
        simp [putField, List.lookup, h, hne]
  | cons field rest ih =>
      obtain ⟨key, old⟩ := field
      by_cases hkey : key = name
      · subst hkey
        by_cases h : key = n
        · simp [putField, h]
        · have hne : (n == key) = false := by simpa using Ne.symm h
          simp [putField, List.lookup, h, hne]
      · have hput : putField name value ((key, old) :: rest) =
            (key, old) :: putField name value rest := by simp [putField, hkey]
        rw [hput]
        by_cases hn : n = key
        · subst hn
          simp [List.lookup, Ne.symm hkey]
        · have hne : (n == key) = false := by simpa using hn
          simp [List.lookup, hne, ih]

/-- The fields of instances after one of them is set. -/
theorem Machine.field?_setField
    (m : Machine)
    (id j : InstanceId)
    (name n : String)
    (value v : Value)
    (h : Machine.field? { m with fields := m.fields.modify id (putField name value) } j n =
      some v) :
    v = value ∨ m.field? j n = some v := by
  simp only [Machine.field?, Array.getElem?_modify] at h ⊢
  split at h
  · next hid =>
      subst hid
      cases hfields : m.fields[id]? with
      | none => simp [hfields] at h
      | some fields =>
          simp only [hfields, Option.map_some, Option.bind_some, lookup_putField] at h
          split at h
          · cases h
            exact .inl rfl
          · exact .inr h
  · exact .inr h

/--
A machine stays sound when moments pass and its store grows, if new values in its slots and fields
fit and new frames are opened properly.
-/
theorem Sound.grow
    {H H' L : History}
    {m m' : Machine}
    (h : Sound accepted H m)
    (hH : H <+: H')
    (hgrows : Grows L m.store m'.store)
    (hslots : ∀ f name slot, m'.store.slot? f name = some slot →
      (∃ g n s, m.store.slot? g n = some s ∧ s.value = slot.value)
        ∨ ValueFits accepted H' m'.store slot.value)
    (hfields : ∀ id name value, m'.field? id name = some value →
      m.field? id name = some value ∨ ValueFits accepted H' m'.store value)
    (hreceivers : ∀ f, Opened H' f .receiver → Opened H f .receiver ∨ ReceiverFits m'.store f)
    (hopenings : OpenedOnce H' m'.store) :
    Sound accepted H' m' where
  global := Nat.lt_of_lt_of_le h.global hgrows.size
  root := by rw [hgrows.enclosing _ h.global, h.root]
  slots f name slot hslot := by
    rcases hslots f name slot hslot with ⟨g, n, s, hs, hvalue⟩ | hfits
    · rw [← hvalue]
      exact ValueFits.grow hH hgrows (h.slots g n s hs)
    · exact hfits
  fields id name value hvalue := by
    rcases hfields id name value hvalue with hold | hfits
    · exact ValueFits.grow hH hgrows (h.fields id name value hold)
    · exact hfits
  receivers f hf := (hreceivers f hf).elim (fun hold => (h.receivers f hold).grow hgrows) id
  openings := hopenings

end Lox

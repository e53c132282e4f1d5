import Lox.Machine.Environment
import Lox.Proofs.Machine.Heap

/-!
# Environments are frames

An environment stands for the frame whose slots are its values, each marked as a constant if its
name is in the set.  As long as every constant has a value and no name has two, each operation on
environments does to the frames what the operation of the store does.  That constants have values is
not a matter of form here: it is kept by each definition, which writes the table and the set, and by
each assignment, which leaves the set as it is.

**Main definitions.**
* `Environment.Sound`: every name has one value, and every constant has one.
* `Environments.toStore`: the store that environments stand for.

**Results.**
* `Environments.toStore_define`, `Environments.toStore_assign`, `Environments.toStore_assignAt`:
  what is written.
* `Environments.get_toStore`, `Environments.getAt_toStore`, `Environments.isConstant_toStore`: what
  is read.
-/

namespace Lox

/-- What is put into a table has its name there, once. -/
theorem keys_putField
    (name : String)
    (value : Value)
    (fields : Fields) :
    (putField name value fields).map Prod.fst =
      if name ∈ fields.map Prod.fst then fields.map Prod.fst
      else fields.map Prod.fst ++ [name] := by
  induction fields with
  | nil => rfl
  | cons field rest ih =>
      by_cases hkey : field.1 = name
      · simp [putField, hkey]
      · have hput : putField name value (field :: rest) =
            field :: putField name value rest := by simp [putField, hkey]
        have hne : name ≠ field.1 := Ne.symm hkey
        simp only [hput, List.map_cons, ih, List.mem_cons, hne, false_or]
        split
        · rfl
        · rfl

namespace Environment

/-- The slot of a value, marked as a constant if its name is one of the constants. -/
def slotOf (constants : List String) (field : String × Value) : Slot :=
  ⟨field.1, field.2, constants.contains field.1⟩

/-- The frame that an environment stands for. -/
def toFrame (e : Environment) : Frame :=
  ⟨e.enclosing, e.values.map (slotOf e.constants)⟩

/-- No name has two values, and no constant is without one. -/
structure Sound (e : Environment) : Prop where
  once : (e.values.map Prod.fst).Nodup
  named : e.constants ⊆ e.values.map Prod.fst

variable {e : Environment}

/-- A name is defined in the table and in the set together. -/
theorem Sound.define
    (h : e.Sound)
    (name : String)
    (value : Value)
    (constant : Bool) :
    (e.define name value constant).Sound := by
  have hkeys := keys_putField name value e.values
  constructor
  · rw [Environment.define, hkeys]
    split
    · exact h.once
    · next hnew => exact List.nodup_append.mpr ⟨h.once, List.nodup_singleton name, by
        rintro n hn _ hname rfl
        exact hnew (List.mem_singleton.mp hname ▸ hn)⟩
  · have hkept : ∀ n ∈ e.values.map Prod.fst,
        n ∈ (putField name value e.values).map Prod.fst := by
      intro n hn
      rw [hkeys]
      split
      · exact hn
      · exact List.mem_append_left _ hn
    have hname : name ∈ (putField name value e.values).map Prod.fst := by
      rw [hkeys]
      split
      · next hmem => exact hmem
      · exact List.mem_append_right _ (List.mem_singleton_self name)
    intro n hn
    cases constant with
    | true =>
        rcases List.mem_insert_iff.mp hn with rfl | hn
        · exact hname
        · exact hkept n (h.named hn)
    | false => exact hkept n (h.named (List.mem_filter.mp hn).1)

/-- An assignment leaves the constants as they are, and no name is lost. -/
theorem Sound.put
    (h : e.Sound)
    (name : String)
    (value : Value) :
    (e.put name value).Sound := by
  have hkeys := keys_putField name value e.values
  constructor
  · exact (h.define name value true).once
  · intro n hn
    rw [Environment.put, hkeys]
    split
    · exact h.named hn
    · exact List.mem_append_left _ (h.named hn)

/-- A value is put into the table where its slot is put among the slots. -/
theorem map_slotOf_putField
    {constants constants' : List String}
    {name : String}
    (hothers : ∀ n, n ≠ name → constants'.contains n = constants.contains n)
    (value : Value)
    {values : Fields}
    (honce : (values.map Prod.fst).Nodup) :
    (putField name value values).map (slotOf constants') =
      putSlot ⟨name, value, constants'.contains name⟩ (values.map (slotOf constants)) := by
  have hsame : ∀ rest : Fields, name ∉ rest.map Prod.fst →
      rest.map (slotOf constants') = rest.map (slotOf constants) := by
    intro rest hrest
    refine List.map_congr_left fun field hfield => ?_
    have hne : field.1 ≠ name := by
      rintro rfl
      exact hrest (List.mem_map_of_mem hfield)
    rw [slotOf, slotOf, hothers _ hne]
  induction values with
  | nil => rfl
  | cons field rest ih =>
      obtain ⟨hfirst, hrest⟩ := List.nodup_cons.mp honce
      by_cases hkey : field.1 = name
      · subst hkey
        simp [putField, putSlot, slotOf, hsame rest hfirst]
      · have hput : putField name value (field :: rest) =
            field :: putField name value rest := by simp [putField, hkey]
        rw [hput, List.map_cons, ih hrest, List.map_cons, putSlot, slotOf, slotOf,
          hothers _ hkey, if_neg (by simpa using hkey)]

/-- A definition does to the frame what the definition in the frame does. -/
theorem toFrame_define
    (h : e.Sound)
    (name : String)
    (value : Value)
    (constant : Bool) :
    (e.define name value constant).toFrame = e.toFrame.define name value constant := by
  have hothers : ∀ n, n ≠ name →
      (e.define name value constant).constants.contains n = e.constants.contains n := by
    intro n hn
    rw [Bool.eq_iff_iff, List.contains_iff_mem, List.contains_iff_mem]
    cases constant with
    | true => simp [Environment.define, hn]
    | false => simp [Environment.define, hn]
  have hself : (e.define name value constant).constants.contains name = constant := by
    rw [Bool.eq_iff_iff, List.contains_iff_mem]
    cases constant with
    | true => simp [Environment.define]
    | false => simp [Environment.define]
  have hslots := map_slotOf_putField hothers value h.once
  rw [hself] at hslots
  exact congrArg (Frame.mk e.enclosing) hslots

/-- A name that has a value has a slot, and no other name has. -/
theorem slot?_toFrame (e : Environment) (name : String) :
    e.toFrame.slot? name =
      (e.values.lookup name).map fun value => slotOf e.constants (name, value) := by
  unfold toFrame Frame.slot?
  induction e.values with
  | nil => rfl
  | cons field rest ih =>
      obtain ⟨key, value⟩ := field
      rw [List.map_cons, List.find?_cons, List.lookup_cons]
      by_cases hkey : key = name
      · subst hkey
        simp [slotOf]
      · have hne : (name == key) = false := by simpa using Ne.symm hkey
        have hne' : ((slotOf e.constants (key, value)).name == name) = false := by
          simpa [slotOf] using hkey
        rw [hne, hne']
        exact ih

/-- A change of a value does to the frame what the change of its slot does. -/
theorem toFrame_put
    (h : e.Sound)
    {name : String}
    {old : Value}
    (value : Value) :
    (e.put name value).toFrame = e.toFrame.update (slotOf e.constants (name, old)) value :=
  congrArg (Frame.mk e.enclosing) (map_slotOf_putField (fun _ _ => rfl) value h.once)

end Environment

namespace Environments

/-- The store that environments stand for. -/
def toStore (es : Environments) : Store :=
  ⟨es.all.map Environment.toFrame⟩

/-- All environments have one value for a name, and one for each constant. -/
def Sound (es : Environments) : Prop :=
  ∀ (id : FrameId) (e : Environment), es.all[id]? = some e → e.Sound

variable {es : Environments}

section Soundness

theorem sound_empty : empty.Sound := by
  intro id e he
  simp [empty] at he

/-- A new environment has no names. -/
theorem Sound.extend (h : es.Sound) (enclosing : Option FrameId) : (es.extend enclosing).Sound := by
  intro id e he
  rw [Environments.extend, Array.getElem?_push] at he
  split at he
  · obtain rfl := Option.some.inj he
    exact ⟨List.nodup_nil, List.Subset.refl _⟩
  · exact h id e he

/-- A change of one environment that keeps it sound keeps all of them sound. -/
theorem Sound.modify
    (h : es.Sound)
    {f : Environment → Environment}
    (hf : ∀ e, e.Sound → (f e).Sound)
    (id : FrameId) :
    Sound ⟨es.all.modify id f⟩ := by
  intro j e he
  rw [Array.getElem?_modify] at he
  split at he
  · obtain ⟨e, hold, rfl⟩ := Option.map_eq_some_iff.mp he
    exact hf e (h j e hold)
  · exact h j e he

theorem Sound.define
    (h : es.Sound)
    (id : FrameId)
    (name : String)
    (value : Value)
    (constant : Bool) :
    (es.define id name value constant).Sound :=
  h.modify (fun _ he => he.define name value constant) id

theorem Sound.put
    (h : es.Sound)
    (id : FrameId)
    (name : String)
    (value : Value) :
    (es.put id name value).Sound :=
  h.modify (fun _ he => he.put name value) id

/-- Every constant of a frame has a value there. -/
theorem Sound.value?_of_isConstant
    (h : es.Sound)
    {id : FrameId}
    {name : String}
    (hconstant : es.isConstant id name = true) :
    (es.value? id name).isSome := by
  obtain ⟨e, he, hcontains⟩ := (Option.any_eq_true _ _).mp hconstant
  obtain ⟨field, hfield, rfl⟩ :=
    List.mem_map.mp ((h id e he).named (List.contains_iff_mem.mp hcontains))
  rw [value?, he, Option.bind_some, List.lookup_isSome_iff]
  exact ⟨field, hfield, beq_self_eq_true _⟩

end Soundness

section Reading

/-- The frames of the store are the environments. -/
theorem frame?_toStore (es : Environments) (id : FrameId) :
    es.toStore.frame? id = es.all[id]?.map Environment.toFrame :=
  Array.getElem?_map

theorem enclosing?_toStore (es : Environments) (id : FrameId) :
    es.toStore.enclosing? id = es.enclosing? id := by
  rw [Store.enclosing?, frame?_toStore, enclosing?]
  cases es.all[id]? <;> rfl

/-- The slot of a name holds its value, and says whether it is a constant. -/
theorem slot?_toStore (es : Environments) (id : FrameId) (name : String) :
    es.toStore.slot? id name =
      (es.value? id name).map fun value => ⟨name, value, es.isConstant id name⟩ := by
  rw [Store.slot?, frame?_toStore, value?, isConstant]
  cases es.all[id]? with
  | none => rfl
  | some e => exact e.slot?_toFrame name

/-- A name is a constant of the frame exactly if it is one of the environment. -/
theorem isConstant_toStore
    (h : es.Sound)
    (id : FrameId)
    (name : String) :
    es.toStore.isConstant id name = es.isConstant id name := by
  rw [Store.isConstant, slot?_toStore]
  cases hvalue : es.value? id name with
  | some value => rfl
  | none =>
      cases hconstant : es.isConstant id name with
      | false => rfl
      | true => simpa [hvalue] using h.value?_of_isConstant hconstant

/-- A frame with the slot of the value that was found there. -/
def slotFound (es : Environments) (name : String) (found : FrameId × Value) : FrameId × Slot :=
  (found.1, ⟨name, found.2, es.isConstant found.1 name⟩)

theorem holder?_toStore (es : Environments) (name : String) (id : FrameId) :
    es.toStore.holder? name id = (es.holder? name id).map (es.slotFound name) := by
  fun_induction holder? es name id with
  | case1 id value hvalue => rw [Store.holder?, slot?_toStore, hvalue]; rfl
  | case2 id hnone outer houter hlt ih =>
      rw [Store.holder?, slot?_toStore, hnone, Option.map_none, enclosing?_toStore, houter]
      simpa [hlt] using ih
  | case3 id hnone outer houter hlt =>
      rw [Store.holder?, slot?_toStore, hnone, Option.map_none, enclosing?_toStore, houter]
      simp [hlt]
  | case4 id hnone houter =>
      rw [Store.holder?, slot?_toStore, hnone, Option.map_none, enclosing?_toStore, houter]
      rfl

theorem find_toStore (es : Environments) (id : FrameId) (name : String) :
    es.toStore.find id name = (es.find id name).map (es.slotFound name) := by
  rw [Store.find, holder?_toStore, find]
  cases es.holder? name id <;> rfl

/-- The search finds the same value, or nothing in both. -/
theorem get_toStore (es : Environments) (id : FrameId) (name : String) :
    es.toStore.get id name = es.get id name := by
  rw [Store.get, find_toStore, get]
  cases es.find id name <;> rfl

theorem ancestor?_toStore (es : Environments) (id : FrameId) (distance : Nat) :
    es.toStore.ancestor? id distance = es.ancestor? id distance := by
  induction distance generalizing id with
  | zero => rfl
  | succ distance ih => simp only [Store.ancestor?, ancestor?, enclosing?_toStore, ih]

theorem findAt_toStore (es : Environments) (id : FrameId) (distance : Nat) (name : String) :
    es.toStore.findAt id distance name = (es.findAt id distance name).map (es.slotFound name) := by
  rw [Store.findAt, ancestor?_toStore, findAt]
  cases es.ancestor? id distance with
  | none => rfl
  | some holder =>
      simp only [slot?_toStore]
      cases hvalue : es.value? holder name <;> rfl

/-- At a distance there is the same value, or the same fault. -/
theorem getAt_toStore (es : Environments) (id : FrameId) (distance : Nat) (name : String) :
    es.toStore.getAt id distance name = es.getAt id distance name := by
  rw [Store.getAt, findAt_toStore, getAt]
  cases es.findAt id distance name <;> rfl

end Reading

section Writing

theorem toStore_extend (es : Environments) (enclosing : Option FrameId) :
    (es.extend enclosing).toStore = es.toStore.extend enclosing := by
  simp [extend, Store.extend, toStore, Environment.toFrame]

/-- A change of one environment is a change of the frame that it stands for. -/
theorem toStore_modify
    {f : Environment → Environment}
    {g : Frame → Frame}
    {id : FrameId}
    (h : ∀ e, es.all[id]? = some e → (f e).toFrame = g e.toFrame) :
    toStore ⟨es.all.modify id f⟩ = ⟨es.toStore.frames.modify id g⟩ := by
  refine congrArg Store.mk (Array.ext_getElem? fun j => ?_)
  simp only [toStore, Array.getElem?_map, Array.getElem?_modify]
  by_cases hj : id = j
  · subst hj
    cases he : es.all[id]? with
    | none => simp
    | some e => simp [h e he]
  · simp [hj]

theorem toStore_define
    (h : es.Sound)
    (id : FrameId)
    (name : String)
    (value : Value)
    (constant : Bool) :
    (es.define id name value constant).toStore = es.toStore.define id name value constant :=
  toStore_modify fun e he => Environment.toFrame_define (h id e he) name value constant

/-- A value that was found is changed as its slot is. -/
theorem toStore_put
    (h : es.Sound)
    (name : String)
    (found : FrameId × Value)
    (value : Value) :
    (es.put found.1 name value).toStore =
      es.toStore.update found.1 (es.slotFound name found).2 value := by
  refine toStore_modify fun e he => ?_
  have hslot : (es.slotFound name found).2 = Environment.slotOf e.constants (name, found.2) := by
    simp [slotFound, isConstant, he, Environment.slotOf]
  rw [hslot]
  exact Environment.toFrame_put (h found.1 e he) value

/-- An assignment changes the value in the nearest frame, or fails. -/
theorem toStore_assign
    (h : es.Sound)
    (id : FrameId)
    (name : String)
    (value : Value) :
    es.toStore.assign id name value = (es.assign id name value).map toStore := by
  rw [Store.assign, find_toStore, assign]
  cases es.find id name with
  | error fault => rfl
  | ok found => exact congrArg Except.ok (toStore_put h name found value).symm

/-- An assignment at a distance changes the value there, or fails. -/
theorem toStore_assignAt
    (h : es.Sound)
    (id : FrameId)
    (distance : Nat)
    (name : String)
    (value : Value) :
    es.toStore.assignAt id distance name value =
      (es.assignAt id distance name value).map toStore := by
  rw [Store.assignAt, findAt_toStore, assignAt]
  cases es.findAt id distance name with
  | error fault => rfl
  | ok found => exact congrArg Except.ok (toStore_put h name found value).symm

end Writing

end Environments
end Lox

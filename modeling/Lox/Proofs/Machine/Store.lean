import Lox.Machine.Basic
import Mathlib

/-!
# Laws of the store

Every operation of the store is described by what it does to two views: the slot of a name in a
frame (`Store.slot?`), and the frame that encloses a frame (`Store.enclosing?`).  Binding and
updating change one slot and no enclosing frame; a new frame has no slots and changes nothing else.
-/

namespace Lox

/--
A slot that is put into a list is found under its name, and every other name is found as before.
-/
theorem find?_putSlot
    (slot : Slot)
    (slots : List Slot)
    (name : String) :
    (putSlot slot slots).find? (·.name == name) =
      if slot.name = name then some slot else slots.find? (·.name == name) := by
  induction slots with
  | nil =>
      simp only [putSlot, List.find?_cons, List.find?_nil]
      by_cases h : slot.name = name
      · simp [h]
      · have : (slot.name == name) = false := by simpa using h
        simp [h, this]
  | cons s rest ih =>
      by_cases hs : s.name = slot.name
      · have hput : putSlot slot (s :: rest) = slot :: rest := by simp [putSlot, hs]
        rw [hput]
        by_cases h : slot.name = name
        · simp [h]
        · simp [h, hs]
      · have hput : putSlot slot (s :: rest) = s :: putSlot slot rest := by simp [putSlot, hs]
        rw [hput, List.find?_cons, List.find?_cons, ih]
        by_cases h : slot.name = name
        · have hne : (s.name == name) = false := by simpa [← h] using hs
          simp [h, hne]
        · simp [h]

/-- What is found under a name has that name. -/
theorem Frame.name_of_slot?
    {frame : Frame}
    {name : String}
    {slot : Slot}
    (h : frame.slot? name = some slot) :
    slot.name = name := by
  simpa using List.find?_some h

namespace Store

variable (store : Store)

@[simp] theorem frame?_define
    (id j : FrameId)
    (name : String)
    (value : Value)
    (constant : Bool) :
    (store.define id name value constant).frame? j =
      if id = j then (store.frame? j).map (·.define name value constant) else store.frame? j := by
  simp only [frame?, define, Array.getElem?_modify]

@[simp] theorem frame?_update
    (id j : FrameId)
    (slot : Slot)
    (value : Value) :
    (store.update id slot value).frame? j =
      if id = j then (store.frame? j).map (·.update slot value) else store.frame? j := by
  simp only [frame?, update, Array.getElem?_modify]

@[simp] theorem frame?_extend
    (enclosing : Option FrameId)
    (j : FrameId) :
    (store.extend enclosing).frame? j =
      if j = store.nextId then some ⟨enclosing, []⟩ else store.frame? j := by
  simp only [frame?, extend, nextId, Array.getElem?_push]
  rfl

@[simp] theorem nextId_define
    (id : FrameId)
    (name : String)
    (value : Value)
    (constant : Bool) :
    (store.define id name value constant).nextId = store.nextId := by
  simp [nextId, define]

@[simp] theorem nextId_update
    (id : FrameId)
    (slot : Slot)
    (value : Value) :
    (store.update id slot value).nextId = store.nextId := by
  simp [nextId, update]

@[simp] theorem nextId_extend (enclosing : Option FrameId) :
    (store.extend enclosing).nextId = store.nextId + 1 := by
  simp [nextId, extend]

/-- The frames of a store are those that were numbered so far. -/
theorem frame?_isSome_iff (j : FrameId) :
    (store.frame? j).isSome ↔ j < store.nextId := by
  simp [frame?, nextId]

/-- A frame that is not there has no slots. -/
theorem slot?_of_nextId_le
    {j : FrameId}
    (h : store.nextId ≤ j)
    (name : String) :
    store.slot? j name = none := by
  have hnone : store.frame? j = none :=
    Array.getElem?_eq_none h
  simp [slot?, hnone]

/-- A frame that binds a name is there. -/
theorem lt_nextId_of_slot?
    {store : Store}
    {j : FrameId}
    {name : String}
    {slot : Slot}
    (h : store.slot? j name = some slot) :
    j < store.nextId := by
  rcases Nat.lt_or_ge j store.nextId with hlt | hle
  · exact hlt
  · rw [store.slot?_of_nextId_le hle] at h
    cases h

/-- A frame that is enclosed is there. -/
theorem lt_nextId_of_enclosing?
    {store : Store}
    {j outer : FrameId}
    (h : store.enclosing? j = some outer) :
    j < store.nextId := by
  rw [← frame?_isSome_iff]
  cases hf : store.frame? j with
  | none => simp [enclosing?, hf] at h
  | some frame => rfl

/-- The slot under a name has that name. -/
theorem name_of_slot?
    {store : Store}
    {j : FrameId}
    {name : String}
    {slot : Slot}
    (h : store.slot? j name = some slot) :
    slot.name = name := by
  obtain ⟨frame, _, hslot⟩ := Option.bind_eq_some_iff.mp h
  exact Frame.name_of_slot? hslot

/-- Binding a name changes its slot in one frame. -/
theorem slot?_define
    {id : FrameId}
    (hid : id < store.nextId)
    (name : String)
    (value : Value)
    (constant : Bool)
    (j : FrameId)
    (n : String) :
    (store.define id name value constant).slot? j n =
      if id = j ∧ name = n then some ⟨name, value, constant⟩ else store.slot? j n := by
  simp only [slot?, frame?_define]
  by_cases hj : id = j
  · subst hj
    obtain ⟨frame, hframe⟩ := Option.isSome_iff_exists.mp ((store.frame?_isSome_iff id).mpr hid)
    simp only [hframe, Frame.define, Frame.slot?, true_and, if_true, Option.map_some,
      Option.bind_some]
    exact find?_putSlot _ _ _
  · simp [hj]

/-- Updating a slot changes the value under its name in one frame. -/
theorem slot?_update
    {id : FrameId}
    (hid : id < store.nextId)
    (slot : Slot)
    (value : Value)
    (j : FrameId)
    (n : String) :
    (store.update id slot value).slot? j n =
      if id = j ∧ slot.name = n then some { slot with value := value } else store.slot? j n := by
  simp only [slot?, frame?_update]
  by_cases hj : id = j
  · subst hj
    obtain ⟨frame, hframe⟩ := Option.isSome_iff_exists.mp ((store.frame?_isSome_iff id).mpr hid)
    simp only [hframe, Frame.update, Frame.slot?, true_and, if_true, Option.map_some,
      Option.bind_some]
    exact find?_putSlot _ _ _
  · simp [hj]

/-- A new frame has no slots, and the slots of the others stay. -/
@[simp] theorem slot?_extend
    (enclosing : Option FrameId)
    (j : FrameId)
    (n : String) :
    (store.extend enclosing).slot? j n = store.slot? j n := by
  simp only [slot?, frame?_extend]
  by_cases hj : j = store.nextId
  · have hnone := store.slot?_of_nextId_le (Nat.le_of_eq hj.symm) n
    subst hj
    simpa [slot?, Frame.slot?] using hnone.symm
  · simp [hj]

@[simp] theorem enclosing?_define
    (id j : FrameId)
    (name : String)
    (value : Value)
    (constant : Bool) :
    (store.define id name value constant).enclosing? j = store.enclosing? j := by
  simp only [enclosing?, frame?_define]
  split
  · cases store.frame? j <;> rfl
  · rfl

@[simp] theorem enclosing?_update
    (id j : FrameId)
    (slot : Slot)
    (value : Value) :
    (store.update id slot value).enclosing? j = store.enclosing? j := by
  simp only [enclosing?, frame?_update]
  split
  · cases store.frame? j <;> rfl
  · rfl

/-- A new frame is enclosed as it was asked for. -/
theorem enclosing?_extend
    (enclosing : Option FrameId)
    (j : FrameId) :
    (store.extend enclosing).enclosing? j =
      if j = store.nextId then enclosing else store.enclosing? j := by
  simp only [enclosing?, frame?_extend]
  split <;> rfl

@[simp] theorem nextId_defineAll
    (id : FrameId)
    (bindings : List (String × Value)) :
    (store.defineAll id bindings).nextId = store.nextId := by
  induction bindings generalizing store with
  | nil => rfl
  | cons v rest ih => exact (ih (store.define id v.1 v.2 false)).trans (nextId_define store _ _ _ _)

@[simp] theorem enclosing?_defineAll
    (id j : FrameId)
    (bindings : List (String × Value)) :
    (store.defineAll id bindings).enclosing? j = store.enclosing? j := by
  induction bindings generalizing store with
  | nil => rfl
  | cons v rest ih =>
      exact (ih (store.define id v.1 v.2 false)).trans (enclosing?_define store _ _ _ _ _)

/-- Binding variables in one frame changes no slot of another. -/
theorem slot?_defineAll_of_ne
    {id j : FrameId}
    (hid : id < store.nextId)
    (hne : id ≠ j)
    (bindings : List (String × Value))
    (n : String) :
    (store.defineAll id bindings).slot? j n = store.slot? j n := by
  induction bindings generalizing store with
  | nil => rfl
  | cons v rest ih =>
      have hstep := slot?_define store hid v.1 v.2 false j n
      rw [if_neg fun h => hne h.1] at hstep
      exact (ih (store.define id v.1 v.2 false) (by simpa using hid)).trans hstep

/-- Binding variables makes variables of the names, and nothing of the other names. -/
theorem constant_slot?_defineAll
    {id : FrameId}
    (hid : id < store.nextId)
    (bindings : List (String × Value))
    (n : String) :
    ((store.defineAll id bindings).slot? id n).map Slot.constant =
      if n ∈ bindings.map Prod.fst then some false else (store.slot? id n).map Slot.constant := by
  induction bindings generalizing store with
  | nil => simp [defineAll]
  | cons v rest ih =>
      have hstep := slot?_define store hid v.1 v.2 false id n
      have hrest := ih (store.define id v.1 v.2 false) (by simpa using hid)
      refine hrest.trans ?_
      rw [hstep]
      by_cases hmem : n ∈ rest.map Prod.fst
      · simp [hmem]
      · by_cases hv : v.1 = n
        · simp [hv]
        · simp [hmem, hv, Ne.symm hv]

/--
A slot of a frame in which variables were bound holds one of their values or was there before.
-/
theorem slot?_defineAll
    {id : FrameId}
    (hid : id < store.nextId)
    (bindings : List (String × Value))
    {n : String}
    {slot : Slot}
    (h : (store.defineAll id bindings).slot? id n = some slot) :
    (∃ v ∈ bindings, v.2 = slot.value) ∨ store.slot? id n = some slot := by
  induction bindings generalizing store with
  | nil => exact .inr h
  | cons v rest ih =>
      rcases ih (store.define id v.1 v.2 false) (by simpa using hid) h with ⟨w, hw, hvalue⟩ | hslot
      · exact .inl ⟨w, List.mem_cons_of_mem v hw, hvalue⟩
      · rw [slot?_define store hid] at hslot
        split at hslot
        · cases hslot
          exact .inl ⟨v, List.mem_cons_self, rfl⟩
        · exact .inr hslot

/-- A name that a frame binds is found there. -/
theorem find_of_slot?
    {store : Store}
    {id : FrameId}
    {name : String}
    {slot : Slot}
    (h : store.slot? id name = some slot) :
    store.find id name = .ok (id, slot) := by
  rw [find, holder?, h]

/-- The slot that is found in the frame at a distance belongs to that frame. -/
theorem findAt_eq_ok
    {store : Store}
    {id holder : FrameId}
    {distance : Nat}
    {name : String}
    {slot : Slot}
    (h : store.findAt id distance name = .ok (holder, slot)) :
    store.ancestor? id distance = some holder ∧ store.slot? holder name = some slot := by
  unfold findAt at h
  split at h
  · cases h
  · next found hfound =>
      split at h
      · next slot' hslot =>
          cases h
          exact ⟨hfound, hslot⟩
      · cases h

/-- The slot that is found along the way outward is a slot of the frame where it is found. -/
theorem slot?_of_holder?
    {store : Store}
    {name : String}
    (id : FrameId)
    {holder : FrameId}
    {slot : Slot}
    (h : store.holder? name id = some (holder, slot)) :
    store.slot? holder name = some slot := by
  fun_induction holder? store name id with
  | case1 id found hslot =>
      cases h
      exact hslot
  | case2 id hslot outer houter hlt ih => exact ih h
  | case3 id hslot outer houter hlt => cases h
  | case4 id hslot houter => cases h

/-- The slot that is found in the nearest frame is a slot of that frame. -/
theorem slot?_of_find
    {store : Store}
    {name : String}
    {id holder : FrameId}
    {slot : Slot}
    (h : store.find id name = .ok (holder, slot)) :
    store.slot? holder name = some slot := by
  unfold find at h
  split at h
  · next found hfound =>
      cases h
      exact slot?_of_holder? id hfound
  · cases h

/-- Behind the global frame there is none in which a name is looked up. -/
theorem find_globalFrame (s : Store) (name : String) :
    s.find globalFrame name =
      match s.slot? globalFrame name with
      | some slot => .ok (globalFrame, slot)
      | none => .error (.undefined name) := by
  unfold Store.find
  rw [Store.holder?]
  cases s.slot? globalFrame name with
  | some slot => rfl
  | none =>
      cases s.enclosing? globalFrame with
      | none => rfl
      | some outer => simp [globalFrame]

end Store
end Lox

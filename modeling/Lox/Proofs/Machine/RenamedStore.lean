import Lox.Machine.Basic
import Lox.Proofs.Machine.Store
import Lox.Proofs.Value.Rename

/-!
# Frames of renamed programs

The frames of two machines correspond one to one.  A frame of a marked scope has the new name where
the other machine has the old one, and everything else is alike.  So a name is found under the name
that replaces it, in the corresponding frame.

**Main definition.**
* `Store.Renamed`: stores that correspond under a marking.

**Results.**
* `Store.Renamed.findAt`: names are found in corresponding slots, or fail for the same reason.
* `Store.Renamed.define`, `Store.Renamed.extend`: changes keep stores in correspondence.
-/

namespace Lox

section Definitions

variable (ρ : Renaming) (refers : Mentions) (W : Marking)

/-- A slot of a frame that may be marked. -/
inductive Slot.Renamed (marked : Bool) : Slot → Slot → Prop
  | mk {name : String} {v v' : Value} {constant : Bool} :
      v.Renamed ρ refers W v' →
        Slot.Renamed marked ⟨name, v, constant⟩ ⟨ρ.swap marked name, v', constant⟩

/-- A name with a value, as variables and fields are given. -/
def BindingRenamed (marked : Bool) (b b' : String × Value) : Prop :=
  b'.1 = ρ.swap marked b.1 ∧ b.2.Renamed ρ refers W b'.2

structure Frame.Renamed (marks : List Bool) (f f' : Frame) : Prop where
  enclosing : f'.enclosing = f.enclosing
  around : ∀ outer ∈ f.enclosing, W.Around outer marks.tail
  slots : List.Forall₂ (Slot.Renamed ρ refers W (marks.headD false)) f.slots f'.slots

structure Store.Renamed (store store' : Store) : Prop where
  size : store.nextId = W.length
  size' : store'.nextId = W.length
  frame : ∀ {id : FrameId} {marks : List Bool}, W.Around id marks →
    ∃ f f', store.frame? id = some f ∧ store'.frame? id = some f' ∧ f.Renamed ρ refers W marks f'

/-- What is found in one store and in the other. -/
def FoundRenamed (found found' : FrameId × Slot) : Prop :=
  found'.1 = found.1
    ∧ ∃ marks, W.Around found.1 marks ∧ found.2.Renamed ρ refers W (marks.headD false) found'.2

/-- A search under one name and the other: it succeeds in both stores or fails in both. -/
inductive AccessRenamed (name name' : String) :
    Except AccessFault (FrameId × Slot) → Except AccessFault (FrameId × Slot) → Prop
  | ok {found found' : FrameId × Slot} :
      FoundRenamed ρ refers W found found' → AccessRenamed name name' (.ok found) (.ok found')
  | undefined : AccessRenamed name name' (.error (.undefined name)) (.error (.undefined name'))
  | shortChain (distance : Nat) :
      AccessRenamed name name' (.error (.shortChain distance)) (.error (.shortChain distance))

end Definitions

section Growth

variable
  {ρ : Renaming}
  {refers : Mentions}
  {W W' : Marking}
  {marked : Bool}

theorem Slot.Renamed.mono
    {slot slot' : Slot}
    (h : slot.Renamed ρ refers W marked slot')
    (hW : W <+: W') :
    slot.Renamed ρ refers W' marked slot' := by
  cases h with
  | mk hv => exact .mk (hv.mono hW)

theorem BindingRenamed.mono
    {b b' : String × Value}
    (h : BindingRenamed ρ refers W marked b b')
    (hW : W <+: W') :
    BindingRenamed ρ refers W' marked b b' :=
  ⟨h.1, h.2.mono hW⟩

theorem Frame.Renamed.mono
    {marks : List Bool}
    {f f' : Frame}
    (h : f.Renamed ρ refers W marks f')
    (hW : W <+: W') :
    f.Renamed ρ refers W' marks f' :=
  ⟨h.enclosing, fun outer houter => (h.around outer houter).mono hW,
    h.slots.imp fun _ _ hslot => hslot.mono hW⟩

end Growth

section Slots

variable
  {ρ : Renaming}
  {refers : Mentions}
  {W : Marking}
  {marked : Bool}
  {slot slot' : Slot}
  {slots slots' : List Slot}

/-- Corresponding slots have the same name exactly where the other slots have. -/
theorem Slot.Renamed.beq_name
    (h : slot.Renamed ρ refers W marked slot')
    (name : String) :
    (slot'.name == ρ.swap marked name) = (slot.name == name) := by
  cases h with
  | mk _ => rw [Bool.eq_iff_iff, beq_iff_eq, beq_iff_eq, ρ.swap_inj]

theorem Slot.Renamed.constant (h : slot.Renamed ρ refers W marked slot') :
    slot'.constant = slot.constant := by
  cases h
  rfl

theorem Slot.Renamed.value (h : slot.Renamed ρ refers W marked slot') :
    slot.value.Renamed ρ refers W slot'.value := by
  cases h with
  | mk hv => exact hv

theorem Slot.Renamed.withValue
    (h : slot.Renamed ρ refers W marked slot')
    {v v' : Value}
    (hv : v.Renamed ρ refers W v') :
    Slot.Renamed ρ refers W marked { slot with value := v } { slot' with value := v' } := by
  cases h
  exact .mk hv

theorem putSlot_renamed
    (h : slot.Renamed ρ refers W marked slot')
    (hslots : List.Forall₂ (Slot.Renamed ρ refers W marked) slots slots') :
    List.Forall₂ (Slot.Renamed ρ refers W marked) (putSlot slot slots) (putSlot slot' slots') := by
  induction hslots with
  | nil => exact .cons h .nil
  | @cons s s' rest rest' hs hrest ih =>
      have hsame : (s'.name == slot'.name) = (s.name == slot.name) := by
        cases h with
        | mk _ => exact hs.beq_name _
      simp only [putSlot, hsame]
      split
      · exact .cons h hrest
      · exact .cons hs ih

end Slots

namespace Store.Renamed

variable
  {ρ : Renaming}
  {refers : Mentions}
  {W : Marking}
  {store store' : Store}
  {id : FrameId}
  {marks : List Bool}

theorem slot?
    (h : store.Renamed ρ refers W store')
    (hid : W.Around id marks)
    (name : String) :
    Option.Rel (Slot.Renamed ρ refers W (marks.headD false)) (store.slot? id name)
      (store'.slot? id (ρ.swap (marks.headD false) name)) := by
  obtain ⟨f, f', hf, hf', hframe⟩ := h.frame hid
  simp only [Store.slot?, hf, hf', Option.bind_some, Frame.slot?]
  have hslots := hframe.slots
  generalize f.slots = slots at hslots ⊢
  generalize f'.slots = slots' at hslots ⊢
  induction hslots with
  | nil => exact .none
  | @cons s s' _ _ hs _ ih =>
      simp only [List.find?_cons, hs.beq_name]
      cases s.name == name with
      | true => exact .some hs
      | false => exact ih

theorem enclosing?
    (h : store.Renamed ρ refers W store')
    (hid : W.Around id marks) :
    store'.enclosing? id = store.enclosing? id
      ∧ ∀ outer ∈ store.enclosing? id, W.Around outer marks.tail := by
  obtain ⟨f, f', hf, hf', hframe⟩ := h.frame hid
  simp only [Store.enclosing?, hf, hf', Option.bind_some]
  exact ⟨hframe.enclosing, hframe.around⟩

/-- The frame at a distance has the marks from that distance on. -/
theorem ancestor?
    (h : store.Renamed ρ refers W store')
    (hid : W.Around id marks)
    (distance : Nat) :
    store'.ancestor? id distance = store.ancestor? id distance
      ∧ ∀ g ∈ store.ancestor? id distance, W.Around g (marks.drop distance) := by
  induction distance generalizing id marks with
  | zero =>
      refine ⟨rfl, ?_⟩
      rintro _ ⟨⟩
      exact hid
  | succ distance ih =>
      obtain ⟨hsame, haround⟩ := h.enclosing? hid
      simp only [Store.ancestor?, hsame]
      cases houter : store.enclosing? id with
      | none => exact ⟨rfl, nofun⟩
      | some outer =>
          have hdrop : marks.drop (distance + 1) = marks.tail.drop distance := by
            rw [List.drop_tail]
          rw [hdrop]
          exact ih (haround outer houter)

/-- A slot is found, or none under either name. -/
theorem access_slot?
    (h : store.Renamed ρ refers W store')
    (hid : W.Around id marks)
    {name : String}
    (hname : marks.headD false = true → name ≠ ρ.new) :
    AccessRenamed ρ refers W name (ρ.apply (marks.headD false) name)
      (match store.slot? id name with
        | some slot => .ok (id, slot)
        | none => .error (.undefined name))
      (match store'.slot? id (ρ.apply (marks.headD false) name) with
        | some slot => .ok (id, slot)
        | none => .error (.undefined (ρ.apply (marks.headD false) name))) := by
  have hslot := h.slot? hid name
  rw [ρ.swap_eq_apply hname] at hslot
  generalize store.slot? id name = found at hslot ⊢
  generalize store'.slot? id (ρ.apply (marks.headD false) name) = found' at hslot ⊢
  cases hslot with
  | some hslot => exact .ok ⟨rfl, marks, hid, hslot⟩
  | none => exact .undefined

/-- A name is found at a distance, under the name that the frame there gives to it. -/
theorem findAt
    (h : store.Renamed ρ refers W store')
    (hid : W.Around id marks)
    (distance : Nat)
    {name : String}
    (hname : marks.getD distance false = true → name ≠ ρ.new) :
    AccessRenamed ρ refers W name (ρ.apply (marks.getD distance false) name)
      (store.findAt id distance name)
      (store'.findAt id distance (ρ.apply (marks.getD distance false) name)) := by
  obtain ⟨hsame, haround⟩ := h.ancestor? hid distance
  have hmark : marks.getD distance false = (marks.drop distance).headD false := by
    rw [List.headD_eq_head?_getD, List.head?_drop, List.getD_eq_getElem?_getD]
  unfold Store.findAt
  rw [hsame]
  cases hancestor : store.ancestor? id distance with
  | none => exact .shortChain distance
  | some holder =>
      rw [hmark] at hname ⊢
      exact h.access_slot? (haround holder hancestor) hname

/-- A global name is found under the same name. -/
theorem find_global
    (h : store.Renamed ρ refers W store')
    (hroot : W.Around globalFrame [])
    (name : String) :
    AccessRenamed ρ refers W name name (store.find globalFrame name)
      (store'.find globalFrame name) := by
  rw [find_globalFrame, find_globalFrame]
  have hkept : ([] : List Bool).headD false = true → name ≠ ρ.new := nofun
  have haccess := h.access_slot? hroot hkept
  simp only [List.headD_nil, ρ.apply_false] at haccess
  exact haccess

theorem isConstant_global
    (h : store.Renamed ρ refers W store')
    (hroot : W.Around globalFrame [])
    (name : String) :
    store'.isConstant globalFrame name = store.isConstant globalFrame name := by
  have hslot := h.slot? hroot name
  simp only [List.headD_nil, ρ.swap_false] at hslot
  unfold Store.isConstant
  generalize store.slot? globalFrame name = found at hslot ⊢
  generalize store'.slot? globalFrame name = found' at hslot ⊢
  cases hslot with
  | none => rfl
  | some hslot => exact hslot.constant

/-- A change of one frame keeps stores in correspondence if it does so with the frames. -/
theorem modify
    (h : store.Renamed ρ refers W store')
    (hid : W.Around id marks)
    {g g' : Frame → Frame}
    (hg : ∀ f f', f.Renamed ρ refers W marks f' → (g f).Renamed ρ refers W marks (g' f')) :
    Store.Renamed ρ refers W ⟨store.frames.modify id g⟩ ⟨store'.frames.modify id g'⟩ where
  size := by
    rw [← h.size]
    exact Array.size_modify
  size' := by
    rw [← h.size']
    exact Array.size_modify
  frame := by
    intro i marks' hi
    obtain ⟨f, f', hf, hf', hframe⟩ := h.frame hi
    simp only [Store.frame?] at hf hf' ⊢
    simp only [Array.getElem?_modify, hf, hf']
    by_cases heq : id = i
    · subst heq
      obtain rfl := Option.some.inj (hid.symm.trans hi)
      exact ⟨g f, g' f', by simp, by simp, hg f f' hframe⟩
    · exact ⟨f, f', by simp [heq], by simp [heq], hframe⟩

theorem define
    (h : store.Renamed ρ refers W store')
    (hid : W.Around id marks)
    (name : String)
    {v v' : Value}
    (hv : v.Renamed ρ refers W v')
    (constant : Bool) :
    (store.define id name v constant).Renamed ρ refers W
      (store'.define id (ρ.swap (marks.headD false) name) v' constant) :=
  h.modify hid fun _ _ hf => ⟨hf.enclosing, hf.around, putSlot_renamed (.mk hv) hf.slots⟩

theorem update
    (h : store.Renamed ρ refers W store')
    {found found' : FrameId × Slot}
    (hfound : FoundRenamed ρ refers W found found')
    {v v' : Value}
    (hv : v.Renamed ρ refers W v') :
    (store.update found.1 found.2 v).Renamed ρ refers W (store'.update found'.1 found'.2 v') := by
  obtain ⟨hsame, marks, hid, hslot⟩ := hfound
  rw [hsame]
  exact h.modify hid fun _ _ hf =>
    ⟨hf.enclosing, hf.around, putSlot_renamed (hslot.withValue hv) hf.slots⟩

theorem defineAll
    (h : store.Renamed ρ refers W store')
    (hid : W.Around id marks)
    {bindings bindings' : List (String × Value)}
    (hbindings : List.Forall₂ (BindingRenamed ρ refers W (marks.headD false)) bindings bindings') :
    (store.defineAll id bindings).Renamed ρ refers W (store'.defineAll id bindings') := by
  induction hbindings generalizing store store' with
  | nil => exact h
  | @cons b b' rest rest' hb _ ih =>
      have hfirst := h.define hid b.1 hb.2 false
      rw [← hb.1] at hfirst
      exact ih hfirst

/-- A new frame, marked or not. -/
theorem extend
    (h : store.Renamed ρ refers W store')
    (hid : W.Around id marks)
    (marked : Bool) :
    (store.extend (some id)).Renamed ρ refers (W ++ [marked :: marks])
      (store'.extend (some id)) where
  size := by rw [Store.nextId_extend, h.size, List.length_append, List.length_singleton]
  size' := by rw [Store.nextId_extend, h.size', List.length_append, List.length_singleton]
  frame := by
    intro i marks' hi
    have hgrowth : W <+: W ++ [marked :: marks] := List.prefix_append _ _
    simp only [Store.frame?_extend, h.size, h.size']
    rcases Marking.around_concat.mp hi with hold | ⟨rfl, rfl⟩
    · obtain ⟨f, f', hf, hf', hframe⟩ := h.frame hold
      have hne : i ≠ W.length := (List.getElem?_eq_some_iff.mp hold).1.ne
      exact ⟨f, f', by rw [if_neg hne, hf], by rw [if_neg hne, hf'], hframe.mono hgrowth⟩
    · refine ⟨_, _, if_pos rfl, if_pos rfl, rfl, ?_, .nil⟩
      rintro _ ⟨⟩
      exact hid.mono hgrowth

end Store.Renamed

end Lox

import Lox.Machine.Basic
import Lox.Proofs.Machine.Store
import Lox.Proofs.Value.Widen

/-!
# Frames of machines with additional frames

Every frame of the second store stands for a frame of the first.  The additional ones bind nothing
and stand for the frame around them; every other one binds what the frame binds for which it stands,
and stands for it alone.  So a name that is found at some distance in the first store is found in
the second at the distance that counts the additional frame too.

**Main definition.**
* `Store.Widened`: stores that correspond under a pairing.

**Results.**
* `Store.Widened.findAt`: names are found in corresponding slots, or not at all.
* `Store.Widened.define`, `Store.Widened.extend`: changes keep stores in correspondence.
* `Store.Widened.extendAdded`: so does a frame that is added to the second store only.
-/

namespace Lox

/-- Seen from the scope around. -/
def Gap.outer (gap : Gap) : Gap := gap.map (· - 1)

@[simp] theorem Gap.outer_inner (gap : Gap) : gap.inner.outer = gap := by
  cases gap <;> rfl

section Definitions

variable (W : Pairing)

inductive Slot.Widened : Slot → Slot → Prop
  | mk {name : String} {v v' : Value} {constant : Bool} (hv : v.Widened W v') :
      Slot.Widened ⟨name, v, constant⟩ ⟨name, v', constant⟩

/-- A name with a value, as variables and fields are given. -/
def BindingWidened (b b' : String × Value) : Prop :=
  b'.1 = b.1 ∧ b.2.Widened W b'.2

structure Frame.Widened (gap : Gap) (f f' : Frame) : Prop where
  enclosing : Option.Rel (fun outer outer' => W.Pairs outer outer' gap.outer)
    f.enclosing f'.enclosing
  slots : List.Forall₂ (Slot.Widened W) f.slots f'.slots

structure Store.Widened (store store' : Store) : Prop where
  there : ∀ {id id' : FrameId} {gap : Gap}, W.Pairs id id' gap → id < store.nextId
  size : store'.nextId = W.length
  frame : ∀ {id id' : FrameId} {gap : Gap}, W.Pairs id id' gap → gap ≠ some 0 →
    ∃ f f', store.frame? id = some f ∧ store'.frame? id' = some f' ∧ f.Widened W gap f'
  added : ∀ {id id' : FrameId}, W.Pairs id id' (some 0) →
    ∃ outer', store'.frame? id' = some ⟨some outer', []⟩ ∧ W.Pairs id outer' none
  unique : ∀ {id id' id'' : FrameId} {gap' gap'' : Gap}, W.Pairs id id' gap' → gap' ≠ some 0 →
    W.Pairs id id'' gap'' → gap'' ≠ some 0 → id' = id''

/-- What is found in one store and in the other. -/
def FoundWidened (found found' : FrameId × Slot) : Prop :=
  ∃ gap, W.Pairs found.1 found'.1 gap ∧ gap ≠ some 0 ∧ found.2.Widened W found'.2

/-- A search in both stores: it succeeds in both or fails in both. -/
inductive AccessWidened :
    Except AccessFault (FrameId × Slot) → Except AccessFault (FrameId × Slot) → Prop
  | ok {found found' : FrameId × Slot} (hfound : FoundWidened W found found') :
      AccessWidened (.ok found) (.ok found')
  | undefined (name : String) : AccessWidened (.error (.undefined name)) (.error (.undefined name))
  | shortChain (distance distance' : Nat) :
      AccessWidened (.error (.shortChain distance)) (.error (.shortChain distance'))

end Definitions

section Growth

variable
  {W W' : Pairing}

theorem Slot.Widened.mono
    {slot slot' : Slot}
    (h : slot.Widened W slot')
    (hW : W <+: W') :
    slot.Widened W' slot' := by
  cases h with
  | mk hv => exact .mk (hv.mono hW)

theorem BindingWidened.mono
    {b b' : String × Value}
    (h : BindingWidened W b b')
    (hW : W <+: W') :
    BindingWidened W' b b' :=
  ⟨h.1, h.2.mono hW⟩

theorem Frame.Widened.mono
    {gap : Gap}
    {f f' : Frame}
    (h : f.Widened W gap f')
    (hW : W <+: W') :
    f.Widened W' gap f' where
  enclosing := by
    have henclosing := h.enclosing
    generalize f.enclosing = outer at henclosing ⊢
    generalize f'.enclosing = outer' at henclosing ⊢
    cases henclosing with
    | none => exact .none
    | some houter => exact .some (houter.mono hW)
  slots := h.slots.imp fun _ _ hslot => hslot.mono hW

end Growth

section Slots

variable
  {W : Pairing}
  {slot slot' : Slot}
  {slots slots' : List Slot}

theorem Slot.Widened.name (h : slot.Widened W slot') : slot'.name = slot.name := by
  cases h
  rfl

theorem Slot.Widened.constant (h : slot.Widened W slot') : slot'.constant = slot.constant := by
  cases h
  rfl

theorem Slot.Widened.value (h : slot.Widened W slot') : slot.value.Widened W slot'.value := by
  cases h with
  | mk hv => exact hv

theorem Slot.Widened.withValue
    (h : slot.Widened W slot')
    {v v' : Value}
    (hv : v.Widened W v') :
    Slot.Widened W { slot with value := v } { slot' with value := v' } := by
  cases h
  exact .mk hv

theorem putSlot_widened
    (h : slot.Widened W slot')
    (hslots : List.Forall₂ (Slot.Widened W) slots slots') :
    List.Forall₂ (Slot.Widened W) (putSlot slot slots) (putSlot slot' slots') := by
  induction hslots with
  | nil => exact .cons h .nil
  | @cons s s' rest rest' hs hrest ih =>
      simp only [putSlot, hs.name, h.name]
      split
      · exact .cons h hrest
      · exact .cons hs ih

end Slots

namespace Store.Widened

variable
  {W : Pairing}
  {store store' : Store}
  {id id' : FrameId}
  {gap : Gap}

theorem slot?
    (h : store.Widened W store')
    (hid : W.Pairs id id' gap)
    (hgap : gap ≠ some 0)
    (name : String) :
    Option.Rel (Slot.Widened W) (store.slot? id name) (store'.slot? id' name) := by
  obtain ⟨f, f', hf, hf', hframe⟩ := h.frame hid hgap
  simp only [Store.slot?, hf, hf', Option.bind_some, Frame.slot?]
  have hslots := hframe.slots
  generalize f.slots = slots at hslots ⊢
  generalize f'.slots = slots' at hslots ⊢
  induction hslots with
  | nil => exact .none
  | @cons s s' _ _ hs _ ih =>
      simp only [List.find?_cons, hs.name]
      cases s.name == name with
      | true => exact .some hs
      | false => exact ih

theorem enclosing?
    (h : store.Widened W store')
    (hid : W.Pairs id id' gap)
    (hgap : gap ≠ some 0) :
    Option.Rel (fun outer outer' => W.Pairs outer outer' gap.outer) (store.enclosing? id)
      (store'.enclosing? id') := by
  obtain ⟨f, f', hf, hf', hframe⟩ := h.frame hid hgap
  simp only [Store.enclosing?, hf, hf', Option.bind_some]
  exact hframe.enclosing

/-- From an additional frame outward there is the frame for which it stands. -/
theorem enclosing?_added
    (h : store.Widened W store')
    (hid : W.Pairs id id' (some 0)) :
    ∃ outer', store'.enclosing? id' = some outer' ∧ W.Pairs id outer' none := by
  obtain ⟨outer', hf', houter⟩ := h.added hid
  exact ⟨outer', by simp [Store.enclosing?, hf'], houter⟩

/-- Frames that bind the same. -/
def Alike (W : Pairing) (holder holder' : FrameId) : Prop :=
  ∃ gap, W.Pairs holder holder' gap ∧ gap ≠ some 0

/-- Where no frame is added, the distances are the same. -/
theorem ancestor?_none
    (h : store.Widened W store')
    (hid : W.Pairs id id' none)
    (distance : Nat) :
    Option.Rel (Alike W) (store.ancestor? id distance) (store'.ancestor? id' distance) := by
  induction distance generalizing id id' with
  | zero => exact .some ⟨none, hid, Gap.none_ne 0⟩
  | succ distance ih =>
      have houter := h.enclosing? hid (Gap.none_ne 0)
      simp only [Store.ancestor?]
      generalize store.enclosing? id = outer at houter ⊢
      generalize store'.enclosing? id' = outer' at houter ⊢
      cases houter with
      | none => exact .none
      | some houter => exact ih houter

/-- A frame at a distance is the frame at the distance that counts the additional frame too. -/
theorem ancestor?
    (h : store.Widened W store')
    (hid : W.Pairs id id' gap)
    (distance : Nat) :
    Option.Rel (Alike W) (store.ancestor? id distance)
      (store'.ancestor? id' (gap.shift distance)) := by
  induction distance generalizing id id' gap with
  | zero =>
      match gap with
      | none => exact h.ancestor?_none hid 0
      | some 0 =>
          obtain ⟨outer', houter, hpairs⟩ := h.enclosing?_added hid
          simpa [Store.ancestor?, houter] using h.ancestor?_none hpairs 0
      | some (inside + 1) => exact .some ⟨_, hid, by simp⟩
  | succ distance ih =>
      match gap with
      | none => exact h.ancestor?_none hid _
      | some 0 =>
          obtain ⟨outer', houter, hpairs⟩ := h.enclosing?_added hid
          have hbeyond : store'.ancestor? id' (Gap.shift (some 0) (distance + 1)) =
              store'.ancestor? outer' (distance + 1) := by
            rw [Gap.shift_zero, Store.ancestor?, houter, Option.bind_some]
          rw [hbeyond]
          exact h.ancestor?_none hpairs _
      | some (inside + 1) =>
          have houter := h.enclosing? hid (by simp)
          have hshift := Gap.shift_inner_succ (some inside) distance
          rw [Gap.inner_some] at hshift
          rw [hshift]
          simp only [Store.ancestor?]
          generalize store.enclosing? id = outer at houter ⊢
          generalize store'.enclosing? id' = outer' at houter ⊢
          cases houter with
          | none => exact .none
          | some houter => exact ih houter

/-- A slot is found in frames that bind the same, or none in either. -/
theorem access_slot?
    (h : store.Widened W store')
    (hid : Alike W id id')
    (name : String) :
    AccessWidened W
      (match store.slot? id name with
        | some slot => .ok (id, slot)
        | none => .error (.undefined name))
      (match store'.slot? id' name with
        | some slot => .ok (id', slot)
        | none => .error (.undefined name)) := by
  obtain ⟨gap, hpairs, hgap⟩ := hid
  have hslot := h.slot? hpairs hgap name
  generalize store.slot? id name = found at hslot ⊢
  generalize store'.slot? id' name = found' at hslot ⊢
  cases hslot with
  | some hslot => exact .ok ⟨gap, hpairs, hgap, hslot⟩
  | none => exact .undefined name

theorem findAt
    (h : store.Widened W store')
    (hid : W.Pairs id id' gap)
    (distance : Nat)
    (name : String) :
    AccessWidened W (store.findAt id distance name)
      (store'.findAt id' (gap.shift distance) name) := by
  have hancestor := h.ancestor? hid distance
  unfold Store.findAt
  generalize store.ancestor? id distance = holder at hancestor ⊢
  generalize store'.ancestor? id' (gap.shift distance) = holder' at hancestor ⊢
  cases hancestor with
  | none => exact .shortChain _ _
  | some hholder => exact h.access_slot? hholder name

/-- A global name is found in the global frames. -/
theorem find_global
    (h : store.Widened W store')
    (hroot : W.Pairs globalFrame globalFrame none)
    (name : String) :
    AccessWidened W (store.find globalFrame name) (store'.find globalFrame name) := by
  rw [Store.find_globalFrame, Store.find_globalFrame]
  exact h.access_slot? ⟨none, hroot, Gap.none_ne 0⟩ name

theorem isConstant_global
    (h : store.Widened W store')
    (hroot : W.Pairs globalFrame globalFrame none)
    (name : String) :
    store'.isConstant globalFrame name = store.isConstant globalFrame name := by
  have hslot := h.slot? hroot (Gap.none_ne 0) name
  unfold Store.isConstant
  generalize store.slot? globalFrame name = found at hslot ⊢
  generalize store'.slot? globalFrame name = found' at hslot ⊢
  cases hslot with
  | none => rfl
  | some hslot => exact hslot.constant

/--
A change of two frames that bind the same keeps stores in correspondence if it does so with the
frames.
-/
theorem modify
    (h : store.Widened W store')
    (hid : W.Pairs id id' gap)
    (hgap : gap ≠ some 0)
    {g g' : Frame → Frame}
    (hg : ∀ f f', f.Widened W gap f' → (g f).Widened W gap (g' f')) :
    Store.Widened W ⟨store.frames.modify id g⟩ ⟨store'.frames.modify id' g'⟩ where
  there hpairs := by simpa [nextId] using h.there hpairs
  size := by simpa [nextId] using h.size
  frame := by
    intro i i' gap' hi hgap'
    obtain ⟨f, f', hf, hf', hframe⟩ := h.frame hi hgap'
    simp only [Store.frame?] at hf hf' ⊢
    simp only [Array.getElem?_modify, hf, hf']
    by_cases heq : id' = i'
    · subst heq
      obtain ⟨rfl, rfl⟩ := Prod.mk.inj (Option.some.inj (hid.symm.trans hi))
      exact ⟨g f, g' f', by simp, by simp, hg f f' hframe⟩
    · have hne : id ≠ i := by
        rintro rfl
        exact heq (h.unique hid hgap hi hgap')
      exact ⟨f, f', by simp [hne], by simp [heq], hframe⟩
  added := by
    intro i i' hi
    obtain ⟨outer', hf', houter⟩ := h.added hi
    have hne : id' ≠ i' := by
      rintro rfl
      exact hgap (Prod.mk.inj (Option.some.inj (hid.symm.trans hi))).2
    exact ⟨outer', by simpa [Store.frame?, Array.getElem?_modify, hne] using hf', houter⟩
  unique := h.unique

theorem define
    (h : store.Widened W store')
    (hid : W.Pairs id id' gap)
    (hgap : gap ≠ some 0)
    (name : String)
    {v v' : Value}
    (hv : v.Widened W v')
    (constant : Bool) :
    (store.define id name v constant).Widened W (store'.define id' name v' constant) :=
  h.modify hid hgap fun _ _ hf => ⟨hf.enclosing, putSlot_widened (.mk hv) hf.slots⟩

theorem update
    (h : store.Widened W store')
    {found found' : FrameId × Slot}
    (hfound : FoundWidened W found found')
    {v v' : Value}
    (hv : v.Widened W v') :
    (store.update found.1 found.2 v).Widened W (store'.update found'.1 found'.2 v') := by
  obtain ⟨gap, hid, hgap, hslot⟩ := hfound
  exact h.modify hid hgap fun _ _ hf =>
    ⟨hf.enclosing, putSlot_widened (hslot.withValue hv) hf.slots⟩

theorem defineAll
    (h : store.Widened W store')
    (hid : W.Pairs id id' gap)
    (hgap : gap ≠ some 0)
    {bindings bindings' : List (String × Value)}
    (hbindings : List.Forall₂ (BindingWidened W) bindings bindings') :
    (store.defineAll id bindings).Widened W (store'.defineAll id' bindings') := by
  induction hbindings generalizing store store' with
  | nil => exact h
  | @cons b b' rest rest' hb _ ih =>
      obtain ⟨name, v⟩ := b
      obtain ⟨_, v'⟩ := b'
      obtain ⟨rfl, hv⟩ : _ = name ∧ v.Widened W v' := hb
      exact ih (h.define hid hgap _ hv false)

/-- A frame that is added to both stores. -/
theorem extend
    (h : store.Widened W store')
    (hid : W.Pairs id id' gap) :
    (store.extend (some id)).Widened (W ++ [(store.nextId, gap.inner)])
      (store'.extend (some id')) where
  there := by
    intro i i' gap' hi
    rw [Store.nextId_extend]
    rcases Pairing.pairs_concat.mp hi with hold | ⟨_, rfl, _⟩
    · exact Nat.lt_succ_of_lt (h.there hold)
    · exact Nat.lt_succ_self _
  size := by rw [Store.nextId_extend, h.size, List.length_append, List.length_singleton]
  frame := by
    intro i i' gap' hi hgap'
    have hgrowth : W <+: W ++ [(store.nextId, gap.inner)] := List.prefix_append _ _
    simp only [Store.frame?_extend, h.size]
    rcases Pairing.pairs_concat.mp hi with hold | ⟨rfl, rfl, rfl⟩
    · obtain ⟨f, f', hf, hf', hframe⟩ := h.frame hold hgap'
      exact ⟨f, f', by rw [if_neg (h.there hold).ne, hf], by rw [if_neg hold.lt_length.ne, hf'],
        hframe.mono hgrowth⟩
    · refine ⟨_, _, if_pos rfl, if_pos rfl, .some ?_, .nil⟩
      rw [Gap.outer_inner]
      exact hid.mono hgrowth
  added := by
    intro i i' hi
    have hgrowth : W <+: W ++ [(store.nextId, gap.inner)] := List.prefix_append _ _
    rcases Pairing.pairs_concat.mp hi with hold | ⟨_, _, hgap⟩
    · obtain ⟨outer', hf', houter⟩ := h.added hold
      exact ⟨outer', by rw [Store.frame?_extend, h.size, if_neg hold.lt_length.ne, hf'],
        houter.mono hgrowth⟩
    · exact absurd hgap.symm gap.inner_ne_zero
  unique := by
    intro i i' i'' gap' gap'' hi hgap' hi' hgap''
    rcases Pairing.pairs_concat.mp hi with hold | ⟨rfl, rfl, rfl⟩
    · rcases Pairing.pairs_concat.mp hi' with hold' | ⟨_, rfl, _⟩
      · exact h.unique hold hgap' hold' hgap''
      · exact absurd (h.there hold) (lt_irrefl _)
    · rcases Pairing.pairs_concat.mp hi' with hold' | ⟨rfl, _, _⟩
      · exact absurd (h.there hold') (lt_irrefl _)
      · rfl

/-- A frame that is added to the second store only. -/
theorem extendAdded
    (h : store.Widened W store')
    (hid : W.Pairs id id' none) :
    store.Widened (W ++ [(id, some 0)]) (store'.extend (some id')) where
  there := by
    intro i i' gap' hi
    rcases Pairing.pairs_concat.mp hi with hold | ⟨_, rfl, _⟩
    · exact h.there hold
    · exact h.there hid
  size := by rw [Store.nextId_extend, h.size, List.length_append, List.length_singleton]
  frame := by
    intro i i' gap' hi hgap'
    have hgrowth : W <+: W ++ [(id, some 0)] := List.prefix_append _ _
    rcases Pairing.pairs_concat.mp hi with hold | ⟨_, _, hzero⟩
    · obtain ⟨f, f', hf, hf', hframe⟩ := h.frame hold hgap'
      exact ⟨f, f', hf, by rw [Store.frame?_extend, h.size, if_neg hold.lt_length.ne, hf'],
        hframe.mono hgrowth⟩
    · exact absurd hzero hgap'
  added := by
    intro i i' hi
    have hgrowth : W <+: W ++ [(id, some 0)] := List.prefix_append _ _
    rw [Store.frame?_extend, h.size]
    rcases Pairing.pairs_concat.mp hi with hold | ⟨rfl, rfl, _⟩
    · obtain ⟨outer', hf', houter⟩ := h.added hold
      exact ⟨outer', by rw [if_neg hold.lt_length.ne, hf'], houter.mono hgrowth⟩
    · exact ⟨id', if_pos rfl, hid.mono hgrowth⟩
  unique := by
    intro i i' i'' gap' gap'' hi hgap' hi' hgap''
    rcases Pairing.pairs_concat.mp hi with hold | ⟨_, _, hzero⟩
    · rcases Pairing.pairs_concat.mp hi' with hold' | ⟨_, _, hzero⟩
      · exact h.unique hold hgap' hold' hgap''
      · exact absurd hzero hgap''
    · exact absurd hzero hgap'

end Store.Widened

end Lox

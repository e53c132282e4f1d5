import Lox.Proofs.Machine.Environment
import Lox.Proofs.Machine.Steps

/-!
# Stores that grow step by step

A store is a forest of frames, shared by everything that was made in them.  It grows by steps: a
frame is added, a name is bound in a frame, or a name gets a new value, in the nearest frame that
binds it or in the frame at a distance.  A step that fails changes nothing.

There are two ways to a slot, along the chain outward and at a known distance, and both can be taken
to read and to write.  What ties them together is the nearest frame that binds a name: the search
ends at that frame, and its distance leads there as well.

**Main definitions.**
* `StoreStep`, `Store.ofSteps`: the steps, and the store to which some steps lead.
* `Environments.ofSteps`: the same steps where values and constants are kept apart.
* `Store.Nearest`: the nearest frame from a frame outward that binds a name.
* `StoreStep.written?`: the slot that a step writes.

**Results.**
* `Store.holder?_eq_some_iff`: the search ends at the nearest frame.
* `Store.getAt_afterStep`: one step is seen through all chains that lead to the slot it writes.
* `Environments.ofSteps_toStore`: steps on environments are steps on the store that they stand for.
* `Store.scoped_store_laws`: the laws of a shared scoped store.
-/

namespace Lox

/-- A change of a store. -/
inductive StoreStep
  | new (enclosing : Option FrameId)
  | define (frame : FrameId) (name : String) (value : Value) (constant : Bool)
  | assign (frame : FrameId) (name : String) (value : Value)
  | assignAt (frame : FrameId) (distance : Nat) (name : String) (value : Value)

namespace Store

/-- Carries out a step, or tells why it fails. -/
def step? (store : Store) : StoreStep → Except AccessFault Store
  | .new enclosing => .ok (store.extend enclosing)
  | .define frame name value constant => .ok (store.define frame name value constant)
  | .assign frame name value => store.assign frame name value
  | .assignAt frame distance name value => store.assignAt frame distance name value

/-- The store after a step, be it carried out or not. -/
def afterStep
    (store : Store)
    (s : StoreStep) : Store :=
  match store.step? s with
  | .ok next => next
  | .error _ => store

/-- The store after some steps.  The last step stands first. -/
def ofSteps : List StoreStep → Store
  | [] => empty
  | s :: earlier => (ofSteps earlier).afterStep s

end Store

namespace StoreStep

/-- The frames that a step names are there. -/
def Possible (store : Store) : StoreStep → Prop
  | .new enclosing => ∀ f ∈ enclosing, f < store.nextId
  | .define frame _ _ _ => frame < store.nextId
  | .assign frame _ _ => frame < store.nextId
  | .assignAt frame _ _ _ => frame < store.nextId

/-- Each step names frames that are there by then. -/
def AllPossible : List StoreStep → Prop
  | [] => True
  | s :: earlier => AllPossible earlier ∧ s.Possible (Store.ofSteps earlier)

/-- A value that is written under a name of a frame. -/
structure Write where
  frame : FrameId
  name : String
  value : Value

/-- What a step writes to a store, if it is carried out and adds no frame. -/
def written? (store : Store) : StoreStep → Option Write
  | .new _ => none
  | .define frame name value _ => some ⟨frame, name, value⟩
  | .assign frame name value =>
      (store.find frame name).toOption.map fun found => ⟨found.1, name, value⟩
  | .assignAt frame distance name value =>
      (store.findAt frame distance name).toOption.map fun found => ⟨found.1, name, value⟩

/-- The value under a name of a frame after something may have been written. -/
def valueAfter
    (written : Option Write)
    (f : FrameId)
    (n : String)
    (before : Option Value) : Option Value :=
  match written with
  | some w => if w.frame = f ∧ w.name = n then some w.value else before
  | none => before

/-- The value that some steps have written last under a name of a frame. -/
def lastWritten?
    (f : FrameId)
    (n : String) : List StoreStep → Option Value
  | [] => none
  | s :: earlier =>
      valueAfter (s.written? (Store.ofSteps earlier)) f n (lastWritten? f n earlier)

/-- A definition of a name in a frame makes it a constant or a variable. -/
def marks?
    (f : FrameId)
    (n : String) : StoreStep → Option Bool
  | .define frame name _ constant => if frame = f ∧ name = n then some constant else none
  | _ => none

end StoreStep

namespace Store

/-- Every frame is enclosed by an earlier one, if by any. -/
def Outward (store : Store) : Prop :=
  ∀ f outer, store.enclosing? f = some outer → outer < f

/-- The nearest frame from a frame outward that binds a name, and its distance. -/
structure Nearest
    (store : Store)
    (e : FrameId)
    (name : String)
    (distance : Nat)
    (holder : FrameId)
    (slot : Slot) : Prop where
  leads : store.ancestor? e distance = some holder
  bound : store.slot? holder name = some slot
  unbound : ∀ d < distance, ∀ g, store.ancestor? e d = some g → store.slot? g name = none

/-- The names that a frame binds. -/
def names (store : Store) (f : FrameId) : Set String :=
  { n | (store.slot? f n).isSome }

/-- The names that a frame binds as constants. -/
def constants (store : Store) (f : FrameId) : Set String :=
  { n | store.isConstant f n = true }

section Search

variable {store : Store}

/-- The frame itself is nearest if it binds the name. -/
theorem nearest_zero
    {e : FrameId}
    {name : String}
    {slot : Slot}
    (h : store.slot? e name = some slot) :
    store.Nearest e name 0 e slot :=
  ⟨rfl, h, nofun⟩

/-- From a frame that does not bind the name, the search goes on in the enclosing frame. -/
theorem nearest_succ_iff
    {e outer : FrameId}
    {name : String}
    (hnone : store.slot? e name = none)
    (houter : store.enclosing? e = some outer)
    {distance : Nat}
    {holder : FrameId}
    {slot : Slot} :
    store.Nearest e name (distance + 1) holder slot ↔
      store.Nearest outer name distance holder slot := by
  have hstep : ∀ d, store.ancestor? e (d + 1) = store.ancestor? outer d := fun d => by
    rw [ancestor?, houter, Option.bind_some]
  constructor
  · rintro ⟨hleads, hbound, hunbound⟩
    refine ⟨(hstep distance).symm.trans hleads, hbound, fun d hd g hg => ?_⟩
    exact hunbound (d + 1) (Nat.succ_lt_succ hd) g ((hstep d).trans hg)
  · rintro ⟨hleads, hbound, hunbound⟩
    refine ⟨(hstep distance).trans hleads, hbound, fun d hd g hg => ?_⟩
    cases d with
    | zero =>
        obtain rfl := Option.some.inj hg
        exact hnone
    | succ d => exact hunbound d (Nat.lt_of_succ_lt_succ hd) g ((hstep d).symm.trans hg)

/-- The nearest frame is found, since the way outward leads to earlier frames. -/
theorem Nearest.holder?
    (hstore : store.Outward)
    {e holder : FrameId}
    {name : String}
    {distance : Nat}
    {slot : Slot}
    (h : store.Nearest e name distance holder slot) :
    store.holder? name e = some (holder, slot) := by
  induction distance generalizing e with
  | zero =>
      obtain rfl := Option.some.inj h.leads
      rw [Store.holder?, h.bound]
  | succ distance ih =>
      have hnone := h.unbound 0 distance.succ_pos e rfl
      obtain ⟨outer, houter, -⟩ := Option.bind_eq_some_iff.mp h.leads
      rw [Store.holder?, hnone, houter]
      dsimp only
      rw [if_pos (hstore e outer houter)]
      exact ih ((nearest_succ_iff hnone houter).mp h)

/-- What is found is the slot of the nearest frame. -/
theorem exists_nearest_of_holder?
    {e holder : FrameId}
    {name : String}
    {slot : Slot}
    (h : store.holder? name e = some (holder, slot)) :
    ∃ distance, store.Nearest e name distance holder slot := by
  fun_induction Store.holder? store name e with
  | case1 e found hfound =>
      cases h
      exact ⟨0, nearest_zero hfound⟩
  | case2 e hnone outer houter hlt ih =>
      obtain ⟨distance, hnearest⟩ := ih h
      exact ⟨distance + 1, (nearest_succ_iff hnone houter).mpr hnearest⟩
  | case3 e hnone outer houter hlt => cases h
  | case4 e hnone houter => cases h

/-- The search for a name ends at the nearest frame that binds it. -/
theorem holder?_eq_some_iff
    (hstore : store.Outward)
    {e holder : FrameId}
    {name : String}
    {slot : Slot} :
    store.holder? name e = some (holder, slot) ↔
      ∃ distance, store.Nearest e name distance holder slot :=
  ⟨exists_nearest_of_holder?, fun ⟨_, h⟩ => h.holder? hstore⟩

/-- If any frame outward binds a name, there is a nearest one. -/
theorem exists_nearest
    {e f : FrameId}
    {name : String}
    {distance : Nat}
    (hleads : store.ancestor? e distance = some f)
    (hbound : name ∈ store.names f) :
    ∃ d holder slot, store.Nearest e name d holder slot := by
  induction distance generalizing e with
  | zero =>
      obtain rfl := Option.some.inj hleads
      obtain ⟨slot, hslot⟩ := Option.isSome_iff_exists.mp hbound
      exact ⟨0, e, slot, nearest_zero hslot⟩
  | succ distance ih =>
      obtain ⟨outer, houter, hrest⟩ := Option.bind_eq_some_iff.mp hleads
      cases hslot : store.slot? e name with
      | some slot => exact ⟨0, e, slot, nearest_zero hslot⟩
      | none =>
          obtain ⟨d, holder, slot, hnearest⟩ := ih hrest
          exact ⟨d + 1, holder, slot, (nearest_succ_iff hslot houter).mpr hnearest⟩

theorem Nearest.find
    (hstore : store.Outward)
    {e holder : FrameId}
    {name : String}
    {distance : Nat}
    {slot : Slot}
    (h : store.Nearest e name distance holder slot) :
    store.find e name = .ok (holder, slot) := by
  rw [Store.find, h.holder? hstore]

/-- At its distance the nearest frame is found as well. -/
theorem Nearest.findAt
    {e holder : FrameId}
    {name : String}
    {distance : Nat}
    {slot : Slot}
    (h : store.Nearest e name distance holder slot) :
    store.findAt e distance name = .ok (holder, slot) := by
  simp only [Store.findAt, h.leads, h.bound]

/-- A name is found exactly if a frame outward binds it. -/
theorem exists_find_iff
    (hstore : store.Outward)
    (e : FrameId)
    (name : String) :
    (∃ found, store.find e name = .ok found) ↔
      ∃ distance f, store.ancestor? e distance = some f ∧ name ∈ store.names f := by
  constructor
  · rintro ⟨⟨holder, slot⟩, hfound⟩
    unfold Store.find at hfound
    split at hfound
    · next found hholder =>
        cases hfound
        obtain ⟨distance, h⟩ := exists_nearest_of_holder? hholder
        exact ⟨distance, holder, h.leads, Option.isSome_of_mem h.bound⟩
    · cases hfound
  · rintro ⟨distance, f, hleads, hbound⟩
    obtain ⟨d, holder, slot, h⟩ := exists_nearest hleads hbound
    exact ⟨_, h.find hstore⟩

theorem exists_get_iff
    (hstore : store.Outward)
    (e : FrameId)
    (name : String) :
    (∃ v, store.get e name = .ok v) ↔
      ∃ distance f, store.ancestor? e distance = some f ∧ name ∈ store.names f := by
  rw [← exists_find_iff hstore, Store.get]
  cases store.find e name <;> simp [Except.map]

/-- A name that is not found can be assigned as little as it can be read. -/
theorem undefined_of_get
    {e : FrameId}
    {name : String}
    (h : ¬ ∃ v, store.get e name = .ok v) :
    store.get e name = .error (.undefined name)
      ∧ ∀ v, store.assign e name v = .error (.undefined name) := by
  have hfind : store.find e name = .error (.undefined name) := by
    unfold Store.get at h
    unfold Store.find at h ⊢
    cases hholder : store.holder? name e with
    | none => rfl
    | some found => exact absurd ⟨found.2.value, by rw [hholder]; rfl⟩ h
  refine ⟨?_, fun v => ?_⟩
  · rw [Store.get, hfind]
    rfl
  · rw [Store.assign, hfind]
    rfl

section Nearest

variable
  {e holder : FrameId}
  {name : String}
  {distance : Nat}
  {slot : Slot}
  (h : store.Nearest e name distance holder slot)
include h

theorem Nearest.get (hstore : store.Outward) : store.get e name = .ok slot.value := by
  rw [Store.get, h.find hstore]
  rfl

theorem Nearest.getAt : store.getAt e distance name = .ok slot.value := by
  rw [Store.getAt, h.findAt]
  rfl

theorem Nearest.assign (hstore : store.Outward) (value : Value) :
    store.assign e name value = .ok (store.update holder slot value) := by
  rw [Store.assign, h.find hstore]
  rfl

theorem Nearest.assignAt (value : Value) :
    store.assignAt e distance name value = .ok (store.update holder slot value) := by
  rw [Store.assignAt, h.findAt]
  rfl

theorem Nearest.slot?_update (value : Value) (g : FrameId) (n : String) :
    (store.update holder slot value).slot? g n =
      if holder = g ∧ name = n then some { slot with value := value } else store.slot? g n := by
  rw [Store.slot?_update store (lt_nextId_of_slot? h.bound), name_of_slot? h.bound]

end Nearest

end Search

section Steps

/-- What a step can do: it adds a frame, binds a name, changes the value of a slot, or fails. -/
inductive Effect (store : Store) : StoreStep → Option StoreStep.Write → Store → Prop
  | added
      {enclosing : Option FrameId}
      (hthere : ∀ f ∈ enclosing, f < store.nextId) :
      Effect store (.new enclosing) none (store.extend enclosing)
  | defined
      {f : FrameId}
      {name : String}
      {value : Value}
      {constant : Bool}
      (hthere : f < store.nextId) :
      Effect store (.define f name value constant) (some ⟨f, name, value⟩)
        (store.define f name value constant)
  | updated
      {s : StoreStep}
      {f : FrameId}
      {name : String}
      {value : Value}
      {slot : Slot}
      (hslot : store.slot? f name = some slot)
      (hmarks : ∀ g n, s.marks? g n = none) :
      Effect store s (some ⟨f, name, value⟩) (store.update f slot value)
  | failed
      {s : StoreStep}
      (hmarks : ∀ g n, s.marks? g n = none) :
      Effect store s none store

variable {store next : Store} {s : StoreStep} {written : Option StoreStep.Write}

theorem effect_afterStep (hs : s.Possible store) :
    Effect store s (s.written? store) (store.afterStep s) := by
  cases s with
  | new enclosing => exact .added hs
  | define frame name value constant => exact .defined hs
  | assign frame name value =>
      simp only [afterStep, step?, assign, StoreStep.written?]
      cases hfound : store.find frame name with
      | error fault => exact .failed fun _ _ => rfl
      | ok found => exact .updated (slot?_of_find hfound) fun _ _ => rfl
  | assignAt frame distance name value =>
      simp only [afterStep, step?, assignAt, StoreStep.written?]
      cases hfound : store.findAt frame distance name with
      | error fault => exact .failed fun _ _ => rfl
      | ok found => exact .updated (findAt_eq_ok hfound).2 fun _ _ => rfl

namespace Effect

variable (h : Effect store s written next)
include h

/-- Frames that are there keep the frame around them. -/
theorem enclosing?
    {f : FrameId}
    (hf : f < store.nextId) :
    next.enclosing? f = store.enclosing? f := by
  cases h with
  | added => rw [enclosing?_extend, if_neg (Nat.ne_of_lt hf)]
  | defined => exact enclosing?_define store _ _ _ _ _
  | updated => exact enclosing?_update store _ _ _ _
  | failed => rfl

theorem outward (hstore : store.Outward) : next.Outward := by
  intro f outer houter
  cases h with
  | added hthere =>
      rw [enclosing?_extend] at houter
      split at houter
      · next hf => exact hf ▸ hthere outer houter
      · exact hstore f outer houter
  | defined => exact hstore f outer ((enclosing?_define store _ _ _ _ _).symm.trans houter)
  | updated => exact hstore f outer ((enclosing?_update store _ _ _ _).symm.trans houter)
  | failed => exact hstore f outer houter

/-- The chain of a frame that is there stays. -/
theorem ancestor?
    (hstore : store.Outward)
    {e : FrameId}
    (he : e < store.nextId)
    (distance : Nat) :
    next.ancestor? e distance = store.ancestor? e distance := by
  induction distance generalizing e with
  | zero => rfl
  | succ distance ih =>
      rw [Store.ancestor?, Store.ancestor?, h.enclosing? he]
      cases houter : store.enclosing? e with
      | none => rfl
      | some outer => exact ih ((hstore e outer houter).trans he)

/-- What is written shows in one slot. -/
theorem value?
    (g : FrameId)
    (n : String) :
    (next.slot? g n).map Slot.value =
      StoreStep.valueAfter written g n ((store.slot? g n).map Slot.value) := by
  cases h with
  | added => rw [slot?_extend]; rfl
  | defined hthere =>
      rw [slot?_define store hthere, apply_ite (Option.map Slot.value)]
      rfl
  | updated hslot =>
      rw [slot?_update store (lt_nextId_of_slot? hslot), name_of_slot? hslot,
        apply_ite (Option.map Slot.value)]
      rfl
  | failed => rfl

/-- A definition alone makes constants and variables. -/
theorem constant?
    (g : FrameId)
    (n : String) :
    (next.slot? g n).map Slot.constant =
      (s.marks? g n).or ((store.slot? g n).map Slot.constant) := by
  cases h with
  | added => rw [slot?_extend]; rfl
  | defined hthere =>
      simp only [slot?_define store hthere, StoreStep.marks?]
      split <;> rfl
  | updated hslot hmarks =>
      rw [slot?_update store (lt_nextId_of_slot? hslot), name_of_slot? hslot, hmarks,
        Option.none_or]
      split
      · next heq =>
          obtain ⟨rfl, rfl⟩ := heq
          rw [hslot]
          rfl
      · rfl
  | failed hmarks => rw [hmarks, Option.none_or]

end Effect

/-- A step that fails writes nothing. -/
theorem written?_of_step?_eq_error
    {fault : AccessFault}
    (h : store.step? s = .error fault) :
    s.written? store = none := by
  have hnone : ∀ {result : Except AccessFault (FrameId × Slot)} {g : FrameId × Slot → Store},
      result.map g = .error fault → result.toOption = none := by
    intro result g hresult
    cases result with
    | ok found => cases hresult
    | error _ => rfl
  cases s with
  | new enclosing => cases h
  | define frame name value constant => cases h
  | assign frame name value => exact Option.map_eq_none_iff.mpr (hnone h)
  | assignAt frame distance name value => exact Option.map_eq_none_iff.mpr (hnone h)

/-- A name is read at a distance in the slot to which the distance leads. -/
theorem getAt_eq
    (store : Store)
    (e : FrameId)
    (distance : Nat)
    (n : String) :
    store.getAt e distance n =
      match store.ancestor? e distance with
      | none => .error (.shortChain distance)
      | some f =>
          match (store.slot? f n).map Slot.value with
          | some v => .ok v
          | none => .error (.undefined n) := by
  unfold getAt findAt
  cases store.ancestor? e distance with
  | none => rfl
  | some f =>
      dsimp only
      cases store.slot? f n <;> rfl

/--
What a step writes is seen from every frame whose chain leads to the slot, and nothing else changes.
-/
theorem getAt_afterStep
    (hstore : store.Outward)
    (hs : s.Possible store)
    {e : FrameId}
    (he : e < store.nextId)
    (distance : Nat)
    (n : String) :
    (store.afterStep s).getAt e distance n =
      match s.written? store with
      | some w =>
          if store.ancestor? e distance = some w.frame ∧ n = w.name then .ok w.value
          else store.getAt e distance n
      | none => store.getAt e distance n := by
  have heffect := effect_afterStep hs
  simp only [getAt_eq, heffect.ancestor? hstore he]
  cases hleads : store.ancestor? e distance with
  | none => cases s.written? store <;> simp
  | some f =>
      dsimp only
      rw [heffect.value?]
      cases s.written? store with
      | none => rfl
      | some w =>
          simp only [StoreStep.valueAfter, Option.some.injEq, eq_comm (a := f), eq_comm (a := n)]
          by_cases hw : w.frame = f ∧ w.name = n
          · rw [if_pos hw, if_pos hw]
          · rw [if_neg hw, if_neg hw]

end Steps

section Histories

/-- In every store that is built by steps, frames are enclosed by earlier ones. -/
theorem outward_ofSteps :
    ∀ {steps : List StoreStep}, StoreStep.AllPossible steps → (ofSteps steps).Outward
  | [], _ => by
      intro f outer h
      simp [ofSteps, enclosing?, frame?, empty] at h
  | _ :: _, h => (effect_afterStep h.2).outward (outward_ofSteps h.1)

/-- A name has the value that was written last. -/
theorem value?_ofSteps
    (f : FrameId)
    (n : String) :
    ∀ {steps : List StoreStep}, StoreStep.AllPossible steps →
      ((ofSteps steps).slot? f n).map Slot.value = StoreStep.lastWritten? f n steps
  | [], _ => by simp [ofSteps, slot?, frame?, empty, StoreStep.lastWritten?]
  | s :: earlier, h => by
      rw [ofSteps, (effect_afterStep h.2).value?, StoreStep.lastWritten?, value?_ofSteps f n h.1]

/-- A name is a constant or a variable as its last definition says. -/
theorem constant?_ofSteps
    (f : FrameId)
    (n : String) :
    ∀ {steps : List StoreStep}, StoreStep.AllPossible steps →
      ((ofSteps steps).slot? f n).map Slot.constant = steps.findSome? (·.marks? f n)
  | [], _ => by simp [ofSteps, slot?, frame?, empty]
  | s :: earlier, h => by
      rw [ofSteps, (effect_afterStep h.2).constant?, constant?_ofSteps f n h.1, List.findSome?_cons]
      cases s.marks? f n <;> rfl

theorem mem_names_ofSteps
    {steps : List StoreStep}
    (h : StoreStep.AllPossible steps)
    (f : FrameId)
    (n : String) :
    n ∈ (ofSteps steps).names f ↔ (steps.findSome? (·.marks? f n)).isSome := by
  rw [← constant?_ofSteps f n h, Option.isSome_map]
  rfl

theorem mem_constants_ofSteps
    {steps : List StoreStep}
    (h : StoreStep.AllPossible steps)
    (f : FrameId)
    (n : String) :
    n ∈ (ofSteps steps).constants f ↔ steps.findSome? (·.marks? f n) = some true := by
  rw [← constant?_ofSteps f n h]
  change (((ofSteps steps).slot? f n).any Slot.constant) = true ↔ _
  cases (ofSteps steps).slot? f n <;> simp

end Histories

section Machines

/-- The step by which a value is assigned to a name with its link. -/
def stepOf
    (frame : FrameId)
    (target : Reference)
    (value : Value) : StoreStep :=
  match target.link.depth with
  | some distance => .assignAt frame distance target.name.lexeme value
  | none => .assign globalFrame target.name.lexeme value

/--
An assignment on a machine is a step of its store, and leaves the machine alone if that fails.
-/
theorem assignName_eq
    (m : Machine)
    (frame : FrameId)
    (target : Reference)
    (value : Value) :
    match m.store.step? (stepOf frame target value) with
    | .ok next => Run.assignName frame target value m = .ok () { m with store := next }
    | .error fault =>
        ∃ interrupt, Run.assignName frame target value m = .error interrupt m
          ∧ (Run.ofAccess target.name (.error fault) : Run Unit) m = .error interrupt m := by
  have hlocated : ∀ result : Except AccessFault (FrameId × Slot),
      Run.locate frame target.name target.link m = Run.ofAccess target.name result m →
      match result.map fun found => m.store.update found.1 found.2 value with
      | .ok next => Run.assignName frame target value m = .ok () { m with store := next }
      | .error fault =>
          ∃ interrupt, Run.assignName frame target value m = .error interrupt m
            ∧ (Run.ofAccess target.name (.error fault) : Run Unit) m = .error interrupt m := by
    intro result hresult
    cases result with
    | ok found =>
        have hok : Run.locate frame target.name target.link m = .ok found m := hresult
        exact Run.bind_of_ok hok _
    | error fault => cases fault <;> exact ⟨_, Run.bind_of_error hresult _, rfl⟩
  cases hdepth : target.link.depth with
  | none =>
      have hstep : stepOf frame target value = .assign globalFrame target.name.lexeme value := by
        rw [stepOf, hdepth]
      rw [hstep]
      refine hlocated (m.store.find globalFrame target.name.lexeme) ?_
      rw [Run.locate, hdepth]
      rfl
  | some distance =>
      have hstep : stepOf frame target value =
          .assignAt frame distance target.name.lexeme value := by
        rw [stepOf, hdepth]
      rw [hstep]
      refine hlocated (m.store.findAt frame distance target.name.lexeme) ?_
      rw [Run.locate, hdepth]
      rfl

end Machines

end Store

namespace Environments

/-- Carries out a step on environments, or tells why it fails. -/
def step? (es : Environments) : StoreStep → Except AccessFault Environments
  | .new enclosing => .ok (es.extend enclosing)
  | .define frame name value constant => .ok (es.define frame name value constant)
  | .assign frame name value => es.assign frame name value
  | .assignAt frame distance name value => es.assignAt frame distance name value

/-- The environments after a step, be it carried out or not. -/
def afterStep
    (es : Environments)
    (s : StoreStep) : Environments :=
  match es.step? s with
  | .ok next => next
  | .error _ => es

/-- The environments after some steps.  The last step stands first. -/
def ofSteps : List StoreStep → Environments
  | [] => empty
  | s :: earlier => (ofSteps earlier).afterStep s

/-- The names that have a value in one environment. -/
def names (es : Environments) (f : FrameId) : Set String :=
  { n | (es.value? f n).isSome }

/-- The names in the set of constants of one environment. -/
def constants (es : Environments) (f : FrameId) : Set String :=
  { n | es.isConstant f n = true }

variable {es : Environments}

/-- A step that is carried out keeps environments sound. -/
theorem Sound.of_step?
    (h : es.Sound)
    {s : StoreStep}
    {next : Environments}
    (hstep : es.step? s = .ok next) :
    next.Sound := by
  cases s with
  | new enclosing =>
      cases hstep
      exact h.extend enclosing
  | define frame name value constant =>
      cases hstep
      exact h.define frame name value constant
  | assign frame name value =>
      rw [step?, assign] at hstep
      cases hfound : es.find frame name with
      | error fault => simp [hfound, Except.map] at hstep
      | ok found =>
          rw [hfound] at hstep
          cases hstep
          exact h.put found.1 name value
  | assignAt frame distance name value =>
      rw [step?, assignAt] at hstep
      cases hfound : es.findAt frame distance name with
      | error fault => simp [hfound, Except.map] at hstep
      | ok found =>
          rw [hfound] at hstep
          cases hstep
          exact h.put found.1 name value

/-- A step on environments is the step on the store, and both fail alike. -/
theorem step?_toStore
    (h : es.Sound)
    (s : StoreStep) :
    es.toStore.step? s = (es.step? s).map toStore := by
  cases s with
  | new enclosing => exact congrArg Except.ok (es.toStore_extend enclosing).symm
  | define frame name value constant =>
      exact congrArg Except.ok (toStore_define h frame name value constant).symm
  | assign frame name value => exact toStore_assign h frame name value
  | assignAt frame distance name value => exact toStore_assignAt h frame distance name value

/-- Steps build sound environments, which stand for the store that they build. -/
theorem ofSteps_toStore (steps : List StoreStep) :
    (ofSteps steps).Sound ∧ (ofSteps steps).toStore = Store.ofSteps steps := by
  induction steps with
  | nil => exact ⟨sound_empty, congrArg Store.mk Array.map_empty⟩
  | cons s earlier ih =>
      obtain ⟨hsound, hsame⟩ := ih
      have hstep := step?_toStore hsound s
      rw [ofSteps, Store.ofSteps, ← hsame, afterStep, Store.afterStep, hstep]
      cases hnext : (ofSteps earlier).step? s with
      | error fault => exact ⟨hsound, rfl⟩
      | ok next => exact ⟨hsound.of_step? hnext, rfl⟩

/-- Sound environments are read and written as the store that they stand for. -/
theorem Sound.reads_alike (h : es.Sound) :
    (∀ s, es.toStore.step? s = (es.step? s).map toStore)
      ∧ (∀ e n, es.toStore.get e n = es.get e n)
      ∧ (∀ e distance n, es.toStore.getAt e distance n = es.getAt e distance n)
      ∧ ∀ f, es.constants f ⊆ es.names f
        ∧ es.toStore.names f = es.names f
        ∧ es.toStore.constants f = es.constants f := by
  refine ⟨step?_toStore h, es.get_toStore, es.getAt_toStore, fun f => ⟨?_, ?_, ?_⟩⟩
  · exact fun n hn => h.value?_of_isConstant hn
  · ext n
    change (es.toStore.slot? f n).isSome = true ↔ (es.value? f n).isSome = true
    rw [slot?_toStore, Option.isSome_map]
  · ext n
    change es.toStore.isConstant f n = true ↔ es.isConstant f n = true
    rw [isConstant_toStore h]

end Environments

namespace Store

/--
The laws of a store that is built by any steps, failing ones included.

* A name is found from a frame exactly if some frame outward binds it.  From the nearest such frame
  it is read by the search and at the distance alike, and both ways of assigning change that one
  slot.
* What a step writes is then read from every frame at every distance that leads to the slot, and all
  else is read as before.  At any later time what is read there is what was written last.
* A step that fails changes nothing, and neither does an assignment on a machine.
* The constants of a frame are among its names.  A frame binds the names that were defined in it,
  and its constants are those whose last definition made them constants.
* All this is so where values and constants are kept in two containers: the same steps then read and
  fail alike, and there as well the constants are among the names.
-/
theorem scoped_store_laws
    {steps : List StoreStep}
    (h : StoreStep.AllPossible steps) :
    let store := ofSteps steps
    (∀ e n,
      ((∃ v, store.get e n = .ok v) ↔
          ∃ distance f, store.ancestor? e distance = some f ∧ n ∈ store.names f)
        ∧ ((∃ v, store.get e n = .ok v) ↔ ∃ distance f slot, store.Nearest e n distance f slot)
        ∧ ((¬ ∃ v, store.get e n = .ok v) →
          store.get e n = .error (.undefined n) ∧ ∀ v, store.assign e n v = .error (.undefined n))
        ∧ ∀ distance f slot, store.Nearest e n distance f slot →
          store.get e n = .ok slot.value
            ∧ store.getAt e distance n = .ok slot.value
            ∧ ∀ v, ∃ next,
              store.assign e n v = .ok next
                ∧ store.assignAt e distance n v = .ok next
                ∧ (∀ g, next.enclosing? g = store.enclosing? g)
                ∧ ∀ g n', next.slot? g n' =
                  if f = g ∧ n = n' then some { slot with value := v } else store.slot? g n')
      ∧ (∀ s : StoreStep, s.Possible store →
        ∀ e < store.nextId, ∀ distance n,
          (store.afterStep s).getAt e distance n =
            match s.written? store with
            | some w =>
                if store.ancestor? e distance = some w.frame ∧ n = w.name then .ok w.value
                else store.getAt e distance n
            | none => store.getAt e distance n)
      ∧ (∀ e distance f n, store.ancestor? e distance = some f →
        store.getAt e distance n =
          match StoreStep.lastWritten? f n steps with
          | some v => .ok v
          | none => .error (.undefined n))
      ∧ (∀ s fault, store.step? s = .error fault →
        s.written? store = none ∧ store.afterStep s = store)
      ∧ (∀ m : Machine, m.store = store → ∀ frame target value,
        match store.step? (stepOf frame target value) with
        | .ok next => Run.assignName frame target value m = .ok () { m with store := next }
        | .error fault =>
            ∃ interrupt, Run.assignName frame target value m = .error interrupt m
              ∧ (Run.ofAccess target.name (.error fault) : Run Unit) m = .error interrupt m)
      ∧ (∀ f,
        store.constants f ⊆ store.names f
          ∧ ∀ n,
            (n ∈ store.names f ↔ (steps.findSome? (·.marks? f n)).isSome)
              ∧ (n ∈ store.constants f ↔ steps.findSome? (·.marks? f n) = some true))
      ∧ let environments := Environments.ofSteps steps
        (∀ s, store.step? s = (environments.step? s).map Environments.toStore)
          ∧ (∀ e n, store.get e n = environments.get e n)
          ∧ (∀ e distance n, store.getAt e distance n = environments.getAt e distance n)
          ∧ ∀ f, environments.constants f ⊆ environments.names f
            ∧ store.names f = environments.names f
            ∧ store.constants f = environments.constants f := by
  intro store
  have hstore : store.Outward := outward_ofSteps h
  obtain ⟨hsound, hsame⟩ := Environments.ofSteps_toStore steps
  refine ⟨fun e n => ⟨exists_get_iff hstore e n, ⟨fun hget => ?_, ?_⟩, undefined_of_get, ?_⟩,
    fun s hs e he distance n => getAt_afterStep hstore hs he distance n,
    fun e distance f n hleads => ?_, fun s fault hfault => ⟨written?_of_step?_eq_error hfault, ?_⟩,
    fun m hm frame target value => hm ▸ assignName_eq m frame target value,
    fun f => ⟨fun n hn => ?_, fun n => ⟨mem_names_ofSteps h f n, mem_constants_ofSteps h f n⟩⟩,
    ?_⟩
  · obtain ⟨distance, f, hleads, hbound⟩ := (exists_get_iff hstore e n).mp hget
    exact exists_nearest hleads hbound
  · rintro ⟨distance, f, slot, hnearest⟩
    exact ⟨slot.value, hnearest.get hstore⟩
  · intro distance f slot hnearest
    refine ⟨hnearest.get hstore, hnearest.getAt, fun v => ⟨store.update f slot v, ?_⟩⟩
    exact ⟨hnearest.assign hstore v, hnearest.assignAt v,
      fun g => store.enclosing?_update f g slot v, hnearest.slot?_update v⟩
  · rw [getAt_eq, hleads]
    dsimp only
    rw [value?_ofSteps f n h]
  · rw [afterStep, hfault]
  · rw [mem_constants_ofSteps h] at hn
    rw [mem_names_ofSteps h, hn]
    rfl
  · have halike := hsound.reads_alike
    rw [hsame] at halike
    exact halike

/--
Two frames share the frame around them, which binds a constant.  An assignment from one of them
fails, another is seen from both, and the name goes on being a constant until it is defined again.
-/
theorem scoped_store_laws_shared_frame :
    let steps : List StoreStep :=
      [.assign 1 "x" (.boolean true), .assign 1 "y" .nil, .new (some 0), .new (some 0),
        .define 0 "x" .nil true, .new none]
    let store := ofSteps steps
    StoreStep.AllPossible steps
      ∧ store.Nearest 1 "x" 1 0 ⟨"x", .boolean true, true⟩
      ∧ store.get 1 "x" = .ok (.boolean true)
      ∧ store.getAt 2 1 "x" = .ok (.boolean true)
      ∧ "x" ∈ store.constants 0
      ∧ "y" ∉ store.names 0
      ∧ "x" ∈ (Environments.ofSteps steps).names 0
      ∧ (store.afterStep (.define 0 "x" .nil false)).getAt 2 1 "x" = .ok .nil := by
  intro steps store
  have h : StoreStep.AllPossible steps := by
    refine ⟨⟨⟨⟨⟨⟨trivial, nofun⟩, ?_⟩, ?_⟩, ?_⟩, ?_⟩, ?_⟩
    all_goals simp only [StoreStep.Possible, Option.mem_def, Option.some.injEq, forall_eq']
    all_goals cbv
  have hbuilt : store =
      ⟨#[⟨none, [⟨"x", .boolean true, true⟩]⟩, ⟨some 0, []⟩, ⟨some 0, []⟩]⟩ := by
    simp only [store, steps]
    cbv
  obtain ⟨hsearch, hstep, hlast, -, -, hnames, -, -, -, hapart⟩ := scoped_store_laws h
  have hleads : ∀ e ∈ [1, 2], store.ancestor? e 1 = some 0 := by
    rw [hbuilt]
    decide
  have hnearest : store.Nearest 1 "x" 1 0 ⟨"x", .boolean true, true⟩ := by
    refine ⟨hleads 1 (by decide), hbuilt ▸ rfl, fun d hd g hg => ?_⟩
    obtain rfl : d = 0 := Nat.lt_one_iff.mp hd
    obtain rfl := Option.some.inj hg
    exact hbuilt ▸ rfl
  have hpossible : (StoreStep.define 0 "x" .nil false).Possible store := by
    rw [hbuilt]
    exact Nat.zero_lt_succ 2
  have hthere : 2 < store.nextId := by
    rw [hbuilt]
    exact Nat.lt_succ_self 2
  have hconstant : "x" ∈ store.constants 0 := ((hnames 0).2 "x").2.mpr (by decide)
  obtain ⟨hcontained, -, hconstants⟩ := hapart 0
  refine ⟨h, hnearest, ((hsearch 1 "x").2.2.2 1 0 _ hnearest).1, ?_, hconstant, ?_,
    hcontained (hconstants ▸ hconstant), ?_⟩
  · rw [hlast 2 1 0 "x" (hleads 2 (by decide))]
    cbv
  · exact fun hy => absurd (((hnames 0).2 "y").1.mp hy) (by decide)
  · rw [hstep _ hpossible 2 hthere]
    exact if_pos ⟨hleads 2 (by decide), rfl⟩

end Store
end Lox

import Lox.Machine.Evaluate
import Mathlib.Data.List.Basic

/-!
# Machines with other values

A machine keeps values in its slots and fields, and most of what it does with them is to find them
and to put others in their place.  Which values they are does not matter to that: it commutes with
any change of all values.

**Main definitions.**
* `Machine.mapValues`: a machine with all values changed.
* `Mapped`: code does on machines with changed values what other code does on machines.

**Results.**
* `Store.find_mapValues`, `Store.findAt_mapValues`: names are found where they were.
* `Mapped.bind`: code after code.
-/

namespace Lox

section Definitions

variable (g : Value → Value)

def Slot.mapValue (s : Slot) : Slot :=
  { s with value := g s.value }

def Frame.mapValues (f : Frame) : Frame :=
  { f with slots := f.slots.map (Slot.mapValue g) }

def Store.mapValues (s : Store) : Store :=
  ⟨s.frames.map (Frame.mapValues g)⟩

/-- A machine with all values changed. -/
def Machine.mapValues (m : Machine) : Machine :=
  { m with
    store := m.store.mapValues g
    fields := m.fields.map (List.map (Prod.map id g)) }

end Definitions

section Stores

variable (g : Value → Value)

theorem putSlot_mapValue (slot : Slot) (slots : List Slot) :
    putSlot (slot.mapValue g) (slots.map (Slot.mapValue g)) =
      (putSlot slot slots).map (Slot.mapValue g) := by
  induction slots with
  | nil => rfl
  | cons s rest ih =>
      have hname : ((s.mapValue g).name == (slot.mapValue g).name) = (s.name == slot.name) := rfl
      simp only [List.map_cons, putSlot, ih, hname]
      split <;> rfl

namespace Store

variable (store : Store)

@[simp] theorem nextId_mapValues : (store.mapValues g).nextId = store.nextId :=
  Array.size_map

theorem frame?_mapValues (id : FrameId) :
    (store.mapValues g).frame? id = (store.frame? id).map (Frame.mapValues g) :=
  Array.getElem?_map

theorem slot?_mapValues (id : FrameId) (name : String) :
    (store.mapValues g).slot? id name = (store.slot? id name).map (Slot.mapValue g) := by
  unfold slot?
  rw [frame?_mapValues]
  cases store.frame? id with
  | none => rfl
  | some frame => exact List.find?_map ..

theorem enclosing?_mapValues (id : FrameId) :
    (store.mapValues g).enclosing? id = store.enclosing? id := by
  unfold enclosing?
  rw [frame?_mapValues]
  cases store.frame? id <;> rfl

theorem extend_mapValues (enclosing : Option FrameId) :
    (store.mapValues g).extend enclosing = (store.extend enclosing).mapValues g := by
  simp [extend, mapValues, Frame.mapValues]

/-- A change of one frame commutes with the change of values if it does so on that frame. -/
theorem modify_mapValues
    {f f' : Frame → Frame}
    (h : ∀ frame, f' (frame.mapValues g) = (f frame).mapValues g)
    (id : FrameId) :
    (⟨(store.mapValues g).frames.modify id f'⟩ : Store) =
      (⟨store.frames.modify id f⟩ : Store).mapValues g := by
  refine congrArg Store.mk (Array.ext_getElem? fun i => ?_)
  simp only [mapValues, Array.getElem?_modify, Array.getElem?_map]
  split
  · cases store.frames[i]? <;> simp [h]
  · rfl

theorem define_mapValues (id : FrameId) (name : String) (v : Value) (constant : Bool) :
    (store.mapValues g).define id name (g v) constant =
      (store.define id name v constant).mapValues g :=
  store.modify_mapValues g (fun frame => congrArg (Frame.mk frame.enclosing)
    (putSlot_mapValue g ⟨name, v, constant⟩ frame.slots)) id

theorem update_mapValues (id : FrameId) (slot : Slot) (v : Value) :
    (store.mapValues g).update id (slot.mapValue g) (g v) = (store.update id slot v).mapValues g :=
  store.modify_mapValues g (fun frame => congrArg (Frame.mk frame.enclosing)
    (putSlot_mapValue g { slot with value := v } frame.slots)) id

theorem defineAll_mapValues (frame : FrameId) (bindings : List (String × Value)) :
    (store.mapValues g).defineAll frame (bindings.map (Prod.map id g)) =
      (store.defineAll frame bindings).mapValues g := by
  induction bindings generalizing store with
  | nil => rfl
  | cons b rest ih =>
      change ((store.mapValues g).define frame b.1 (g b.2) false).defineAll frame _ = _
      rw [define_mapValues, ih]
      rfl

theorem isConstant_mapValues (id : FrameId) (name : String) :
    (store.mapValues g).isConstant id name = store.isConstant id name := by
  unfold isConstant
  rw [slot?_mapValues]
  cases store.slot? id name <;> rfl

/-- A frame with a slot of it whose value is changed. -/
def mapFound (found : FrameId × Slot) : FrameId × Slot :=
  (found.1, found.2.mapValue g)

theorem holder?_mapValues (name : String) (id : FrameId) :
    (store.mapValues g).holder? name id = (store.holder? name id).map (mapFound g) := by
  fun_induction holder? store name id with
  | case1 id slot hslot => rw [holder?, slot?_mapValues, hslot]; rfl
  | case2 id hslot outer houter hlt ih =>
      rw [holder?, slot?_mapValues, hslot, Option.map_none, enclosing?_mapValues, houter]
      simpa [hlt] using ih
  | case3 id hslot outer houter hlt =>
      rw [holder?, slot?_mapValues, hslot, Option.map_none, enclosing?_mapValues, houter]
      simp [hlt]
  | case4 id hslot houter =>
      rw [holder?, slot?_mapValues, hslot, Option.map_none, enclosing?_mapValues, houter]
      rfl

theorem find_mapValues (id : FrameId) (name : String) :
    (store.mapValues g).find id name = (store.find id name).map (mapFound g) := by
  unfold find
  rw [holder?_mapValues]
  cases store.holder? name id <;> rfl

theorem ancestor?_mapValues (id : FrameId) (distance : Nat) :
    (store.mapValues g).ancestor? id distance = store.ancestor? id distance := by
  induction distance generalizing id with
  | zero => rfl
  | succ distance ih => simp only [ancestor?, enclosing?_mapValues, ih]

theorem findAt_mapValues (id : FrameId) (distance : Nat) (name : String) :
    (store.mapValues g).findAt id distance name =
      (store.findAt id distance name).map (mapFound g) := by
  unfold findAt
  rw [ancestor?_mapValues]
  cases store.ancestor? id distance with
  | none => rfl
  | some holder =>
      simp only [slot?_mapValues]
      cases store.slot? holder name <;> rfl

end Store

theorem lookup_map_snd (name : String) (fields : Fields) :
    (fields.map (Prod.map id g)).lookup name = (fields.lookup name).map g := by
  induction fields with
  | nil => rfl
  | cons field rest ih =>
      obtain ⟨key, value⟩ := field
      simp only [List.map_cons, Prod.map, id, List.lookup_cons]
      split
      · rfl
      · exact ih

theorem putField_map_snd (name : String) (v : Value) (fields : Fields) :
    putField name (g v) (fields.map (Prod.map id g)) =
      (putField name v fields).map (Prod.map id g) := by
  induction fields with
  | nil => rfl
  | cons field rest ih =>
      simp only [List.map_cons, putField, ih, Prod.map_fst, id]
      split <;> rfl

end Stores

/-- What running code leads to, with all values changed. -/
def mapResult
    {α β : Type}
    (g : Value → Value)
    (φ : α → β) :
    EStateM.Result Interrupt Machine α → EStateM.Result Interrupt Machine β
  | .ok a m => .ok (φ a) (m.mapValues g)
  | .error interrupt m => .error interrupt (m.mapValues g)

/-- Code does on machines with changed values what other code does on machines. -/
def Mapped
    {α β : Type}
    (g : Value → Value)
    (φ : α → β)
    (x : Run α)
    (y : Run β) : Prop :=
  ∀ m : Machine, y (m.mapValues g) = mapResult g φ (x m)

namespace Mapped

variable {α β γ δ : Type} {g : Value → Value} {φ : α → β} {ψ : γ → δ}

theorem pure
    {a : α}
    {b : β}
    (h : b = φ a) :
    Mapped g φ (Pure.pure a) (Pure.pure b) :=
  fun _ => by rw [h]; rfl

/-- Code after code. -/
theorem bind
    {x : Run α}
    {y : Run β}
    {f : α → Run γ}
    {f' : β → Run δ}
    (hx : Mapped g φ x y)
    (hf : ∀ a, Mapped g ψ (f a) (f' (φ a))) :
    Mapped g ψ (x >>= f) (y >>= f') := by
  intro m
  change EStateM.bind y f' (m.mapValues g) = mapResult g ψ (EStateM.bind x f m)
  simp only [EStateM.bind, hx m]
  cases x m with
  | ok a m' => exact hf a m'
  | error interrupt m' => rfl

theorem map
    {x : Run α}
    {y : Run β}
    {f : α → γ}
    {f' : β → δ}
    (hx : Mapped g φ x y)
    (hf : ∀ a, f' (φ a) = ψ (f a)) :
    Mapped g ψ (f <$> x) (f' <$> y) :=
  hx.bind fun a => .pure (hf a)

end Mapped

namespace Run

variable (g : Value → Value)

theorem fail_mapped {α β : Type} {φ : α → β} (fault : RuntimeFault) (place : Token) :
    Mapped g φ (fail fault place) (fail fault place) :=
  fun _ => rfl

theorem ofExcept_mapped
    {α β : Type}
    {φ : α → β}
    {r : Except RuntimeFault α}
    {r' : Except RuntimeFault β}
    (h : r' = r.map φ)
    (place : Token) :
    Mapped g φ (ofExcept place r) (ofExcept place r') := by
  subst h
  cases r <;> exact fun _ => rfl

theorem ofAccess_mapped
    {α β : Type}
    {φ : α → β}
    {r : Except AccessFault α}
    {r' : Except AccessFault β}
    (h : r' = r.map φ)
    (place : Token) :
    Mapped g φ (ofAccess place r) (ofAccess place r') := by
  subst h
  rcases r with (_ | _) | _ <;> exact fun _ => rfl

theorem newFrame_mapped (enclosing : FrameId) (bindings : List (String × Value)) :
    Mapped g id (newFrame enclosing bindings)
      (newFrame enclosing (bindings.map (Prod.map id g))) := by
  intro m
  simp only [newFrame, mapResult, Machine.mapValues, Store.nextId_mapValues, id,
    Store.extend_mapValues, Store.defineAll_mapValues]

theorem newSerial_mapped : Mapped g id newSerial newSerial :=
  fun _ => rfl

theorem define_mapped (frame : FrameId) (name : String) (v : Value) (constant : Bool) :
    Mapped g id (define frame name v constant) (define frame name (g v) constant) := by
  intro m
  simp only [define, mapResult, Machine.mapValues, Store.define_mapValues, id]

theorem print_mapped (text : String) : Mapped g id (print text) (print text) :=
  fun _ => rfl

theorem readClock_mapped : Mapped g id readClock readClock :=
  fun _ => rfl

theorem findAt_mapped (frame : FrameId) (distance : Nat) (name : String) (place : Token) :
    Mapped g (Store.mapFound g) (findAt frame distance name place)
      (findAt frame distance name place) :=
  fun m => ofAccess_mapped g (m.store.findAt_mapValues g frame distance name) place m

theorem locate_mapped (frame : FrameId) (name : Token) (link : Link) :
    Mapped g (Store.mapFound g) (locate frame name link) (locate frame name link) := by
  unfold locate
  cases link.depth with
  | some distance => exact findAt_mapped g frame distance name.lexeme name
  | none =>
      exact fun m => ofAccess_mapped g (m.store.find_mapValues g globalFrame name.lexeme) name m

theorem getAt_mapped (frame : FrameId) (distance : Nat) (name : String) (place : Token) :
    Mapped g g (getAt frame distance name place) (getAt frame distance name place) :=
  (findAt_mapped g frame distance name place).bind fun _ => .pure rfl

theorem readName_mapped (frame : FrameId) (name : Token) (link : Link) :
    Mapped g g (readName frame name link) (readName frame name link) :=
  (locate_mapped g frame name link).bind fun _ => .pure rfl

theorem update_mapped (frame : FrameId) (slot : Slot) (v : Value) :
    Mapped g id (update frame slot v) (update frame (slot.mapValue g) (g v)) := by
  intro m
  simp only [update, mapResult, Machine.mapValues, Store.update_mapValues, id]

theorem assignName_mapped (frame : FrameId) (target : Reference) (v : Value) :
    Mapped g id (assignName frame target v) (assignName frame target (g v)) :=
  (locate_mapped g frame target.name target.link).bind fun found =>
    update_mapped g found.1 found.2 v

theorem reassign_mapped (frame : FrameId) (name : Token) (v : Value) :
    Mapped g id (reassign frame name v) (reassign frame name (g v)) := by
  have hfind : Mapped g (Store.mapFound g)
      (do ofAccess name ((← get).store.find frame name.lexeme))
      (do ofAccess name ((← get).store.find frame name.lexeme)) :=
    fun m => ofAccess_mapped g (m.store.find_mapValues g frame name.lexeme) name m
  exact hfind.bind fun found => update_mapped g found.1 found.2 v

theorem isConstant_mapped (target : Reference) :
    Mapped g id (isConstant target) (isConstant target) := by
  unfold isConstant
  split
  · exact .pure rfl
  · split
    · exact .pure rfl
    · exact fun m => congrArg (EStateM.Result.ok · (m.mapValues g))
        (m.store.isConstant_mapValues g globalFrame target.name.lexeme)

theorem field?_mapped (id : InstanceId) (name : String) :
    Mapped g (Option.map g) (field? id name) (field? id name) := by
  intro m
  refine congrArg (EStateM.Result.ok · (m.mapValues g)) ?_
  simp only [Machine.mapValues, Array.getElem?_map]
  cases m.fields[id]? with
  | none => rfl
  | some fields => exact lookup_map_snd g name fields

theorem setField_mapped (id : InstanceId) (name : String) (v : Value) :
    Mapped g (fun u => u) (setField id name v) (setField id name (g v)) := by
  intro m
  refine congrArg (EStateM.Result.ok ()) ?_
  simp only [Machine.mapValues, Machine.mk.injEq, true_and, and_true]
  refine Array.ext_getElem? fun i => ?_
  simp only [Array.getElem?_modify, Array.getElem?_map]
  split
  · cases m.fields[i]? <;> simp [putField_map_snd]
  · rfl

end Run

namespace Code

variable (g : Value → Value)

theorem openFrame_mapped
    (opening opening' : Opening)
    (enclosing : FrameId)
    (bindings : List (String × Value)) :
    Mapped g id (openFrame opening enclosing bindings : Run FrameId)
      (openFrame opening' enclosing (bindings.map (Prod.map id g))) :=
  Run.newFrame_mapped g enclosing bindings

end Code

end Lox

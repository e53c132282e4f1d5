import Lox.Proofs.Machine.Steps
import Lox.Proofs.Machine.Throughout

/-!
# Initializers and their instances

An initializer is made for an instance, in a frame that is opened for the instance.  The operations
of a machine make initializers in no other way, and pass on those that it holds.

**Main definitions.**
* `Value.Received`: an initializer was made in a frame that was opened for an instance.
* `ReceivedThroughout`: at each of some moments the machine has only such initializers.
* `KeepsReceivers`: code goes from a machine with such initializers to another.

**Results.**
* `KeepsReceivers.bind`: code after code.
* `KeepsReceivers.bindMethod`: an initializer is made in a frame that is opened for its instance.
-/

namespace Lox

/-- All values that can be read from a machine have a property. -/
structure Machine.All (P : Value → Prop) (m : Machine) : Prop where
  slots : ∀ f name slot, m.store.slot? f name = some slot → P slot.value
  fields : ∀ id name value, m.field? id name = some value → P value

section Values

variable {P : Value → Prop}

/-- A slot of a frame that is changed is the new one or an old one. -/
theorem Store.slot?_modify
    {store : Store}
    {change : Frame → Frame}
    {name : String}
    {value : Value}
    (hchange : ∀ frame slot, (change frame).slot? name = some slot →
      slot.value = value ∨ frame.slot? name = some slot)
    {id f : FrameId}
    {slot : Slot}
    (h : (⟨store.frames.modify id change⟩ : Store).slot? f name = some slot) :
    slot.value = value ∨ store.slot? f name = some slot := by
  obtain ⟨frame, hframe, hslot⟩ := Option.bind_eq_some_iff.mp h
  simp only [Store.frame?, Array.getElem?_modify] at hframe
  split at hframe
  · obtain ⟨old, hold, rfl⟩ := Option.map_eq_some_iff.mp hframe
    refine (hchange old slot hslot).imp_right fun hslot => ?_
    exact Option.bind_eq_some_iff.mpr ⟨old, hold, hslot⟩
  · exact .inr (Option.bind_eq_some_iff.mpr ⟨frame, hframe, hslot⟩)

theorem Frame.slot?_put
    {frame : Frame}
    {new slot : Slot}
    {name : String}
    (h : ({ frame with slots := putSlot new frame.slots } : Frame).slot? name = some slot) :
    slot.value = new.value ∨ frame.slot? name = some slot := by
  rw [Frame.slot?, find?_putSlot] at h
  split at h
  · exact .inl (congrArg Slot.value (Option.some.inj h)).symm
  · exact .inr h

namespace Machine.All

variable {m : Machine} (hm : m.All P)
include hm

theorem mono {Q : Value → Prop} (hPQ : ∀ v, P v → Q v) : m.All Q :=
  ⟨fun f name slot h => hPQ _ (hm.slots f name slot h),
    fun id name v h => hPQ v (hm.fields id name v h)⟩

theorem define
    (frame : FrameId)
    (name : String)
    {value : Value}
    (hvalue : P value)
    (constant : Bool) :
    Machine.All P { m with store := m.store.define frame name value constant } where
  slots f n slot h := by
    rcases Store.slot?_modify (fun _ _ => Frame.slot?_put) h with hnew | hold
    · exact hnew ▸ hvalue
    · exact hm.slots f n slot hold
  fields := hm.fields

theorem update
    (frame : FrameId)
    (slot : Slot)
    {value : Value}
    (hvalue : P value) :
    Machine.All P { m with store := m.store.update frame slot value } where
  slots f n s h := by
    rcases Store.slot?_modify (fun _ _ => Frame.slot?_put) h with hnew | hold
    · exact hnew ▸ hvalue
    · exact hm.slots f n s hold
  fields := hm.fields

theorem newFrame
    (enclosing : FrameId)
    {bindings : List (String × Value)}
    (hbindings : ∀ b ∈ bindings, P b.2) :
    Machine.All P
      { m with
        store := (m.store.extend (some enclosing)).defineAll m.store.nextId bindings } := by
  have hall (frame : FrameId) : ∀ (bindings : List (String × Value)) (store : Store),
      (∀ b ∈ bindings, P b.2) → Machine.All P { m with store := store } →
      Machine.All P { m with store := store.defineAll frame bindings } := by
    intro bindings
    induction bindings with
    | nil => exact fun _ _ h => h
    | cons b rest ih =>
        intro store hb h
        exact ih _ (fun c hc => hb c (List.mem_cons_of_mem b hc))
          (h.define frame b.1 (hb b List.mem_cons_self) false)
  refine hall _ bindings _ hbindings ⟨fun f n slot h => ?_, hm.fields⟩
  rw [Store.slot?_extend] at h
  exact hm.slots f n slot h

theorem setField
    (id : InstanceId)
    (name : String)
    {value : Value}
    (hvalue : P value) :
    Machine.All P { m with fields := m.fields.modify id (putField name value) } where
  slots := hm.slots
  fields j n v h := by
    rcases Machine.field?_setField m id j name n value v h with rfl | hold
    · exact hvalue
    · exact hm.fields j n v hold

end Machine.All

end Values

/-- An initializer was made in a frame that was opened for an instance. -/
def Value.Received (H : History) : Value → Prop
  | .function f => f.isInitializer = true → Opened H f.frame .receiver
  | _ => True

theorem Value.Received.later
    {H H' : History}
    (hH : H <+: H')
    {v : Value}
    (h : v.Received H) :
    v.Received H' := by
  cases v with
  | function f => exact fun hf => (h hf).later hH
  | _ => trivial

/-- At each moment of a run the initializers on the machine were made for instances. -/
def ReceivedThroughout (H L : History) : Prop :=
  ∀ A y B, L = A ++ y :: B → y.machine.All (Value.Received (H ++ A))

namespace ReceivedThroughout

variable {H L L' : History}

theorem nil : ReceivedThroughout H [] :=
  Throughout.nil (P := fun A (y : Moment) => y.machine.All (Value.Received A))

theorem single
    {x : Moment}
    (hx : x.machine.All (Value.Received H)) :
    ReceivedThroughout H [x] :=
  Throughout.single (P := fun A (y : Moment) => y.machine.All (Value.Received A)) hx

/-- A run that goes on: a moment is in the first part or in the second. -/
theorem append
    (h : ReceivedThroughout H L)
    (h' : ReceivedThroughout (H ++ L) L') :
    ReceivedThroughout H (L ++ L') :=
  Throughout.append (P := fun A (y : Moment) => y.machine.All (Value.Received A)) h h'

end ReceivedThroughout

/--
Code goes from a machine with proper initializers to another, through moments at which the machine
is one, and its result has a property.
-/
structure KeepsReceivers
    {α : Type}
    (x : Recorded α)
    (H : History)
    (m : Machine)
    (Q : α → History → Prop) : Prop where
  moments : ReceivedThroughout H (x m).1
  final : (x.final m).All (Value.Received (H ++ (x m).1))
  result : ∀ a m', (x m).2 = .ok a m' → Q a (H ++ (x m).1)

namespace KeepsReceivers

variable {α β : Type} {H : History} {m : Machine}

/-- An operation of the machine is no moment of its own. -/
theorem perform
    {x : Run α}
    {Q : α → History → Prop}
    (hok : ∀ a m', x m = .ok a m' → m'.All (Value.Received H) ∧ Q a H)
    (herror : ∀ interrupt m', x m = .error interrupt m' → m'.All (Value.Received H)) :
    KeepsReceivers (Watch.perform x) H m Q := by
  have hrun : (Watch.perform x : Recorded α) m = ([], x m) := rfl
  refine ⟨?_, ?_, fun a m' ha => ?_⟩
  · rw [hrun]
    exact .nil
  · rw [hrun, List.append_nil]
    cases hout : x m with
    | ok a m' => simpa [Recorded.final, hrun, hout] using (hok a m' hout).1
    | error interrupt m' => simpa [Recorded.final, hrun, hout] using herror interrupt m' hout
  · rw [hrun] at ha ⊢
    rw [List.append_nil]
    exact (hok a m' ha).2

theorem pure
    {a : α}
    {Q : α → History → Prop}
    (hm : m.All (Value.Received H))
    (ha : Q a H) :
    KeepsReceivers (Pure.pure a) H m Q :=
  perform (x := Pure.pure a) (fun b m' hb => by cases hb; exact ⟨hm, ha⟩)
    (fun _ _ hb => by cases hb)

/-- Code after code. -/
theorem bind
    {x : Recorded α}
    {f : α → Recorded β}
    {Q : α → History → Prop}
    {R : β → History → Prop}
    (hx : KeepsReceivers x H m Q)
    (hf : ∀ a H' m', H <+: H' → m'.All (Value.Received H') → Q a H' →
      KeepsReceivers (f a) H' m' R) :
    KeepsReceivers (x >>= f) H m R := by
  cases hout : (x m).2 with
  | error interrupt m' =>
      have hrun : (x >>= f) m = ((x m).1, .error interrupt m') := by
        simp [Bind.bind, Recorded.andThen, hout]
      refine ⟨?_, ?_, fun b m'' hb => ?_⟩
      · rw [hrun]
        exact hx.moments
      · have hfinal : (x >>= f).final m = x.final m := by simp [Recorded.final, hrun, hout]
        rw [hfinal, hrun]
        exact hx.final
      · rw [hrun] at hb
        cases hb
  | ok a m' =>
      have hrun : (x >>= f) m = ((x m).1 ++ (f a m').1, (f a m').2) := by
        simp [Bind.bind, Recorded.andThen, hout]
      have hfinal : x.final m = m' := by simp [Recorded.final, hout]
      have hrest := hf a _ m' (List.prefix_append H _) (hfinal ▸ hx.final) (hx.result a m' hout)
      refine ⟨?_, ?_, fun b m'' hb => ?_⟩
      · rw [hrun]
        exact hx.moments.append hrest.moments
      · have hfinal' : (x >>= f).final m = (f a).final m' := by simp [Recorded.final, hrun]
        rw [hfinal', hrun, ← List.append_assoc]
        exact hrest.final
      · rw [hrun] at hb ⊢
        rw [← List.append_assoc]
        exact hrest.result b m'' hb

theorem map
    {x : Recorded α}
    {f : α → β}
    {Q : α → History → Prop}
    {R : β → History → Prop}
    (hx : KeepsReceivers x H m Q)
    (hf : ∀ a H', Q a H' → R (f a) H') :
    KeepsReceivers (f <$> x) H m R :=
  hx.bind fun a H' _ _ hm' ha => .pure hm' (hf a H' ha)

theorem mono
    {x : Recorded α}
    {Q R : α → History → Prop}
    (hx : KeepsReceivers x H m Q)
    (hQR : ∀ a H', Q a H' → R a H') :
    KeepsReceivers x H m R :=
  ⟨hx.moments, hx.final, fun a m' ha => hQR a _ (hx.result a m' ha)⟩

theorem note
    (hm : m.All (Value.Received H))
    (act : Act) :
    KeepsReceivers (Watch.note act) H m fun _ H' => H' = H ++ [⟨m, act⟩] := by
  have hrun : (Watch.note act : Recorded Unit) m = ([⟨m, act⟩], .ok () m) := rfl
  refine ⟨?_, ?_, fun _ _ _ => by rw [hrun]⟩
  · rw [hrun]
    exact .single hm
  · exact hm.mono fun _ hv => hv.later (List.prefix_append H _)

/-- An operation that leaves the machine as it is. -/
theorem look
    (hm : m.All (Value.Received H))
    {x : Run α}
    {P : α → Prop}
    {Q : α → History → Prop}
    (h : Looks x m P fun _ => True)
    (hPQ : ∀ a, P a → Q a H) :
    KeepsReceivers (Watch.perform x) H m Q :=
  .perform
    (fun a m' ha => by
      obtain ⟨rfl, hP⟩ := h.1 a m' ha
      exact ⟨hm, hPQ a hP⟩)
    (fun interrupt m' ha => (h.2 interrupt m' ha).1 ▸ hm)

theorem stop
    (hm : m.All (Value.Received H))
    {interrupt : Interrupt}
    {Q : α → History → Prop} :
    KeepsReceivers (Watch.perform (throw interrupt)) H m Q :=
  .look hm (looks_throw trivial) fun _ (h : False) => h.elim

end KeepsReceivers

section Lookups

variable (m : Machine)

/-- What is found is a slot of the machine, under the name that was looked for. -/
theorem looks_slot
    {result : Except AccessFault (FrameId × Slot)}
    {n : String}
    (h : ∀ found, result = .ok found → m.store.slot? found.1 n = some found.2)
    (place : Token) :
    Looks (Run.ofAccess place result) m
      (fun found => m.store.slot? found.1 n = some found.2) fun _ => True :=
  looks_ofAccess place h (fun _ _ => trivial) fun _ _ => trivial

theorem looks_slot_find (frame : FrameId) (name : Token) :
    Looks (do Run.ofAccess name ((← get).store.find frame name.lexeme)) m
      (fun found => m.store.slot? found.1 name.lexeme = some found.2) fun _ => True := by
  refine looks_bind (looks_get m) ?_
  rintro _ rfl
  exact looks_slot _ (fun _ hfound => Store.slot?_of_find hfound) name

theorem looks_slot_findAt (frame : FrameId) (distance : Nat) (name : String) (place : Token) :
    Looks (Run.findAt frame distance name place) m
      (fun found => m.store.slot? found.1 name = some found.2) fun _ => True := by
  refine looks_bind (looks_get m) ?_
  rintro _ rfl
  exact looks_slot _ (fun _ hfound => (Store.findAt_eq_ok hfound).2) place

theorem looks_slot_locate (frame : FrameId) (name : Token) (link : Link) :
    Looks (Run.locate frame name link) m
      (fun found => m.store.slot? found.1 name.lexeme = some found.2) fun _ => True := by
  unfold Run.locate
  cases link.depth with
  | some distance => exact looks_slot_findAt m frame distance name.lexeme name
  | none => exact looks_slot_find m globalFrame name

end Lookups

section Operations

variable
  {H : History}
  {m : Machine}
  (hm : m.All (Value.Received H))
include hm

/-- The value of a slot that is found. -/
theorem KeepsReceivers.found
    {x : Run (FrameId × Slot)}
    {n : String}
    (hx : Looks x m (fun found => m.store.slot? found.1 n = some found.2) fun _ => True) :
    KeepsReceivers (Watch.perform (x >>= fun found => Pure.pure found.2.value)) H m fun v H' =>
      Value.Received H' v :=
  .look hm (looks_bind hx fun found hslot =>
    looks_pure (P := Value.Received H) (hm.slots found.1 n found.2 hslot)) fun _ h => h

/-- A new value for a slot that is found. -/
theorem KeepsReceivers.putFound
    {x : Run (FrameId × Slot)}
    {P : FrameId × Slot → Prop}
    (hx : Looks x m P fun _ => True)
    {v : Value}
    (hv : v.Received H) :
    KeepsReceivers (Watch.perform (x >>= fun found => Run.update found.1 found.2 v)) H m
      fun _ _ => True := by
  refine .perform (fun _ m' ha => ⟨?_, trivial⟩) fun interrupt m' ha => ?_
  · cases hfound : x m with
    | ok found m₁ =>
        obtain ⟨rfl, -⟩ := hx.1 found m₁ hfound
        rw [Run.bind_of_ok hfound] at ha
        cases ha
        exact hm.update found.1 found.2 hv
    | error interrupt m₁ =>
        rw [Run.bind_of_error hfound] at ha
        cases ha
  · cases hfound : x m with
    | ok found m₁ =>
        rw [Run.bind_of_ok hfound] at ha
        cases ha
    | error _ m₁ =>
        obtain ⟨rfl, -⟩ := hx.2 _ m₁ hfound
        rw [Run.bind_of_error hfound] at ha
        cases ha
        exact hm

/-- An operation that changes neither slots nor fields. -/
theorem KeepsReceivers.aside
    {α : Type}
    {x : Run α}
    {a : α}
    {m' : Machine}
    (hrun : x m = .ok a m')
    (hstore : m'.store = m.store)
    (hfields : m'.fields = m.fields)
    {Q : α → History → Prop}
    (ha : Q a H) :
    KeepsReceivers (Watch.perform x) H m Q := by
  have hm' : m'.All (Value.Received H) := by
    refine ⟨hstore ▸ hm.slots, fun id name v hv => hm.fields id name v ?_⟩
    rwa [Machine.field?, hfields] at hv
  refine .perform (fun b m₁ hb => ?_) fun _ _ hb => ?_
  · obtain ⟨rfl, rfl⟩ := EStateM.Result.ok.inj (hrun.symm.trans hb)
    exact ⟨hm', ha⟩
  · cases hrun.symm.trans hb

theorem KeepsReceivers.setField
    (id : InstanceId)
    (name : String)
    {v : Value}
    (hv : v.Received H) :
    KeepsReceivers (Watch.perform (Run.setField id name v)) H m fun _ _ => True := by
  refine .perform (fun _ m' h => ?_) fun _ _ h => by cases h
  cases h
  exact ⟨hm.setField id name hv, trivial⟩

theorem KeepsReceivers.newInstance (c : ClassObject) :
    KeepsReceivers (Watch.perform (Run.newInstance c)) H m fun _ _ => True := by
  refine .perform (fun _ m' h => ?_) fun _ _ h => by cases h
  cases h
  refine ⟨⟨hm.slots, fun id n v hv => hm.fields id n v ?_⟩, trivial⟩
  simp only [Machine.field?, Array.getElem?_push] at hv ⊢
  split at hv
  · cases hv
  · exact hv

/-- A frame is opened, and this is a moment. -/
theorem KeepsReceivers.openFrame
    (o : Opening)
    (enclosing : FrameId)
    {bindings : List (String × Value)}
    (hbindings : ∀ b ∈ bindings, b.2.Received H) :
    KeepsReceivers (Code.openFrame o enclosing bindings) H m fun f H' => Opened H' f o := by
  have hrun : (Code.openFrame o enclosing bindings : Recorded FrameId) m =
      ([⟨m, .opens o⟩], .ok m.store.nextId { m with
        store := (m.store.extend (some enclosing)).defineAll m.store.nextId bindings }) := rfl
  refine ⟨?_, ?_, fun f m' hf => ?_⟩
  · exact (KeepsReceivers.note hm (.opens o)).moments
  · rw [hrun]
    exact (hm.newFrame enclosing hbindings).mono fun _ hv => hv.later (List.prefix_append H _)
  · rw [hrun] at hf ⊢
    cases hf
    exact ⟨_, List.mem_append_right H List.mem_cons_self, rfl, rfl⟩

theorem KeepsReceivers.bindDeclared
    (frame : FrameId)
    (name : Token)
    {value : Value}
    (hvalue : value.Received H)
    (constant : Bool) :
    KeepsReceivers (Code.bindDeclared frame name value constant) H m fun _ _ => True := by
  refine (KeepsReceivers.note hm _).bind fun _ H' m' hH hm' _ => ?_
  refine .perform (fun _ m₁ h => ?_) fun _ _ h => by cases h
  cases h
  exact ⟨hm'.define frame name.lexeme (hvalue.later hH) constant, trivial⟩

/-- An initializer is made in a frame that is opened for its instance. -/
theorem KeepsReceivers.bindMethod
    (method : Method)
    (id : InstanceId)
    (c : ClassObject) :
    KeepsReceivers (Code.bindMethod method id c) H m fun f H' =>
      (Value.function f).Received H' := by
  refine (KeepsReceivers.openFrame hm .receiver method.frame (by simp [Value.Received])).bind
    fun frame H₁ m₁ _ hm₁ hopened => ?_
  refine (KeepsReceivers.aside hm₁ (x := Run.newSerial) rfl rfl rfl
    (Q := fun _ H' => Opened H' frame .receiver) hopened).bind fun _ H₂ m₂ _ hm₂ hopened' => ?_
  exact .pure hm₂ fun _ => hopened'

end Operations

end Lox

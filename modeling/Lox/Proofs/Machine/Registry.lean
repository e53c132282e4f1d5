import Lox.Machine.Chronicle
import Lox.Proofs.Machine.Calls
import Lox.Proofs.Machine.ClassHeap
import Lox.Proofs.Machine.Receivers
import Lox.Proofs.Scope.Sparing

/-!
# What a chronicle knows of classes and functions

A chronicle tells of every class and of every method that is made for an instance.  So at each event
the values in use are known from what was told before: a class is one of those that were made, and
an initializer was made for an instance, which its frame binds.

The frame goes on binding the instance if no code declares or assigns the word for it.  A program as
it is parsed has no such code, but a tree made by hand can.  What is known of the code in use is
therefore given as a property of nodes, and the last fact is known only if the property excludes
such code.

**Main definitions.**
* `Registered`: what a chronicle knows of the values on a machine.
* `Entered`: a function was entered with an argument for each of its parameters.
* `Event.Registered`: what is true at an event.
* `KeepsRegister`: code goes through such events to a machine of that kind.

**Results.**
* `KeepsRegister.bind`: code after code.
* `KeepsRegister.bindMethod`: a method is made for an instance.
-/

namespace Lox

namespace Store

variable {store : Store}

/-- Binding a name changes no slot of another name. -/
theorem slot?_define_of_ne
    {name n : String}
    (hne : name ≠ n)
    (id : FrameId)
    (value : Value)
    (constant : Bool)
    (j : FrameId) :
    (store.define id name value constant).slot? j n = store.slot? j n := by
  rcases Nat.lt_or_ge id store.nextId with hid | hid
  · rw [slot?_define store hid, if_neg fun h => hne h.2]
  · by_cases hj : id = j
    · subst hj
      rw [slot?_of_nextId_le store hid, slot?_of_nextId_le _ (by simpa using hid)]
    · simp [slot?, hj]

/-- Updating a slot changes no slot of another name. -/
theorem slot?_update_of_ne
    {slot : Slot}
    {n : String}
    (hne : slot.name ≠ n)
    (id : FrameId)
    (value : Value)
    (j : FrameId) :
    (store.update id slot value).slot? j n = store.slot? j n := by
  rcases Nat.lt_or_ge id store.nextId with hid | hid
  · rw [slot?_update store hid, if_neg fun h => hne h.2]
  · by_cases hj : id = j
    · subst hj
      rw [slot?_of_nextId_le store hid, slot?_of_nextId_le _ (by simpa using hid)]
    · simp [slot?, hj]

/-- A slot that is there stays when a frame is added. -/
theorem slot?_newFrame
    {f : FrameId}
    {n : String}
    {slot : Slot}
    (h : store.slot? f n = some slot)
    (enclosing : FrameId)
    (bindings : List (String × Value)) :
    ((store.extend (some enclosing)).defineAll store.nextId bindings).slot? f n = some slot := by
  have hne : store.nextId ≠ f := Ne.symm (Nat.ne_of_lt (lt_nextId_of_slot? h))
  rw [slot?_defineAll_of_ne _ (by simp) hne, slot?_extend, h]

/-- Variables of other names change no slot. -/
theorem slot?_defineAll_of_not_mem
    {n : String}
    {bindings : List (String × Value)}
    (hn : n ∉ bindings.map Prod.fst)
    (id j : FrameId) :
    (store.defineAll id bindings).slot? j n = store.slot? j n := by
  induction bindings generalizing store with
  | nil => rfl
  | cons b rest ih =>
      rw [List.map_cons, List.mem_cons, not_or] at hn
      exact (ih hn.2).trans (slot?_define_of_ne (Ne.symm hn.1) id b.2 false j)

/-- Of several variables of one name, the last counts. -/
theorem slot?_defineAll_last
    {id : FrameId}
    (hid : id < store.nextId)
    {n : String}
    (before : List (String × Value))
    (value : Value)
    {after : List (String × Value)}
    (hn : n ∉ after.map Prod.fst) :
    (store.defineAll id (before ++ (n, value) :: after)).slot? id n = some ⟨n, value, false⟩ := by
  have hsplit : store.defineAll id (before ++ (n, value) :: after) =
      ((store.defineAll id before).define id n value false).defineAll id after := by
    simp [defineAll, List.foldl_append]
  rw [hsplit, slot?_defineAll_of_not_mem hn, slot?_define _ (by simpa using hid)]
  simp

end Store

/-- The class that is made, if it is one. -/
def Deed.made? : Deed → Option ClassObject
  | .makes c => some c
  | _ => none

/-- The values that a deed is about. -/
def Deed.values : Deed → List Value
  | .notes _ => []
  | .makes c => [.classObject c]
  | .receives f id c => [.function f, .object id c]
  | .enters f arguments _ => .function f :: arguments
  | .yields value => [value]
  | .answers callee arguments _ value => callee :: value :: arguments

/-- The classes that were made, in the order of their making. -/
def Chronicle.classes (H : Chronicle) : List ClassObject :=
  H.filterMap fun y => y.deed.made?

/-- A function was made of a method, for an instance of a class. -/
def Chronicle.Receives
    (H : Chronicle)
    (f : Closure)
    (id : InstanceId)
    (c : ClassObject) : Prop :=
  ∃ y ∈ H, y.deed = .receives f id c

/--
A function was entered with as many arguments as it has parameters.  Its frame binds every parameter
to an argument, and each argument is bound unless a later parameter has the same name.
-/
structure Entered
    (m : Machine)
    (f : Closure)
    (arguments : List Value)
    (frame : FrameId) : Prop where
  count : arguments.length = f.declaration.parameters.length
  every : ∀ parameter ∈ f.declaration.parameters, ∃ v ∈ arguments,
    m.store.slot? frame parameter.lexeme = some ⟨parameter.lexeme, v, false⟩
  bound : ∀ (i : Nat) (parameter : Token) (v : Value),
    f.declaration.parameters[i]? = some parameter → arguments[i]? = some v →
    (∀ later ∈ f.declaration.parameters.drop (i + 1), later.lexeme ≠ parameter.lexeme) →
    m.store.slot? frame parameter.lexeme = some ⟨parameter.lexeme, v, false⟩

/-- The frame that is opened for a function binds its parameters to the arguments. -/
theorem entered_newFrame
    {f : Closure}
    {arguments : List Value}
    (hcount : arguments.length = f.declaration.arity)
    (m : Machine) :
    Entered
      { m with
        store := (m.store.extend (some f.frame)).defineAll m.store.nextId
          ((f.declaration.parameters.map Token.lexeme).zip arguments) }
      f arguments m.store.nextId := by
  let names := f.declaration.parameters.map Token.lexeme
  let opened := m.store.extend (some f.frame)
  have hid : m.store.nextId < opened.nextId := by simp [opened]
  have hfst : (names.zip arguments).map Prod.fst = names :=
    List.map_fst_zip (by simp [names, hcount, FunctionDecl.arity])
  refine ⟨hcount, fun parameter hparameter => ?_, fun i parameter v hi hv hlast => ?_⟩
  · have hmem : parameter.lexeme ∈ (names.zip arguments).map Prod.fst := by
      rw [hfst]
      exact List.mem_map_of_mem hparameter
    have hconstant := opened.constant_slot?_defineAll hid (names.zip arguments) parameter.lexeme
    rw [if_pos hmem] at hconstant
    obtain ⟨⟨name, v, constant⟩, hslot, rfl⟩ := Option.map_eq_some_iff.mp hconstant
    obtain rfl := Store.name_of_slot? hslot
    rcases opened.slot?_defineAll hid _ hslot with ⟨b, hb, rfl⟩ | hold
    · exact ⟨b.2, (List.of_mem_zip hb).2, hslot⟩
    · rw [Store.slot?_extend] at hold
      exact absurd (Store.lt_nextId_of_slot? hold) (Nat.lt_irrefl _)
  · have hbinding : (names.zip arguments)[i]? = some (parameter.lexeme, v) :=
      List.getElem?_zip_eq_some.mpr ⟨by simp [names, hi], hv⟩
    obtain ⟨hlt, hget⟩ := List.getElem?_eq_some_iff.mp hbinding
    have hsplit : names.zip arguments =
        (names.zip arguments).take i ++ (parameter.lexeme, v) ::
          (names.zip arguments).drop (i + 1) := by
      rw [← hget, ← List.drop_eq_getElem_cons hlt, List.take_append_drop]
    have hlater : parameter.lexeme ∉ ((names.zip arguments).drop (i + 1)).map Prod.fst := by
      rw [List.map_drop, hfst, ← List.map_drop]
      intro hmem
      obtain ⟨later, hmem, heq⟩ := List.mem_map.mp hmem
      exact hlast later hmem heq
    have hslot := Store.slot?_defineAll_last hid ((names.zip arguments).take i) v hlater
    rwa [← hsplit] at hslot

section Registered

variable (good : Node → Prop)

/-- No code of a kind declares or assigns the word for the instance. -/
def SparesThis : Prop := ∀ node, good node → node.SparesThis

/--
The code of a function is of a kind, its class was made, and it was received as an initializer.
-/
def Value.Registered (H : Chronicle) : Value → Prop
  | .function f => good (.statements f.declaration.body)
      ∧ (f.isInitializer = true → ∃ id c, H.Receives f id c)
  | .classObject c => c ∈ H.classes
  | .object _ c => c ∈ H.classes
  | _ => True

/-- What a chronicle knows of a machine. -/
structure Registered (H : Chronicle) (m : Machine) : Prop where
  values : m.All (Value.Registered good H)
  made : MadeInOrder H.classes
  serials : ∀ c ∈ H.classes, c.own.serial < m.serial
  code : ∀ c ∈ H.classes, ∀ f ∈ c.own.methods, good (.statements f.body)
  receivers : SparesThis good → ∀ f id c, H.Receives f id c →
    m.store.slot? f.frame "this" = some ⟨"this", .object id c, false⟩

/--
The answer to a call.  A class answers with the instance whose turn it was when the call began, and
an initializer with the instance for which it was made.
-/
def Answered (H : Chronicle) (before : Machine) (value : Value) : Value → Prop
  | .classObject c => value = .object before.fields.size c
  | .function f => SparesThis good → f.isInitializer = true →
      ∃ id c, H.Receives f id c ∧ value = .object id c
  | _ => True

/-- What is true of a deed by itself. -/
def Deed.Proper (H : Chronicle) (m : Machine) : Deed → Prop
  | .enters f arguments frame => Entered m f arguments frame
  | .answers callee _ before value => Answered good H before value callee
  | _ => True

/-- What is true at an event, with all that was told up to then. -/
structure Event.Registered (H : Chronicle) (y : Event) : Prop where
  machine : Lox.Registered good (H ++ [y]) y.machine
  values : ∀ v ∈ y.deed.values, v.Registered good (H ++ [y])
  deed : y.deed.Proper good (H ++ [y]) y.machine

/-- The machine that a run leaves, however it ends. -/
def Chronicled.final {α : Type} (x : Chronicled α) (m : Machine) : Machine :=
  match (x m).2 with
  | .ok _ m' => m'
  | .error _ m' => m'

/--
Code goes from a machine of which a chronicle knows to another, through events at which what is in
use is known, and its result has a property.
-/
structure KeepsRegister
    {α : Type}
    (x : Chronicled α)
    (H : Chronicle)
    (m : Machine)
    (Q : α → Chronicle → Machine → Prop) : Prop where
  events : Throughout (Event.Registered good) H (x m).1
  final : Registered good (H ++ (x m).1) (x.final m)
  result : ∀ a m', (x m).2 = .ok a m' → Q a (H ++ (x m).1) m'

variable {good}

section Later

variable {H H' : Chronicle} (hH : H <+: H')
include hH

theorem Chronicle.Receives.later
    {f : Closure}
    {id : InstanceId}
    {c : ClassObject}
    (h : H.Receives f id c) :
    H'.Receives f id c :=
  have ⟨y, hy, hdeed⟩ := h
  ⟨y, hH.subset hy, hdeed⟩

theorem Chronicle.classes_later : H.classes <+: H'.classes :=
  hH.filterMap _

/-- What is known of a value goes on being known. -/
theorem Value.Registered.later
    {v : Value}
    (h : v.Registered good H) :
    v.Registered good H' := by
  cases v with
  | function f => exact ⟨h.1, fun hf => (h.2 hf).imp fun _ h => h.imp fun _ h => h.later hH⟩
  | classObject c => exact (Chronicle.classes_later hH).subset h
  | object id c => exact (Chronicle.classes_later hH).subset h
  | _ => trivial

end Later

namespace Registered

variable {H : Chronicle} {m m' : Machine}

/-- The machine changes; slots for the instance stay. -/
theorem change
    (h : Registered good H m)
    (hvalues : m'.All (Value.Registered good H))
    (hserial : m.serial ≤ m'.serial)
    (hthis : SparesThis good → ∀ f slot, m.store.slot? f "this" = some slot →
      m'.store.slot? f "this" = some slot) :
    Registered good H m' where
  values := hvalues
  made := h.made
  serials c hc := Nat.lt_of_lt_of_le (h.serials c hc) hserial
  code := h.code
  receivers hspares f id c hreceives := hthis hspares _ _ (h.receivers hspares f id c hreceives)

/--
Something is told, but not about a new class; a new method has a frame that binds its instance.
-/
theorem told
    (h : Registered good H m)
    {y : Event}
    (hmade : y.deed.made? = none)
    (hreceives : ∀ f id c, y.deed = .receives f id c →
      m.store.slot? f.frame "this" = some ⟨"this", .object id c, false⟩) :
    Registered good (H ++ [y]) m := by
  have hclasses : (H ++ [y]).classes = H.classes := by
    simp [Chronicle.classes, List.filterMap_append, hmade]
  refine ⟨h.values.mono fun _ hv => hv.later (List.prefix_append H [y]), ?_, ?_, ?_, ?_⟩
  · rw [hclasses]
    exact h.made
  · rw [hclasses]
    exact h.serials
  · rw [hclasses]
    exact h.code
  · rintro hspares f id c ⟨z, hz, hdeed⟩
    rcases List.mem_append.mp hz with hz | hz
    · exact h.receivers hspares f id c ⟨z, hz, hdeed⟩
    · cases List.mem_singleton.mp hz
      exact hreceives f id c hdeed

/-- A method that is found in a class is code of the kind. -/
theorem method?
    (h : Registered good H m)
    {c : ClassObject}
    (hc : c ∈ H.classes)
    {name : String}
    {method : Method}
    (hmethod : c.method? name = some method) :
    good (.statements method.declaration.body) := by
  obtain ⟨owner, howner, hdeclaration, -⟩ := ClassObject.method?_eq_some hmethod
  exact h.code owner (h.made.mem_of_suffix hc howner) _ hdeclaration

end Registered

namespace KeepsRegister

variable {α β : Type} {H : Chronicle} {m : Machine}

/-- An operation of the machine tells nothing. -/
theorem perform
    {x : Run α}
    {Q : α → Chronicle → Machine → Prop}
    (hok : ∀ a m', x m = .ok a m' → Registered good H m' ∧ Q a H m')
    (herror : ∀ interrupt m', x m = .error interrupt m' → Registered good H m') :
    KeepsRegister good (Watch.perform x) H m Q := by
  have hrun : (Watch.perform x : Chronicled α) m = ([], x m) := rfl
  refine ⟨?_, ?_, fun a m' ha => ?_⟩
  · rw [hrun]
    exact .nil
  · rw [hrun, List.append_nil]
    cases hout : x m with
    | ok a m' => simpa [Chronicled.final, hrun, hout] using (hok a m' hout).1
    | error interrupt m' => simpa [Chronicled.final, hrun, hout] using herror interrupt m' hout
  · rw [hrun] at ha ⊢
    rw [List.append_nil]
    exact (hok a m' ha).2

theorem pure
    {a : α}
    {Q : α → Chronicle → Machine → Prop}
    (hm : Registered good H m)
    (ha : Q a H m) :
    KeepsRegister good (Pure.pure a) H m Q :=
  perform (x := Pure.pure a) (fun b m' hb => by cases hb; exact ⟨hm, ha⟩)
    (fun _ _ hb => by cases hb)

/-- Code after code. -/
theorem bind
    {x : Chronicled α}
    {f : α → Chronicled β}
    {Q : α → Chronicle → Machine → Prop}
    {R : β → Chronicle → Machine → Prop}
    (hx : KeepsRegister good x H m Q)
    (hf : ∀ a H' m', H <+: H' → Registered good H' m' → Q a H' m' →
      KeepsRegister good (f a) H' m' R) :
    KeepsRegister good (x >>= f) H m R := by
  cases hout : (x m).2 with
  | error interrupt m' =>
      have hrun : (x >>= f) m = ((x m).1, .error interrupt m') := by
        simp [Bind.bind, Chronicled.andThen, hout]
      refine ⟨?_, ?_, fun b m'' hb => ?_⟩
      · rw [hrun]
        exact hx.events
      · have hfinal : (x >>= f).final m = x.final m := by simp [Chronicled.final, hrun, hout]
        rw [hfinal, hrun]
        exact hx.final
      · rw [hrun] at hb
        cases hb
  | ok a m' =>
      have hrun : (x >>= f) m = ((x m).1 ++ (f a m').1, (f a m').2) := by
        simp [Bind.bind, Chronicled.andThen, hout]
      have hfinal : x.final m = m' := by simp [Chronicled.final, hout]
      have hrest := hf a _ m' (List.prefix_append H _) (hfinal ▸ hx.final) (hx.result a m' hout)
      refine ⟨?_, ?_, fun b m'' hb => ?_⟩
      · rw [hrun]
        exact hx.events.append hrest.events
      · have hfinal' : (x >>= f).final m = (f a).final m' := by simp [Chronicled.final, hrun]
        rw [hfinal', hrun, ← List.append_assoc]
        exact hrest.final
      · rw [hrun] at hb ⊢
        rw [← List.append_assoc]
        exact hrest.result b m'' hb

theorem map
    {x : Chronicled α}
    {f : α → β}
    {Q : α → Chronicle → Machine → Prop}
    {R : β → Chronicle → Machine → Prop}
    (hx : KeepsRegister good x H m Q)
    (hf : ∀ a H' m', Q a H' m' → R (f a) H' m') :
    KeepsRegister good (f <$> x) H m R :=
  hx.bind fun a H' m' _ hm' ha => .pure hm' (hf a H' m' ha)

theorem mono
    {x : Chronicled α}
    {Q R : α → Chronicle → Machine → Prop}
    (hx : KeepsRegister good x H m Q)
    (hQR : ∀ a H' m', Q a H' m' → R a H' m') :
    KeepsRegister good x H m R :=
  ⟨hx.events, hx.final, fun a m' ha => hQR a _ m' (hx.result a m' ha)⟩

/-- Something is told. -/
theorem tell
    {deed : Deed}
    (h : Event.Registered good H ⟨m, deed⟩) :
    KeepsRegister good (Chronicled.tell deed) H m
      fun _ H' m' => H' = H ++ [⟨m, deed⟩] ∧ m' = m where
  events := .single h
  final := h.machine
  result _ _ ha := by
    cases ha
    exact ⟨rfl, rfl⟩

/-- Something is told that is neither about a new class nor about a new method. -/
theorem report
    (hm : Registered good H m)
    {deed : Deed}
    (hmade : deed.made? = none)
    (hreceives : ∀ f id c, deed ≠ .receives f id c)
    (hvalues : ∀ v ∈ deed.values, v.Registered good H)
    (hproper : deed.Proper good (H ++ [⟨m, deed⟩]) m) :
    KeepsRegister good (Chronicled.tell deed) H m fun _ _ m' => m' = m :=
  (tell ⟨hm.told hmade fun f id c h => absurd h (hreceives f id c),
    fun v hv => (hvalues v hv).later (List.prefix_append H _), hproper⟩).mono fun _ _ _ h => h.2

/-- Code says what it is about to do. -/
theorem note
    (hm : Registered good H m)
    (act : Act) :
    KeepsRegister good (Watch.note act) H m fun _ _ m' => m' = m :=
  report hm rfl nofun nofun trivial

/-- An operation that leaves the machine as it is. -/
theorem look
    (hm : Registered good H m)
    {x : Run α}
    {P : α → Prop}
    {Q : α → Chronicle → Machine → Prop}
    (h : Looks x m P fun _ => True)
    (hPQ : ∀ a, P a → Q a H m) :
    KeepsRegister good (Watch.perform x) H m Q :=
  .perform
    (fun a m' ha => by
      obtain ⟨rfl, hP⟩ := h.1 a m' ha
      exact ⟨hm, hPQ a hP⟩)
    (fun interrupt m' ha => (h.2 interrupt m' ha).1 ▸ hm)

theorem stop
    (hm : Registered good H m)
    {interrupt : Interrupt}
    {Q : α → Chronicle → Machine → Prop} :
    KeepsRegister good (Watch.perform (throw interrupt)) H m Q :=
  .look hm (looks_throw trivial) fun _ (h : False) => h.elim

end KeepsRegister

section Operations

variable
  {H : Chronicle}
  {m : Machine}
  (hm : Registered good H m)
include hm

/-- The value of a slot that is found. -/
theorem KeepsRegister.found
    {x : Run (FrameId × Slot)}
    {n : String}
    (hx : Looks x m (fun found => m.store.slot? found.1 n = some found.2) fun _ => True) :
    KeepsRegister good (Watch.perform (x >>= fun found => Pure.pure found.2.value))
      H m fun v H' _ =>
      v.Registered good H' :=
  .look hm (looks_bind hx fun found hslot =>
    looks_pure (P := Value.Registered good H)
      (hm.values.slots found.1 n found.2 hslot)) fun _ h => h

/-- A new value for a slot that is found. -/
theorem KeepsRegister.putFound
    {x : Run (FrameId × Slot)}
    {n : String}
    (hx : Looks x m (fun found => m.store.slot? found.1 n = some found.2) fun _ => True)
    (hn : SparesThis good → n ≠ "this")
    {v : Value}
    (hv : v.Registered good H) :
    KeepsRegister good (Watch.perform (x >>= fun found => Run.update found.1 found.2 v)) H m
      fun _ _ _ => True := by
  refine .perform (fun _ m' ha => ⟨?_, trivial⟩) fun interrupt m' ha => ?_
  · cases hfound : x m with
    | ok found m₁ =>
        obtain ⟨rfl, hslot⟩ := hx.1 found m₁ hfound
        rw [Run.bind_of_ok hfound] at ha
        cases ha
        refine hm.change (hm.values.update found.1 found.2 hv) (Nat.le_refl _)
          fun hspares f slot h => ?_
        have hne : found.2.name ≠ "this" := Store.name_of_slot? hslot ▸ hn hspares
        exact (Store.slot?_update_of_ne hne found.1 v f).trans h
    | error interrupt m₁ =>
        rw [Run.bind_of_error hfound] at ha
        cases ha
  · cases hfound : x m with
    | ok found m₁ =>
        rw [Run.bind_of_ok hfound] at ha
        cases ha
    | error _ m₁ =>
        obtain ⟨rfl, -⟩ := hx.2 _ m₁ hfound
        rw [Run.bind_of_error hfound] at ha
        cases ha
        exact hm

/-- An operation that changes neither slots nor fields. -/
theorem KeepsRegister.aside
    {α : Type}
    {x : Run α}
    {a : α}
    {m' : Machine}
    (hrun : x m = .ok a m')
    (hstore : m'.store = m.store)
    (hfields : m'.fields = m.fields)
    (hserial : m.serial ≤ m'.serial) :
    KeepsRegister good (Watch.perform x) H m fun b _ m'' => b = a ∧ m'' = m' := by
  have hvalues : m'.All (Value.Registered good H) := by
    refine ⟨hstore ▸ hm.values.slots, fun id name v hv => hm.values.fields id name v ?_⟩
    rwa [Machine.field?, hfields] at hv
  have hm' : Registered good H m' := hm.change hvalues hserial fun _ f slot h => hstore ▸ h
  refine .perform (fun b m₁ hb => ?_) fun _ _ hb => ?_
  · obtain ⟨rfl, rfl⟩ := EStateM.Result.ok.inj (hrun.symm.trans hb)
    exact ⟨hm', rfl, rfl⟩
  · cases hrun.symm.trans hb

/-- A new number is greater than those of all classes. -/
theorem KeepsRegister.newSerial :
    KeepsRegister good (Watch.perform Run.newSerial) H m fun serial H' m' =>
      serial = m.serial ∧ m' = { m with serial := m.serial + 1 }
        ∧ ∀ c ∈ H'.classes, c.own.serial < serial := by
  refine .perform (fun _ m' h => ?_) fun _ _ h => by cases h
  cases h
  exact ⟨hm.change ⟨hm.values.slots, hm.values.fields⟩ (Nat.le_succ _) fun _ _ _ h => h, rfl, rfl,
    hm.serials⟩

theorem KeepsRegister.setField
    (id : InstanceId)
    (name : String)
    {v : Value}
    (hv : v.Registered good H) :
    KeepsRegister good (Watch.perform (Run.setField id name v)) H m fun _ _ _ => True := by
  refine .perform (fun _ m' h => ?_) fun _ _ h => by cases h
  cases h
  exact ⟨hm.change (hm.values.setField id name hv) (Nat.le_refl _) fun _ _ _ h => h, trivial⟩

theorem KeepsRegister.newInstance (c : ClassObject) :
    KeepsRegister good (Watch.perform (Run.newInstance c)) H m
      fun made _ _ => made = (m.fields.size, c) := by
  refine .perform (fun _ m' h => ?_) fun _ _ h => by cases h
  cases h
  refine ⟨hm.change ⟨hm.values.slots, fun id n v hv => hm.values.fields id n v ?_⟩ (Nat.le_refl _)
    fun _ _ _ h => h, rfl⟩
  simp only [Machine.field?, Array.getElem?_push] at hv ⊢
  split at hv
  · cases hv
  · exact hv

/-- A frame is opened. -/
theorem KeepsRegister.openFrame
    (o : Opening)
    (enclosing : FrameId)
    {bindings : List (String × Value)}
    (hbindings : ∀ b ∈ bindings, b.2.Registered good H) :
    KeepsRegister good (Code.openFrame o enclosing bindings) H m fun f _ m' =>
      f = m.store.nextId ∧ m' = { m with
        store := (m.store.extend (some enclosing)).defineAll m.store.nextId bindings } := by
  refine (KeepsRegister.note hm (.opens o)).bind fun _ H' m' hH hm' heq => ?_
  obtain rfl := heq
  refine .perform (fun _ m₁ h => ?_) fun _ _ h => by cases h
  cases h
  refine ⟨hm'.change (hm'.values.newFrame enclosing fun b hb => (hbindings b hb).later hH)
    (Nat.le_refl _) fun _ f slot h => ?_, rfl, rfl⟩
  exact Store.slot?_newFrame h enclosing bindings

theorem KeepsRegister.bindDeclared
    (frame : FrameId)
    (name : Token)
    (hname : SparesThis good → name.lexeme ≠ "this")
    {value : Value}
    (hvalue : value.Registered good H)
    (constant : Bool) :
    KeepsRegister good (Code.bindDeclared frame name value constant) H m fun _ _ _ => True := by
  refine (KeepsRegister.note hm _).bind fun _ H' m' hH hm' _ => ?_
  refine .perform (fun _ m₁ h => ?_) fun _ _ h => by cases h
  cases h
  refine ⟨hm'.change (hm'.values.define frame name.lexeme (hvalue.later hH) constant)
    (Nat.le_refl _) fun hspares f slot h => ?_, trivial⟩
  exact (Store.slot?_define_of_ne (hname hspares) frame value constant f).trans h

/-- A method is made for an instance, in a frame that binds the instance. -/
theorem KeepsRegister.bindMethod
    {method : Method}
    (hmethod : good (.statements method.declaration.body))
    {c : ClassObject}
    (hc : c ∈ H.classes)
    (id : InstanceId) :
    KeepsRegister good (Chronicled.bindMethod method id c) H m fun f H' _ =>
      (Value.function f).Registered good H' ∧ f.declaration = method.declaration := by
  have hbindings : ∀ b ∈ [("this", Value.object id c)], b.2.Registered good H := by
    simpa [Value.Registered] using hc
  let opened : Machine :=
    { m with
      store := (m.store.extend (some method.frame)).defineAll m.store.nextId
        [("this", .object id c)] }
  let made : Closure :=
    ⟨m.serial, method.declaration, m.store.nextId, method.declaration.isInitializer⟩
  have hmade : KeepsRegister good (Code.bindMethod method id c) H m fun f _ m' =>
      f = made ∧ m' = { opened with serial := m.serial + 1 } := by
    refine (KeepsRegister.openFrame hm .receiver method.frame hbindings).bind ?_
    rintro _ H₁ _ _ hm₁ ⟨rfl, rfl⟩
    refine (KeepsRegister.newSerial hm₁).bind ?_
    rintro _ H₂ _ _ hm₂ ⟨rfl, rfl, -⟩
    exact .pure hm₂ ⟨rfl, rfl⟩
  refine hmade.bind ?_
  rintro _ H₁ _ hH₁ hm₁ ⟨rfl, rfl⟩
  let y : Event := ⟨{ opened with serial := m.serial + 1 }, .receives made id c⟩
  have hslot : y.machine.store.slot? made.frame "this" = some ⟨"this", .object id c, false⟩ :=
    Store.slot?_defineAll_last (by simp) [] _ (by simp)
  have hregistered : (Value.function made).Registered good (H₁ ++ [y]) :=
    ⟨hmethod, fun _ => ⟨id, c, y, by simp, rfl⟩⟩
  have hinstance : (Value.object id c).Registered good (H₁ ++ [y]) :=
    (Chronicle.classes_later (hH₁.trans (List.prefix_append H₁ [y]))).subset hc
  have hevent : Event.Registered good H₁ y := by
    refine ⟨hm₁.told rfl ?_, ?_, trivial⟩
    · rintro _ _ _ ⟨⟩
      exact hslot
    · simpa [Deed.values, y] using ⟨hregistered, hinstance⟩
  refine (KeepsRegister.tell hevent).bind ?_
  rintro _ H₂ _ _ hm₂ ⟨rfl, rfl⟩
  exact .pure hm₂ ⟨hregistered, rfl⟩

end Operations

end Registered

end Lox

import Lox.Proofs.Machine.Chronicle
import Lox.Proofs.Machine.Registered
import Lox.Proofs.Session.Course
import Lox.Proofs.Session.Relabel

/-!
# The graph of classes in all runs

Programs are run one after another on one machine, be they compiled or made by hand.  At every event
of such runs, and after the last of them, all classes in use were made before and are as they were
made. From each of them the superclasses lead to an end without coming to a class twice, and a
method is found in the nearest class that has one.  A function is only entered with an argument for
each parameter.

If the programs are compiled, then each initializer in use was made for an instance, and its frame
binds that instance.  So the call of a class comes to the new instance, and the call of an
initializer to its instance.

**Main definitions.**
* `Job`: a program with the bounds within which it runs.
* `Job.chronicleOf`, `Job.machineAfter`: what is told of the runs of some programs, and what they
  leave.
* `ClassObject.Stands`: the superclasses of a class on a heap.
* `ClassGraph`: the classes in use.

**Results.**
* `Job.registers_all`: the chronicle of some programs knows of what is in use.
* `Job.class_graph_sound`: classes, entered functions, and initializers.
-/

namespace Lox

/-- A program, and the bounds within which it runs. -/
structure Job where
  limits : Limits
  program : List Stmt

namespace Job

/-- A run of a program that tells of its events. -/
def chronicled (x : Job) : Chronicled Unit :=
  Chronicled.interpret x.limits.rounds x.limits.running x.program

/-- What is told of the runs of some programs, one after another. -/
def chronicleOf : List Job → Machine → Chronicle
  | [], _ => []
  | x :: rest, m =>
      (x.chronicled { m with printed := #[] }).1
        ++ chronicleOf rest (m.runProgram x.limits x.program).2

/-- The machine after the runs of some programs. -/
def machineAfter : List Job → Machine → Machine
  | [], m => m
  | x :: rest, m => machineAfter rest (m.runProgram x.limits x.program).2

/-- The program is the one of a text. -/
def Compiled (x : Job) : Prop :=
  ∃ source, compile x.limits source = .ok x.program

end Job

/--
The superclasses of a class on a heap.  There is one way along them, it has an end, and no class is
met twice.  The search for a method ends with the one of the nearest class that has one.
-/
structure ClassObject.Stands
    (heap : ClassHeap)
    (c : ClassObject) : Prop where
  record : heap c.own.serial = some c.record
  path : ∃ path, (∀ path', heap.Leads c.own.serial path' ↔ path' = path) ∧ path.Nodup
    ∧ ∀ name, c.method? name = path.findSome? (heap.ownMethod? name)
  finds : ∀ name result, heap.Finds name c.own.serial result ↔ result = c.method? name

theorem MadeInOrder.stands
    {made : List ClassObject}
    (h : MadeInOrder made)
    {c : ClassObject}
    (hc : c ∈ made) :
    c.Stands (ClassHeap.of made) where
  record := h.heap_eq hc
  path := by
    refine ⟨_, fun path' => ⟨fun hleads => hleads.unique (h.leads hc), ?_⟩, h.nodup hc,
      h.method?_eq hc⟩
    rintro rfl
    exact h.leads hc
  finds name result := by
    refine ⟨fun hfinds => hfinds.unique (h.finds hc name), ?_⟩
    rintro rfl
    exact h.finds hc name

/-- The class in a value. -/
def Value.class? : Value → Option ClassObject
  | .classObject c => some c
  | .object _ c => some c
  | _ => none

/-- A value is in use: it is in a variable, in a field, or at hand. -/
def Machine.Uses
    (m : Machine)
    (atHand : List Value)
    (v : Value) : Prop :=
  (∃ f name slot, m.store.slot? f name = some slot ∧ slot.value = v)
    ∨ (∃ id name, m.field? id name = some v)
    ∨ v ∈ atHand

/--
The classes in use were made, they are as they were made, and their superclasses lead to an end.
-/
structure ClassGraph
    (H : Chronicle)
    (atHand : List Value)
    (m : Machine) : Prop where
  made : ∀ v, m.Uses atHand v → ∀ c ∈ v.class?, c ∈ H.classes
  unchanged : ∀ c ∈ H.classes, ∀ v, m.Uses atHand v → ∀ d ∈ v.class?,
    d.own.serial = c.own.serial → d = c
  stands : ∀ c ∈ H.classes, c.Stands (ClassHeap.of H.classes)

/-- A function was made for an instance, and its frame binds that instance. -/
def BindsInstance
    (H : Chronicle)
    (m : Machine)
    (f : Closure)
    (id : InstanceId)
    (c : ClassObject) : Prop :=
  H.Receives f id c ∧ m.store.slot? f.frame "this" = some ⟨"this", .object id c, false⟩

/-- The initializers in use bind the instances for which they were made. -/
def InitializersBound
    (H : Chronicle)
    (atHand : List Value)
    (m : Machine) : Prop :=
  ∀ f, m.Uses atHand (.function f) → f.isInitializer = true → ∃ id c, BindsInstance H m f id c

namespace Registered

variable
  {good : Node → Prop}
  {H : Chronicle}
  {m : Machine}
  (hm : Registered good H m)
  {atHand : List Value}
  (hatHand : ∀ v ∈ atHand, v.Registered good H)
include hm hatHand

theorem uses
    {v : Value}
    (hv : m.Uses atHand v) :
    v.Registered good H := by
  rcases hv with ⟨f, name, slot, hslot, rfl⟩ | ⟨id, name, hfield⟩ | hmem
  · exact hm.values.slots f name slot hslot
  · exact hm.values.fields id name v hfield
  · exact hatHand v hmem

theorem classGraph : ClassGraph H atHand m := by
  have hmade : ∀ v, m.Uses atHand v → ∀ c ∈ v.class?, c ∈ H.classes := by
    intro v hv c hc
    have hregistered := hm.uses hatHand hv
    cases v with
    | classObject d =>
        cases hc
        exact hregistered
    | object id d =>
        cases hc
        exact hregistered
    | _ => cases hc
  exact ⟨hmade, fun c hc v hv d hd => hm.made.eq_of_serial (hmade v hv d hd) hc,
    fun c hc => hm.made.stands hc⟩

theorem initializersBound (hspares : SparesThis good) : InitializersBound H atHand m := by
  intro f hf hinitializer
  obtain ⟨id, c, hreceives⟩ := (hm.uses hatHand hf).2 hinitializer
  exact ⟨id, c, hreceives, hm.receivers hspares f id c hreceives⟩

end Registered

/-- At the start there are no classes. -/
theorem registered_initial
    (good : Node → Prop)
    (clock : List Float) :
    Registered good [] (Machine.initial clock) := by
  have hsound := sound_initial (fun _ => False) clock
  refine ⟨⟨fun f name slot hslot => ?_, fun id name v hv => ?_⟩, .nil, nofun, nofun, ?_⟩
  · exact registered_of_valueFits (hsound.slots f name slot hslot) []
  · exact registered_of_valueFits (hsound.fields id name v hv) []
  · rintro _ f id c ⟨y, hy, -⟩
    cases hy

namespace Job

/-- A run that tells of its events is the run. -/
theorem runProgram_eq (x : Job) (m : Machine) :
    m.runProgram x.limits x.program =
      Machine.stopped (x.chronicled { m with printed := #[] }).2 := by
  have hrun := Chronicled.run_interpret x.limits.rounds x.limits.running x.program
  rw [Machine.runProgram_eq_stopped, ← hrun]
  rfl

theorem runProgram_machine (x : Job) (m : Machine) :
    (m.runProgram x.limits x.program).2 = x.chronicled.final { m with printed := #[] } := by
  rw [runProgram_eq, Chronicled.final]
  cases (x.chronicled { m with printed := #[] }).2 <;> rfl

/-- The chronicle of some programs knows of what is in use. -/
theorem registers_all
    {good : Node → Prop}
    (hkind : InheritsKind good)
    {jobs : List Job}
    (hjobs : ∀ x ∈ jobs, good (.statements x.program))
    {H : Chronicle}
    {m : Machine}
    (hm : Registered good H m) :
    Throughout (Event.Registered good) H (chronicleOf jobs m)
      ∧ Registered good (H ++ chronicleOf jobs m) (machineAfter jobs m) := by
  induction jobs generalizing H m with
  | nil => exact ⟨.nil, by simpa [chronicleOf, machineAfter] using hm⟩
  | cons x rest ih =>
      obtain ⟨hx, hrest⟩ := List.forall_mem_cons.mp hjobs
      have hempty : Registered good H { m with printed := #[] } :=
        hm.change ⟨hm.values.slots, hm.values.fields⟩ (Nat.le_refl _) fun _ _ _ h => h
      have hrun : KeepsRegister good x.chronicled H { m with printed := #[] } fun _ _ _ => True :=
        Chronicled.registers_interpret hkind hempty hx x.limits.rounds x.limits.running
      obtain ⟨hevents, hfinal⟩ := ih hrest (x.runProgram_machine m ▸ hrun.final)
      rw [List.append_assoc] at hfinal
      exact ⟨hrun.events.append hevents, hfinal⟩

/-- No code of a program that is compiled declares or assigns the word for the instance. -/
theorem Compiled.sparesThis
    {x : Job}
    (h : x.Compiled) :
    (Node.statements x.program).Every Node.SparesThis := by
  obtain ⟨source, hcompile⟩ := h
  rw [(compile_eq_ok hcompile).1]
  exact sparesThis_resolveProgram (accepted_statementsOf hcompile).worded

/--
The graph of classes is sound.  Let any programs be run one after another, also programs made by
hand. The events that are told of are those of the runs.  At each of them, and in the end, every
class in use was made and is as it was made; its superclasses lead to an end, no class is met twice,
and the search for a method ends with the one of the nearest class that has one.  What the heap
holds of a class never changes.  A function is entered with as many arguments as it has parameters,
every parameter is bound, and no argument is lost.  The call of a class comes to the instance whose
turn it is.

If the programs are compiled, every initializer in use was made for an instance, which its frame
binds, and the call of an initializer comes to the instance that its frame binds.
-/
theorem class_graph_sound
    (clock : List Float)
    (jobs : List Job) :
    let start := Machine.initial clock
    let told := chronicleOf jobs start
    (∀ x ∈ jobs, ∀ m : Machine, m.runProgram x.limits x.program =
        Machine.stopped (x.chronicled { m with printed := #[] }).2)
      ∧ ClassGraph told [] (machineAfter jobs start)
      ∧ (∀ A y B, told = A ++ y :: B →
        ClassGraph (A ++ [y]) y.deed.values y.machine
          ∧ (∀ serial record,
            ClassHeap.of (Chronicle.classes (A ++ [y])) serial = some record →
              ClassHeap.of told.classes serial = some record)
          ∧ (∀ f arguments frame, y.deed = .enters f arguments frame →
            Entered y.machine f arguments frame)
          ∧ ∀ c arguments before v, y.deed = .answers (.classObject c) arguments before v →
            v = .object before.fields.size c)
      ∧ ((∀ x ∈ jobs, x.Compiled) →
        InitializersBound told [] (machineAfter jobs start)
          ∧ ∀ A y B, told = A ++ y :: B →
            InitializersBound (A ++ [y]) y.deed.values y.machine
              ∧ ∀ f arguments before v, y.deed = .answers (.function f) arguments before v →
                f.isInitializer = true →
                  ∃ id c, BindsInstance (A ++ [y]) y.machine f id c ∧ v = .object id c) := by
  intro start told
  refine ⟨fun x _ m => x.runProgram_eq m, ?_⟩
  have hany : InheritsKind fun _ => True := fun _ _ _ _ => trivial
  obtain ⟨hevents, hfinal⟩ := registers_all hany (fun _ _ => trivial)
    (registered_initial _ clock)
  rw [List.nil_append] at hfinal
  refine ⟨hfinal.classGraph nofun, fun A y B htold => ?_, fun hcompiled => ?_⟩
  · have hy := hevents A y B htold
    rw [List.nil_append] at hy
    refine ⟨hy.machine.classGraph hy.values, fun serial record => ?_,
      fun f arguments frame hdeed => ?_, fun c arguments before v hdeed => ?_⟩
    · have hstart : A ++ [y] <+: told := ⟨B, by simp [htold]⟩
      exact hfinal.made.heap_stays (Chronicle.classes_later hstart)
    · have hproper := hy.deed
      rwa [hdeed] at hproper
    · have hproper := hy.deed
      rwa [hdeed] at hproper
  · have hkind : InheritsKind fun node => node.Every Node.SparesThis :=
      fun _ h _ hpart => h.child hpart
    have hspares : SparesThis fun node => node.Every Node.SparesThis := fun _ h => h.here
    obtain ⟨hevents, hfinal⟩ := registers_all hkind
      (fun x hx => (hcompiled x hx).sparesThis) (registered_initial _ clock)
    rw [List.nil_append] at hfinal
    refine ⟨hfinal.initializersBound nofun hspares, fun A y B htold => ?_⟩
    have hy := hevents A y B htold
    rw [List.nil_append] at hy
    refine ⟨hy.machine.initializersBound hy.values hspares,
      fun f arguments before v hdeed hinitializer => ?_⟩
    have hproper := hy.deed
    rw [hdeed] at hproper
    obtain ⟨id, c, hreceives, rfl⟩ := hproper hspares hinitializer
    exact ⟨id, c, ⟨hreceives, hy.machine.receivers hspares f id c hreceives⟩, rfl⟩

/--
A class inherits its initializer, which is called for a new instance and then once more by its name.
The second call comes to the instance as well.
-/
theorem class_graph_sound_inherited_initializer :
    let limits : Limits := ⟨20, 20, 20, 20⟩
    let source := "class A \x7b init(x) \x7b\x7d \x7d class B < A \x7b\x7d B(nil).init(nil);"
    ∃ program A y B f before v,
      compile limits source = .ok program
        ∧ chronicleOf [⟨limits, program⟩] (Machine.initial []) = A ++ y :: B
        ∧ y.deed = .answers (.function f) [.nil] before v
        ∧ f.isInitializer = true
        ∧ (∃ id c, BindsInstance (A ++ [y]) y.machine f id c ∧ v = .object id c)
        ∧ ClassGraph (A ++ [y]) y.deed.values y.machine := by
  dsimp only
  have hcompile : ∃ program y f before v,
      compile ⟨20, 20, 20, 20⟩
          "class A \x7b init(x) \x7b\x7d \x7d class B < A \x7b\x7d B(nil).init(nil);" = .ok program
        ∧ (chronicleOf [⟨⟨20, 20, 20, 20⟩, program⟩] (Machine.initial []))[27]? = some y
        ∧ y.deed = .answers (.function f) [.nil] before v
        ∧ f.isInitializer = true :=
    ⟨_, _, _, _, _, by cbv, by cbv, by cbv, by cbv⟩
  obtain ⟨program, y, f, before, v, hprogram, hy, hdeed, hinitializer⟩ := hcompile
  obtain ⟨A, B, hsplit⟩ := List.append_of_mem (List.mem_of_getElem? hy)
  obtain ⟨-, -, hgraph, hinitializers⟩ := class_graph_sound [] [⟨⟨20, 20, 20, 20⟩, program⟩]
  obtain ⟨-, hbound⟩ := hinitializers (List.forall_mem_singleton.mpr ⟨_, hprogram⟩)
  exact ⟨program, A, y, B, f, before, v, hprogram, hsplit, hdeed, hinitializer,
    (hbound A y B hsplit).2 f _ before v hdeed hinitializer, (hgraph A y B hsplit).1⟩

end Job

end Lox

import Lox.Machine.Lookup
import Lox.Proofs.Machine.Steps
import Lox.Proofs.Machine.WidenedStore

/-!
# Running code beside additional frames

Two machines correspond if their frames do and everything else is alike.  Code, and the code for a
place with one scope more, keep them in correspondence: each frame that one of them opens has a
counterpart that the other opens at the same moment.  Links are longer by one exactly where an
additional frame lies on the way, so both find the same bindings.

**Main definitions.**
* `Machine.Widened`: machines that correspond under a pairing.
* `Alongside`: code that keeps machines in correspondence.

**Results.**
* `Run.evaluate_widened`, `Run.execute_widened`: corresponding code does the same.
* `Run.newFrame_added`: the second machine may open an additional frame.
-/

namespace Lox

section Definitions

variable (W : Pairing)

/-- Machines that correspond: they show the same, and the second has some frames more. -/
structure Machine.Widened (m m' : Machine) : Prop where
  store : m.store.Widened W m'.store
  root : W.Pairs globalFrame globalFrame none
  instances : m'.fields.size = m.fields.size
  fields : ∀ id : InstanceId,
    Option.Rel (List.Forall₂ (BindingWidened W)) m.fields[id]? m'.fields[id]?
  serial : m'.serial = m.serial
  clock : m'.clock = m.clock
  printed : m'.printed = m.printed

/-- The same interruption; links that lead too far may be of different lengths. -/
inductive Interrupt.Widened : Interrupt → Interrupt → Prop
  | same (interrupt : Interrupt) : Interrupt.Widened interrupt interrupt
  | shortChain (distance distance' : Nat) :
      Interrupt.Widened (.shortChain distance) (.shortChain distance')

/-- What code leads to on two machines: more frames may be there afterwards. -/
inductive ResultWidened {α β : Type} (R : Pairing → α → β → Prop) :
    EStateM.Result Interrupt Machine α → EStateM.Result Interrupt Machine β → Prop
  | ok
      {W' : Pairing}
      {a : α}
      {b : β}
      {m m' : Machine}
      (hW : W <+: W')
      (hR : R W' a b)
      (hm : m.Widened W' m') :
      ResultWidened R (.ok a m) (.ok b m')
  | error
      {W' : Pairing}
      {interrupt interrupt' : Interrupt}
      {m m' : Machine}
      (hW : W <+: W')
      (hinterrupt : interrupt.Widened interrupt')
      (hm : m.Widened W' m') :
      ResultWidened R (.error interrupt m) (.error interrupt' m')

/-- Code that keeps machines in correspondence and yields related results. -/
def Alongside {α β : Type} (R : Pairing → α → β → Prop) (x : Run α) (y : Run β) : Prop :=
  ∀ m m' : Machine, m.Widened W m' → ResultWidened W R (x m) (y m')

/-- A value that may have been returned. -/
abbrev Completion.Widened : Completion → Completion → Prop :=
  Option.Rel (Value.Widened W)

end Definitions

section Alongside

variable
  {W W' : Pairing}
  {α β γ δ : Type}
  {R : Pairing → α → β → Prop}
  {S : Pairing → γ → δ → Prop}

theorem ResultWidened.before
    {r : EStateM.Result Interrupt Machine α}
    {r' : EStateM.Result Interrupt Machine β}
    (h : ResultWidened W' R r r')
    (hW : W <+: W') :
    ResultWidened W R r r' := by
  cases h with
  | ok hgrowth hR hm => exact .ok (hW.trans hgrowth) hR hm
  | error hgrowth hinterrupt hm => exact .error (hW.trans hgrowth) hinterrupt hm

namespace Alongside

/-- A result without code is kept beside a related one. -/
theorem pure
    {a : α}
    {b : β}
    (h : R W a b) :
    Alongside W R (Pure.pure a) (Pure.pure b) :=
  fun _ _ hm => .ok (List.prefix_refl W) h hm

/-- Code after code. -/
theorem bind
    {x : Run α}
    {y : Run β}
    {f : α → Run γ}
    {g : β → Run δ}
    (hx : Alongside W R x y)
    (hf : ∀ W' a b, W <+: W' → R W' a b → Alongside W' S (f a) (g b)) :
    Alongside W S (x >>= f) (y >>= g) := by
  intro m m' hm
  have hfirst := hx m m' hm
  change ResultWidened W S (EStateM.bind x f m) (EStateM.bind y g m')
  unfold EStateM.bind
  generalize x m = r at hfirst ⊢
  generalize y m' = r' at hfirst ⊢
  cases hfirst with
  | ok hW hR hm => exact (hf _ _ _ hW hR _ _ hm).before hW
  | error hW hinterrupt hm => exact .error hW hinterrupt hm

/-- What is made of related results is related. -/
theorem map
    {x : Run α}
    {y : Run β}
    {f : α → γ}
    {g : β → δ}
    (hx : Alongside W R x y)
    (hf : ∀ W' a b, R W' a b → S W' (f a) (g b)) :
    Alongside W S (f <$> x) (g <$> y) :=
  hx.bind fun W' a b _ h => .pure (hf W' a b h)

/-- Results that are related are related in a weaker way. -/
theorem imp
    {R' : Pairing → α → β → Prop}
    {x : Run α}
    {y : Run β}
    (hx : Alongside W R x y)
    (h : ∀ W' a b, R W' a b → R' W' a b) :
    Alongside W R' x y := by
  intro m m' hm
  have hresult := hx m m' hm
  generalize x m = r at hresult ⊢
  generalize y m' = r' at hresult ⊢
  cases hresult with
  | ok hW hR hm => exact .ok hW (h _ _ _ hR) hm
  | error hW hinterrupt hm => exact .error hW hinterrupt hm

/-- Code that is interrupted is so beside itself. -/
theorem stop (interrupt : Interrupt) : Alongside W R (throw interrupt) (throw interrupt) :=
  fun _ _ hm => .error (List.prefix_refl W) (.same interrupt) hm

/-- Errors are the same if their tokens are on the same line. -/
theorem fail
    (fault : RuntimeFault)
    {place place' : Token}
    (hline : place'.line = place.line) :
    Alongside W R (Run.fail fault place) (Run.fail fault place') := by
  unfold Run.fail
  rw [hline]
  exact .stop _

end Alongside

end Alongside

namespace Run

variable
  {W : Pairing}
  {frame frame' : FrameId}
  {gap : Gap}

/-- The result of an operator. -/
theorem ofExcept_widened
    {r r' : Except RuntimeFault Value}
    (h : r' = r ∧ Value.Widened.Plain W r)
    (place : Token) :
    Alongside W Value.Widened (ofExcept place r) (ofExcept place r') := by
  obtain ⟨rfl, hplain⟩ := h
  cases r' with
  | ok v => exact .pure (hplain v rfl)
  | error fault => exact .fail fault rfl

/-- A search that succeeds in both stores or fails in both. -/
theorem ofAccess_widened
    (search search' : Store → Except AccessFault (FrameId × Slot))
    (h : ∀ m m' : Machine, m.Widened W m' → AccessWidened W (search m.store) (search' m'.store))
    (place : Token) :
    Alongside W FoundWidened (do ofAccess place (search (← get).store))
      (do ofAccess place (search' (← get).store)) := by
  intro m m' hm
  change ResultWidened W FoundWidened (ofAccess place (search m.store) m)
    (ofAccess place (search' m'.store) m')
  have haccess := h m m' hm
  generalize search m.store = r at haccess ⊢
  generalize search' m'.store = r' at haccess ⊢
  have hsame := List.prefix_refl W
  cases haccess with
  | ok hfound => exact .ok hsame hfound hm
  | undefined name => exact .error hsame (.same _) hm
  | shortChain distance distance' => exact .error hsame (.shortChain distance distance') hm

/-- A name is found at the same slot, at a distance that counts the frame added. -/
theorem findAt_widened
    (hframe : W.Pairs frame frame' gap)
    (distance : Nat)
    (name : String)
    (place : Token) :
    Alongside W FoundWidened (findAt frame distance name place)
      (findAt frame' (gap.shift distance) name place) :=
  ofAccess_widened (·.findAt frame distance name) (·.findAt frame' (gap.shift distance) name)
    (fun _ _ hm => hm.store.findAt hframe distance name) place

/-- A link, and the link that counts the additional frame, lead to slots that correspond. -/
theorem locate_widened
    (hframe : W.Pairs frame frame' gap)
    (name : Token)
    (link : Link) :
    Alongside W FoundWidened (locate frame name link) (locate frame' name (link.widened gap)) := by
  obtain ⟨depth, constantDepth⟩ := link
  cases depth with
  | none =>
      exact ofAccess_widened (·.find globalFrame name.lexeme) (·.find globalFrame name.lexeme)
        (fun _ _ hm => hm.store.find_global hm.root name.lexeme) name
  | some distance => exact findAt_widened hframe distance name.lexeme name

/-- To read a name yields related values. -/
theorem readName_widened
    (hframe : W.Pairs frame frame' gap)
    (name : Token)
    (link : Link) :
    Alongside W Value.Widened (readName frame name link)
      (readName frame' name (link.widened gap)) :=
  (locate_widened hframe name link).bind fun _ _ _ _ hfound => .pure hfound.choose_spec.2.2.value

/-- To read a name at a distance yields related values. -/
theorem getAt_widened
    (hframe : W.Pairs frame frame' gap)
    (distance : Nat)
    (name : String)
    (place : Token) :
    Alongside W Value.Widened (getAt frame distance name place)
      (getAt frame' (gap.shift distance) name place) :=
  (findAt_widened hframe distance name place).bind fun _ _ _ _ hfound =>
    .pure hfound.choose_spec.2.2.value

/-- Related slots can be given related values. -/
theorem update_widened
    {found found' : FrameId × Slot}
    (hfound : FoundWidened W found found')
    {v v' : Value}
    (hv : v.Widened W v') :
    Alongside W (fun _ _ _ => True) (update found.1 found.2 v) (update found'.1 found'.2 v') :=
  fun _ _ hm => .ok (List.prefix_refl W) trivial { hm with store := hm.store.update hfound hv }

/-- To assign to a name keeps machines beside each other. -/
theorem assignName_widened
    (hframe : W.Pairs frame frame' gap)
    (target : Reference)
    {v v' : Value}
    (hv : v.Widened W v') :
    Alongside W (fun _ _ _ => True) (assignName frame target v)
      (assignName frame' (target.widened gap) v') :=
  (locate_widened hframe target.name target.link).bind fun _ _ _ hW hfound =>
    update_widened hfound (hv.mono hW)

/-- Constants are marked as such in both. -/
theorem isConstant_widened (target : Reference) (gap : Gap) :
    Alongside W (fun _ b b' => b' = b) (isConstant target) (isConstant (target.widened gap)) := by
  obtain ⟨name, ⟨depth, constantDepth⟩⟩ := target
  cases constantDepth with
  | some d => exact fun _ _ hm => .ok (List.prefix_refl W) rfl hm
  | none =>
      cases depth with
      | some d => exact fun _ _ hm => .ok (List.prefix_refl W) rfl hm
      | none =>
          exact fun _ _ hm =>
            .ok (List.prefix_refl W) (hm.store.isConstant_global hm.root name.lexeme) hm

/-- Fields stay related when frames are added. -/
theorem fields_mono
    {W' : Pairing}
    {m m' : Machine}
    (hm : m.Widened W m')
    (hW : W <+: W')
    (id : InstanceId) :
    Option.Rel (List.Forall₂ (BindingWidened W')) m.fields[id]? m'.fields[id]? := by
  have hfields := hm.fields id
  generalize m.fields[id]? = fields at hfields ⊢
  generalize m'.fields[id]? = fields' at hfields ⊢
  cases hfields with
  | none => exact .none
  | some hfields => exact .some (hfields.imp fun _ _ hb => hb.mono hW)

/-- New frames in frames beside each other are beside each other. -/
theorem newFrame_widened
    (hframe : W.Pairs frame frame' gap)
    {bindings bindings' : List (String × Value)}
    (hbindings : List.Forall₂ (BindingWidened W) bindings bindings') :
    Alongside W (fun W' inner inner' => W'.Pairs inner inner' gap.inner) (newFrame frame bindings)
      (newFrame frame' bindings') := by
  intro m m' hm
  have hgrowth : W <+: W ++ [(m.store.nextId, gap.inner)] := List.prefix_append _ _
  have hinner : Pairing.Pairs (W ++ [(m.store.nextId, gap.inner)]) m.store.nextId m'.store.nextId
      gap.inner :=
    Pairing.pairs_concat.mpr (.inr ⟨hm.store.size, rfl, rfl⟩)
  have hstore := (hm.store.extend hframe).defineAll hinner gap.inner_ne_zero
    (hbindings.imp fun _ _ hb => hb.mono hgrowth)
  have hfields := fields_mono hm hgrowth
  exact .ok hgrowth hinner
    { hm with store := hstore, root := hm.root.mono hgrowth, fields := hfields }

/-- A frame that only the second machine opens. -/
theorem newFrame_added
    (hframe : W.Pairs frame frame' none)
    {α : Type}
    {R : Pairing → α → α → Prop}
    {x : Run α}
    {y : FrameId → Run α}
    (h : ∀ (W' : Pairing) (inner' : FrameId), W <+: W' → W'.Pairs frame inner' (some 0) →
      Alongside W' R x (y inner')) :
    Alongside W R x (newFrame frame' [] >>= y) := by
  intro m m' hm
  have hgrowth : W <+: W ++ [(frame, some 0)] := List.prefix_append _ _
  have hinner : Pairing.Pairs (W ++ [(frame, some 0)]) frame m'.store.nextId (some 0) :=
    Pairing.pairs_concat.mpr (.inr ⟨hm.store.size, rfl, rfl⟩)
  have hfields := fields_mono hm hgrowth
  refine (h _ _ hgrowth hinner m
    { m' with store := m'.store.extend (some frame') } ?_).before hgrowth
  exact
    { hm with
      store := hm.store.extendAdded hframe
      root := hm.root.mono hgrowth
      fields := hfields }

/-- Classes get the same serial numbers. -/
theorem newSerial_widened : Alongside W (fun _ n n' => n' = n) newSerial newSerial :=
  fun _ _ hm => .ok (List.prefix_refl W) hm.serial
    { hm with serial := congrArg (· + 1) hm.serial }

/-- A name is defined in both frames, if none is added right there. -/
theorem define_widened
    (hframe : W.Pairs frame frame' gap)
    (hgap : gap ≠ some 0)
    (name : String)
    {v v' : Value}
    (hv : v.Widened W v')
    (constant : Bool) :
    Alongside W (fun _ _ _ => True) (define frame name v constant)
      (define frame' name v' constant) :=
  fun _ _ hm => .ok (List.prefix_refl W) trivial
    { hm with store := hm.store.define hframe hgap name hv constant }

/-- The same text is printed by both. -/
theorem print_widened (text : String) :
    Alongside W (fun _ _ _ => True) (print text) (print text) :=
  fun _ _ hm => .ok (List.prefix_refl W) trivial
    { hm with printed := congrArg (·.push text) hm.printed }

/-- Both clocks show the same time. -/
theorem readClock_widened : Alongside W (fun _ x x' => x' = x) readClock readClock :=
  fun _ _ hm => .ok (List.prefix_refl W) (congrArg (fun c => (nextReading c).1) hm.clock)
    { hm with clock := congrArg (fun c => (nextReading c).2) hm.clock }

/-- New instances of related classes have the same place. -/
theorem newInstance_widened
    {o o' : ClassObject}
    (ho : o.Widened W o') :
    Alongside W (fun W' made made' => made'.1 = made.1 ∧ made.2.Widened W' made'.2)
      (newInstance o) (newInstance o') := by
  intro m m' hm
  refine .ok (List.prefix_refl W) ⟨hm.instances, ho⟩ { hm with instances := ?_, fields := ?_ }
  · simp only [Array.size_push, hm.instances]
  · intro id
    simp only [Array.getElem?_push, hm.instances]
    split
    · exact .some .nil
    · exact hm.fields id

/-- Fields of related instances are looked up to related values. -/
theorem lookup_widened
    {fields fields' : Fields}
    (h : List.Forall₂ (BindingWidened W) fields fields')
    (name : String) :
    Option.Rel (Value.Widened W) (fields.lookup name) (fields'.lookup name) := by
  induction h with
  | nil => exact .none
  | @cons b b' rest rest' hb _ ih =>
      have hkey : b'.1 = b.1 := hb.1
      simp only [List.lookup, hkey]
      cases name == b.1 with
      | true => exact .some hb.2
      | false => exact ih

/-- Related fields stay related when one of them is set. -/
theorem putField_widened
    {fields fields' : Fields}
    (h : List.Forall₂ (BindingWidened W) fields fields')
    (name : String)
    {v v' : Value}
    (hv : v.Widened W v') :
    List.Forall₂ (BindingWidened W) (putField name v fields) (putField name v' fields') := by
  induction h with
  | nil => exact .cons ⟨rfl, hv⟩ .nil
  | @cons b b' rest rest' hb hrest ih =>
      have hkey : b'.1 = b.1 := hb.1
      simp only [putField, hkey]
      split
      · exact .cons ⟨rfl, hv⟩ hrest
      · exact .cons hb ih

/-- A field is read as related values. -/
theorem field?_widened (id : InstanceId) (name : String) :
    Alongside W (fun W => Option.Rel (Value.Widened W)) (field? id name) (field? id name) := by
  intro m m' hm
  refine .ok (List.prefix_refl W) ?_ hm
  have hfields := hm.fields id
  generalize m.fields[id]? = fields at hfields ⊢
  generalize m'.fields[id]? = fields' at hfields ⊢
  cases hfields with
  | none => exact .none
  | some hfields => exact lookup_widened hfields name

/-- A field is set to related values. -/
theorem setField_widened
    (id : InstanceId)
    (name : String)
    {v v' : Value}
    (hv : v.Widened W v') :
    Alongside W (fun _ _ _ => True) (setField id name v) (setField id name v') := by
  intro m m' hm
  refine .ok (List.prefix_refl W) trivial { hm with instances := ?_, fields := ?_ }
  · simp only [Array.size_modify, hm.instances]
  · intro i
    have hfields := hm.fields i
    simp only [Array.getElem?_modify]
    generalize m.fields[i]? = fields at hfields ⊢
    generalize m'.fields[i]? = fields' at hfields ⊢
    split
    · cases hfields with
      | none => exact .none
      | some hfields => exact .some (putField_widened hfields name hv)
    · exact hfields

end Run

namespace Code

/-- The evaluation of a corresponding expression does the same. -/
def EvaluatesAlongside (f : FrameId → Expr → Run Value) : Prop :=
  ∀ ⦃W : Pairing⦄ ⦃frame frame' : FrameId⦄ ⦃gap : Gap⦄ ⦃e e' : Expr⦄, W.Pairs frame frame' gap →
    e.Widened gap e' → Alongside W Value.Widened (f frame e) (f frame' e')

/-- The execution of a corresponding statement does the same. -/
def ExecutesAlongside (f : FrameId → Stmt → Run Completion) : Prop :=
  ∀ ⦃W : Pairing⦄ ⦃frame frame' : FrameId⦄ ⦃gap : Gap⦄ ⦃s s' : Stmt⦄, W.Pairs frame frame' gap →
    s.Widened gap s' → Alongside W Completion.Widened (f frame s) (f frame' s')

/-- The same of the statements of a body. -/
def RunsAlongside (f : FrameId → List Stmt → Run Completion) : Prop :=
  ∀ ⦃W : Pairing⦄ ⦃frame frame' : FrameId⦄ ⦃gap : Gap⦄ ⦃body body' : List Stmt⦄,
    W.Pairs frame frame' gap → Stmt.WidenedAll gap body body' →
      Alongside W Completion.Widened (f frame body) (f frame' body')

variable
  {W : Pairing}
  {frame frame' : FrameId}
  {gap : Gap}

/-- Bodies of statements that keep machines beside each other do so. -/
theorem untilReturn_widened
    {f : FrameId → Stmt → Run Completion}
    (h : ExecutesAlongside f) :
    RunsAlongside fun frame => untilReturn (f frame) := by
  intro W frame frame' gap body body' hframe hbody
  induction body generalizing W body' with
  | nil =>
      cases hbody
      exact .pure .none
  | cons s rest ih =>
      cases hbody with
      | cons hfirst hrest =>
          refine (h hframe hfirst).bind fun W' completion completion' hW hcompletion => ?_
          cases hcompletion with
          | none => exact ih (hframe.mono hW) hrest
          | some hv => exact .pure (.some hv)

/-- Statements at the top level. -/
theorem each_widened
    {f : FrameId → Stmt → Run Completion}
    (h : ExecutesAlongside f)
    (hframe : W.Pairs frame frame' gap)
    {program program' : List Stmt}
    (hprogram : Stmt.WidenedAll gap program program') :
    Alongside W (fun _ _ _ => True) (each (f frame) program) (each (f frame') program') := by
  induction program generalizing W program' with
  | nil =>
      cases hprogram
      exact .pure trivial
  | cons s rest ih =>
      cases hprogram with
      | cons hfirst hrest =>
          exact (h hframe hfirst).bind fun _ _ _ hW _ => ih (hframe.mono hW) hrest

/-- Several expressions yield related values. -/
theorem values_widened
    {f : FrameId → Expr → Run Value}
    (h : EvaluatesAlongside f)
    (hframe : W.Pairs frame frame' gap)
    {es es' : List Expr}
    (hes : List.Forall₂ (Expr.Widened gap) es es') :
    Alongside W (fun W => List.Forall₂ (Value.Widened W)) (values (f frame) es)
      (values (f frame') es') := by
  induction hes generalizing W with
  | nil => exact .pure .nil
  | cons he _ ih =>
      exact (h hframe he).bind fun _ _ _ hW hv => (ih (hframe.mono hW)).bind
        fun _ _ _ hW' hvs => .pure (.cons (hv.mono hW') hvs)

/-- An expression that may be absent yields related values. -/
theorem orNil_widened
    {f : FrameId → Expr → Run Value}
    (h : EvaluatesAlongside f)
    (hframe : W.Pairs frame frame' gap)
    {e e' : Option Expr}
    (he : Option.Rel (Expr.Widened gap) e e') :
    Alongside W Value.Widened (orNil (f frame) e) (orNil (f frame') e') := by
  cases he with
  | none => exact .pure .nil
  | some he => exact h hframe he

/-- Loops keep machines beside each other if condition and body do. -/
theorem repeating_widened
    {condition condition' : Run Value}
    {body body' : Run Completion}
    (hcondition : ∀ W', W <+: W' → Alongside W' Value.Widened condition condition')
    (hbody : ∀ W', W <+: W' → Alongside W' Completion.Widened body body')
    (rounds : Nat) :
    Alongside W Completion.Widened (repeating condition body rounds)
      (repeating condition' body' rounds) := by
  induction rounds generalizing W with
  | zero => exact .stop .unfinished
  | succ rounds ih =>
      refine (hcondition W (List.prefix_refl W)).bind fun W' v v' hW hv => ?_
      rw [hv.isTruthy]
      split
      · refine (hbody W' hW).bind fun W'' completion completion' hW' hcompletion => ?_
        cases hcompletion with
        | none =>
            exact ih (fun X hX => hcondition X ((hW.trans hW').trans hX))
              fun X hX => hbody X ((hW.trans hW').trans hX)
        | some hv => exact .pure (.some hv)
      · exact .pure .none

/-- Frames that are opened are beside each other, whatever they are opened for. -/
theorem openFrame_widened
    (opening opening' : Opening)
    (hframe : W.Pairs frame frame' gap)
    {bindings bindings' : List (String × Value)}
    (hbindings : List.Forall₂ (BindingWidened W) bindings bindings') :
    Alongside W (fun W' inner inner' => W'.Pairs inner inner' gap.inner)
      (openFrame opening frame bindings) (openFrame opening' frame' bindings') :=
  Run.newFrame_widened hframe hbindings

/-- The frame for one value. -/
theorem openFrame_widened_single
    (opening opening' : Opening)
    (hframe : W.Pairs frame frame' gap)
    (name : String)
    {v v' : Value}
    (hv : v.Widened W v') :
    Alongside W (fun W' inner inner' => W'.Pairs inner inner' gap.inner)
      (openFrame opening frame [(name, v)]) (openFrame opening' frame' [(name, v')]) :=
  openFrame_widened opening opening' hframe (.cons ⟨rfl, hv⟩ .nil)

/-- Related methods are bound to the same instance. -/
theorem bindMethod_widened
    {method method' : Method}
    (hmethod : method.Widened W method')
    (id : InstanceId)
    {o o' : ClassObject}
    (ho : o.Widened W o') :
    Alongside W Closure.Widened (bindMethod method id o) (bindMethod method' id o') := by
  obtain @⟨_, _, _, _, gap, hframe, hdeclaration⟩ := hmethod
  refine (openFrame_widened_single _ _ hframe "this" (.object id ho)).bind
    fun W' inner inner' hW hinner => ?_
  refine Run.newSerial_widened.bind ?_
  rintro W'' serial _ hW' rfl
  rw [hdeclaration.isInitializer]
  exact .pure (.mk (hinner.mono hW') (fun _ => gap.inner_ne_zero) hdeclaration)

/-- Names of parameters with arguments that correspond. -/
theorem bindingWidened_zip
    (names : List String)
    {arguments arguments' : List Value}
    (harguments : List.Forall₂ (Value.Widened W) arguments arguments') :
    List.Forall₂ (BindingWidened W) (names.zip arguments) (names.zip arguments') := by
  induction harguments generalizing names with
  | nil => simp
  | cons hv _ ih =>
      cases names with
      | nil => exact .nil
      | cons name names => exact .cons ⟨rfl, hv⟩ (ih names)

/-- Calls of related functions yield related values. -/
theorem callFunction_widened
    {f : FrameId → List Stmt → Run Completion}
    (h : RunsAlongside f)
    {closure closure' : Closure}
    (hclosure : closure.Widened W closure')
    {arguments arguments' : List Value}
    (harguments : List.Forall₂ (Value.Widened W) arguments arguments') :
    Alongside W Value.Widened (callFunction f closure arguments)
      (callFunction f closure' arguments') := by
  obtain ⟨hframe, hinitializer, hdeclaration⟩ := hclosure
  obtain ⟨name, parameters, hbody⟩ := hdeclaration
  refine (openFrame_widened _ _ hframe (bindingWidened_zip _ harguments)).bind
    fun W' inner inner' hW hinner => ?_
  refine (h hinner hbody).bind fun W'' completion completion' hW' hcompletion => ?_
  dsimp only
  split
  · next hinit =>
      have hthis := Run.getAt_widened ((hframe.mono hW).mono hW') 0 "this" name
      rwa [Gap.shift_zero_of_ne (hinitializer hinit)] at hthis
  · cases hcompletion with
    | none => exact .pure .nil
    | some hv => exact .pure hv

/-- Calls of related classes yield related instances. -/
theorem instantiate_widened
    {f : FrameId → List Stmt → Run Completion}
    (h : RunsAlongside f)
    {o o' : ClassObject}
    (ho : o.Widened W o')
    {arguments arguments' : List Value}
    (harguments : List.Forall₂ (Value.Widened W) arguments arguments') :
    Alongside W Value.Widened (instantiate f o arguments) (instantiate f o' arguments') := by
  refine (Run.newInstance_widened ho).bind ?_
  rintro W' ⟨_, made⟩ ⟨id, made'⟩ hW ⟨rfl, hmade⟩
  dsimp only at hmade
  have hmethod := hmade.method? initializerName
  dsimp only at hmethod ⊢
  generalize made.method? initializerName = found at hmethod ⊢
  generalize made'.method? initializerName = found' at hmethod ⊢
  cases hmethod with
  | none => exact .pure (.object id hmade)
  | some hmethod =>
      refine (bindMethod_widened hmethod id hmade).bind fun W'' _ _ hW' hinitializer => ?_
      have harguments' := harguments.imp fun _ _ hv => hv.mono (hW.trans hW')
      exact (callFunction_widened h hinitializer harguments').bind fun _ _ _ hW'' _ =>
        .pure (.object id (hmade.mono (hW'.trans hW'')))

/-- Calls of related values yield related values. -/
theorem call_widened
    {f : FrameId → List Stmt → Run Completion}
    (h : RunsAlongside f)
    {callee callee' : Value}
    (hcallee : callee.Widened W callee')
    {arguments arguments' : List Value}
    (harguments : List.Forall₂ (Value.Widened W) arguments arguments')
    (place : Token) :
    Alongside W Value.Widened (call f callee arguments place)
      (call f callee' arguments' place) := by
  unfold call
  rw [hcallee.arity?, ← harguments.length_eq]
  cases callee.arity? with
  | none => exact .fail _ rfl
  | some arity =>
      dsimp only
      split
      · cases hcallee with
        | native function =>
            cases function
            exact Run.readClock_widened.bind fun _ _ _ _ hx => .pure (hx ▸ .number _)
        | function hf => exact callFunction_widened h hf harguments
        | classObject ho => exact instantiate_widened h ho harguments
        | _ => exact .fail _ rfl
      · exact .fail _ rfl

/-- Properties of related values are related. -/
theorem getProperty_widened
    {v v' : Value}
    (hv : v.Widened W v')
    (name : Token) :
    Alongside W Value.Widened (getProperty v name) (getProperty v' name) := by
  cases hv with
  | @object id o o' ho =>
      refine (Run.field?_widened id name.lexeme).bind fun W' value value' hW hvalue => ?_
      cases hvalue with
      | some hvalue => exact .pure hvalue
      | none =>
          have hmethod := ho.method? name.lexeme
          dsimp only
          generalize o.method? name.lexeme = found at hmethod ⊢
          generalize o'.method? name.lexeme = found' at hmethod ⊢
          cases hmethod with
          | none => exact .fail _ rfl
          | some hmethod =>
              exact (bindMethod_widened (hmethod.mono hW) id (ho.mono hW)).map
                fun _ _ _ hclosure => .function hclosure
  | _ => exact .fail _ rfl

/-- Methods of related superclasses are related. -/
theorem getInherited_widened
    (hframe : W.Pairs frame frame' gap)
    (keyword method : Token)
    {link : Link}
    (hlink : ∀ distance ∈ link.depth, gap ≠ some distance) :
    Alongside W Value.Widened (getInherited frame keyword method link)
      (getInherited frame' keyword method (link.widened gap)) := by
  obtain ⟨depth, constantDepth⟩ := link
  cases depth with
  | none => exact .fail _ rfl
  | some distance =>
      refine (Run.getAt_widened hframe distance "super" keyword).bind
        fun W' parent parent' hW hparent => ?_
      cases hparent with
      | @classObject parent parent' hparent =>
          have hthis := Run.getAt_widened (hframe.mono hW) (distance - 1) "this" keyword
          rw [← Gap.shift_sub_one (hlink distance rfl)] at hthis
          refine hthis.bind fun W'' receiver receiver' hW' hreceiver => ?_
          cases hreceiver with
          | object id ho =>
              have hmethod := (hparent.mono hW').method? method.lexeme
              dsimp only
              generalize parent.method? method.lexeme = found at hmethod ⊢
              generalize parent'.method? method.lexeme = found' at hmethod ⊢
              cases hmethod with
              | none => exact .fail _ rfl
              | some hmethod =>
                  exact (bindMethod_widened hmethod id ho).map fun _ _ _ hclosure =>
                    .function hclosure
          | _ => exact .fail _ rfl
      | _ => exact .fail _ rfl

/-- The line on which a superclass is reported stays. -/
theorem line_name?_widened {parent parent' : Expr} (h : parent.Widened gap parent') (name : Token) :
    (parent'.name?.getD name).line = (parent.name?.getD name).line := by
  cases h <;> rfl

/-- Superclasses are related. -/
theorem superclassOf_widened
    {f : FrameId → Expr → Run Value}
    (h : EvaluatesAlongside f)
    (hframe : W.Pairs frame frame' gap)
    (name : Token)
    {parent parent' : Expr}
    (hparent : parent.Widened gap parent') :
    Alongside W (fun W o o' => Option.Rel (ClassObject.Widened W) o o' ∧ o.isSome = true)
      (superclassOf (f frame) name (some parent))
        (superclassOf (f frame') name (some parent')) := by
  refine (h hframe hparent).bind fun W' v v' hW hv => ?_
  cases hv with
  | classObject ho => exact .pure ⟨.some ho, rfl⟩
  | _ => exact .fail _ (line_name?_widened hparent name)

/-- The gap among the methods of a class. -/
def gapOfMethods (isDerived : Bool) (gap : Gap) : Gap :=
  if isDerived then gap.inner.inner else gap.inner

/-- The frames in which the methods of a class are made. -/
theorem methodFrame_widened
    (hframe : W.Pairs frame frame' gap)
    (name : Token)
    (methods methods' : List FunctionDecl)
    {o o' : Option ClassObject}
    (ho : Option.Rel (ClassObject.Widened W) o o') :
    Alongside W
      (fun W' inner inner' => ∃ around, W'.Pairs inner inner' around
        ∧ gapOfMethods o.isSome gap = around.inner)
      (methodFrame frame name methods o) (methodFrame frame' name methods' o') := by
  cases ho with
  | none => exact .pure ⟨gap, hframe, rfl⟩
  | some ho =>
      exact (openFrame_widened_single _ _ hframe "super" (.classObject ho)).imp
        fun _ _ _ hinner => ⟨gap.inner, hinner, rfl⟩

/-- Superclasses stay related when frames are added. -/
theorem parentWidened_mono
    {W' : Pairing}
    {o o' : Option ClassObject}
    (h : Option.Rel (ClassObject.Widened W) o o')
    (hW : W <+: W') :
    Option.Rel (ClassObject.Widened W') o o' := by
  cases h with
  | none => exact .none
  | some ho => exact .some (ho.mono hW)

/-- Related classes are declared. -/
theorem declareClass_widened
    (hframe : W.Pairs frame frame' gap)
    (hgap : gap ≠ some 0)
    (name : Token)
    {o o' : Option ClassObject}
    (ho : Option.Rel (ClassObject.Widened W) o o')
    {methods methods' : List FunctionDecl}
    (hmethods : FunctionDecl.WidenedAll (gapOfMethods o.isSome gap) methods methods') :
    Alongside W (fun _ _ _ => True) (declareClass frame name o methods)
      (declareClass frame' name o' methods') := by
  intro m m' hm
  rw [declareClass_eq (hm.store.there hframe),
    declareClass_eq (hm.store.size.symm ▸ hframe.lt_length)]
  revert m m'
  refine (Run.define_widened hframe hgap name.lexeme .nil false).bind fun W₁ _ _ hW₁ _ => ?_
  refine (methodFrame_widened (hframe.mono hW₁) name methods methods'
    (parentWidened_mono ho hW₁)).bind ?_
  rintro W₂ inner inner' hW₂ ⟨around, haround, hsame⟩
  refine Run.newSerial_widened.bind ?_
  rintro W₃ serial _ hW₃ rfl
  have hW : W <+: W₃ := (hW₁.trans hW₂).trans hW₃
  rw [hsame] at hmethods
  exact Run.define_widened (hframe.mono hW) hgap name.lexeme
    (.classObject (ClassLayer.Widened.extending (.mk (haround.mono hW₃) hmethods)
      (parentWidened_mono ho hW))) false

/-- Related functions are declared. -/
theorem declareFunction_widened
    (hframe : W.Pairs frame frame' gap)
    (hgap : gap ≠ some 0)
    {declaration declaration' : FunctionDecl}
    (hdeclaration : declaration.Widened gap declaration') :
    Alongside W (fun _ _ _ => True) (declareFunction frame declaration)
      (declareFunction frame' declaration') := by
  refine Run.newSerial_widened.bind ?_
  rintro W' _ serial hW rfl
  have hclosure : Closure.Widened W' ⟨serial, declaration, frame, false⟩
      ⟨serial, declaration', frame', false⟩ :=
    .mk (hframe.mono hW) nofun hdeclaration
  have h := Run.define_widened (hframe.mono hW) hgap declaration.name.lexeme
    (.function hclosure) false
  rw [bindDeclared, bindDeclared, hdeclaration.name]
  exact h

/-- Assignments yield related values. -/
theorem assign_widened
    (hframe : W.Pairs frame frame' gap)
    (target : Reference)
    {x y : Run Value}
    (h : ∀ W', W <+: W' → Alongside W' Value.Widened x y) :
    Alongside W Value.Widened (assign frame target x) (assign frame' (target.widened gap) y) := by
  refine (Run.isConstant_widened target gap).bind ?_
  rintro W₁ constant _ hW₁ rfl
  split
  · exact .fail _ rfl
  · refine (h W₁ hW₁).bind fun W₂ v v' hW₂ hv => ?_
    exact (Run.assignName_widened (hframe.mono (hW₁.trans hW₂)) target hv).bind
      fun _ _ _ hW₃ _ => .pure (hv.mono hW₃)

/-- Properties are set to related values. -/
theorem setProperty_widened
    {x y : Run Value}
    (h : Alongside W Value.Widened x y)
    {v v' : Value}
    (hv : v.Widened W v')
    (name : Token) :
    Alongside W Value.Widened (setProperty v name x) (setProperty v' name y) := by
  cases hv with
  | object id _ =>
      exact h.bind fun _ _ _ _ hw => (Run.setField_widened id name.lexeme hw).bind
        fun _ _ _ hW _ => .pure (hw.mono hW)
  | _ => exact .fail _ rfl

end Code

namespace Run

mutual

/-- Corresponding expressions are evaluated alike. -/
theorem evaluateBy_widened (rounds room : Nat) :
    Code.EvaluatesAlongside (evaluateBy id rounds room) := by
  intro W frame frame' gap e e' hframe he
  match room with
  | 0 => exact .stop _
  | room + 1 =>
      have ihE := evaluateBy_widened rounds room
      have ihS := executeBy_widened rounds room
      cases he with
      | literal value => exact .pure (.of_literal value)
      | grouping hinner => exact ihE hframe hinner
      | unary operator hoperand =>
          exact (ihE hframe hoperand).bind fun _ _ _ _ hv =>
            ofExcept_widened (hv.unary operator) operator
      | binary operator hleft hright =>
          exact (ihE hframe hleft).bind fun _ _ _ hW hv => (ihE (hframe.mono hW) hright).bind
            fun _ _ _ hW' hw => ofExcept_widened ((hv.mono hW').binary operator hw) operator
      | logical operator hleft hright =>
          refine (ihE hframe hleft).bind fun W' v v' hW hv => ?_
          rw [hv.decides]
          split
          · exact .pure hv
          · exact ihE (hframe.mono hW) hright
      | read target => exact readName_widened hframe target.name target.link
      | readConstant target => exact readName_widened hframe target.name target.link
      | assign target hvalue =>
          exact Code.assign_widened hframe target fun _ hW => ihE (hframe.mono hW) hvalue
      | call closing hcallee harguments =>
          refine (ihE hframe hcallee).bind fun W₁ f f' hW₁ hf => ?_
          refine (Code.values_widened ihE (hframe.mono hW₁) harguments).bind
            fun W₂ vs vs' hW₂ hvs => ?_
          exact Code.call_widened (Code.untilReturn_widened ihS) (hf.mono hW₂) hvs closing
      | get name hobject =>
          exact (ihE hframe hobject).bind fun _ _ _ _ hv => Code.getProperty_widened hv name
      | set name hobject hvalue =>
          exact (ihE hframe hobject).bind fun _ _ _ hW hv =>
            Code.setProperty_widened (ihE (hframe.mono hW) hvalue) hv name
      | this keyword link => exact readName_widened hframe keyword link
      | super keyword method hlink => exact Code.getInherited_widened hframe keyword method hlink

/-- Corresponding statements are executed alike. -/
theorem executeBy_widened (rounds room : Nat) :
    Code.ExecutesAlongside (executeBy id rounds room) := by
  intro W frame frame' gap s s' hframe hs
  match room with
  | 0 => exact .stop _
  | room + 1 =>
      have ihE := evaluateBy_widened rounds room
      have ihS := executeBy_widened rounds room
      cases hs with
      | block hbody =>
          exact (Code.openFrame_widened _ _ hframe .nil).bind fun _ _ _ _ hinner =>
            Code.untilReturn_widened ihS hinner hbody
      | funDecl hgap hf =>
          exact (Code.declareFunction_widened hframe hgap hf).bind fun _ _ _ _ _ => .pure .none
      | classDecl name hgap hmethods =>
          exact (Code.declareClass_widened hframe hgap name .none hmethods).bind
            fun _ _ _ _ _ => .pure .none
      | subclassDecl name hgap hparent hmethods =>
          refine (Code.superclassOf_widened ihE hframe name hparent).bind ?_
          rintro W' o o' hW ⟨ho, hsome⟩
          refine (Code.declareClass_widened (hframe.mono hW) hgap name ho ?_).bind
            fun _ _ _ _ _ => .pure .none
          rw [hsome]
          exact hmethods
      | varDecl name hgap hinitializer =>
          exact (Code.orNil_widened ihE hframe hinitializer).bind fun _ _ _ hW hv =>
            (define_widened (hframe.mono hW) hgap name.lexeme hv false).bind
              fun _ _ _ _ _ => .pure .none
      | constDecl name hgap hinitializer =>
          exact (Code.orNil_widened ihE hframe hinitializer).bind fun _ _ _ hW hv =>
            (define_widened (hframe.mono hW) hgap name.lexeme hv true).bind
              fun _ _ _ _ _ => .pure .none
      | exprStmt he => exact (ihE hframe he).bind fun _ _ _ _ _ => .pure .none
      | ifStmt hcondition hthen =>
          refine (ihE hframe hcondition).bind fun W' v v' hW hv => ?_
          rw [hv.isTruthy]
          split
          · exact ihS (hframe.mono hW) hthen
          · exact .pure .none
      | ifElse hcondition hthen helse =>
          refine (ihE hframe hcondition).bind fun W' v v' hW hv => ?_
          rw [hv.isTruthy]
          split
          · exact ihS (hframe.mono hW) hthen
          · exact ihS (hframe.mono hW) helse
      | printStmt he =>
          refine (ihE hframe he).bind fun W' v v' hW hv => ?_
          rw [hv.text]
          exact (print_widened v.text).bind fun _ _ _ _ _ => .pure .none
      | returnStmt keyword hvalue =>
          exact (Code.orNil_widened ihE hframe hvalue).map fun _ _ _ hv => .some hv
      | whileStmt hcondition hbody =>
          exact Code.repeating_widened (fun _ hW => ihE (hframe.mono hW) hcondition)
            (fun _ hW => ihS (hframe.mono hW) hbody) rounds

end

/-- Corresponding expressions are evaluated alike. -/
theorem evaluate_widened (rounds room : Nat) : Code.EvaluatesAlongside (evaluate rounds room) := by
  intro W frame frame' gap e e' hframe he
  have h := evaluateBy_widened rounds room hframe he
  rwa [evaluateBy_id, evaluateBy_id] at h

/-- Corresponding statements are executed alike. -/
theorem execute_widened (rounds room : Nat) : Code.ExecutesAlongside (execute rounds room) := by
  intro W frame frame' gap s s' hframe hs
  have h := executeBy_widened rounds room hframe hs
  rwa [executeBy_id, executeBy_id] at h

end Run

end Lox

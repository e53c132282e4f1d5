import Lox.Machine.Lookup
import Lox.Proofs.Machine.RenamedStore
import Lox.Proofs.Machine.Steps

/-!
# Running renamed programs

Two machines correspond if their frames do and everything else is alike.  Code and renamed code keep
them in correspondence: each frame that one of them opens has a counterpart that the other opens at
the same moment, marked if the scope is the one in which the name is replaced.  Every lookup finds
corresponding slots, and what is printed does not depend on names of variables.

**Main definitions.**
* `Machine.Renamed`: machines that correspond under a marking.
* `Corresponds`: code that keeps machines in correspondence.

**Results.**
* `Run.evaluateBy_renamed`, `Run.executeBy_renamed`: renamed code does what the code does.
-/

namespace Lox

section Definitions

variable (ρ : Renaming) (refers : Mentions) (W : Marking)

/-- Machines that correspond: apart from names and code in their frames they are the same. -/
structure Machine.Renamed (m m' : Machine) : Prop where
  store : m.store.Renamed ρ refers W m'.store
  root : W.Around globalFrame []
  instances : m'.fields.size = m.fields.size
  fields : ∀ id : InstanceId,
    Option.Rel (List.Forall₂ (BindingRenamed ρ refers W false)) m.fields[id]? m'.fields[id]?
  serial : m'.serial = m.serial
  clock : m'.clock = m.clock
  printed : m'.printed = m.printed

/--
The same interruption, or an error about the old name that is one about the new name.  Whichever of
the two the latter is about, it is mentioned on that line.
-/
inductive Interrupt.Renamed : Interrupt → Interrupt → Prop
  | same {interrupt : Interrupt} :
      (∀ line, interrupt = .error ⟨.undefinedVariable ρ.old, line⟩ →
        ∃ place, line = some place ∧ refers ρ.old place) →
      Interrupt.Renamed interrupt interrupt
  | undefined {line : Int} :
      refers ρ.new line →
      Interrupt.Renamed (.error ⟨.undefinedVariable ρ.old, some line⟩)
        (.error ⟨.undefinedVariable ρ.new, some line⟩)

/-- What code leads to on two machines: more frames may be there afterwards. -/
inductive ResultRenamed {α β : Type} (R : Marking → α → β → Prop) :
    EStateM.Result Interrupt Machine α → EStateM.Result Interrupt Machine β → Prop
  | ok {W' : Marking} {a : α} {b : β} {m m' : Machine} :
      W <+: W' → R W' a b → m.Renamed ρ refers W' m' → ResultRenamed R (.ok a m) (.ok b m')
  | error {W' : Marking} {interrupt interrupt' : Interrupt} {m m' : Machine} :
      W <+: W' → interrupt.Renamed ρ refers interrupt' → m.Renamed ρ refers W' m' →
        ResultRenamed R (.error interrupt m) (.error interrupt' m')

/-- Code that keeps machines in correspondence and yields related results. -/
def Corresponds {α β : Type} (R : Marking → α → β → Prop) (x : Run α) (y : Run β) : Prop :=
  ∀ m m' : Machine, m.Renamed ρ refers W m' → ResultRenamed ρ refers W R (x m) (y m')

/-- A value that may have been returned. -/
abbrev Completion.Renamed : Completion → Completion → Prop :=
  Option.Rel (Value.Renamed ρ refers W)

end Definitions

section Corresponding

variable
  {ρ : Renaming}
  {refers : Mentions}
  {W W' : Marking}
  {α β γ δ : Type}
  {R : Marking → α → β → Prop}
  {S : Marking → γ → δ → Prop}

/-- What corresponds after more frames were marked corresponds for the marking before. -/
theorem ResultRenamed.before
    {r : EStateM.Result Interrupt Machine α}
    {r' : EStateM.Result Interrupt Machine β}
    (h : ResultRenamed ρ refers W' R r r')
    (hW : W <+: W') :
    ResultRenamed ρ refers W R r r' := by
  cases h with
  | ok hgrowth hR hm => exact .ok (hW.trans hgrowth) hR hm
  | error hgrowth hinterrupt hm => exact .error (hW.trans hgrowth) hinterrupt hm

namespace Corresponds

theorem pure
    {a : α}
    {b : β}
    (h : R W a b) :
    Corresponds ρ refers W R (Pure.pure a) (Pure.pure b) :=
  fun _ _ hm => .ok (List.prefix_refl W) h hm

/-- Code after code. -/
theorem bind
    {x : Run α}
    {y : Run β}
    {f : α → Run γ}
    {g : β → Run δ}
    (hx : Corresponds ρ refers W R x y)
    (hf : ∀ W' a b, W <+: W' → R W' a b → Corresponds ρ refers W' S (f a) (g b)) :
    Corresponds ρ refers W S (x >>= f) (y >>= g) := by
  intro m m' hm
  have hfirst := hx m m' hm
  change ResultRenamed ρ refers W S (EStateM.bind x f m) (EStateM.bind y g m')
  unfold EStateM.bind
  generalize x m = r at hfirst ⊢
  generalize y m' = r' at hfirst ⊢
  cases hfirst with
  | ok hW hR hm => exact (hf _ _ _ hW hR _ _ hm).before hW
  | error hW hinterrupt hm => exact .error hW hinterrupt hm

theorem map
    {x : Run α}
    {y : Run β}
    {f : α → γ}
    {g : β → δ}
    (hx : Corresponds ρ refers W R x y)
    (hf : ∀ W' a b, R W' a b → S W' (f a) (g b)) :
    Corresponds ρ refers W S (f <$> x) (g <$> y) :=
  hx.bind fun W' a b _ h => .pure (hf W' a b h)

/-- Results that correspond more closely correspond. -/
theorem imp
    {R' : Marking → α → β → Prop}
    {x : Run α}
    {y : Run β}
    (hx : Corresponds ρ refers W R x y)
    (h : ∀ W' a b, R W' a b → R' W' a b) :
    Corresponds ρ refers W R' x y := by
  intro m m' hm
  have hresult := hx m m' hm
  generalize x m = r at hresult ⊢
  generalize y m' = r' at hresult ⊢
  cases hresult with
  | ok hW hR hm => exact .ok hW (h _ _ _ hR) hm
  | error hW hinterrupt hm => exact .error hW hinterrupt hm

/-- Both stop for the same reason, and not for want of a name. -/
theorem stop
    (interrupt : Interrupt)
    (h : ∀ name line, interrupt ≠ .error ⟨.undefinedVariable name, line⟩) :
    Corresponds ρ refers W R (throw interrupt) (throw interrupt) :=
  fun _ _ hm => .error (List.prefix_refl W) (.same fun line hline => absurd hline (h ρ.old line)) hm

/-- A fault other than an undefined variable is the same fault on both sides. -/
theorem fail
    {fault : RuntimeFault}
    {place place' : Token}
    (hline : place'.line = place.line)
    (h : ∀ name, fault ≠ .undefinedVariable name) :
    Corresponds ρ refers W R (Run.fail fault place) (Run.fail fault place') := by
  unfold Run.fail
  rw [hline]
  exact .stop _ fun name line hinterrupt => h name (congrArg RuntimeError.fault
    (Interrupt.error.inj hinterrupt))

end Corresponds

end Corresponding

namespace Run

variable
  {ρ : Renaming}
  {refers : Mentions}
  {W : Marking}
  {frame : FrameId}
  {marks : List Bool}

/-- The result of an operator. -/
theorem ofExcept_renamed
    {r r' : Except RuntimeFault Value}
    (h : r' = r ∧ Value.Renamed.Plain ρ refers W r)
    (place : Token) :
    Corresponds ρ refers W (Value.Renamed ρ refers) (ofExcept place r) (ofExcept place r') := by
  obtain ⟨rfl, hplain⟩ := h
  cases r' with
  | ok v => exact .pure hplain
  | error fault => exact .fail rfl hplain

/-- A search that succeeds in both stores or fails in both. -/
theorem ofAccess_renamed
    (search search' : Store → Except AccessFault (FrameId × Slot))
    {name name' : String}
    (h : ∀ m m' : Machine, m.Renamed ρ refers W m' →
      AccessRenamed ρ refers W name name' (search m.store) (search' m'.store))
    {place place' : Token}
    (hline : place'.line = place.line)
    (hundefined : Interrupt.Renamed ρ refers (.error ⟨.undefinedVariable name, some place.line⟩)
      (.error ⟨.undefinedVariable name', some place.line⟩)) :
    Corresponds ρ refers W (FoundRenamed ρ refers) (do ofAccess place (search (← get).store))
      (do ofAccess place' (search' (← get).store)) := by
  intro m m' hm
  change ResultRenamed ρ refers W (FoundRenamed ρ refers) (ofAccess place (search m.store) m)
    (ofAccess place' (search' m'.store) m')
  have haccess := h m m' hm
  generalize search m.store = r at haccess ⊢
  generalize search' m'.store = r' at haccess ⊢
  have hsame := List.prefix_refl W
  cases haccess with
  | ok hfound => exact .ok hsame hfound hm
  | undefined =>
      rw [← hline] at hundefined
      refine .error hsame ?_ hm
      rwa [hline] at hundefined ⊢
  | shortChain distance => exact .error hsame (.same nofun) hm

/-- A name that is not found is mentioned where it is looked up. -/
theorem undefined_renamed
    {name : Token}
    {marked : Bool}
    (h : name.lexeme = ρ.old → refers (ρ.apply marked name.lexeme) name.line) :
    Interrupt.Renamed ρ refers (.error ⟨.undefinedVariable name.lexeme, some name.line⟩)
      (.error ⟨.undefinedVariable (ρ.apply marked name.lexeme), some name.line⟩) := by
  rcases ρ.apply_eq marked name.lexeme with hsame | ⟨hold, hnew⟩
  · rw [hsame] at h ⊢
    refine .same fun line hline => ?_
    obtain ⟨hname, rfl⟩ : name.lexeme = ρ.old ∧ some name.line = line := by simpa using hline
    exact ⟨name.line, rfl, hname ▸ h hname⟩
  · rw [hnew, hold]
    exact .undefined (hnew ▸ h hold)

/-- A name with its link leads to corresponding slots, under the name that its scope gives to it. -/
theorem locate_renamed
    (hframe : W.Around frame marks)
    {name : Token}
    {link : Link}
    (hname : name.Replaceable ρ (link.leadsToMark marks))
    (hmentioned : name.lexeme = ρ.old →
      refers (ρ.apply (link.leadsToMark marks) name.lexeme) name.line) :
    Corresponds ρ refers W (FoundRenamed ρ refers) (locate frame name link)
      (locate frame (name.renamed ρ (link.leadsToMark marks)) link) := by
  have hundefined := undefined_renamed hmentioned
  unfold locate
  cases hdepth : link.depth with
  | none =>
      have hmark : link.leadsToMark marks = false := by rw [Link.leadsToMark, hdepth, markAt]
      rw [hmark, ρ.apply_false] at hundefined
      rw [hmark, Token.renamed_false]
      exact ofAccess_renamed (·.find globalFrame name.lexeme) (·.find globalFrame name.lexeme)
        (fun m m' hm => hm.store.find_global hm.root name.lexeme) rfl hundefined
  | some distance =>
      have hmark : link.leadsToMark marks = marks.getD distance false := by
        rw [Link.leadsToMark, hdepth, markAt]
      rw [Token.Replaceable, hmark] at hname
      rw [hmark] at hundefined ⊢
      exact ofAccess_renamed (·.findAt frame distance name.lexeme)
        (·.findAt frame distance (ρ.apply (marks.getD distance false) name.lexeme))
        (fun m m' hm => hm.store.findAt hframe distance hname) rfl hundefined

/-- The value of a reference. -/
theorem readName_renamed
    (hframe : W.Around frame marks)
    {target : Reference}
    (h : target.Renamable ρ refers marks) :
    Corresponds ρ refers W (Value.Renamed ρ refers) (readName frame target.name target.link)
      (readName frame (target.renamed ρ marks).name (target.renamed ρ marks).link) :=
  (locate_renamed hframe h.1 h.2).bind fun _ _ _ _ hfound =>
    .pure hfound.2.choose_spec.2.value

/-- A name that is never replaced. -/
theorem readName_renamed_of_ne
    (hframe : W.Around frame marks)
    {name : Token}
    (hold : name.lexeme ≠ ρ.old)
    (hnew : name.lexeme ≠ ρ.new)
    (link : Link) :
    Corresponds ρ refers W (Value.Renamed ρ refers) (readName frame name link)
      (readName frame name link) := by
  have h : Corresponds ρ refers W (FoundRenamed ρ refers) (locate frame name link) _ :=
    locate_renamed hframe (fun _ => hnew) fun heq => absurd heq hold
  rw [Token.renamed_eq_self fun _ => hold] at h
  exact h.bind fun _ _ _ _ hfound => .pure hfound.2.choose_spec.2.value

/-- The value of a name that is never replaced, at a distance. -/
theorem getAt_renamed
    (hframe : W.Around frame marks)
    (distance : Nat)
    {name : String}
    (hold : name ≠ ρ.old)
    (hnew : name ≠ ρ.new)
    (place : Token) :
    Corresponds ρ refers W (Value.Renamed ρ refers) (getAt frame distance name place)
      (getAt frame distance name place) := by
  have haccess : ∀ m m' : Machine, m.Renamed ρ refers W m' →
      AccessRenamed ρ refers W name name (m.store.findAt frame distance name)
        (m'.store.findAt frame distance name) := fun m m' hm => by
    have h : AccessRenamed ρ refers W name _ (m.store.findAt frame distance name) _ :=
      hm.store.findAt hframe distance fun _ => hnew
    rwa [ρ.apply_of_ne hold] at h
  have hundefined : Interrupt.Renamed ρ refers
      (.error ⟨.undefinedVariable name, some place.line⟩)
      (.error ⟨.undefinedVariable name, some place.line⟩) :=
    .same fun line hline => by
      have hname : name = ρ.old ∧ some place.line = line := by simpa using hline
      exact absurd hname.1 hold
  exact (ofAccess_renamed (·.findAt frame distance name) (·.findAt frame distance name) haccess
    rfl hundefined).bind fun _ _ _ _ hfound => .pure hfound.2.choose_spec.2.value

/-- The slot is found under the two names and holds corresponding values after it. -/
theorem update_renamed
    {found found' : FrameId × Slot}
    (hfound : FoundRenamed ρ refers W found found')
    {v v' : Value}
    (hv : v.Renamed ρ refers W v') :
    Corresponds ρ refers W (fun _ _ _ => True) (update found.1 found.2 v)
      (update found'.1 found'.2 v') :=
  fun _ _ hm => .ok (List.prefix_refl W) trivial { hm with store := hm.store.update hfound hv }

/-- An assignment and its renamed copy set the same slot. -/
theorem assignName_renamed
    (hframe : W.Around frame marks)
    {target : Reference}
    (htarget : target.Renamable ρ refers marks)
    {v v' : Value}
    (hv : v.Renamed ρ refers W v') :
    Corresponds ρ refers W (fun _ _ _ => True) (assignName frame target v)
      (assignName frame (target.renamed ρ marks) v') :=
  (locate_renamed hframe htarget.1 htarget.2).bind fun _ _ _ hW hfound =>
    update_renamed hfound (hv.mono hW)

theorem isConstant_renamed
    (target : Reference)
    (marks : List Bool) :
    Corresponds ρ refers W (fun _ b b' => b' = b) (isConstant target)
      (isConstant (target.renamed ρ marks)) := by
  obtain ⟨name, ⟨depth, constantDepth⟩⟩ := target
  cases constantDepth with
  | some d => exact fun _ _ hm => .ok (List.prefix_refl W) rfl hm
  | none =>
      cases depth with
      | some d => exact fun _ _ hm => .ok (List.prefix_refl W) rfl hm
      | none =>
          have hname : (name.renamed ρ false).lexeme = name.lexeme := ρ.apply_false name.lexeme
          refine fun m m' hm => .ok (List.prefix_refl W) ?_ hm
          exact (congrArg (m'.store.isConstant globalFrame) hname).trans
            (hm.store.isConstant_global hm.root name.lexeme)

/-- A new frame has the same identity on both sides and gets the mark of its scope. -/
theorem newFrame_renamed
    (hframe : W.Around frame marks)
    (marked : Bool)
    {bindings bindings' : List (String × Value)}
    (hbindings : List.Forall₂ (BindingRenamed ρ refers W marked) bindings bindings') :
    Corresponds ρ refers W
      (fun W' inner inner' => inner' = inner ∧ W'.Around inner (marked :: marks))
      (newFrame frame bindings) (newFrame frame bindings') := by
  intro m m' hm
  have hgrowth : W <+: W ++ [marked :: marks] := List.prefix_append _ _
  have hsame : m'.store.nextId = m.store.nextId := hm.store.size'.trans hm.store.size.symm
  have hinner : Marking.Around (W ++ [marked :: marks]) m.store.nextId (marked :: marks) :=
    Marking.around_concat.mpr (.inr ⟨hm.store.size, rfl⟩)
  have hstore := (hm.store.extend hframe marked).defineAll hinner
    (hbindings.imp fun _ _ hb => hb.mono hgrowth)
  rw [← hsame] at hstore
  refine .ok hgrowth ⟨hsame, hinner⟩ ?_
  exact
    { hm with
      store := by rwa [hsame] at hstore ⊢
      root := hm.root.mono hgrowth
      fields := fun id => by
        have hfields := hm.fields id
        dsimp only
        generalize m.fields[id]? = fields at hfields ⊢
        generalize m'.fields[id]? = fields' at hfields ⊢
        cases hfields with
        | none => exact .none
        | some hfields => exact .some (hfields.imp fun _ _ hb => hb.mono hgrowth) }

theorem newSerial_renamed : Corresponds ρ refers W (fun _ n n' => n' = n) newSerial newSerial :=
  fun _ _ hm => .ok (List.prefix_refl W) hm.serial
    { hm with serial := congrArg (· + 1) hm.serial }

/-- A declaration in a marked frame goes to the other name there. -/
theorem define_renamed
    (hframe : W.Around frame marks)
    (name : String)
    {v v' : Value}
    (hv : v.Renamed ρ refers W v')
    (constant : Bool) :
    Corresponds ρ refers W (fun _ _ _ => True) (define frame name v constant)
      (define frame (ρ.swap (marks.headD false) name) v' constant) :=
  fun _ _ hm => .ok (List.prefix_refl W) trivial
    { hm with store := hm.store.define hframe name hv constant }

theorem print_renamed (text : String) :
    Corresponds ρ refers W (fun _ _ _ => True) (print text) (print text) :=
  fun _ _ hm => .ok (List.prefix_refl W) trivial
    { hm with printed := congrArg (·.push text) hm.printed }

theorem readClock_renamed : Corresponds ρ refers W (fun _ x x' => x' = x) readClock readClock :=
  fun _ _ hm => .ok (List.prefix_refl W) (congrArg (fun c => (nextReading c).1) hm.clock)
    { hm with clock := congrArg (fun c => (nextReading c).2) hm.clock }

/-- New instances have the same identity and corresponding classes. -/
theorem newInstance_renamed
    {o o' : ClassObject}
    (ho : o.Renamed ρ refers W o') :
    Corresponds ρ refers W
      (fun W' made made' => made'.1 = made.1 ∧ made.2.Renamed ρ refers W' made'.2)
      (newInstance o) (newInstance o') := by
  intro m m' hm
  refine .ok (List.prefix_refl W) ⟨hm.instances, ho⟩ { hm with instances := ?_, fields := ?_ }
  · simp only [Array.size_push, hm.instances]
  · intro id
    simp only [Array.getElem?_push, hm.instances]
    split
    · exact .some .nil
    · exact hm.fields id

theorem lookup_renamed
    {fields fields' : Fields}
    (h : List.Forall₂ (BindingRenamed ρ refers W false) fields fields')
    (name : String) :
    Option.Rel (Value.Renamed ρ refers W) (fields.lookup name) (fields'.lookup name) := by
  induction h with
  | nil => exact .none
  | @cons b b' rest rest' hb _ ih =>
      have hkey : b'.1 = b.1 := hb.1
      simp only [List.lookup, hkey]
      cases name == b.1 with
      | true => exact .some hb.2
      | false => exact ih

theorem putField_renamed
    {fields fields' : Fields}
    (h : List.Forall₂ (BindingRenamed ρ refers W false) fields fields')
    (name : String)
    {v v' : Value}
    (hv : v.Renamed ρ refers W v') :
    List.Forall₂ (BindingRenamed ρ refers W false) (putField name v fields)
      (putField name v' fields') := by
  induction h with
  | nil => exact .cons ⟨rfl, hv⟩ .nil
  | @cons b b' rest rest' hb hrest ih =>
      have hkey : b'.1 = b.1 := hb.1
      simp only [putField, hkey]
      split
      · exact .cons ⟨rfl, hv⟩ hrest
      · exact .cons hb ih

/-- Fields are no local names: the same field is found. -/
theorem field?_renamed (id : InstanceId) (name : String) :
    Corresponds ρ refers W (fun W => Option.Rel (Value.Renamed ρ refers W)) (field? id name)
      (field? id name) := by
  intro m m' hm
  refine .ok (List.prefix_refl W) ?_ hm
  have hfields := hm.fields id
  generalize m.fields[id]? = fields at hfields ⊢
  generalize m'.fields[id]? = fields' at hfields ⊢
  cases hfields with
  | none => exact .none
  | some hfields => exact lookup_renamed hfields name

/-- Fields are no local names: the same field is set. -/
theorem setField_renamed
    (id : InstanceId)
    (name : String)
    {v v' : Value}
    (hv : v.Renamed ρ refers W v') :
    Corresponds ρ refers W (fun _ _ _ => True) (setField id name v) (setField id name v') := by
  intro m m' hm
  refine .ok (List.prefix_refl W) trivial { hm with instances := ?_, fields := ?_ }
  · simp only [Array.size_modify, hm.instances]
  · intro i
    have hfields := hm.fields i
    simp only [Array.getElem?_modify]
    generalize m.fields[i]? = fields at hfields ⊢
    generalize m'.fields[i]? = fields' at hfields ⊢
    split
    · cases hfields with
      | none => exact .none
      | some hfields => exact .some (putField_renamed hfields name hv)
    · exact hfields

end Run

namespace Code

section Predicates

variable (ρ : Renaming) (refers : Mentions)

/-- The evaluation of a renamed expression corresponds to that of the expression. -/
def EvaluatesAlike (f : FrameId → Expr → Run Value) : Prop :=
  ∀ ⦃W : Marking⦄ ⦃frame : FrameId⦄ ⦃marks : List Bool⦄ ⦃e : Expr⦄, W.Around frame marks →
    e.Renamable ρ refers marks →
      Corresponds ρ refers W (Value.Renamed ρ refers) (f frame e) (f frame (e.renamed ρ marks))

/-- The execution of a renamed statement corresponds to that of the statement. -/
def ExecutesAlike (f : FrameId → Stmt → Run Completion) : Prop :=
  ∀ ⦃W : Marking⦄ ⦃frame : FrameId⦄ ⦃marks : List Bool⦄ ⦃s : Stmt⦄ ⦃t : Trail⦄,
    W.Around frame marks → s.Renamable ρ refers t marks →
      Corresponds ρ refers W (Completion.Renamed ρ refers) (f frame s)
        (f frame (s.renamed ρ t marks))

/-- The same of the statements of a body. -/
def RunsAlike (f : FrameId → List Stmt → Run Completion) : Prop :=
  ∀ ⦃W : Marking⦄ ⦃frame : FrameId⦄ ⦃marks : List Bool⦄ ⦃body : List Stmt⦄ ⦃t : Trail⦄,
    W.Around frame marks → Stmt.RenamableAll ρ refers body t marks →
      Corresponds ρ refers W (Completion.Renamed ρ refers) (f frame body)
        (f frame (Stmt.renamedAll ρ body t marks))

end Predicates

variable
  {ρ : Renaming}
  {refers : Mentions}
  {W : Marking}
  {frame : FrameId}
  {marks : List Bool}

theorem untilReturn_renamed
    {f : FrameId → Stmt → Run Completion}
    (h : ExecutesAlike ρ refers f) :
    RunsAlike ρ refers fun frame => untilReturn (f frame) := by
  intro W frame marks body t hframe hbody
  induction body generalizing W t with
  | nil => exact .pure .none
  | cons s rest ih =>
      refine (h hframe hbody.1).bind fun W' completion completion' hW hcompletion => ?_
      cases hcompletion with
      | none => exact ih (hframe.mono hW) hbody.2
      | some hv => exact .pure (.some hv)

/-- Statements at the top level, each renamed with the marks around it. -/
theorem each_renamed
    {f : FrameId → Stmt → Run Completion}
    (h : ExecutesAlike ρ refers f)
    {program : List Stmt}
    {t : Trail}
    (hframe : W.Around frame marks)
    (hprogram : Stmt.RenamableAll ρ refers program t marks) :
    Corresponds ρ refers W (fun _ _ _ => True) (each (f frame) program)
      (each (f frame) (Stmt.renamedAll ρ program t marks)) := by
  induction program generalizing W t with
  | nil => exact .pure trivial
  | cons s rest ih =>
      exact (h hframe hprogram.1).bind fun _ _ _ hW _ => ih (hframe.mono hW) hprogram.2

theorem values_renamed
    {f : FrameId → Expr → Run Value}
    (h : EvaluatesAlike ρ refers f)
    (hframe : W.Around frame marks)
    {es : List Expr}
    (hes : Expr.RenamableAll ρ refers marks es) :
    Corresponds ρ refers W (fun W => List.Forall₂ (Value.Renamed ρ refers W)) (values (f frame) es)
      (values (f frame) (Expr.renamedAll ρ marks es)) := by
  induction es generalizing W with
  | nil => exact .pure .nil
  | cons e rest ih =>
      exact (h hframe hes.1).bind fun _ _ _ hW hv => (ih (hframe.mono hW) hes.2).bind
        fun _ _ _ hW' hvs => .pure (.cons (hv.mono hW') hvs)

theorem orNil_renamed
    {f : FrameId → Expr → Run Value}
    (h : EvaluatesAlike ρ refers f)
    (hframe : W.Around frame marks)
    {e : Option Expr}
    (he : optionRenamable ρ refers marks e) :
    Corresponds ρ refers W (Value.Renamed ρ refers) (orNil (f frame) e)
      (orNil (f frame) (e.map (Expr.renamed ρ marks))) := by
  cases e with
  | none => exact .pure .nil
  | some e => exact h hframe he

theorem repeating_renamed
    {condition condition' : Run Value}
    {body body' : Run Completion}
    (hcondition : ∀ W', W <+: W' →
      Corresponds ρ refers W' (Value.Renamed ρ refers) condition condition')
    (hbody : ∀ W', W <+: W' → Corresponds ρ refers W' (Completion.Renamed ρ refers) body body')
    (rounds : Nat) :
    Corresponds ρ refers W (Completion.Renamed ρ refers) (repeating condition body rounds)
      (repeating condition' body' rounds) := by
  induction rounds generalizing W with
  | zero => exact .stop .unfinished nofun
  | succ rounds ih =>
      refine (hcondition W (List.prefix_refl W)).bind fun W' v v' hW hv => ?_
      rw [hv.isTruthy]
      split
      · refine (hbody W' hW).bind fun W'' completion completion' hW' hcompletion => ?_
        cases hcompletion with
        | none =>
            exact ih (fun X hX => hcondition X ((hW.trans hW').trans hX))
              fun X hX => hbody X ((hW.trans hW').trans hX)
        | some hv => exact .pure (.some hv)
      · exact .pure .none

/-- A frame that is opened for a marked scope is marked. -/
theorem openFrame_renamed
    (opening opening' : Opening)
    (hframe : W.Around frame marks)
    (marked : Bool)
    {bindings bindings' : List (String × Value)}
    (hbindings : List.Forall₂ (BindingRenamed ρ refers W marked) bindings bindings') :
    Corresponds ρ refers W
      (fun W' inner inner' => inner' = inner ∧ W'.Around inner (marked :: marks))
      (openFrame opening frame bindings) (openFrame opening' frame bindings') :=
  Run.newFrame_renamed hframe marked hbindings

/-- The frame for one value under a name that is never replaced. -/
theorem openFrame_renamed_single
    (opening opening' : Opening)
    (hframe : W.Around frame marks)
    (name : String)
    {v v' : Value}
    (hv : v.Renamed ρ refers W v') :
    Corresponds ρ refers W
      (fun W' inner inner' => inner' = inner ∧ W'.Around inner (false :: marks))
      (openFrame opening frame [(name, v)]) (openFrame opening' frame [(name, v')]) :=
  openFrame_renamed opening opening' hframe false (.cons ⟨rfl, hv⟩ .nil)

theorem bindMethod_renamed
    {method method' : Method}
    (hmethod : method.Renamed ρ refers W method')
    (id : InstanceId)
    {o o' : ClassObject}
    (ho : o.Renamed ρ refers W o') :
    Corresponds ρ refers W (Closure.Renamed ρ refers) (bindMethod method id o)
      (bindMethod method' id o') := by
  obtain ⟨hframe, hdeclaration⟩ := hmethod
  refine (openFrame_renamed_single _ _ hframe "this" (.object id ho)).bind ?_
  rintro W' inner _ hW ⟨rfl, hinner⟩
  refine Run.newSerial_renamed.bind ?_
  rintro W'' serial _ hW' rfl
  rw [hdeclaration.isInitializer]
  exact .pure (.mk (hinner.mono hW') hdeclaration)

/-- Corresponding closures behave alike on corresponding arguments. -/
theorem callFunction_renamed
    (hρ : ρ.Proper)
    {f : FrameId → List Stmt → Run Completion}
    (h : RunsAlike ρ refers f)
    {closure closure' : Closure}
    (hclosure : closure.Renamed ρ refers W closure')
    {arguments arguments' : List Value}
    (harguments : List.Forall₂ (Value.Renamed ρ refers W) arguments arguments') :
    Corresponds ρ refers W (Value.Renamed ρ refers) (callFunction f closure arguments)
      (callFunction f closure' arguments') := by
  obtain ⟨hframe, t, hrenamable, rfl⟩ := hclosure
  rename_i declaration frame isInitializer marks
  obtain ⟨name, parameters, body⟩ := declaration
  have hbindings : List.Forall₂ (BindingRenamed ρ refers W t.ends)
      ((parameters.map Token.lexeme).zip arguments)
      (((parameters.map (Token.renamed ρ t.ends)).map Token.lexeme).zip arguments') := by
    have hparameters := hrenamable.1
    clear hrenamable
    induction parameters generalizing arguments arguments' with
    | nil => exact .nil
    | cons parameter parameters ih =>
        obtain ⟨hfirst, hrest⟩ := List.forall_mem_cons.mp hparameters
        cases harguments with
        | nil => exact .nil
        | cons hv harguments => exact .cons ⟨hfirst.lexeme, hv⟩ (ih harguments hrest)
  refine (openFrame_renamed _ _ hframe t.ends hbindings).bind ?_
  rintro W' inner _ hW ⟨rfl, hinner⟩
  refine (h hinner hrenamable.2).bind fun W'' completion completion' hW' hcompletion => ?_
  dsimp only
  split
  · exact Run.getAt_renamed ((hframe.mono hW).mono hW') 0 hρ.old_ne_this.symm
      hρ.new_ne_this.symm name
  · cases hcompletion with
    | none => exact .pure .nil
    | some hv => exact .pure hv

/-- Corresponding classes make instances alike. -/
theorem instantiate_renamed
    (hρ : ρ.Proper)
    {f : FrameId → List Stmt → Run Completion}
    (h : RunsAlike ρ refers f)
    {o o' : ClassObject}
    (ho : o.Renamed ρ refers W o')
    {arguments arguments' : List Value}
    (harguments : List.Forall₂ (Value.Renamed ρ refers W) arguments arguments') :
    Corresponds ρ refers W (Value.Renamed ρ refers) (instantiate f o arguments)
      (instantiate f o' arguments') := by
  refine (Run.newInstance_renamed ho).bind ?_
  rintro W' ⟨_, made⟩ ⟨id, made'⟩ hW ⟨rfl, hmade⟩
  dsimp only at hmade
  have hmethod := hmade.method? initializerName
  dsimp only at hmethod ⊢
  generalize made.method? initializerName = found at hmethod ⊢
  generalize made'.method? initializerName = found' at hmethod ⊢
  cases hmethod with
  | none => exact .pure (.object id hmade)
  | some hmethod =>
      refine (bindMethod_renamed hmethod id hmade).bind fun W'' _ _ hW' hinitializer => ?_
      have harguments' := harguments.imp fun _ _ hv => hv.mono (hW.trans hW')
      exact (callFunction_renamed hρ h hinitializer harguments').bind fun _ _ _ hW'' _ =>
        .pure (.object id (hmade.mono (hW'.trans hW'')))

/-- Corresponding callees behave alike, and fail alike where they are not callable. -/
theorem call_renamed
    (hρ : ρ.Proper)
    {f : FrameId → List Stmt → Run Completion}
    (h : RunsAlike ρ refers f)
    {callee callee' : Value}
    (hcallee : callee.Renamed ρ refers W callee')
    {arguments arguments' : List Value}
    (harguments : List.Forall₂ (Value.Renamed ρ refers W) arguments arguments')
    (place : Token) :
    Corresponds ρ refers W (Value.Renamed ρ refers) (call f callee arguments place)
      (call f callee' arguments' place) := by
  unfold call
  rw [hcallee.arity?, ← harguments.length_eq]
  cases callee.arity? with
  | none => exact .fail rfl nofun
  | some arity =>
      dsimp only
      split
      · cases hcallee with
        | native function =>
            cases function
            exact Run.readClock_renamed.bind fun _ _ _ _ hx => .pure (hx ▸ .number _)
        | function hf => exact callFunction_renamed hρ h hf harguments
        | classObject ho => exact instantiate_renamed hρ h ho harguments
        | _ => exact .fail rfl nofun
      · exact .fail rfl nofun

/-- Properties of corresponding values correspond under the same property name. -/
theorem getProperty_renamed
    {v v' : Value}
    (hv : v.Renamed ρ refers W v')
    (name : Token) :
    Corresponds ρ refers W (Value.Renamed ρ refers) (getProperty v name) (getProperty v' name) := by
  cases hv with
  | @object id o o' ho =>
      refine (Run.field?_renamed id name.lexeme).bind fun W' value value' hW hvalue => ?_
      cases hvalue with
      | some hvalue => exact .pure hvalue
      | none =>
          have hmethod := ho.method? name.lexeme
          dsimp only
          generalize o.method? name.lexeme = found at hmethod ⊢
          generalize o'.method? name.lexeme = found' at hmethod ⊢
          cases hmethod with
          | none => exact .fail rfl nofun
          | some hmethod =>
              exact (bindMethod_renamed (hmethod.mono hW) id (ho.mono hW)).map
                fun _ _ _ hclosure => .function hclosure
  | _ => exact .fail rfl nofun

/-- The frames that bind `this` and `super` are the same on both sides. -/
theorem getInherited_renamed
    (hρ : ρ.Proper)
    (hframe : W.Around frame marks)
    (keyword method : Token)
    (link : Link) :
    Corresponds ρ refers W (Value.Renamed ρ refers) (getInherited frame keyword method link)
      (getInherited frame keyword method link) := by
  unfold getInherited
  cases link.depth with
  | none => exact .fail rfl nofun
  | some distance =>
      refine (Run.getAt_renamed hframe distance hρ.old_ne_super.symm hρ.new_ne_super.symm
        keyword).bind fun W' parent parent' hW hparent => ?_
      cases hparent with
      | @classObject parent parent' hparent =>
          refine (Run.getAt_renamed (hframe.mono hW) (distance - 1) hρ.old_ne_this.symm
            hρ.new_ne_this.symm keyword).bind fun W'' receiver receiver' hW' hreceiver => ?_
          cases hreceiver with
          | object id ho =>
              have hmethod := (hparent.mono hW').method? method.lexeme
              dsimp only
              generalize parent.method? method.lexeme = found at hmethod ⊢
              generalize parent'.method? method.lexeme = found' at hmethod ⊢
              cases hmethod with
              | none => exact .fail rfl nofun
              | some hmethod =>
                  exact (bindMethod_renamed hmethod id ho).map fun _ _ _ hclosure =>
                    .function hclosure
          | _ => exact .fail rfl nofun
      | _ => exact .fail rfl nofun

/-- The line on which a superclass is reported stays. -/
theorem line_name?_renamed (parent : Expr) (name : Token) :
    ((parent.renamed ρ marks).name?.getD name).line = (parent.name?.getD name).line := by
  cases parent <;> rfl

theorem superclassOf_renamed
    {f : FrameId → Expr → Run Value}
    (h : EvaluatesAlike ρ refers f)
    (hframe : W.Around frame marks)
    (name : Token)
    {parent : Option Expr}
    (hparent : optionRenamable ρ refers marks parent) :
    Corresponds ρ refers W
      (fun W o o' => Option.Rel (ClassObject.Renamed ρ refers W) o o' ∧ o.isSome = parent.isSome)
      (superclassOf (f frame) name parent)
      (superclassOf (f frame) name (parent.map (Expr.renamed ρ marks))) := by
  cases parent with
  | none => exact .pure ⟨.none, rfl⟩
  | some parent =>
      refine (h hframe hparent).bind fun W' v v' hW hv => ?_
      cases hv with
      | classObject ho => exact .pure ⟨.some ho, rfl⟩
      | _ => exact .fail (line_name?_renamed parent name) nofun

/-- The frame in which the methods of a class are made, with the marks around them. -/
theorem methodFrame_renamed
    (hframe : W.Around frame marks)
    (name : Token)
    (methods methods' : List FunctionDecl)
    {o o' : Option ClassObject}
    (ho : Option.Rel (ClassObject.Renamed ρ refers W) o o') :
    Corresponds ρ refers W
      (fun W' inner inner' => inner' = inner ∧
        ∃ around, W'.Around inner around ∧ marksOfMethods o.isSome marks = false :: around)
      (methodFrame frame name methods o) (methodFrame frame name methods' o') := by
  cases ho with
  | none => exact .pure ⟨rfl, marks, hframe, rfl⟩
  | some ho =>
      exact (openFrame_renamed_single (.superclass name methods) (.superclass name methods') hframe
        "super" (.classObject ho)).imp fun _ _ _ hinner => ⟨hinner.1, _, hinner.2, rfl⟩

/-- Superclasses stay related when frames are added. -/
theorem parentRenamed_mono
    {W' : Marking}
    {o o' : Option ClassObject}
    (h : Option.Rel (ClassObject.Renamed ρ refers W) o o')
    (hW : W <+: W') :
    Option.Rel (ClassObject.Renamed ρ refers W') o o' := by
  cases h with
  | none => exact .none
  | some ho => exact .some (ho.mono hW)

/-- The name of a class is kept; its methods are renamed inside. -/
theorem declareClass_renamed
    (hframe : W.Around frame marks)
    {name : Token}
    (hname : name.Kept ρ (marks.headD false))
    {o o' : Option ClassObject}
    (ho : Option.Rel (ClassObject.Renamed ρ refers W) o o')
    {methods : List FunctionDecl}
    {t : Trail}
    (hmethods : FunctionDecl.RenamableAll ρ refers methods t (marksOfMethods o.isSome marks)) :
    Corresponds ρ refers W (fun _ _ _ => True) (declareClass frame name o methods)
      (declareClass frame name o'
        (FunctionDecl.renamedAll ρ methods t (marksOfMethods o.isSome marks))) := by
  intro m m' hm
  have hlt : frame < W.length := (List.getElem?_eq_some_iff.mp hframe).1
  rw [declareClass_eq (hm.store.size.symm ▸ hlt), declareClass_eq (hm.store.size'.symm ▸ hlt)]
  revert m m'
  have hdefine {W : Marking} (hframe : W.Around frame marks) {v v' : Value}
      (hv : v.Renamed ρ refers W v') :
      Corresponds ρ refers W (fun _ _ _ => True) (Run.define frame name.lexeme v false)
        (Run.define frame name.lexeme v' false) := by
    have h := Run.define_renamed hframe name.lexeme hv false
    rwa [hname.lexeme] at h
  refine (hdefine hframe .nil).bind fun W₁ _ _ hW₁ _ => ?_
  refine (methodFrame_renamed (hframe.mono hW₁) name methods _
    (parentRenamed_mono ho hW₁)).bind ?_
  rintro W₂ _ inner hW₂ ⟨rfl, around, haround, hmarks⟩
  refine Run.newSerial_renamed.bind ?_
  rintro W₃ _ serial hW₃ rfl
  rw [hmarks] at hmethods ⊢
  have hW : W <+: W₃ := (hW₁.trans hW₂).trans hW₃
  exact hdefine (hframe.mono hW) (.classObject (ClassLayer.Renamed.extending
    (.mk (haround.mono hW₃) (FunctionDecl.renamed_of_renamableAll methods t hmethods))
    (parentRenamed_mono ho hW)))

/-- The name of a function is kept; its parameters and its body are renamed inside. -/
theorem declareFunction_renamed
    (hframe : W.Around frame marks)
    {declaration : FunctionDecl}
    (hname : declaration.name.Kept ρ (marks.headD false))
    {t : Trail}
    (hdeclaration : declaration.Renamable ρ refers t marks) :
    Corresponds ρ refers W (fun _ _ _ => True) (declareFunction frame declaration)
      (declareFunction frame (declaration.renamed ρ t marks)) := by
  refine Run.newSerial_renamed.bind ?_
  rintro W' _ serial hW rfl
  have hclosure : Closure.Renamed ρ refers W' ⟨serial, declaration, frame, false⟩
      ⟨serial, declaration.renamed ρ t marks, frame, false⟩ :=
    .mk (hframe.mono hW) ⟨t, hdeclaration, rfl⟩
  have h := Run.define_renamed (hframe.mono hW) declaration.name.lexeme (.function hclosure) false
  rw [hname.lexeme] at h
  rw [FunctionDecl.name_renamed]
  exact h

theorem assign_renamed
    (hframe : W.Around frame marks)
    {target : Reference}
    (htarget : target.Renamable ρ refers marks)
    {x y : Run Value}
    (h : ∀ W', W <+: W' → Corresponds ρ refers W' (Value.Renamed ρ refers) x y) :
    Corresponds ρ refers W (Value.Renamed ρ refers) (assign frame target x)
      (assign frame (target.renamed ρ marks) y) := by
  refine (Run.isConstant_renamed target marks).bind ?_
  rintro W₁ _ constant hW₁ rfl
  split
  · exact .fail rfl nofun
  · refine (h W₁ hW₁).bind fun W₂ v v' hW₂ hv => ?_
    exact (Run.assignName_renamed (hframe.mono (hW₁.trans hW₂)) htarget hv).bind
      fun _ _ _ hW₃ _ => .pure (hv.mono hW₃)

theorem setProperty_renamed
    {x y : Run Value}
    (h : Corresponds ρ refers W (Value.Renamed ρ refers) x y)
    {v v' : Value}
    (hv : v.Renamed ρ refers W v')
    (name : Token) :
    Corresponds ρ refers W (Value.Renamed ρ refers) (setProperty v name x)
      (setProperty v' name y) := by
  cases hv with
  | object id _ =>
      exact h.bind fun _ _ _ _ hw => (Run.setField_renamed id name.lexeme hw).bind
        fun _ _ _ hW _ => .pure (hw.mono hW)
  | _ => exact .fail rfl nofun

end Code

namespace Run

variable {ρ : Renaming} {refers : Mentions}

mutual

/-- Renamed expressions are evaluated alike. -/
theorem evaluateBy_renamed (hρ : ρ.Proper) (rounds room : Nat) :
    Code.EvaluatesAlike ρ refers (evaluateBy id rounds room) := by
  intro W frame marks e hframe he
  match room with
  | 0 => exact .stop _ nofun
  | room + 1 =>
      have ihE := evaluateBy_renamed hρ rounds room
      have ihS := executeBy_renamed hρ rounds room
      cases e with
      | literal value => exact .pure (.of_literal value)
      | grouping inner => exact ihE hframe he
      | unary operator operand =>
          have hoperand : operand.Renamable ρ refers marks := he
          exact (ihE hframe hoperand).bind fun _ _ _ _ hv =>
            ofExcept_renamed (hv.unary operator) operator
      | binary left operator right =>
          exact (ihE hframe he.1).bind fun _ _ _ hW hv => (ihE (hframe.mono hW) he.2).bind
            fun _ _ _ hW' hw => ofExcept_renamed ((hv.mono hW').binary operator hw) operator
      | logical left operator right =>
          refine (ihE hframe he.1).bind fun W' v v' hW hv => ?_
          rw [hv.decides]
          split
          · exact .pure hv
          · exact ihE (hframe.mono hW) he.2
      | read target => exact readName_renamed hframe he
      | readConstant target => exact readName_renamed hframe he
      | assign target value =>
          exact Code.assign_renamed hframe he.1 fun _ hW => ihE (hframe.mono hW) he.2
      | call callee closing arguments =>
          refine (ihE hframe he.1).bind fun W₁ f f' hW₁ hf => ?_
          refine (Code.values_renamed ihE (hframe.mono hW₁) he.2).bind fun W₂ vs vs' hW₂ hvs => ?_
          exact Code.call_renamed hρ (Code.untilReturn_renamed ihS) (hf.mono hW₂) hvs closing
      | get object name =>
          have hobject : object.Renamable ρ refers marks := he
          exact (ihE hframe hobject).bind fun _ _ _ _ hv => Code.getProperty_renamed hv name
      | set object name value =>
          exact (ihE hframe he.1).bind fun _ _ _ hW hv =>
            Code.setProperty_renamed (ihE (hframe.mono hW) he.2) hv name
      | this keyword link =>
          have hkeyword : keyword.lexeme = "this" := he
          exact readName_renamed_of_ne hframe (hkeyword ▸ hρ.old_ne_this.symm)
            (hkeyword ▸ hρ.new_ne_this.symm) link
      | super keyword method link => exact Code.getInherited_renamed hρ hframe keyword method link

/-- Renamed statements are executed alike. -/
theorem executeBy_renamed (hρ : ρ.Proper) (rounds room : Nat) :
    Code.ExecutesAlike ρ refers (executeBy id rounds room) := by
  intro W frame marks s t hframe hs
  match room with
  | 0 => exact .stop _ nofun
  | room + 1 =>
      have ihE := evaluateBy_renamed hρ rounds room
      have ihS := executeBy_renamed hρ rounds room
      cases s with
      | block body =>
          refine (Code.openFrame_renamed _ _ hframe t.ends .nil).bind ?_
          rintro W' _ inner hW ⟨rfl, hinner⟩
          exact Code.untilReturn_renamed ihS hinner hs
      | funDecl declaration =>
          exact (Code.declareFunction_renamed hframe hs.1 hs.2).bind fun _ _ _ _ _ => .pure .none
      | classDecl name parent methods =>
          refine (Code.superclassOf_renamed ihE hframe name hs.2.1).bind ?_
          rintro W' o o' hW ⟨ho, hsome⟩
          have hmethods := hs.2.2
          rw [← hsome] at hmethods ⊢
          exact (Code.declareClass_renamed (hframe.mono hW) hs.1 ho hmethods).bind
            fun _ _ _ _ _ => .pure .none
      | varDecl name initializer =>
          refine (Code.orNil_renamed ihE hframe hs.2).bind fun W' v v' hW hv => ?_
          have h := define_renamed (hframe.mono hW) name.lexeme hv false
          rw [← hs.1.lexeme] at h
          exact h.bind fun _ _ _ _ _ => .pure .none
      | constDecl name initializer =>
          refine (Code.orNil_renamed ihE hframe hs.2).bind fun W' v v' hW hv => ?_
          have h := define_renamed (hframe.mono hW) name.lexeme hv true
          rw [← hs.1.lexeme] at h
          exact h.bind fun _ _ _ _ _ => .pure .none
      | exprStmt expression => exact (ihE hframe hs).bind fun _ _ _ _ _ => .pure .none
      | ifStmt condition thenBranch elseBranch =>
          cases elseBranch with
          | none =>
              refine (ihE hframe hs.1).bind fun W' v v' hW hv => ?_
              rw [hv.isTruthy]
              split
              · exact ihS (hframe.mono hW) hs.2
              · exact .pure .none
          | some other =>
              refine (ihE hframe hs.1).bind fun W' v v' hW hv => ?_
              rw [hv.isTruthy]
              split
              · exact ihS (hframe.mono hW) hs.2.1
              · exact ihS (hframe.mono hW) hs.2.2
      | printStmt expression =>
          refine (ihE hframe hs).bind fun W' v v' hW hv => ?_
          rw [hv.text]
          exact (print_renamed v.text).bind fun _ _ _ _ _ => .pure .none
      | returnStmt keyword value =>
          exact (Code.orNil_renamed ihE hframe hs).map fun _ _ _ hv => .some hv
      | whileStmt condition body =>
          exact Code.repeating_renamed (fun _ hW => ihE (hframe.mono hW) hs.1)
            (fun _ hW => ihS (hframe.mono hW) hs.2) rounds

end

end Run

end Lox

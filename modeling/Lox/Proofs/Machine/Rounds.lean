import Lox.Proofs.Machine.History

/-!
# More rounds

The rounds of loops stand for no limit of the language.  Code that is not interrupted for want of
rounds does the same with any greater number of them.

**Main definition.**
* `Outlasts`: code does what other code does, unless that runs out of rounds.

**Results.**
* `Code.evaluate_outlasts`, `Code.execute_outlasts`: more rounds change no run that is finished.
* `Machine.runProgram_eq_of_le`: the same of whole programs.
-/

namespace Lox

/-- Code does what other code does, unless the other runs out of rounds. -/
def Outlasts
    {α : Type}
    (y x : Run α) : Prop :=
  ∀ m, (∃ m', x m = .error .unfinished m') ∨ y m = x m

namespace Outlasts

variable {α β : Type}

theorem refl (x : Run α) : Outlasts x x :=
  fun _ => .inr rfl

/-- Code after code. -/
theorem bind
    {x y : Run α}
    {f g : α → Run β}
    (hx : Outlasts y x)
    (hf : ∀ a, Outlasts (g a) (f a)) :
    Outlasts (y >>= g) (x >>= f) := by
  intro m
  change (∃ m', EStateM.bind x f m = .error .unfinished m') ∨
    EStateM.bind y g m = EStateM.bind x f m
  rcases hx m with ⟨m', hm'⟩ | heq
  · exact .inl ⟨m', by simp [EStateM.bind, hm']⟩
  · simp only [EStateM.bind, heq]
    cases x m with
    | ok a m' => exact hf a m'
    | error interrupt m' => exact .inr rfl

theorem map
    {x y : Run α}
    (hx : Outlasts y x)
    (f : α → β) :
    Outlasts (f <$> y) (f <$> x) :=
  hx.bind fun _ => .refl _

end Outlasts

namespace Code

theorem untilReturn_outlasts
    {f g : Stmt → Run Completion}
    (h : ∀ s, Outlasts (g s) (f s))
    (body : List Stmt) :
    Outlasts (untilReturn g body) (untilReturn f body) := by
  induction body with
  | nil => exact .refl _
  | cons s rest ih =>
      refine (h s).bind fun completion => ?_
      cases completion with
      | none => exact ih
      | some value => exact .refl _

theorem each_outlasts
    {f g : Stmt → Run Completion}
    (h : ∀ s, Outlasts (g s) (f s))
    (program : List Stmt) :
    Outlasts (each g program) (each f program) := by
  induction program with
  | nil => exact .refl _
  | cons s rest ih => exact (h s).bind fun _ => ih

theorem values_outlasts
    {f g : Expr → Run Value}
    (h : ∀ e, Outlasts (g e) (f e))
    (es : List Expr) :
    Outlasts (values g es) (values f es) := by
  induction es with
  | nil => exact .refl _
  | cons e rest ih => exact (h e).bind fun _ => ih.bind fun _ => .refl _

theorem orNil_outlasts
    {f g : Expr → Run Value}
    (h : ∀ e, Outlasts (g e) (f e))
    (e : Option Expr) :
    Outlasts (orNil g e) (orNil f e) := by
  cases e with
  | none => exact .refl _
  | some e => exact h e

/-- A loop with more rounds goes on where the other is interrupted. -/
theorem repeating_outlasts
    {condition condition' : Run Value}
    {body body' : Run Completion}
    (hcondition : Outlasts condition' condition)
    (hbody : Outlasts body' body)
    {rounds rounds' : Nat}
    (hrounds : rounds ≤ rounds') :
    Outlasts (repeating condition' body' rounds') (repeating condition body rounds) := by
  induction rounds generalizing rounds' with
  | zero => exact fun m => .inl ⟨m, rfl⟩
  | succ rounds ih =>
      obtain ⟨n, rfl⟩ := Nat.exists_eq_add_of_le' hrounds
      refine hcondition.bind fun value => ?_
      split
      · refine hbody.bind fun completion => ?_
        cases completion with
        | none => exact ih (Nat.le_add_left rounds n)
        | some value => exact .refl _
      · exact .refl _

theorem callFunction_outlasts
    {f g : FrameId → List Stmt → Run Completion}
    (h : ∀ frame body, Outlasts (g frame body) (f frame body))
    (closure : Closure)
    (arguments : List Value) :
    Outlasts (callFunction g closure arguments) (callFunction f closure arguments) :=
  (Outlasts.refl _).bind fun _ => (h _ _).bind fun _ => .refl _

theorem call_outlasts
    {f g : FrameId → List Stmt → Run Completion}
    (h : ∀ frame body, Outlasts (g frame body) (f frame body))
    (callee : Value)
    (arguments : List Value)
    (place : Token) :
    Outlasts (call g callee arguments place) (call f callee arguments place) := by
  have hinstantiate (c : ClassObject) :
      Outlasts (instantiate g c arguments) (instantiate f c arguments) := by
    refine (Outlasts.refl _).bind fun made => ?_
    dsimp only
    split
    · exact .refl _
    · exact (Outlasts.refl _).bind fun initializer =>
        (callFunction_outlasts h initializer arguments).bind fun _ => .refl _
  unfold call
  split
  · exact .refl _
  · split
    · cases callee with
      | function closure => exact callFunction_outlasts h closure arguments
      | classObject c => exact hinstantiate c
      | _ => exact .refl _
    · exact .refl _

theorem superclassOf_outlasts
    {f g : Expr → Run Value}
    (h : ∀ e, Outlasts (g e) (f e))
    (name : Token)
    (parent : Option Expr) :
    Outlasts (superclassOf g name parent) (superclassOf f name parent) := by
  cases parent with
  | none => exact .refl _
  | some parent => exact (h parent).bind fun _ => .refl _

theorem assign_outlasts
    {x y : Run Value}
    (h : Outlasts y x)
    (frame : FrameId)
    (target : Reference) :
    Outlasts (assign frame target y) (assign frame target x) := by
  refine (Outlasts.refl _).bind fun constant => ?_
  split
  · exact .refl _
  · exact h.bind fun _ => .refl _

theorem setProperty_outlasts
    {x y : Run Value}
    (h : Outlasts y x)
    (object : Value)
    (name : Token) :
    Outlasts (setProperty object name y) (setProperty object name x) := by
  cases object with
  | object id c => exact h.bind fun _ => .refl _
  | _ => exact .refl _

mutual

/-- An evaluation with more rounds does the same, unless it has run out of rounds with fewer. -/
theorem evaluate_outlasts
    {rounds rounds' : Nat}
    (hrounds : rounds ≤ rounds')
    (room : Nat)
    (frame : FrameId)
    (e : Expr) :
    Outlasts (evaluate rounds' room frame e) (evaluate rounds room frame e) := by
  match room with
  | 0 => exact .refl _
  | room + 1 =>
      have ihE := evaluate_outlasts hrounds room
      have ihS := execute_outlasts hrounds room
      simp only [evaluate]
      refine (Outlasts.refl _).bind fun _ => ?_
      cases e with
      | literal value => exact .refl _
      | grouping inner => exact ihE frame inner
      | unary operator operand => exact (ihE frame operand).bind fun _ => .refl _
      | binary left operator right =>
          exact (ihE frame left).bind fun _ => (ihE frame right).bind fun _ => .refl _
      | logical left operator right =>
          refine (ihE frame left).bind fun value => ?_
          split
          · exact .refl _
          · exact ihE frame right
      | read target => exact .refl _
      | readConstant target => exact .refl _
      | assign target value => exact assign_outlasts (ihE frame value) frame target
      | call callee closing arguments =>
          exact (ihE frame callee).bind fun _ => (values_outlasts (ihE frame) arguments).bind
            fun _ => call_outlasts (fun inner => untilReturn_outlasts (ihS inner)) _ _ _
      | get object name => exact (ihE frame object).bind fun _ => .refl _
      | set object name value =>
          exact (ihE frame object).bind fun _ => setProperty_outlasts (ihE frame value) _ _
      | this keyword link => exact .refl _
      | super keyword method link => exact .refl _

/-- An execution with more rounds does the same, unless it has run out of rounds with fewer. -/
theorem execute_outlasts
    {rounds rounds' : Nat}
    (hrounds : rounds ≤ rounds')
    (room : Nat)
    (frame : FrameId)
    (s : Stmt) :
    Outlasts (execute rounds' room frame s) (execute rounds room frame s) := by
  match room with
  | 0 => exact .refl _
  | room + 1 =>
      have ihE := evaluate_outlasts hrounds room
      have ihS := execute_outlasts hrounds room
      simp only [execute]
      cases s with
      | block body =>
          exact (Outlasts.refl _).bind fun inner => untilReturn_outlasts (ihS inner) body
      | funDecl declaration => exact .refl _
      | classDecl name parent methods =>
          exact (superclassOf_outlasts (ihE frame) name parent).bind fun _ => .refl _
      | varDecl name initializer =>
          exact (orNil_outlasts (ihE frame) initializer).bind fun _ => .refl _
      | constDecl name initializer =>
          exact (orNil_outlasts (ihE frame) initializer).bind fun _ => .refl _
      | exprStmt expression => exact (ihE frame expression).bind fun _ => .refl _
      | ifStmt condition thenBranch elseBranch =>
          refine (ihE frame condition).bind fun value => ?_
          split
          · exact ihS frame thenBranch
          · cases elseBranch with
            | none => exact .refl _
            | some other => exact ihS frame other
      | printStmt expression => exact (ihE frame expression).bind fun _ => .refl _
      | returnStmt keyword value => exact (orNil_outlasts (ihE frame) value).map _
      | whileStmt condition body =>
          exact repeating_outlasts (ihE frame condition) (ihS frame body) hrounds

end

end Code

/-- A run that does not run out of rounds is the same with more of them. -/
theorem Machine.runProgram_eq_of_le
    {limits : Limits}
    {rounds : Nat}
    (hrounds : limits.rounds ≤ rounds)
    {program : List Stmt}
    {m : Machine}
    (h : (m.runProgram limits program).1 ≠ .unfinished) :
    m.runProgram { limits with rounds := rounds } program = m.runProgram limits program := by
  have houtlasts :
      Outlasts (Code.each (Run.execute rounds limits.running globalFrame) program)
        (Code.each (Run.execute limits.rounds limits.running globalFrame) program) :=
    Code.each_outlasts (Code.execute_outlasts hrounds limits.running globalFrame) program
  unfold runProgram at h ⊢
  dsimp only at h ⊢
  rcases houtlasts { m with printed := #[] } with ⟨m', hm'⟩ | heq
  · rw [hm'] at h
    exact absurd rfl h
  · simp only [heq]

end Lox

import Lox.Proofs.Machine.Widen

/-!
# The rule for `for` loops

The tree of a `for` loop consists of blocks and a `while` loop.  The rule says what the loop does
without them: the initializer is run once in a scope of its own, and then the condition, the body
and the increment take turns there.  The block of the tree around body and increment opens a frame
more in every round, and its scope makes the links in them longer.  Both do the same, since nothing
is ever bound in that frame.

**Main definitions.**
* `ForClauses`: the parts of a `for` loop.
* `ForClauses.run`: the rule.

**Results.**
* `ForClauses.tree_widened`: the tree of a loop does what the rule says.
-/

namespace Lox

/-- The first clause of a `for` loop. -/
inductive ForInitializer
  | declaration (name : Token) (value : Option Expr)
  | expression (e : Expr)

/-- The first clause as a statement. -/
def ForInitializer.statement : ForInitializer → Stmt
  | .declaration name value => .varDecl name value
  | .expression e => .exprStmt e

/-- The parts of a `for` loop; the body of a loop is no declaration. -/
structure ForClauses where
  initializer : Option ForInitializer
  condition : Option Expr
  increment : Option Expr
  body : Stmt
  body_not_declaration : body.isDeclaration = false

namespace ForInitializer

/-- A variable is declared after its value has been read. -/
def resolve (c : Context) : ForInitializer → ForInitializer
  | .declaration name value => .declaration name (value.map (Expr.resolve (c.declare name)))
  | .expression e => .expression (e.resolve c)

theorem statement_resolve (first : ForInitializer) (c : Context) :
    (first.resolve c).statement = first.statement.resolve c := by
  cases first <;> rfl

end ForInitializer

namespace ForClauses

/-- The tree that stands for a loop. -/
def tree (clauses : ForClauses) : Stmt :=
  .forLoop (clauses.initializer.map ForInitializer.statement) clauses.condition clauses.increment
    clauses.body

/-- The tree without the first clause. -/
def loop (clauses : ForClauses) : Stmt :=
  .forLoop none clauses.condition clauses.increment clauses.body

/-- What surrounds condition, body and increment: the scope of the initializer, if there is one. -/
def inside (clauses : ForClauses) (c : Context) : Context :=
  match clauses.initializer with
  | none => c
  | some first => first.statement.contextAfter c.inBlock

/--
The clauses with the links of their references; condition, body and increment stand side by side.
-/
def resolve (clauses : ForClauses) (c : Context) : ForClauses where
  initializer := clauses.initializer.map (ForInitializer.resolve c.inBlock)
  condition := clauses.condition.map (Expr.resolve (clauses.inside c))
  increment := clauses.increment.map (Expr.resolve (clauses.inside c))
  body := clauses.body.resolve (clauses.inside c)
  body_not_declaration := by
    rw [Stmt.isDeclaration_resolve]
    exact clauses.body_not_declaration

end ForClauses

namespace Run

/-- The body, and then the increment unless the body has returned. -/
def roundOf (body : Run Completion) (increment : Run Value) : Run Completion := do
  match ← body with
  | some value => pure (some value)
  | none => do
      let _ ← increment
      pure none

/--
Repeats body and increment while a condition holds.  A return in the body ends the loop at once, and
so does an interruption anywhere.
-/
def forRounds
    (condition : Run Value) (body : Run Completion) (increment : Run Value) : Nat → Run Completion
  | 0 => throw .unfinished
  | rounds + 1 => do
      if (← condition).isTruthy then
        match ← body with
        | some value => pure (some value)
        | none => do
            let _ ← increment
            forRounds condition body increment rounds
      else
        pure none

end Run

namespace ForClauses

open Run

/--
The turns of condition, body and increment in a frame.  Without a condition there is no end, and
without an increment nothing is evaluated in its place.  The tree of the loop is deeper than the
rule; the room of each clause is what is left for it there.
-/
def turns (clauses : ForClauses) (rounds room : Nat) (frame : FrameId) : Run Completion :=
  let bodyRoom := if clauses.increment.isSome then room - 1 else room
  forRounds
    (clauses.condition.elim (pure (.boolean true)) (evaluate rounds room frame))
    (execute rounds bodyRoom frame clauses.body)
    (clauses.increment.elim (pure .nil) (evaluate rounds (room - 2) frame))
    rounds

/-- The rule for a loop: one frame for the initializer, and everything else happens there. -/
def run (clauses : ForClauses) (rounds : Nat) : Nat → FrameId → Run Completion
  | 0, _ => overflow
  | room + 1, frame =>
      match clauses.initializer with
      | none => clauses.turns rounds room frame
      | some first => do
          let inner ← newFrame frame []
          let _ ← execute rounds room inner first.statement
          clauses.turns rounds (room - 1) inner

end ForClauses

namespace Run

section Equations

variable
  (rounds room : Nat)
  (frame : FrameId)

theorem execute_block (body : List Stmt) :
    execute rounds (room + 1) frame (.block body) =
      newFrame frame [] >>= fun inner => Code.untilReturn (execute rounds room inner) body := rfl

theorem execute_whileStmt (condition : Expr) (body : Stmt) :
    execute rounds (room + 1) frame (.whileStmt condition body) =
      Code.repeating (evaluate rounds room frame condition)
        (execute rounds room frame body) rounds :=
  rfl

theorem execute_exprStmt (e : Expr) :
    execute rounds (room + 1) frame (.exprStmt e) =
      evaluate rounds room frame e >>= fun _ => pure none := rfl

/-- What is left to do after the last statement of a list. -/
theorem untilReturn_singleton (step : Stmt → Run Completion) (s : Stmt) :
    Code.untilReturn step [s] = step s := by
  have hlast : (fun completion : Completion => match completion with
      | some value => (pure (some value) : Run Completion)
      | none => Code.untilReturn step []) = pure := by
    funext completion
    cases completion <;> rfl
  exact (congrArg (step s >>= ·) hlast).trans (bind_pure _)

/-- The first clause of a loop completes without a return. -/
theorem execute_initializer (first : ForInitializer) :
    execute rounds room frame first.statement =
      execute rounds room frame first.statement >>= fun _ => pure none := by
  cases room with
  | zero => rfl
  | succ room =>
      cases first with
      | declaration name value =>
          have hexecute : execute rounds (room + 1) frame (.varDecl name value) =
              Code.orNil (evaluate rounds room frame) value >>= fun v =>
                Code.bindDeclared frame name v false >>= fun _ => pure none := rfl
          simp only [ForInitializer.statement, hexecute, bind_assoc, pure_bind]
      | expression e =>
          simp only [ForInitializer.statement, execute_exprStmt, bind_assoc, pure_bind]

/-- A loop in a block of its own behind its first clause. -/
theorem execute_initialized (first : ForInitializer) (loop : Stmt) :
    execute rounds (room + 1) frame (.block [first.statement, loop]) =
      newFrame frame [] >>= fun inner =>
        execute rounds room inner first.statement >>= fun _ => execute rounds room inner loop := by
  rw [execute_block]
  refine congrArg (newFrame frame [] >>= ·) (funext fun inner => ?_)
  rw [Code.untilReturn, execute_initializer]
  simp only [bind_assoc, pure_bind, untilReturn_singleton]

/-- Body and increment in a block of their own. -/
theorem execute_round (body : Stmt) (step : Expr) :
    execute rounds (room + 1) frame (.block [body, .exprStmt step]) =
      newFrame frame [] >>= fun inner =>
        roundOf (execute rounds room inner body) (evaluate rounds (room - 1) inner step) := by
  rw [execute_block]
  refine congrArg (newFrame frame [] >>= ·) (funext fun inner => ?_)
  cases room with
  | zero => rfl
  | succ room =>
      refine congrArg (execute rounds (room + 1) inner body >>= ·) (funext fun completion => ?_)
      cases completion with
      | some value => rfl
      | none =>
          dsimp only
          rw [untilReturn_singleton, execute_exprStmt, Nat.add_sub_cancel]

/-- Where nothing is evaluated after the body, a round is the body. -/
theorem roundOf_pure (body : Run Completion) (v : Value) : roundOf body (pure v) = body := by
  have hround : (fun completion : Completion => match completion with
      | some value => (pure (some value) : Run Completion)
      | none => do
          let _ ← (pure v : Run Value)
          pure none) = pure := by
    funext completion
    cases completion <;> rfl
  exact (congrArg (body >>= ·) hround).trans (bind_pure _)

/-- What comes after a round. -/
theorem roundOf_bind
    (body : Run Completion) (increment : Run Value) (f : Completion → Run Completion) :
    roundOf body increment >>= f =
      body >>= fun completion =>
        match completion with
        | some value => f (some value)
        | none => increment >>= fun _ => f none := by
  rw [roundOf, bind_assoc]
  refine congrArg (body >>= ·) (funext fun completion => ?_)
  cases completion with
  | some value => exact pure_bind _ _
  | none =>
      dsimp only
      rw [bind_assoc]
      rfl

/-- The rounds of the rule are those of a loop whose body is the body and the increment. -/
theorem forRounds_eq_repeating
    (condition : Run Value) (body : Run Completion) (increment : Run Value) (rounds : Nat) :
    forRounds condition body increment rounds =
      Code.repeating condition (roundOf body increment) rounds := by
  induction rounds with
  | zero => rfl
  | succ rounds ih =>
      refine congrArg (condition >>= ·) (funext fun v => ?_)
      split
      · rw [roundOf_bind, ← ih]
      · rfl

end Equations

section Simulation

variable
  {W : Pairing}
  {frame frame' : FrameId}

theorem roundOf_widened
    {body body' : Run Completion}
    {increment increment' : Run Value}
    (hbody : Alongside W Completion.Widened body body')
    (hincrement : ∀ W', W <+: W' → Alongside W' Value.Widened increment increment') :
    Alongside W Completion.Widened (roundOf body increment) (roundOf body' increment') := by
  refine hbody.bind fun W' completion completion' hW hcompletion => ?_
  cases hcompletion with
  | some hv => exact .pure (.some hv)
  | none => exact (hincrement W' hW).bind fun _ _ _ _ _ => .pure .none

/-- The block of a round opens a frame more, and its scope is the additional one. -/
theorem execute_round_widened
    (hframe : W.Pairs frame frame' none)
    {body body' : Stmt}
    (hbody : body.Widened (some 0) body')
    {step step' : Expr}
    (hstep : step.Widened (some 0) step')
    (rounds room : Nat) :
    Alongside W Completion.Widened
      (roundOf (execute rounds room frame body) (evaluate rounds (room - 1) frame step))
      (execute rounds (room + 1) frame' (.block [body', .exprStmt step'])) := by
  rw [execute_round]
  refine newFrame_added hframe fun W' inner' hW hinner => ?_
  exact roundOf_widened (execute_widened rounds room hinner hbody) fun W'' hW' =>
    evaluate_widened rounds (room - 1) (hinner.mono hW') hstep

end Simulation

end Run

namespace ForClauses

open Run

/-- What the tree of a loop repeats, where the increment has a block of its own with the body. -/
inductive Round (clauses : ForClauses) : Stmt → Prop
  | plain (hincrement : clauses.increment = none) : Round clauses clauses.body
  | stepped
      {step step' : Expr}
      {body' : Stmt}
      (hincrement : clauses.increment = some step)
      (hstep : step.Widened (some 0) step')
      (hbody : clauses.body.Widened (some 0) body') :
      Round clauses (.block [body', .exprStmt step'])

section Simulation

variable
  {W : Pairing}
  {frame frame' : FrameId}
  {clauses : ForClauses}

/-- Without room neither the rule nor the tree gets beyond the body. -/
theorem turns_zero
    (round : Stmt)
    (rounds : Nat) :
    Alongside W Completion.Widened (clauses.turns rounds 0 frame)
      (execute rounds 1 frame'
        (.whileStmt (clauses.condition.getD (.literal (.boolean true))) round)) := by
  cases rounds with
  | zero => exact .stop .unfinished
  | succ rounds =>
      have hturns : clauses.turns (rounds + 1) 0 frame = overflow := by
        unfold turns
        simp only [Nat.zero_sub, ite_self]
        cases clauses.condition <;> rfl
      rw [hturns]
      exact .stop _

theorem condition_widened
    (hframe : W.Pairs frame frame' none)
    (condition : Option Expr)
    (rounds room : Nat) :
    Alongside W Value.Widened
      (condition.elim (pure (.boolean true)) (evaluate rounds (room + 1) frame))
      (evaluate rounds (room + 1) frame' (condition.getD (.literal (.boolean true)))) := by
  cases condition with
  | none => exact .pure (.boolean true)
  | some e => exact evaluate_widened rounds (room + 1) hframe e.widened_refl

/-- Condition, body and increment take turns as they do in the tree. -/
theorem turns_widened
    (hframe : W.Pairs frame frame' none)
    {round : Stmt}
    (hround : clauses.Round round)
    (rounds room : Nat) :
    Alongside W Completion.Widened (clauses.turns rounds room frame)
      (execute rounds (room + 1) frame'
        (.whileStmt (clauses.condition.getD (.literal (.boolean true))) round)) := by
  cases room with
  | zero => exact turns_zero round rounds
  | succ room =>
      rw [execute_whileStmt, turns, forRounds_eq_repeating]
      refine Code.repeating_widened
        (fun W' hW => condition_widened (hframe.mono hW) clauses.condition rounds room)
        (fun W' hW => ?_) rounds
      cases hround with
      | plain hincrement =>
          rw [hincrement, Option.elim_none, roundOf_pure]
          exact execute_widened rounds (room + 1) (hframe.mono hW) clauses.body.widened_refl
      | stepped hincrement hstep hbody =>
          rw [hincrement, Option.elim_some]
          exact execute_round_widened (hframe.mono hW) hbody hstep rounds room

end Simulation

section Resolution

variable
  {clauses : ForClauses}
  {c : Context}

/-- The innermost scope is not that of a superclass. -/
def Stands (c : Context) : Prop :=
  ∀ scope ∈ c.scopes.head?, scope.standing? "super" = none

theorem tree_eq (clauses : ForClauses) :
    clauses.tree =
      match clauses.initializer with
      | none => clauses.loop
      | some first => .block [first.statement, clauses.loop] := by
  unfold tree loop Stmt.forLoop
  cases clauses.initializer <;> rfl

/-- A loop declares nothing in the scope around it. -/
theorem isDeclaration_tree (clauses : ForClauses) : clauses.tree.isDeclaration = false := by
  rw [tree_eq]
  cases clauses.initializer <;> rfl

theorem asParsed_of_tree (h : clauses.tree.AsParsed) :
    (∀ first ∈ clauses.initializer, first.statement.AsParsed) ∧ clauses.loop.AsParsed := by
  rw [tree_eq] at h
  cases hfirst : clauses.initializer with
  | none =>
      rw [hfirst] at h
      exact ⟨nofun, h⟩
  | some first =>
      rw [hfirst] at h
      refine ⟨?_, h.2.1⟩
      rintro _ ⟨⟩
      exact h.1

theorem asParsed_of_loop (h : clauses.loop.AsParsed) :
    optionAsParsed clauses.increment ∧ clauses.body.AsParsed := by
  unfold loop Stmt.forLoop at h
  cases hincrement : clauses.increment with
  | none =>
      rw [hincrement] at h
      exact ⟨nofun, h.2.2⟩
  | some step =>
      rw [hincrement] at h
      have hround := h.2.2
      refine ⟨?_, hround.1⟩
      rintro _ ⟨⟩
      exact hround.2.1

theorem stands_inside
    (hc : Stands c)
    (h : ∀ first ∈ clauses.initializer, first.statement.AsParsed) :
    Stands (clauses.inside c) := by
  unfold inside
  cases hfirst : clauses.initializer with
  | none => exact hc
  | some first =>
      cases first with
      | declaration name value =>
          have hname : name.IsName := (h _ hfirst).1
          rintro _ ⟨⟩
          simp [Scope.standing?, hname.2]
      | expression e =>
          rintro _ ⟨⟩
          rfl

/-- Inside of a loop its variable shadows what has the same name outside, and nothing else. -/
theorem findScope?_inside
    {name : Token}
    {value : Option Expr}
    (h : clauses.initializer = some (.declaration name value))
    (n : String) :
    findScope? n (clauses.inside c).scopes =
      if name.lexeme = n then some (0, .variable)
      else (findScope? n c.scopes).map fun found => (found.1 + 1, found.2) := by
  have hscopes : (clauses.inside c).scopes = [⟨name.lexeme, .variable⟩] :: c.scopes := by
    rw [inside, h]
    rfl
  rw [hscopes, findScope?]
  by_cases hn : name.lexeme = n <;> simp [Scope.standing?, hn]

/-- Resolution puts the increment and the body into the additional scope. -/
theorem round_resolve
    (h : clauses.loop.AsParsed)
    (hc : Stands (clauses.inside c)) :
    ∃ round, (clauses.resolve c).Round round ∧
      clauses.loop.resolve (clauses.inside c) =
        .whileStmt ((clauses.resolve c).condition.getD (.literal (.boolean true))) round := by
  obtain ⟨hincrement, hbody⟩ := asParsed_of_loop h
  have hcondition : (clauses.condition.getD (.literal (.boolean true))).resolve (clauses.inside c) =
      (clauses.resolve c).condition.getD (.literal (.boolean true)) := by
    unfold resolve
    cases clauses.condition <;> rfl
  have hadded : (clauses.inside c).Widened (some 0) (clauses.inside c).inBlock :=
    ⟨.added hc, rfl, rfl⟩
  unfold loop Stmt.forLoop
  dsimp only
  rw [← hcondition]
  cases hstep : clauses.increment with
  | none =>
      refine ⟨_, .plain ?_, rfl⟩
      simp [resolve, hstep]
  | some step =>
      have hafter := Stmt.contextAfter_of_isDeclaration_eq_false clauses.body_not_declaration hbody
        (clauses.inside c).inBlock
      have hresolved : (clauses.resolve c).increment = some (step.resolve (clauses.inside c)) := by
        simp [resolve, hstep]
      refine ⟨_, .stepped hresolved (step.widened_resolve hadded (hincrement step hstep))
        (clauses.body.widened_resolve hadded hbody fun _ => clauses.body_not_declaration), ?_⟩
      simp only [Stmt.resolve, Stmt.resolveAll, hafter]

end Resolution

section Cases

variable
  {W : Pairing}
  {frame frame' : FrameId}
  {clauses : ForClauses}

/-- The rule without a first clause. -/
theorem run_plain (h : clauses.initializer = none) (rounds room : Nat) :
    clauses.run rounds (room + 1) frame = clauses.turns rounds room frame := by
  rw [run, h]

/-- The rule with a first clause. -/
theorem run_initialized
    {first : ForInitializer}
    (h : clauses.initializer = some first)
    (rounds room : Nat) :
    clauses.run rounds (room + 1) frame =
      newFrame frame [] >>= fun inner =>
        execute rounds room inner first.statement >>= fun _ =>
          clauses.turns rounds (room - 1) inner := by
  rw [run, h]

/-- The block around the first clause and the loop opens the frame of the rule. -/
theorem run_widened_initialized
    (hframe : W.Pairs frame frame' none)
    {first : ForInitializer}
    (h : clauses.initializer = some first)
    {round : Stmt}
    (hround : clauses.Round round)
    (rounds room : Nat) :
    Alongside W Completion.Widened (clauses.run rounds (room + 1) frame)
      (execute rounds (room + 1) frame' (.block [first.statement,
        .whileStmt (clauses.condition.getD (.literal (.boolean true))) round])) := by
  rw [run_initialized h, execute_initialized]
  refine (newFrame_widened hframe .nil).bind fun W' inner inner' hW hinner => ?_
  cases room with
  | zero => exact .stop _
  | succ room =>
      have hstart := execute_widened rounds (room + 1) hinner first.statement.widened_refl
      exact hstart.bind fun _ _ _ hW' _ => turns_widened (hinner.mono hW') hround rounds room

/-- The tree of a loop does what the rule says. -/
theorem tree_widened
    (hframe : W.Pairs frame frame' none)
    (h : clauses.tree.AsParsed)
    {c : Context}
    (hc : Stands c)
    (rounds room : Nat) :
    Alongside W Completion.Widened ((clauses.resolve c).run rounds room frame)
      (execute rounds room frame' (clauses.tree.resolve c)) := by
  obtain ⟨hfirst, hloop⟩ := asParsed_of_tree h
  obtain ⟨round, hround, hsame⟩ := round_resolve hloop (stands_inside hc hfirst)
  cases room with
  | zero => exact .stop _
  | succ room =>
      rw [tree_eq]
      cases hinitializer : clauses.initializer with
      | none =>
          have hinside : clauses.inside c = c := by rw [inside, hinitializer]
          have hnone : (clauses.resolve c).initializer = none := by simp [resolve, hinitializer]
          rw [hinside] at hsame
          dsimp only
          rw [hsame, run_plain hnone]
          exact turns_widened hframe hround rounds room
      | some first =>
          have hinside : clauses.inside c = first.statement.contextAfter c.inBlock := by
            rw [inside, hinitializer]
          have hsome : (clauses.resolve c).initializer = some (first.resolve c.inBlock) := by
            simp [resolve, hinitializer]
          have htree : (Stmt.block [first.statement, clauses.loop]).resolve c =
              .block [(first.resolve c.inBlock).statement,
                .whileStmt ((clauses.resolve c).condition.getD (.literal (.boolean true)))
                  round] := by
            simp only [Stmt.resolve, Stmt.resolveAll, ← hinside, hsame,
              ForInitializer.statement_resolve]
          dsimp only
          rw [htree]
          exact run_widened_initialized hframe hsome hround rounds room

end Cases

end ForClauses

end Lox

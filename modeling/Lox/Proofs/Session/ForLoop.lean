import Lox.Proofs.Machine.ForRule
import Lox.Proofs.Machine.Observed
import Lox.Proofs.Scope.Inheritance
import Lox.Proofs.Session.Course

/-!
# `for` loops of accepted texts

A `for` loop of an accepted text means what the rule for it says.  The parser makes a tree of the
clauses, resolution links the names in the tree, and the tree is executed; the rule has the clauses
side by side, in one scope and in one frame.  No code that is executed later can tell which of the
two has run.

**Results.**
* `Parser.yields_forStatement_tree`: what the parser makes of a `for` loop is the tree of some
  clauses.
* `Session.closed_runAll`: the machine of a session is closed.
* `Session.for_loop_follows_rule`: the tree of a loop and the rule are indistinguishable.
-/

namespace Lox

namespace Parser

section Clauses

variable
  {inner : Parser Expr}
  (hinner : Yields inner fun _ => True)
include hinner

/-- The first clause is absent, a variable or an expression. -/
theorem yields_forInitializer :
    Yields (forInitializer inner) fun first =>
      ∃ initializer : Option ForInitializer, first = initializer.map ForInitializer.statement := by
  have hvariable : Yields (variableDeclaration inner) fun s =>
      ∃ initializer : ForInitializer, s = initializer.statement :=
    yields_seq (yields_expect _ _) fun name => yields_seq (P := fun _ => True)
      (yields_seq (yields_accept _) fun equals => by
        cases equals with
        | none => exact yields_pure trivial
        | some equals => exact yields_map hinner fun _ _ => trivial)
      fun value => yields_seq (yields_expect _ _) fun _ =>
        yields_pure ⟨.declaration name value, rfl⟩
  have hexpression : Yields (expressionStatement inner) fun s =>
      ∃ initializer : ForInitializer, s = initializer.statement :=
    yields_seq hinner fun e => yields_seq (yields_expect _ _) fun _ =>
      yields_pure ⟨.expression e, rfl⟩
  refine yields_seq (yields_accept _) fun t => ?_
  cases t with
  | none =>
      refine yields_map hexpression ?_
      rintro _ ⟨initializer, rfl⟩
      exact ⟨some initializer, rfl⟩
  | some t =>
      dsimp only
      split
      · exact yields_pure ⟨none, rfl⟩
      · refine yields_map hvariable ?_
        rintro _ ⟨initializer, rfl⟩
        exact ⟨some initializer, rfl⟩

theorem yields_unlessAt_any (closing : TokenKind) :
    Yields (unlessAt closing inner) fun _ => True := by
  refine yields_seq (yields_check _) fun closed => ?_
  split
  · exact yields_pure trivial
  · exact yields_map hinner fun _ _ => trivial

/-- What the parser makes of a `for` loop is the tree of its clauses. -/
theorem yields_forStatement_tree
    {branch : Parser Stmt}
    (hbranch : Yields branch fun s => s.isDeclaration = false) :
    Yields (forStatement inner branch) fun s => ∃ clauses : ForClauses, s = clauses.tree := by
  refine yields_seq (yields_expect _ _) fun _ => yields_bind (yields_forInitializer hinner) ?_
  rintro _ ⟨initializer, rfl⟩
  exact yields_seq (yields_unlessAt_any hinner _) fun condition =>
    yields_seq (yields_expect _ _) fun _ =>
    yields_seq (yields_unlessAt_any hinner _) fun increment =>
    yields_seq (yields_expect _ _) fun _ =>
    yields_bind hbranch fun body hbody =>
      yields_pure ⟨⟨initializer, condition, increment, body, hbody⟩, rfl⟩

end Clauses

end Parser

/-- Code stands in the scope of a block or of a function, or in none. -/
def Node.StandsIn (c : Context) : Node → Prop
  | .statement _ => ForClauses.Stands c
  | .statements _ => ForClauses.Stands c
  | _ => True

section Standing

variable
  {program : List Stmt}
  (hprogram : Accepted program)
include hprogram

/-- What a statement declares is no superclass. -/
theorem Reaches.stands_contextAfter
    {p : Site}
    {s : Stmt}
    (hs : Reaches program p (.statement s))
    (hstands : ForClauses.Stands p.context) :
    ForClauses.Stands (s.contextAfter p.context) := by
  have hworded : s.Worded := (hs.every hprogram.worded).here
  unfold ForClauses.Stands at hstands ⊢
  rcases Stmt.scopes_contextAfter (hs.accepted hprogram).2 hworded p.context with
    hsame | ⟨name, standing, hname, hdeclared⟩
  · rwa [hsame]
  · rw [hdeclared]
    cases hscopes : p.context.scopes with
    | nil => rintro _ ⟨⟩
    | cons scope outer =>
        rw [hscopes] at hstands
        rintro _ ⟨⟩
        have hskip : (name.lexeme == "super") = false := by simpa using hname.2
        simpa [Scope.standing?, List.find?_cons, hskip] using hstands scope rfl

/-- The parameters of a function are no superclass either. -/
theorem Reaches.stands_inBody
    {p : Site}
    {routine : Routine}
    {f : FunctionDecl}
    (hf : Reaches program p (.function routine f)) :
    ForClauses.Stands (p.inBody routine f).context := by
  obtain ⟨scope, hscopes, hfree⟩ := Context.scopes_inBody_of_isName p.context routine
    (hf.every hprogram.worded).here
  have hhead : (p.inBody routine f).context.scopes.head? = some scope :=
    congrArg List.head? hscopes
  intro scope' hscope'
  rw [hhead] at hscope'
  obtain rfl := Option.some.inj hscope'
  exact hfree

/-- No statement stands right in the scope of a superclass. -/
theorem Reaches.standsIn
    {p : Site}
    {node : Node}
    (h : Reaches program p node) :
    node.StandsIn p.context := by
  induction h with
  | program => rintro _ ⟨⟩
  | first _ ih => exact ih
  | rest hss ih => exact hss.first.stands_contextAfter hprogram ih
  | block _ _ =>
      rintro _ ⟨⟩
      rfl
  | body hf _ => exact hf.stands_inBody hprogram
  | thenBranch _ ih => exact ih
  | elseBranch hs ih => exact hs.thenBranch.stands_contextAfter hprogram ih
  | loopBody _ ih => exact ih
  | function _ _ => trivial
  | superclass _ _ => trivial
  | method _ _ _ => trivial
  | initializer _ _ _ => trivial
  | own _ _ _ => trivial
  | part _ _ _ => trivial

end Standing

namespace Session

theorem closed_run
    {s : Session}
    (hs : s.machine.Closed)
    (limits : Limits)
    (source : String) :
    (s.run limits source).2.machine.Closed := by
  unfold run
  split
  · exact hs
  · next program _ =>
      have hcleared : Machine.Closed { s.machine with printed := #[] } :=
        ⟨hs.global, hs.frames, hs.fields⟩
      have halong := Code.each_widened (Run.execute_widened limits.rounds limits.running)
        (Pairing.pairs_identity_self hcleared.global) (Stmt.widenedAll_refl program)
      have hleft := halong.closed hcleared
      unfold Run.leaves at hleft
      unfold Machine.runProgram
      dsimp only at hleft ⊢
      split at hleft <;> simp_all

/-- Whatever has been submitted, the machine of a session is closed. -/
theorem closed_runAll (clock : List Float) (submissions : List Submission) :
    (runAll submissions (start clock)).machine.Closed := by
  have hall : ∀ s : Session, s.machine.Closed → (runAll submissions s).machine.Closed := by
    induction submissions with
    | nil => exact fun s hs => hs
    | cons x rest ih => exact fun s hs => ih _ (closed_run hs x.limits x.source)
  exact hall _ (Machine.closed_initial clock)

/--
A `for` loop means what its rule says, wherever it stands in an accepted text and on every closed
machine, as those of sessions are.  The names around the loop are the same before and after it, and
inside of it the variable of the loop shadows its own name and no other.  The tree and the rule
print the same texts, end with the same value or error, leave the same bindings in the frames that
were there before, and no code that is executed in these frames later can tell the two apart.
-/
theorem for_loop_follows_rule
    {limits : Limits}
    {source : String}
    {resolved : List Stmt}
    (hcompile : compile limits source = .ok resolved)
    {p : Site}
    {clauses : ForClauses}
    (hsite : Reaches (statementsOf limits source) p (.statement clauses.tree))
    {m : Machine}
    (hm : m.Closed)
    {frame : FrameId}
    (hframe : frame < m.store.nextId)
    (rounds room : Nat) :
    clauses.tree.contextAfter p.context = p.context
      ∧ (∀ name value, clauses.initializer = some (.declaration name value) →
          ∀ n, findScope? n (clauses.inside p.context).scopes =
            if name.lexeme = n then some (0, .variable)
            else (findScope? n p.context.scopes).map fun found => (found.1 + 1, found.2))
      ∧ Indistinguishable m.store.nextId
          ((clauses.resolve p.context).run rounds room frame m)
          (Run.execute rounds room frame (clauses.tree.resolve p.context) m) := by
  have haccepted := accepted_statementsOf hcompile
  have hparsed : clauses.tree.AsParsed := (hsite.accepted haccepted).2
  have hstands : ForClauses.Stands p.context := hsite.standsIn haccepted
  have hafter := Stmt.contextAfter_of_isDeclaration_eq_false clauses.isDeclaration_tree
    hparsed p.context
  refine ⟨hafter, fun _ _ => ForClauses.findScope?_inside, ?_⟩
  have halong := ForClauses.tree_widened (Pairing.pairs_identity_self hframe) hparsed
    hstands rounds room
  exact (halong m m hm.widened).indistinguishable (List.prefix_refl _)

/-- A loop whose body makes a function that refers to the variable of the loop, and keeps it. -/
def keepingText : String :=
  "for (var i = nil; !i; i = true) \x7b fun g() \x7b print i; \x7d f = g; \x7d"

/-- The clauses of that loop. -/
def keepingLoop : ForClauses where
  initializer := some (.declaration ⟨.identifier, "i", 1⟩ (some (.literal .nil)))
  condition := some (.unary ⟨.bang, "!", 1⟩ (.read ⟨⟨.identifier, "i", 1⟩, .unresolved⟩))
  increment := some (.assign ⟨⟨.identifier, "i", 1⟩, .unresolved⟩ (.literal (.boolean true)))
  body := .block
    [.funDecl ⟨⟨.identifier, "g", 1⟩, [],
      [.printStmt (.read ⟨⟨.identifier, "i", 1⟩, .unresolved⟩)]⟩,
      .exprStmt (.assign ⟨⟨.identifier, "f", 1⟩, .unresolved⟩
        (.read ⟨⟨.identifier, "g", 1⟩, .unresolved⟩))]
  body_not_declaration := rfl

/-- The call of the function that was kept, at the top level. -/
def callKept : LaterCode where
  frame := globalFrame
  rounds := 10
  room := 10
  code := .exprStmt (.call (.read ⟨⟨.identifier, "f", 1⟩, .unresolved⟩) ⟨.rightParen, ")", 1⟩ [])

/--
The function that is kept is called after the loop, and reads what the increment has left there: the
variable is one for all rounds, with the tree as with the rule.
-/
theorem for_loop_follows_rule_kept_function :
    let limits : Limits := ⟨20, 20, 20, 20⟩
    let m := (runAll [⟨limits, "var f;"⟩] (start [])).machine
    statementsOf limits keepingText = [keepingLoop.tree]
      ∧ (∃ resolved, compile limits keepingText = .ok resolved)
      ∧ (observations m.store.nextId [callKept]
          ((keepingLoop.resolve .top).run 10 10 globalFrame m)).map (fun o => o.2.printed) =
        [#[], #["true"]] := by
  dsimp only
  have hprogram : statementsOf ⟨20, 20, 20, 20⟩ keepingText = [keepingLoop.tree] := by cbv
  obtain ⟨resolved, hcompile⟩ :
      ∃ resolved, compile ⟨20, 20, 20, 20⟩ keepingText = .ok resolved := ⟨_, by cbv⟩
  have hsite : Reaches (statementsOf ⟨20, 20, 20, 20⟩ keepingText) .top
      (.statement keepingLoop.tree) := by
    rw [hprogram]
    exact .first .program
  have hm := closed_runAll [] [⟨⟨20, 20, 20, 20⟩, "var f;"⟩]
  obtain ⟨_, _, hsame⟩ := for_loop_follows_rule hcompile hsite hm hm.global 10 10
  refine ⟨hprogram, ⟨resolved, hcompile⟩, ?_⟩
  have hobserved := hsame [callKept] (List.forall_mem_singleton.mpr hm.global)
  refine (congrArg (List.map fun o => o.2.printed) hobserved).symm.trans ?_
  cbv

end Session

end Lox

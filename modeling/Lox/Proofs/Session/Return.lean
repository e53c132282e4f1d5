import Lox.Proofs.Machine.Return
import Lox.Proofs.Machine.Trim
import Lox.Proofs.Scope.Shorten
import Lox.Proofs.Session.Rename

/-!
# Sessions and returns

Nothing after a return runs.  So whatever follows a return in a body can be deleted from a program:
the program still compiles, what remains refers to what it referred to before, and no session can
tell the two programs apart.  A call yields the value of the first return that the body executes.

**Main definition.**
* `Session.trimmed`: a session with all the code that it holds trimmed.

**Results.**
* `Machine.runProgram_trimmed`: a trimmed program does what the program does.
* `Session.received_at`: at any moment of a session the initializers on the machine were made for
  instances.
* `Session.call_yields_at`: what a call in a session yields.
* `Session.nothing_after_return_runs`: shortened programs, and the values of calls.
-/

namespace Lox

section Trimmed

@[simp] theorem Machine.shownGlobals_trimmed (m : Machine) :
    m.trimmed.shownGlobals = m.shownGlobals := by
  have hframe : m.trimmed.store.frame? globalFrame =
      (m.store.frame? globalFrame).map (Frame.mapValues Value.trimmed) :=
    m.store.frame?_mapValues Value.trimmed globalFrame
  simp only [shownGlobals, globals, hframe]
  cases m.store.frame? globalFrame with
  | none => rfl
  | some frame => simp [Frame.mapValues, Slot.mapValue, Function.comp_def]

/-- A trimmed program on a trimmed machine does what the program does on the machine. -/
theorem Machine.runProgram_trimmed (limits : Limits) (program : List Stmt) (m : Machine) :
    m.trimmed.runProgram limits (Stmt.trimmedAll program) =
      ((m.runProgram limits program).1, (m.runProgram limits program).2.trimmed) := by
  have heach := Code.each_mapped
    (Run.execute_mapped limits.rounds limits.running globalFrame) program
    { m with printed := #[] }
  rw [Machine.runProgram_eq_stopped, Machine.runProgram_eq_stopped, Stmt.trimmedAll_eq_map]
  have hsame : ({ m.trimmed with printed := #[] } : Machine) =
      Machine.mapValues Value.trimmed { m with printed := #[] } := rfl
  rw [hsame, heach]
  cases Code.each (Run.execute limits.rounds limits.running globalFrame) program
    { m with printed := #[] } <;> rfl

end Trimmed

namespace Session

/-- A session with all the code that it holds trimmed. -/
def trimmed (s : Session) : Session :=
  ⟨s.machine.trimmed⟩

section Trimmed

variable {s s' : Session}

theorem runCompiled_trimmed (limits : Limits) (program : List Stmt) (s : Session) :
    s.trimmed.runCompiled limits (Stmt.trimmedAll program) =
      ((s.runCompiled limits program).1, (s.runCompiled limits program).2.trimmed) := by
  simp only [runCompiled, trimmed, Machine.runProgram_trimmed]
  rfl

/-- Only trimmed code matters to what a program does in a session. -/
theorem runCompiled_eq_of_trimmed_eq
    (hs : s.trimmed = s'.trimmed)
    (limits : Limits)
    {program program' : List Stmt}
    (h : Stmt.trimmedAll program = Stmt.trimmedAll program') :
    (s.runCompiled limits program).1 = (s'.runCompiled limits program').1
      ∧ (s.runCompiled limits program).2.trimmed = (s'.runCompiled limits program').2.trimmed := by
  have hrun := runCompiled_trimmed limits program s
  rw [hs, h, runCompiled_trimmed] at hrun
  exact ⟨(congrArg Prod.fst hrun).symm, (congrArg Prod.snd hrun).symm⟩

theorem shownGlobals_eq_of_trimmed_eq (hs : s.trimmed = s'.trimmed) :
    s.machine.shownGlobals = s'.machine.shownGlobals := by
  have h := congrArg (fun t : Session => t.machine.shownGlobals) hs
  simpa only [trimmed, Machine.shownGlobals_trimmed] using h

/-- Only trimmed code matters to what texts do in a session. -/
theorem steps_eq_of_trimmed_eq
    (hs : s.trimmed = s'.trimmed)
    (submissions : List Submission) :
    steps submissions s = steps submissions s' := by
  induction submissions generalizing s s' with
  | nil => rfl
  | cons x rest ih =>
      have hrun : (s.run x.limits x.source).1 = (s'.run x.limits x.source).1
          ∧ (s.run x.limits x.source).2.trimmed = (s'.run x.limits x.source).2.trimmed := by
        cases hcompile : compile x.limits x.source with
        | error diagnostics =>
            rw [run_of_compile_eq_error hcompile, run_of_compile_eq_error hcompile]
            exact ⟨rfl, hs⟩
        | ok program =>
            simp only [run_of_compile_eq_ok hcompile]
            exact runCompiled_eq_of_trimmed_eq hs x.limits rfl
      simp only [steps, hrun.1, shownGlobals_eq_of_trimmed_eq hrun.2, ih hrun.2]

end Trimmed

section Received

/-- The initializers on a machine stay proper while a text is run. -/
theorem received_run
    {H : History}
    {s : Session}
    (hs : s.machine.All (Value.Received H))
    (limits : Limits)
    (source : String) :
    ReceivedThroughout H (s.history limits source)
      ∧ (s.run limits source).2.machine.All (Value.Received (H ++ s.history limits source)) := by
  unfold history run
  cases compile limits source with
  | error diagnostics => exact ⟨.nil, by simpa using hs⟩
  | ok program =>
      have hempty : Machine.All (Value.Received H) { s.machine with printed := #[] } :=
        ⟨hs.slots, hs.fields⟩
      have hkeeps : KeepsReceivers (Machine.recordProgram limits program) H
          { s.machine with printed := #[] } fun _ _ => True :=
        Code.keepsReceivers_each (Code.keepsReceivers_execute limits.rounds limits.running) hempty
          program
      dsimp only
      rw [Machine.runProgram_machine]
      exact ⟨hkeeps.moments, hkeeps.final⟩

theorem received_runAll
    {H : History}
    {s : Session}
    (hs : s.machine.All (Value.Received H))
    (submissions : List Submission) :
    ReceivedThroughout H (historyOf submissions s) := by
  induction submissions generalizing H s with
  | nil => exact .nil
  | cons x rest ih =>
      obtain ⟨hmoments, hfinal⟩ := received_run hs x.limits x.source
      exact hmoments.append (ih hfinal)

/-- At any moment of a session the initializers on the machine were made for instances. -/
theorem received_at
    {clock : List Float}
    {submissions : List Submission}
    {A B : History}
    {y : Moment}
    (h : historyOf submissions (start clock) = A ++ y :: B) :
    y.machine.All (Value.Received A) := by
  have hstart : (start clock).machine.All (Value.Received []) := by
    have hsound := sound_initial (fun _ => False) clock
    exact ⟨fun f name slot hslot => Code.received_of_valueFits (hsound.slots f name slot hslot),
      fun id name v hv => Code.received_of_valueFits (hsound.fields id name v hv)⟩
  simpa using received_runAll hstart submissions A y B h

end Received

/-- Whenever a call is evaluated, it yields what the call of its callee yields. -/
theorem call_yields_at
    {clock : List Float}
    {submissions : List Submission}
    {A B : History}
    {x : Moment}
    (hhistory : historyOf submissions (start clock) = A ++ x :: B)
    {frame : FrameId}
    {callee : Expr}
    {closing : Token}
    {arguments : List Expr}
    (hact : x.act = .evaluates frame (.call callee closing arguments))
    {rounds room : Nat}
    {f : Value}
    {vs : List Value}
    {m₁ m₂ : Machine}
    (hf : Run.evaluate rounds room frame callee x.machine = .ok f m₁)
    (hvs : Code.values (Run.evaluate rounds room frame) arguments m₁ = .ok vs m₂)
    (harity : f.arity? = some vs.length) :
    CallYields rounds room f vs m₂
      (Run.evaluate rounds (room + 1) frame (.call callee closing arguments) x.machine) := by
  have hreceived := received_at hhistory
  have hcourse := course_start clock submissions
  rw [hhistory] at hcourse
  obtain ⟨_, hfine, _⟩ := hcourse.split
  rw [List.nil_append] at hfine
  have hsound := hfine.sound
  obtain ⟨program, p, source, haccepts, hreaches, hsource, hpresent⟩ := hfine.evaluates frame _ hact
  cases source with
  | call callee' closing' arguments' =>
      obtain ⟨rfl, rfl, rfl⟩ := Expr.call.inj hsource
      have hall : ∀ program, Accepts submissions program → Accepted program :=
        fun _ h => h.accepted
      have hstands := hpresent.stands (by simp)
      have hwell := runsWell hall rounds room
      -- the callee is evaluated first, and then the arguments
      let first : Recorded Value := Code.evaluate rounds room frame (callee'.resolve p.context)
      have hfirst : (first x.machine).2 = .ok f m₁ :=
        (congrFun (Code.recorded_evaluate rounds room frame _) x.machine).trans hf
      have hkeeps₁ := hwell.1 haccepts (hreaches.part (List.mem_cons_self ..)) hsound
        (.here hstands)
      have hlater₁ := hkeeps₁.later hfirst
      have hreceives₁ := Code.keepsReceivers_evaluate rounds room hreceived frame
        (callee'.resolve p.context)
      let second : Recorded (List Value) :=
        Code.values (Code.evaluate rounds room frame) (Expr.resolveAll p.context arguments')
      have hsecond : (second m₁).2 = .ok vs m₂ := by
        have hrun := Code.run_values (Code.evaluate rounds room frame)
          (Expr.resolveAll p.context arguments')
        rw [show (fun e => (Code.evaluate rounds room frame e : Recorded Value).run) =
          Run.evaluate rounds room frame from
            funext (Code.recorded_evaluate rounds room frame)] at hrun
        exact (congrFun hrun m₁).trans hvs
      have hkeeps₂ := keeps_values hwell.1 haccepts
        (fun e he => hreaches.part (List.mem_cons_of_mem callee' he)) hlater₁.sound
        (hlater₁.stands hsound (fun h => h) hstands)
      have hlater₂ := hkeeps₂.later hsecond
      have hcall := Code.call_yields hall hlater₂.sound (hkeeps₂.result vs m₂ hsecond)
        (hlater₂.value (hkeeps₁.result f m₁ hfirst))
        ((hreceives₁.result f m₁ hfirst).later (List.prefix_append _ _)) harity closing rounds room
      have hrun : Run.evaluate rounds (room + 1) frame
          (.call (callee'.resolve p.context) closing (Expr.resolveAll p.context arguments'))
          x.machine =
          Code.call (fun inner => Code.untilReturn (Run.execute rounds room inner)) f vs closing
            m₂ := by
        change (Run.evaluate rounds room frame (callee'.resolve p.context) >>= fun f =>
          Code.values (Run.evaluate rounds room frame) (Expr.resolveAll p.context arguments') >>=
            fun vs => Code.call (fun inner => Code.untilReturn (Run.execute rounds room inner)) f vs
              closing) x.machine = _
        rw [Run.bind_of_ok hf, Run.bind_of_ok hvs]
      rw [hrun]
      exact hcall
  | _ => cases hsource

/--
Nothing after a return runs.  Let a body of a compiled program have a return, and delete all
statements after it.  The shortened program compiles, and its links are those of the program for all
that remains. In every session it has the outcome of the program and leaves the same globals, and
all later texts do the same after both.

Whenever a call is evaluated, it yields the value of the first return that the body executes,
however many blocks, branches and loops are around the return, and `nil` without one.  An
initializer yields the instance for which it was made.
-/
theorem nothing_after_return_runs :
    (∀ {limits : Limits} {source : String} {program : List Stmt},
      compile limits source = .ok program →
        ∀ {trail : List Nat} {body : List Stmt} {i : Nat},
          bodyOf? trail program = some body → ReturnsAt i body →
            let shortened := shortenBody trail (i + 1) program
            let parsed := shortenBody trail (i + 1) (statementsOf limits source)
            (errorsWithin (some limits.checking) parsed = []
                ∧ resolveProgram parsed = shortened
                ∧ ∀ source' : String, (scan source').errors = [] →
                  (Parse.within limits.parsing (scan source').tokens).errors = [] →
                  statementsOf limits source' = parsed → compile limits source' = .ok shortened)
              ∧ ∀ (bounds : Limits) (s : Session),
                let result := s.runCompiled bounds program
                let result' := s.runCompiled bounds shortened
                result'.1 = result.1
                  ∧ result'.2.machine.shownGlobals = result.2.machine.shownGlobals
                  ∧ ∀ later : List Submission, steps later result'.2 = steps later result.2)
      ∧ ∀ {clock : List Float} {submissions : List Submission} {A B : History} {x : Moment},
        historyOf submissions (start clock) = A ++ x :: B →
          ∀ {frame : FrameId} {callee : Expr} {closing : Token} {arguments : List Expr},
            x.act = .evaluates frame (.call callee closing arguments) →
              ∀ {rounds room : Nat} {f : Value} {vs : List Value} {m₁ m₂ : Machine},
                Run.evaluate rounds room frame callee x.machine = .ok f m₁ →
                Code.values (Run.evaluate rounds room frame) arguments m₁ = .ok vs m₂ →
                f.arity? = some vs.length →
                  CallYields rounds room f vs m₂
                    (Run.evaluate rounds (room + 1) frame (.call callee closing arguments)
                      x.machine) := by
  refine ⟨fun {limits source program} hcompile {trail body i} hbody hreturn => ?_, call_yields_at⟩
  obtain ⟨hresolved, -, hclean⟩ := compile_eq_ok hcompile
  have herrors : errorsWithin (some limits.checking)
      (shortenBody trail (i + 1) (statementsOf limits source)) = [] := by
    have hsublist := errorsAll_shortenBody (i + 1) trail (statementsOf limits source)
      (some limits.checking)
    rw [upToNesting_eq_nil.mp hclean] at hsublist
    exact upToNesting_eq_nil.mpr (List.sublist_nil.mp hsublist)
  have hlinks : resolveProgram (shortenBody trail (i + 1) (statementsOf limits source)) =
      shortenBody trail (i + 1) program := by
    rw [resolveProgram_shortenBody, ← hresolved]
  refine ⟨⟨herrors, hlinks, fun source' hscan hparse hsame => ?_⟩, fun bounds s => ?_⟩
  · exact compile_eq_ok_iff.mpr ⟨hscan, hparse, hsame ▸ herrors, hsame ▸ hlinks.symm⟩
  · obtain ⟨houtcome, hsession⟩ := runCompiled_eq_of_trimmed_eq (s := s) rfl bounds
      (trimmedAll_shortenBody hbody hreturn)
    exact ⟨houtcome, shownGlobals_eq_of_trimmed_eq hsession, steps_eq_of_trimmed_eq hsession⟩

open Unwinding in
/--
The return stands in a loop, and a statement follows it in the body of the loop.  The call yields
what the return brings, with the statement and without it.
-/
theorem nothing_after_return_runs_in_loop :
    let limits : Limits := ⟨20, 20, 20, 20⟩
    let source := "fun f() \x7b while (true) \x7b return true; print nil; \x7d \x7d print f();"
    let source' := "fun f() \x7b while (true) \x7b return true; \x7d \x7d print f();"
    let callee : Expr := .read ⟨⟨.identifier, "f", 1⟩, .unresolved⟩
    (∃ program, compile limits source = .ok program
        ∧ compile limits source' = .ok (shortenBody [0, 0, 0] 1 program))
      ∧ ((start []).run limits source').1 = ((start []).run limits source).1
      ∧ ((start []).run limits source).1 = .ran ["true"] .finished
      ∧ ∃ (x : Moment) (f : Closure) (m : Machine),
        x.act = .evaluates globalFrame (.call callee ⟨.rightParen, ")", 1⟩ [])
          ∧ Run.evaluate 20 10 globalFrame callee x.machine = .ok (.function f) m
          ∧ Run.evaluate 20 11 globalFrame (.call callee ⟨.rightParen, ")", 1⟩ []) x.machine =
            ((fun completion => completion.getD .nil) <$> runBody 20 10 f []) m := by
  dsimp only
  have hcompile : ∃ program body,
      compile ⟨20, 20, 20, 20⟩
          "fun f() \x7b while (true) \x7b return true; print nil; \x7d \x7d print f();" =
            .ok program
        ∧ bodyOf? [0, 0, 0] program = some body
        ∧ ReturnsAt 0 body
        ∧ statementsOf ⟨20, 20, 20, 20⟩
            "fun f() \x7b while (true) \x7b return true; \x7d \x7d print f();" =
          shortenBody [0, 0, 0] 1 (statementsOf ⟨20, 20, 20, 20⟩
            "fun f() \x7b while (true) \x7b return true; print nil; \x7d \x7d print f();") :=
    ⟨_, _, by cbv, by cbv, ⟨_, _, rfl⟩, by cbv⟩
  obtain ⟨program, body, hprogram, hbody, hreturn, hsame⟩ := hcompile
  obtain ⟨⟨-, -, htext⟩, hruns⟩ := nothing_after_return_runs.1 hprogram hbody hreturn
  have hshortened := htext _ (by cbv) (by cbv) hsame
  have hcall : ∃ (x : Moment) (f : Closure) (m : Machine),
      (historyOf [⟨⟨20, 20, 20, 20⟩,
          "fun f() \x7b while (true) \x7b return true; print nil; \x7d \x7d print f();"⟩]
        (start []))[1]? = some x
        ∧ x.act = .evaluates globalFrame
          (.call (.read ⟨⟨.identifier, "f", 1⟩, .unresolved⟩) ⟨.rightParen, ")", 1⟩ [])
        ∧ Run.evaluate 20 10 globalFrame (.read ⟨⟨.identifier, "f", 1⟩, .unresolved⟩) x.machine =
          .ok (.function f) m
        ∧ f.isInitializer = false ∧ f.declaration.arity = 0 :=
    ⟨_, _, _, by cbv, by cbv, by cbv, by cbv, by cbv⟩
  obtain ⟨x, f, m, hx, hact, hf, hplain, harity⟩ := hcall
  obtain ⟨A, B, hhistory⟩ := List.append_of_mem (List.mem_of_getElem? hx)
  have hvs : Code.values (Run.evaluate 20 10 globalFrame) [] m = .ok [] m := rfl
  have hyields := nothing_after_return_runs.2 hhistory hact hf hvs (congrArg some harity)
  simp only [CallYields, hplain] at hyields
  refine ⟨⟨program, hprogram, hshortened⟩, ?_, by cbv, x, f, m, hact, hf, hyields⟩
  rw [run_of_compile_eq_ok hprogram, run_of_compile_eq_ok hshortened]
  exact (hruns ⟨20, 20, 20, 20⟩ (start [])).1

end Session

end Lox

import Lox.Proofs.Scope.Relabel
import Lox.Proofs.Session.Course
import Lox.Proofs.Session.Relabel
import Lox.Proofs.Token.Joined
import Lox.Proofs.Tree.Joined

/-!
# Running piece by piece

Two texts can be submitted one after the other, or at once with a line break between them.  At once,
the second text stands farther down, and that is all the difference: the program of both is the
program of the first with the program of the second behind it.

**Lines.**  An error of a run stands on the line of a token, which is one of the second text or one
of a text before it.  To tell them apart, the second text is run with all lines marked.  Of this one
run, both runs proper are images, in which the marks are taken off and the marked lines moved.

**Main definition.**
* `Session.runMarked`: a run with the lines of its own program marked.

**Results.**
* `compile_joined`: the program of two texts at once.
* `Session.run_joined`: two texts at once do what they do one after the other.
-/

namespace Lox

namespace Relabeling

/-- The mark of lines that were there before. -/
def earlier : Relabeling := .lines fun line => 2 * line

/-- The mark of lines that are added. -/
def later : Relabeling := .lines fun line => 2 * line + 1

/-- Takes the marks off and moves the lines that were added down. -/
def placed (lines : Nat) : Relabeling :=
  .lines fun line => if line % 2 = 0 then line / 2 else line / 2 + lines

theorem placed_comp_earlier (lines : Nat) : (placed lines).comp earlier = .none := by
  have hline : (placed lines).line ∘ earlier.line = id := by
    funext line
    change (if 2 * line % 2 = 0 then 2 * line / 2 else 2 * line / 2 + lines) = line
    rw [if_pos (by omega)]
    omega
  rw [comp, hline]
  rfl

theorem placed_comp_later (lines : Nat) : (placed lines).comp later = .down lines := by
  have hline : (placed lines).line ∘ later.line = fun line : Int => line + lines := by
    funext line
    change (if (2 * line + 1) % 2 = 0 then (2 * line + 1) / 2 else (2 * line + 1) / 2 + lines) =
      line + lines
    rw [if_neg (by omega)]
    omega
  rw [comp, hline]
  rfl

theorem down_zero : down 0 = .none := by
  have hline : (fun line : Int => line + (0 : Nat)) = id := by
    funext line
    simp
  rw [down, lines, hline]
  rfl

end Relabeling

/-- The statements of two programs are run one after the other. -/
theorem Code.each_append
    (step : Stmt → Run Completion)
    (p q : List Stmt) :
    (Code.each step (p ++ q) : Run Unit) = (do Code.each step p; Code.each step q) := by
  induction p with
  | nil => rfl
  | cons s rest ih =>
      simp only [List.cons_append, Code.each, ih, bind_assoc]

/-- Two texts that compile also compile at once, and the second is moved down. -/
theorem compile_joined
    {limits : Limits}
    {first second : String}
    {p q : List Stmt}
    (hfirst : compile limits first = .ok p)
    (hsecond : compile limits second = .ok q) :
    compile limits (joined first second) =
      .ok (p ++ q.map (Stmt.relabel (.down (1 + lineBreaks first)))) := by
  obtain ⟨hscan₁, hparse₁, herrors₁, rfl⟩ := compile_eq_ok_iff.mp hfirst
  obtain ⟨hscan₂, hparse₂, herrors₂, rfl⟩ := compile_eq_ok_iff.mp hsecond
  obtain ⟨htokens, hscan⟩ := scan_joined hscan₁ second
  have hparse := Parse.within_joined (g := .down (1 + lineBreaks first)) rfl hparse₁ hparse₂
  rw [← htokens] at hparse
  have hstatements : statementsOf limits (joined first second) =
      statementsOf limits first ++
        (statementsOf limits second).map (Stmt.relabel (.down (1 + lineBreaks first))) :=
    congrArg Parse.statements hparse
  refine compile_eq_ok_iff.mpr ⟨?_, congrArg Parse.errors hparse, ?_, ?_⟩
  · rw [hscan, hscan₂, List.map_nil]
  · rw [hstatements, errorsWithin_append, errorsWithin_relabel, herrors₂, List.map_nil]
    exact ⟨herrors₁, rfl⟩
  · rw [hstatements, resolveProgram_append, Relabeling.down, resolveProgram_relabel]

namespace Session

/-- The run of a program with its own lines marked and all earlier lines marked as such. -/
def runMarked (limits : Limits) (program : List Stmt) (s : Session) : Ending × Machine :=
  (s.machine.relabel .earlier).runProgram limits (program.map (Stmt.relabel .later))

/--
A program that is moved down and run with texts printed before does what its marked run does, once
the marks are taken off.
-/
theorem stopped_runMarked
    (limits : Limits)
    (program : List Stmt)
    (lines : Nat)
    (m : Machine) :
    Machine.stopped (Code.each (Run.execute limits.rounds limits.running globalFrame)
        (program.map (Stmt.relabel (.down lines))) m) =
      (((runMarked limits program ⟨m⟩).1).relabel (.placed lines),
        ((runMarked limits program ⟨m⟩).2.relabel (.placed lines)).after m.printed) := by
  have hrun := Code.each_relabels (.placed lines)
    (fun s => Run.execute_relabels _ limits.rounds limits.running globalFrame s)
    (program.map (Stmt.relabel .later)) m.printed
    ({ m with printed := #[] }.relabel .earlier)
  have hmachine : (({ m with printed := #[] }.relabel .earlier).relabel (.placed lines)).after
      m.printed = m := by
    rw [Machine.relabel_relabel, Relabeling.placed_comp_earlier, Machine.relabel_none]
    simp [Machine.after]
  have hprogram : (program.map (Stmt.relabel .later)).map (Stmt.relabel (.placed lines)) =
      program.map (Stmt.relabel (.down lines)) := by
    rw [List.map_map, ← Relabeling.placed_comp_later]
    exact List.map_congr_left fun s _ => s.relabel_relabel _ _
  rw [hmachine, hprogram] at hrun
  rw [hrun, Machine.stopped_relabel, runMarked, Machine.runProgram_eq_stopped]
  rfl

/-- The same for a program where it stands, with nothing printed before. -/
theorem runProgram_eq_runMarked
    (limits : Limits)
    (program : List Stmt)
    (s : Session) :
    s.machine.runProgram limits program =
      ((runMarked limits program s).1.relabel (.placed 0),
        (runMarked limits program s).2.relabel (.placed 0)) := by
  have hdown : program.map (Stmt.relabel (.down 0)) = program := by
    rw [Relabeling.down_zero]
    exact (List.map_congr_left fun s _ => s.relabel_none).trans (List.map_id program)
  have hrun := stopped_runMarked limits program 0 { s.machine with printed := #[] }
  rw [hdown] at hrun
  rw [Machine.runProgram_eq_stopped, hrun]
  refine congrArg (Prod.mk _) ?_
  exact congrArg (Machine.mk _ _ _ _) (Array.empty_append)

/--
Two texts that compile also compile at once, and at once they do what they do one after the other.

If the first run is not finished, nothing of the second text runs, and everything is as after the
first run.  If it is finished, both texts at once print what the two runs print and end as the
second run ends, and the globals are the same.  The two endings, and all code that is kept, come
from one marked run, in which the lines of the second text are moved by those above it.
-/
theorem run_joined
    (limits : Limits)
    (s : Session)
    {first second : String}
    {p q : List Stmt}
    (hfirst : compile limits first = .ok p)
    (hsecond : compile limits second = .ok q) :
    let lines := 1 + lineBreaks first
    compile limits (joined first second) = .ok (p ++ q.map (Stmt.relabel (.down lines)))
      ∧ ∃ (printed : List String) (ending : Ending) (s₁ : Session),
        s.run limits first = (.ran printed ending, s₁)
          ∧ (ending ≠ .finished → s.run limits (joined first second) = (.ran printed ending, s₁))
          ∧ (ending = .finished →
            let marked := runMarked limits q s₁
            let printed' := marked.2.printed.toList
            s₁.run limits second =
                (.ran printed' (marked.1.relabel (.placed 0)), ⟨marked.2.relabel (.placed 0)⟩)
              ∧ s.run limits (joined first second) =
                (.ran (printed ++ printed') (marked.1.relabel (.placed lines)),
                  ⟨(marked.2.relabel (.placed lines)).after printed.toArray⟩)
              ∧ (s.run limits (joined first second)).2.machine.shownGlobals =
                (s₁.run limits second).2.machine.shownGlobals) := by
  intro lines
  have hjoined : compile limits (joined first second) =
      .ok (p ++ q.map (Stmt.relabel (.down lines))) := compile_joined hfirst hsecond
  set step := Run.execute limits.rounds limits.running globalFrame with hstep
  have hwhole : s.machine.runProgram limits (p ++ q.map (Stmt.relabel (.down lines))) =
      Machine.stopped (EStateM.bind (Code.each step p)
        (fun _ => Code.each step (q.map (Stmt.relabel (.down lines))))
        { s.machine with printed := #[] }) := by
    rw [Machine.runProgram_eq_stopped, ← hstep, Code.each_append]
    rfl
  have hfirstRun : s.machine.runProgram limits p =
      Machine.stopped (Code.each step p { s.machine with printed := #[] }) :=
    Machine.runProgram_eq_stopped limits p s.machine
  refine ⟨hjoined, ?_⟩
  simp only [run, hfirst, hsecond, hjoined, hwhole, hfirstRun, EStateM.bind]
  cases Code.each step p { s.machine with printed := #[] } with
  | error interrupt m =>
      refine ⟨m.printed.toList, interrupt.ending, ⟨m⟩, rfl, fun _ => rfl, fun hfinished => ?_⟩
      cases interrupt <;> cases hfinished
  | ok _ m =>
      refine ⟨m.printed.toList, .finished, ⟨m⟩, rfl, fun h => absurd rfl h, fun _ => ?_⟩
      have hsecondRun := runProgram_eq_runMarked limits q ⟨m⟩
      have hjoinedRun := stopped_runMarked limits q lines m
      rw [← hstep] at hjoinedRun
      refine ⟨?_, ?_, ?_⟩
      · rw [hsecondRun]
        rfl
      · rw [hjoinedRun]
        simp [Machine.after, Machine.relabel]
      · rw [hjoinedRun, hsecondRun]
        simp

/-- An error in the second of two texts stands farther down if both are submitted at once. -/
theorem run_joined_moved_error :
    let limits : Limits := ⟨20, 20, 20, 20⟩
    let first := "print nil; // a"
    let second := "\nprint a;"
    ∃ s₁ : Session,
      (start []).run limits first = (.ran ["nil"] .finished, s₁)
        ∧ (s₁.run limits second).1 = .ran [] (.failed ⟨.undefinedVariable "a", some 2⟩)
        ∧ ((start []).run limits (joined first second)).1 =
          .ran ["nil"] (.failed ⟨.undefinedVariable "a", some 3⟩)
        ∧ ((start []).run limits (joined first second)).2.machine.shownGlobals =
          (s₁.run limits second).2.machine.shownGlobals := by
  intro limits first second
  have hfirst : ∃ p, compile limits first = .ok p := ⟨_, by cbv⟩
  have hsecond : ∃ q, compile limits second = .ok q := ⟨_, by cbv⟩
  obtain ⟨p, hfirst⟩ := hfirst
  obtain ⟨q, hsecond⟩ := hsecond
  obtain ⟨_, printed, ending, s₁, hrun, _, hfinished⟩ := run_joined limits (start []) hfirst hsecond
  have hends : ((start []).run limits first).1 = .ran ["nil"] .finished := by cbv
  have hlast : ((((start []).run limits first).2).run limits second).1 =
      .ran [] (.failed ⟨.undefinedVariable "a", some 2⟩) := by cbv
  have hmarked : ((compile limits second).toOption.map fun q =>
      (runMarked limits q ((start []).run limits first).2).1) =
        some (.failed ⟨.undefinedVariable "a", some 5⟩) := by cbv
  rw [hrun] at hends hlast hmarked
  rw [hsecond] at hmarked
  have hending : (runMarked limits q s₁).1 = .failed ⟨.undefinedVariable "a", some 5⟩ :=
    Option.some.inj hmarked
  obtain ⟨rfl, rfl⟩ := Outcome.ran.inj hends
  obtain ⟨hseparate, hjoined, hglobals⟩ := hfinished rfl
  refine ⟨s₁, hrun, hlast, ?_, hglobals⟩
  rw [hseparate] at hlast
  obtain ⟨hprinted, _⟩ := Outcome.ran.inj hlast
  rw [hjoined, hprinted, hending]
  have hlines : lineBreaks first = 0 := by cbv
  rw [hlines]
  rfl

end Session
end Lox

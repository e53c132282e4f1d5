import Lox.Proofs.Machine.Rounds
import Lox.Proofs.Session.Course

/-!
# How accepted texts end

A text that is accepted runs to its end, runs for ever, or ends with one error: a fault that the
language foresees, at a line of a text.  (Want of room for nested calls and nodes is the only other
one.)  The faults that would tell of a mistake in the compilation are never met.

**Results.**
* `Session.ends_as_documented`: all endings of accepted texts, in any session.
-/

namespace Lox
namespace Session

/-- After some texts, and before the next, every value of the machine fits. -/
theorem sound_runAll
    (clock : List Float)
    (submissions : List Submission)
    {accepted : List Stmt → Prop}
    (hall : ∀ program, accepted program → Accepted program)
    (haccepted : ∀ program, Accepts submissions program → accepted program) :
    Sound accepted (historyOf submissions (start clock))
      (runAll submissions (start clock)).machine :=
  (course_runAll hall haccepted (sound_initial accepted clock)).2

/-- An accepted text is interrupted as expected, if it is interrupted. -/
theorem expected_run
    {clock : List Float}
    {submissions : List Submission}
    {limits : Limits}
    {source : String}
    {program : List Stmt}
    (hcompile : compile limits source = .ok program)
    {interrupt : Interrupt}
    {m : Machine}
    (hrun : (Machine.recordProgram limits program
      { (runAll submissions (start clock)).machine with printed := #[] }).2 =
        .error interrupt m) :
    interrupt.Expected (Accepts (submissions ++ [⟨limits, source⟩]))
      (historyOf (submissions ++ [⟨limits, source⟩]) (start clock)) := by
  have hall : ∀ program, Accepts (submissions ++ [⟨limits, source⟩]) program → Accepted program :=
    fun _ h => h.accepted
  have hearlier : ∀ program, Accepts submissions program →
      Accepts (submissions ++ [⟨limits, source⟩]) program := fun _ ⟨x, hx, h⟩ =>
    ⟨x, List.mem_append_left _ hx, h⟩
  have hlast : Accepts (submissions ++ [⟨limits, source⟩]) (statementsOf limits source) :=
    ⟨⟨limits, source⟩, by simp, rfl, program, hcompile⟩
  have hsound : Sound (Accepts (submissions ++ [⟨limits, source⟩]))
      (historyOf submissions (start clock))
      { (runAll submissions (start clock)).machine with printed := #[] } :=
    (sound_runAll clock submissions hall hearlier).congr rfl rfl
  obtain ⟨rfl, _⟩ := compile_eq_ok hcompile
  have hexpected := (keeps_program hall limits hlast hsound).stops interrupt m hrun
  rw [historyOf_append]
  simpa [historyOf, history, hcompile, Machine.history] using hexpected

/--
A text that compiles does not terminate, or else ends in one way, given enough rounds: it is
finished, or it wants more room, or it fails with a fault that the language foresees, at some line.
That a superclass is no class is found by a class declaration that has just evaluated its
superclass.
-/
theorem ends_as_documented
    {clock : List Float}
    {submissions : List Submission}
    {limits : Limits}
    {source : String}
    {program : List Stmt}
    (hcompile : compile limits source = .ok program) :
    (∀ rounds, ∃ printed s',
        (runAll submissions (start clock)).run { limits with rounds := rounds } source =
          (.ran printed .unfinished, s'))
      ∨ ∃ enough printed ending s',
          (∀ rounds ≥ enough,
            (runAll submissions (start clock)).run { limits with rounds := rounds } source =
              (.ran printed ending, s'))
            ∧ (ending = .finished
              ∨ ending = .failed ⟨.stackOverflow, none⟩
              ∨ ∃ fault line,
                  ending = .failed ⟨fault, some line⟩
                    ∧ fault.Documented
                    ∧ (fault = .superclassNotClass →
                      let all := submissions ++ [⟨{ limits with rounds := enough }, source⟩]
                      ∃ inherited, line = inherited.line
                        ∧ EndsAtSuperclass (Accepts all) (historyOf all (start clock))
                            inherited)) := by
  have hcompile' : ∀ rounds, compile { limits with rounds := rounds } source = .ok program :=
    fun _ => hcompile
  have hrun : ∀ rounds, (runAll submissions (start clock)).run { limits with rounds := rounds }
      source =
        let result := (runAll submissions (start clock)).machine.runProgram
          { limits with rounds := rounds } program
        (.ran result.2.printed.toList result.1, ⟨result.2⟩) := by
    intro rounds
    simp only [run, hcompile']
  by_cases hends : ∀ rounds, ((runAll submissions (start clock)).machine.runProgram
      { limits with rounds := rounds } program).1 = .unfinished
  · refine .inl fun rounds => ?_
    rw [hrun rounds]
    dsimp only
    rw [hends rounds]
    exact ⟨_, _, rfl⟩
  · obtain ⟨enough, henough⟩ := not_forall.mp hends
    generalize hresult : (runAll submissions (start clock)).machine.runProgram
      { limits with rounds := enough } program = result at henough
    refine .inr ⟨enough, result.2.printed.toList, result.1, ⟨result.2⟩,
      fun rounds hrounds => ?_, ?_⟩
    · have heq := @Machine.runProgram_eq_of_le { limits with rounds := enough } _ hrounds _ _
        (hresult ▸ henough)
      rw [hrun rounds, ← hresult, ← heq]
    · rw [Machine.runProgram_eq] at hresult
      cases hrecord : (Machine.recordProgram { limits with rounds := enough } program
        { (runAll submissions (start clock)).machine with printed := #[] }).2 with
      | ok _ m =>
          rw [hrecord] at hresult
          exact .inl (hresult ▸ rfl)
      | error interrupt m =>
          rw [hrecord] at hresult
          subst hresult
          cases expected_run (hcompile' enough) hrecord with
          | superclass hends =>
              exact .inr (.inr ⟨_, _, rfl, trivial, fun _ => ⟨_, rfl, hends⟩⟩)
          | ordinary hordinary =>
              cases hordinary with
              | unfinished => exact absurd rfl henough
              | overflow => exact .inr (.inl rfl)
              | fault _ hdocumented hfault =>
                  exact .inr (.inr ⟨_, _, rfl, hdocumented, fun h => absurd h hfault⟩)

/-- A superclass that is no class is found by the declaration that names it. -/
theorem ends_as_documented_superclass_not_class :
    ∃ (enough : Nat) (s' : Session) (inherited : Token),
      let source := "var a; class b < a \x7b\x7d"
      (∀ rounds ≥ enough,
          (start []).run ⟨20, 20, 20, rounds⟩ source =
            (.ran [] (.failed ⟨.superclassNotClass, some 1⟩), s'))
        ∧ inherited.line = 1
        ∧ EndsAtSuperclass (Accepts [⟨⟨20, 20, 20, enough⟩, source⟩])
          (historyOf [⟨⟨20, 20, 20, enough⟩, source⟩] (start [])) inherited := by
  have hcompile : ∃ program,
      compile ⟨20, 20, 20, 0⟩ "var a; class b < a \x7b\x7d" = .ok program := ⟨_, by cbv⟩
  have houtcome : ∀ rounds,
      ((start []).run ⟨20, 20, 20, rounds⟩ "var a; class b < a \x7b\x7d").1 =
        .ran [] (.failed ⟨.superclassNotClass, some 1⟩) := by
    intro rounds
    cbv
  obtain ⟨program, hcompile⟩ := hcompile
  rcases @ends_as_documented [] [] _ _ _ hcompile with
    hnever | ⟨enough, printed, ending, s', hrun, hending⟩
  · obtain ⟨printed, s', hrun⟩ := hnever 0
    have hout := houtcome 0
    rw [show (start []).run ⟨20, 20, 20, 0⟩ _ = _ from hrun] at hout
    cases hout
  · have hout := houtcome enough
    rw [show (start []).run ⟨20, 20, 20, enough⟩ _ = _ from hrun enough (Nat.le_refl _)] at hout
    obtain ⟨rfl, rfl⟩ := Outcome.ran.inj hout
    rcases hending with hending | hending | ⟨fault, line, hending, _, hsuperclass⟩
    · cases hending
    · cases hending
    · cases hending
      obtain ⟨inherited, hline, hends⟩ := hsuperclass rfl
      exact ⟨enough, s', inherited, hrun, hline.symm, hends⟩

end Session
end Lox

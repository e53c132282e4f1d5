import Lox.Proofs.Machine.Execution

/-!
# The course of a session

A session submits one text after the other.  The texts that it accepts are the programs whose code
its machine can hold, and all their runs together are one course from the initial machine.

**Main definition.**
* `Session.Accepts`: a program is one of the accepted texts of a session.

**Results.**
* `Session.course_run`: one submitted text.
* `Session.course_runAll`: all of them.
-/

namespace Lox

/-- The statements that a text is parsed to. -/
def statementsOf
    (limits : Limits)
    (source : String) : List Stmt :=
  (Parse.within limits.parsing (scan source).tokens).statements

/-- A text compiles if no stage has errors; it is compiled to the links of its statements. -/
theorem compile_eq_ok_iff
    {limits : Limits}
    {source : String}
    {resolved : List Stmt} :
    compile limits source = .ok resolved ↔
      (scan source).errors = []
        ∧ (Parse.within limits.parsing (scan source).tokens).errors = []
        ∧ errorsWithin (some limits.checking) (statementsOf limits source) = []
        ∧ resolved = resolveProgram (statementsOf limits source) := by
  have hreading : readingErrors (scan source)
      (Parse.within limits.parsing (scan source).tokens) = [] ↔
        (scan source).errors = []
          ∧ (Parse.within limits.parsing (scan source).tokens).errors = [] := by
    simp only [readingErrors, List.append_eq_nil_iff, List.map_eq_nil_iff]
  unfold compile statementsOf
  dsimp only
  constructor
  · intro h
    split at h
    · next hnone =>
        obtain ⟨hscan, hparse⟩ := hreading.mp hnone
        split at h
        · next herrors =>
            cases h
            exact ⟨hscan, hparse, herrors, rfl⟩
        · cases h
    · cases h
  · rintro ⟨hscan, hparse, herrors, rfl⟩
    rw [hreading.mpr ⟨hscan, hparse⟩, herrors]

/-- A text that is compiled is compiled to the links of its statements. -/
theorem compile_eq_ok
    {limits : Limits}
    {source : String}
    {resolved : List Stmt}
    (h : compile limits source = .ok resolved) :
    resolved = resolveProgram (statementsOf limits source)
      ∧ (Parse.within limits.parsing (scan source).tokens).errors = []
      ∧ errorsWithin (some limits.checking) (statementsOf limits source) = [] := by
  obtain ⟨_, hparse, herrors, hresolved⟩ := compile_eq_ok_iff.mp h
  exact ⟨hresolved, hparse, herrors⟩

/-- A text is never rejected without a reason. -/
theorem ne_nil_of_compile_eq_error
    {limits : Limits}
    {source : String}
    {diagnostics : List Diagnostic}
    (h : compile limits source = .error diagnostics) :
    diagnostics ≠ [] := by
  unfold compile at h
  dsimp only at h
  split at h
  · split at h
    · cases h
    · next errors hsome =>
        cases h
        simpa using hsome
  · next hsome =>
      cases h
      exact hsome

/-- The statements of a text that is compiled have no errors. -/
theorem accepted_statementsOf
    {limits : Limits}
    {source : String}
    {resolved : List Stmt}
    (h : compile limits source = .ok resolved) :
    Accepted (statementsOf limits source) where
  clean := ⟨some limits.checking, upToNesting_eq_nil.mp (compile_eq_ok h).2.2⟩
  asParsed := Parse.asParsed_within limits.parsing fun _ => scan_spelled
  worded := Parse.worded_within (fun _ => scan_spelled) (compile_eq_ok h).2.1

/-- On the machine at the beginning everything fits. -/
theorem sound_initial
    (accepted : List Stmt → Prop)
    (clock : List Float) :
    Sound accepted [] (Machine.initial clock) where
  global := Nat.zero_lt_one
  root := rfl
  slots f name slot hslot := by
    have hf : f = globalFrame := Nat.lt_one_iff.mp (Store.lt_nextId_of_slot? hslot)
    subst hf
    have hslots : (Machine.initial clock).store.frame? globalFrame = some ⟨none,
        [⟨"clock", .native .clock, false⟩, ⟨"current_state", .number 0, false⟩,
          ⟨"last_state", .number 0, false⟩]⟩ := rfl
    rw [Store.slot?, hslots] at hslot
    have hmem := List.mem_of_find?_eq_some hslot
    simp only [List.mem_cons, List.not_mem_nil, or_false] at hmem
    rcases hmem with rfl | rfl | rfl <;> trivial
  fields id name value hvalue := by
    simp [Machine.field?, Machine.initial] at hvalue
  receivers f hf := by
    obtain ⟨x, hx, _⟩ := hf
    cases hx
  openings := ⟨by simp, by simp⟩

namespace Session

/-- A program is the statements of a submitted text that is accepted. -/
def Accepts
    (submissions : List Submission)
    (program : List Stmt) : Prop :=
  ∃ x ∈ submissions, statementsOf x.limits x.source = program
    ∧ ∃ resolved, compile x.limits x.source = .ok resolved

theorem Accepts.accepted
    {submissions : List Submission}
    {program : List Stmt}
    (h : Accepts submissions program) :
    Accepted program := by
  obtain ⟨x, _, rfl, resolved, hcompile⟩ := h
  exact accepted_statementsOf hcompile

section Runs

variable
  {accepted : List Stmt → Prop}
  (hall : ∀ program, accepted program → Accepted program)
include hall

/-- The run of a text whose statements are among the programs. -/
theorem course_run
    {limits : Limits}
    {source : String}
    (haccepted : ∀ resolved, compile limits source = .ok resolved →
      accepted (statementsOf limits source))
    {H : History}
    {s : Session}
    (hsound : Sound accepted H s.machine) :
    Course accepted H s.machine (s.history limits source) (s.run limits source).2.machine
      ∧ Sound accepted (H ++ s.history limits source) (s.run limits source).2.machine := by
  unfold history run
  cases hcompile : compile limits source with
  | error diagnostics => exact ⟨.quiet (.refl _), by simpa using hsound⟩
  | ok resolved =>
      obtain ⟨rfl, _⟩ := compile_eq_ok hcompile
      have hemptied : Sound accepted H { s.machine with printed := #[] } := hsound.congr rfl rfl
      have hkeeps := keeps_program hall limits (haccepted _ hcompile) hemptied
      dsimp only
      rw [Machine.runProgram_machine]
      exact ⟨.quiet_trans (m := { s.machine with printed := #[] }) (.refl _) hkeeps.course,
        hkeeps.sound⟩

/-- The runs of all submitted texts. -/
theorem course_runAll
    {submissions : List Submission}
    (haccepted : ∀ program, Accepts submissions program → accepted program)
    {H : History}
    {s : Session}
    (hsound : Sound accepted H s.machine) :
    Course accepted H s.machine (historyOf submissions s) (runAll submissions s).machine
      ∧ Sound accepted (H ++ historyOf submissions s) (runAll submissions s).machine := by
  induction submissions generalizing H s with
  | nil => exact ⟨.quiet (.refl _), by simpa [historyOf, runAll] using hsound⟩
  | cons x rest ih =>
      have hfirst := course_run hall
        (fun resolved h => haccepted _ ⟨x, List.mem_cons_self, rfl, resolved, h⟩) hsound
      have hrest := ih (fun program h => ?_) hfirst.2
      · refine ⟨hfirst.1.trans hrest.1, ?_⟩
        rw [historyOf, ← List.append_assoc]
        exact hrest.2
      · obtain ⟨y, hy, hprogram⟩ := h
        exact haccepted program ⟨y, List.mem_cons_of_mem x hy, hprogram⟩

end Runs

/-- The runs of a session form one course. -/
theorem course_start
    (clock : List Float)
    (submissions : List Submission) :
    Course (Accepts submissions) [] (Machine.initial clock)
      (historyOf submissions (start clock)) (runAll submissions (start clock)).machine :=
  (course_runAll (fun _ h => h.accepted) (fun _ h => h) (sound_initial _ clock)).1

end Session
end Lox

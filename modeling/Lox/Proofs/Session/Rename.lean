import Lox.Proofs.Machine.Rename
import Lox.Proofs.Scope.Numbered
import Lox.Proofs.Session.Relabel

/-!
# Sessions with a renamed program

What a local variable is called makes no difference.  A session in which a renamed program has run
in the place of the program holds corresponding frames, and whatever is submitted to it afterwards
has the same outcome.  Only an error about an undefined variable tells the names apart.

**Which name an error has.**  An error tells no more than a line, and a line may refer to both
names.  So the runs are also looked at with the references on numbers of their own: what is reported
on the lines is what is reported on the numbers, told as lines.  There the error is about a single
reference, and it has the name that this reference has.

**Main definitions.**
* `Report.Renamed`: a report and what becomes of it when a name is replaced.
* `Session.steps`: the reports on some submissions, and the globals after each of them.
* `Numbering.run`: the run of a program on numbers.

**Results.**
* `compile_renamed`: the renamed program has no scope errors and resolves to the same links.
* `Numbering.Exact.name_unique`: on a number there is a single name.
* `Session.runCompiled_renamed`, `Session.runOn_renamed`: one run in corresponding sessions.
* `Session.local_names_do_not_matter`: what a renamed program does, and all later texts after it.
-/

namespace Lox

/-- A program refers to a name on a line. -/
def RefersTo (program : List Stmt) (name : String) (line : Int) : Prop :=
  ∃ r ∈ Stmt.referencesAll .written program, r.name.lexeme = name ∧ r.name.line = line

/-- One of some texts is compiled to a program that refers to a name on a line. -/
def SubmissionsReferTo
    (submissions : List Session.Submission)
    (name : String)
    (line : Int) : Prop :=
  ∃ x ∈ submissions, ∃ program,
    compile x.limits x.source = .ok program ∧ RefersTo program name line

/-- The renamed program may refer to either name; of other texts only the old name counts. -/
def mentionsOf
    (ρ : Renaming)
    (renamed : List Stmt)
    (others : List Session.Submission) : Mentions :=
  fun name line => RefersTo renamed name line ∨ name = ρ.old ∧ SubmissionsReferTo others name line

namespace Numbering

variable {program : List Stmt}

/--
What is mentioned on a number: by the renamed program, or by another text on a line of its own.
-/
def mentions
    (n : Numbering program)
    (trail : List Nat)
    (ρ : Renaming)
    (others : List Session.Submission) : Mentions :=
  fun name number => RefersTo (n.renamed trail ρ).numbered name number
    ∨ name = ρ.old ∧ ∃ line, n.elsewhere line = number ∧ SubmissionsReferTo others name line

/-- The lines themselves have the mentions of the program and of the other texts. -/
theorem mentions_plain
    (trail : List Nat)
    (ρ : Renaming)
    (others : List Session.Submission) :
    (plain program).mentions trail ρ others =
      mentionsOf ρ (renameLocal trail ρ program) others := by
  funext name number
  simp [mentions, mentionsOf, plain, renamed]

/-- On a number of an exact numbering there is a single name. -/
theorem Exact.name_unique
    {n : Numbering program}
    (h : n.Exact)
    {trail : List Nat}
    {ρ : Renaming}
    {others : List Session.Submission}
    {x y : String}
    {number : Int}
    (hx : n.mentions trail ρ others x number)
    (hy : n.mentions trail ρ others y number) :
    x = y := by
  have hlines : (Stmt.referencesAll .written (n.renamed trail ρ).numbered).map LinkRecord.line =
      (Stmt.referencesAll .written n.numbered).map LinkRecord.line :=
    Stmt.lines_renamed ρ .written n.numbered (some trail) []
  have hapart {name : String} (href : RefersTo (n.renamed trail ρ).numbered name number)
      (line : Int) : n.elsewhere line ≠ number := by
    obtain ⟨r, hr, -, hnumber⟩ := href
    have hmem : r.line ∈ (Stmt.referencesAll .written n.numbered).map LinkRecord.line :=
      hlines ▸ List.mem_map_of_mem hr
    obtain ⟨r₀, hr₀, hline⟩ := List.mem_map.mp hmem
    have hsame : r₀.line = number := hline.trans hnumber
    exact hsame ▸ h.apart r₀ hr₀ line
  rcases hx with hx | ⟨hx, line, hline, -⟩
  · rcases hy with hy | ⟨-, line, hline, -⟩
    · obtain ⟨r, hr, rfl, hnumber⟩ := hx
      obtain ⟨r', hr', rfl, hnumber'⟩ := hy
      have hsame : r = r' :=
        List.inj_on_of_nodup_map (hlines ▸ h.nodup) hr hr' (hnumber.trans hnumber'.symm)
      rw [hsame]
    · exact absurd hline (hapart hx line)
  · rcases hy with hy | ⟨hy, -⟩
    · exact absurd hline (hapart hy line)
    · exact hx.trans hy.symm

end Numbering

section Definitions

variable (ρ : Renaming) (refers : Mentions)

/--
The same error, or an error about the old name that is one about the new name.  Whichever of the
two the latter is about, it is mentioned on that line.
-/
inductive RuntimeError.Renamed : RuntimeError → RuntimeError → Prop
  | same {e : RuntimeError} :
      (∀ line, e = ⟨.undefinedVariable ρ.old, line⟩ →
        ∃ place, line = some place ∧ refers ρ.old place) →
      RuntimeError.Renamed e e
  | undefined {line : Int} :
      refers ρ.new line →
      RuntimeError.Renamed ⟨.undefinedVariable ρ.old, some line⟩
        ⟨.undefinedVariable ρ.new, some line⟩

/-- A report that differs in the name of an undefined variable at most. -/
structure Report.Renamed (r r' : Report) : Prop where
  status : r'.status = r.status
  printed : r'.printed = r.printed
  diagnostics : r'.diagnostics = r.diagnostics
  runtimeErrors : List.Forall₂ (RuntimeError.Renamed ρ refers) r.runtimeErrors r'.runtimeErrors
  hadError : r'.hadError = r.hadError
  hadRuntimeError : r'.hadRuntimeError = r.hadRuntimeError

/-- Sessions whose machines correspond. -/
def Session.Renamed (s s' : Session) : Prop :=
  ∃ W : Marking, s.machine.Renamed ρ refers W s'.machine

end Definitions

section Machines

variable
  {ρ : Renaming}
  {refers : Mentions}
  {W : Marking}
  {m m' : Machine}

/-- The report on a run that is interrupted. -/
theorem Interrupt.Renamed.report
    {interrupt interrupt' : Interrupt}
    (h : interrupt.Renamed ρ refers interrupt')
    (printed : List String) :
    (Outcome.ran printed interrupt.ending).report.Renamed ρ refers
      (Outcome.ran printed interrupt'.ending).report := by
  cases h with
  | undefined hrefers => exact ⟨rfl, rfl, rfl, .cons (.undefined hrefers) .nil, rfl, rfl⟩
  | same hold =>
      cases interrupt with
      | error e =>
          have hsame : e.Renamed ρ refers e := .same fun line he => hold line (congrArg _ he)
          exact ⟨rfl, rfl, rfl, .cons hsame .nil, rfl, rfl⟩
      | shortChain _ => exact ⟨rfl, rfl, rfl, .nil, rfl, rfl⟩
      | unfinished => exact ⟨rfl, rfl, rfl, .nil, rfl, rfl⟩

/-- No name of a global is replaced, and no text of a value shows a name that is. -/
theorem Machine.Renamed.shownGlobals
    (h : m.Renamed ρ refers W m') :
    m'.shownGlobals = m.shownGlobals := by
  obtain ⟨frame, frame', hframe, hframe', hframes⟩ := h.store.frame h.root
  have hslots : List.Forall₂ (Slot.Renamed ρ refers W false) frame.slots frame'.slots :=
    hframes.slots
  simp only [Machine.shownGlobals, Machine.globals, hframe, hframe', Option.map_some,
    Option.getD_some]
  generalize frame.slots = slots at hslots ⊢
  generalize frame'.slots = slots' at hslots ⊢
  induction hslots with
  | nil => rfl
  | cons hslot _ ih =>
      obtain @⟨name, v, v', constant, hv⟩ := hslot
      exact congrArg₂ (fun text rest => (name, text, constant) :: rest) hv.text ih

/-- At the beginning nothing is marked. -/
theorem Machine.renamed_initial (clock : List Float) :
    (Machine.initial clock).Renamed ρ refers [[]] (Machine.initial clock) where
  store :=
    { size := rfl
      size' := rfl
      frame := fun {id marks} haround => by
        obtain ⟨hid, rfl⟩ := List.getElem?_eq_some_iff.mp haround
        obtain rfl := Nat.lt_one_iff.mp hid
        refine ⟨_, _, rfl, rfl, rfl, nofun, ?_⟩
        exact .cons (.mk (.native .clock))
          (.cons (.mk (.number 0)) (.cons (.mk (.number 0)) .nil)) }
  root := rfl
  instances := rfl
  fields id := .none
  serial := rfl
  clock := rfl
  printed := rfl

/-- Renamed statements at the top level lead to corresponding machines. -/
theorem Machine.stopped_renamed
    {R : Marking → Unit → Unit → Prop}
    {r r' : EStateM.Result Interrupt Machine Unit}
    (h : ResultRenamed ρ refers W R r r') :
    let run := stopped r
    let run' := stopped r'
    (Outcome.ran run.2.printed.toList run.1).report.Renamed ρ refers
        (Outcome.ran run'.2.printed.toList run'.1).report
      ∧ Session.Renamed ρ refers ⟨run.2⟩ ⟨run'.2⟩ := by
  cases h with
  | ok _ _ hm =>
      dsimp only [stopped]
      rw [hm.printed]
      exact ⟨⟨rfl, rfl, rfl, .nil, rfl, rfl⟩, _, hm⟩
  | error _ hinterrupt hm =>
      dsimp only [stopped]
      rw [hm.printed]
      exact ⟨hinterrupt.report _, _, hm⟩

end Machines

/-- What is compiled spells its references to instances as such. -/
theorem linksSpelled_of_compile
    {limits : Limits}
    {source : String}
    {program : List Stmt}
    (h : compile limits source = .ok program) :
    LinksSpelled (Stmt.referencesAll .written program) := by
  rw [(compile_eq_ok h).1]
  exact (accepted_statementsOf h).asParsed.spelled .top

/-- A program in which nothing is replaced can be run beside a renamed one, on any lines. -/
theorem renamableAll_of_compile
    {ρ : Renaming}
    {refers : Mentions}
    {limits : Limits}
    {source : String}
    {program : List Stmt}
    (hcompile : compile limits source = .ok program)
    (c : Relabeling)
    (h : ∀ line, RefersTo program ρ.old line → refers ρ.old (c.line line)) :
    Stmt.RenamableAll ρ refers (Stmt.relabelAll c program) none [] := by
  have hspelled : LinksSpelled (Stmt.referencesAll .written (Stmt.relabelAll c program)) := by
    rw [Stmt.referencesAll_relabel, linksSpelled_map_relabel]
    exact linksSpelled_of_compile hcompile
  have hmentioned :
      AllMentioned ρ refers true (Stmt.referencesAll .written (Stmt.relabelAll c program)) := by
    rw [Stmt.referencesAll_relabel]
    intro r' hr' hold
    obtain ⟨r, hr, rfl⟩ := List.mem_map.mp hr'
    rw [hold rfl]
    exact h r.name.line ⟨r, hr, hold rfl, rfl⟩
  rw [← Stmt.renamedAll_unmarked (ρ := ρ) (Stmt.relabelAll c program) [] nofun] at hmentioned
  have hother : ρ.Clear true none [] (Stmt.namesAll (Stmt.relabelAll c program)) := ⟨rfl, nofun⟩
  exact Stmt.renamableAll (Stmt.relabelAll c program) none [] hother
    (Stmt.onlyVariablesAll_elsewhere ρ.old (Stmt.relabelAll c program)) hspelled hmentioned

namespace Session

/-- A text that compiles is run as the program that it is compiled to. -/
theorem run_of_compile_eq_ok
    {limits : Limits}
    {source : String}
    {program : List Stmt}
    (h : compile limits source = .ok program)
    (s : Session) :
    s.run limits source = s.runCompiled limits program := by
  rw [run, h]
  rfl

/-- A text that does not compile changes nothing. -/
theorem run_of_compile_eq_error
    {limits : Limits}
    {source : String}
    {diagnostics : List Diagnostic}
    (h : compile limits source = .error diagnostics)
    (s : Session) :
    s.run limits source = (.rejected diagnostics, s) := by
  rw [run, h]

/-- The reports on some submissions, and the globals after each of them. -/
def steps :
    List Submission → Session → List (Report × List (String × String × Bool))
  | [], _ => []
  | x :: rest, s =>
      let result := s.run x.limits x.source
      (result.1.report, result.2.machine.shownGlobals) :: steps rest result.2

/-- The lines on which the texts themselves are. -/
theorem stepsOn_none (submissions : List Submission) (s : Session) :
    stepsOn .none submissions s = steps submissions s := by
  induction submissions generalizing s with
  | nil => rfl
  | cons x rest ih => simp only [stepsOn, steps, runOn_none, ih]

theorem runAllOn_none (submissions : List Submission) (s : Session) :
    runAllOn .none submissions s = runAll submissions s := by
  simp only [runAllOn, runAll, runOn_none]

/-- A step after which only the name of an undefined variable may differ. -/
def StepRenamed
    (ρ : Renaming)
    (refers : Mentions)
    (step step' : Report × List (String × String × Bool)) : Prop :=
  step.1.Renamed ρ refers step'.1 ∧ step'.2 = step.2

section Runs

variable
  {ρ : Renaming}
  {refers : Mentions}
  {s s' : Session}

/-- A program in one session, and the renamed program in the other. -/
theorem runCompiled_renamed
    (hρ : ρ.Proper)
    (hs : s.Renamed ρ refers s')
    (limits : Limits)
    {program : List Stmt}
    {t : Trail}
    (h : Stmt.RenamableAll ρ refers program t []) :
    let result := s.runCompiled limits program
    let result' := s'.runCompiled limits (Stmt.renamedAll ρ program t [])
    result.1.report.Renamed ρ refers result'.1.report ∧ result.2.Renamed ρ refers result'.2 := by
  obtain ⟨W, hm⟩ := hs
  have halike : Code.ExecutesAlike ρ refers (Run.executeBy id limits.rounds limits.running) :=
    Run.executeBy_renamed hρ limits.rounds limits.running
  have heach := Code.each_renamed halike hm.root h { s.machine with printed := #[] }
    { s'.machine with printed := #[] } { hm with printed := rfl }
  have hid : Run.executeBy id limits.rounds limits.running globalFrame =
      Run.execute limits.rounds limits.running globalFrame :=
    funext (Run.executeBy_id limits.rounds limits.running globalFrame)
  rw [hid] at heach
  simp only [runCompiled, Machine.runProgram_eq_stopped]
  exact Machine.stopped_renamed heach

/-- The same text on the same lines in corresponding sessions. -/
theorem runOn_renamed
    (hρ : ρ.Proper)
    (hs : s.Renamed ρ refers s')
    (c : Relabeling)
    (x : Submission)
    (h : ∀ line, SubmissionsReferTo [x] ρ.old line → refers ρ.old (c.line line)) :
    let result := s.runOn c x.limits x.source
    let result' := s'.runOn c x.limits x.source
    result.1.report.Renamed ρ refers result'.1.report ∧ result.2.Renamed ρ refers result'.2 := by
  unfold runOn
  cases hcompile : compile x.limits x.source with
  | error diagnostics => exact ⟨⟨rfl, rfl, rfl, .nil, rfl, rfl⟩, hs⟩
  | ok program =>
      have hprogram : Stmt.RenamableAll ρ refers (Stmt.relabelAll c program) none [] :=
        renamableAll_of_compile hcompile c fun line hline =>
          h line ⟨x, List.mem_cons_self, program, hcompile, hline⟩
      have hrun := runCompiled_renamed hρ hs x.limits hprogram
      rwa [Stmt.renamedAll_unmarked (Stmt.relabelAll c program) [] nofun] at hrun

/-- The same texts on the same lines in corresponding sessions. -/
theorem stepsOn_renamed
    (hρ : ρ.Proper)
    (hs : s.Renamed ρ refers s')
    (c : Relabeling)
    (submissions : List Submission)
    (h : ∀ line, SubmissionsReferTo submissions ρ.old line → refers ρ.old (c.line line)) :
    List.Forall₂ (StepRenamed ρ refers) (stepsOn c submissions s) (stepsOn c submissions s')
      ∧ (runAllOn c submissions s).Renamed ρ refers (runAllOn c submissions s') := by
  induction submissions generalizing s s' with
  | nil => exact ⟨.nil, hs⟩
  | cons x rest ih =>
      obtain ⟨hreport, hfirst⟩ := runOn_renamed hρ hs c x fun line ⟨y, hy, hline⟩ =>
        h line ⟨y, List.mem_cons.mpr (.inl (List.mem_singleton.mp hy)), hline⟩
      obtain ⟨hsteps, hrest⟩ := ih hfirst fun line ⟨y, hy, hline⟩ =>
        h line ⟨y, List.mem_cons_of_mem x hy, hline⟩
      exact ⟨.cons ⟨hreport, hfirst.choose_spec.shownGlobals⟩ hsteps, hrest⟩

end Runs

end Session

section Compilation

variable
  {limits : Limits}
  {source : String}
  {program : List Stmt}
  {trail : List Nat}
  {x y : String}

/-- The program without links is the one that was parsed. -/
theorem relabelAll_unlinked_of_compile
    (h : compile limits source = .ok program) :
    Stmt.relabelAll .unlinked program = statementsOf limits source := by
  rw [(compile_eq_ok h).1]
  exact Stmt.relabelAll_resolveAll _ .top (accepted_statementsOf h).asParsed

/-- Links do not matter to scope errors. -/
theorem errorsAll_of_compile
    (h : compile limits source = .ok program) :
    Stmt.errorsAll program .top (some limits.checking) = [] := by
  have hparsed := upToNesting_eq_nil.mp (compile_eq_ok h).2.2
  rw [← relabelAll_unlinked_of_compile h, Stmt.errorsAll_relabel, List.map_eq_nil_iff] at hparsed
  exact hparsed

/-- No function and no class has the name of a variable in the same scope. -/
theorem onlyVariablesAll_of_compile
    (h : compile limits source = .ok program)
    (hx : DeclaresLocal trail x program) :
    Stmt.OnlyVariablesAll x program (some trail) false :=
  Stmt.onlyVariablesAll_of_declaresAtAny program (some trail) .top (some limits.checking)
    (errorsAll_of_compile h) hx

/-- A renaming of a local to a name that is not a keyword. -/
theorem proper_of_compile
    (h : compile limits source = .ok program)
    (hx : DeclaresLocal trail x program)
    (hthis : y ≠ "this")
    (hsuper : y ≠ "super") :
    Renaming.Proper ⟨x, y⟩ := by
  rw [DeclaresLocal, ← Stmt.declaresAtAny_relabel (g := .unlinked),
    relabelAll_unlinked_of_compile h] at hx
  obtain ⟨hx₁, hx₂⟩ := Stmt.ne_of_declaresAtAny _ _ (accepted_statementsOf h).worded hx
  exact ⟨hx₁, hx₂, hthis, hsuper⟩

/-- The renamed program has no scope errors, and its links are what resolution finds. -/
theorem compile_renamed
    (h : compile limits source = .ok program)
    (hx : DeclaresLocal trail x program)
    (hy : y ∉ Stmt.namesAll program)
    (hthis : y ≠ "this")
    (hsuper : y ≠ "super") :
    let renamed := renameLocal trail ⟨x, y⟩ program
    errorsWithin (some limits.checking) (Stmt.relabelAll .unlinked renamed) = []
      ∧ resolveProgram (Stmt.relabelAll .unlinked renamed) = renamed := by
  have hρ := proper_of_compile h hx hthis hsuper
  have hothers := onlyVariablesAll_of_compile h hx
  have hlinked : Stmt.resolveAll (Stmt.relabelAll .unlinked program) .top = program := by
    rw [relabelAll_unlinked_of_compile h, ← resolveProgram, ← (compile_eq_ok h).1]
  have havoids : Avoids y Context.top.scopes := fun _ hscope => absurd hscope List.not_mem_nil
  constructor
  · have herrors := Stmt.errorsAll_renamed hρ program (some trail) [] .top (some limits.checking)
      havoids hlinked hy hothers (errorsAll_of_compile h)
    rw [errorsWithin, upToNesting_eq_nil, Stmt.errorsAll_relabel, List.map_eq_nil_iff]
    exact herrors
  · exact Stmt.resolveAll_renamed hρ program (some trail) [] .top havoids hlinked hy hothers

/--
On any numbers, a program can be renamed where it has the old name for a local, if it has not got
the new one.
-/
theorem renamableAll_of_declaresLocal
    (h : compile limits source = .ok program)
    (hx : DeclaresLocal trail x program)
    (hy : y ∉ Stmt.namesAll program)
    (n : Numbering program)
    {refers : Mentions}
    (hrefers : ∀ name number, RefersTo (n.renamed trail ⟨x, y⟩).numbered name number →
      refers name number) :
    Stmt.RenamableAll ⟨x, y⟩ refers n.numbered (some trail) [] := by
  have herrors := errorsAll_of_compile h
  have hspelled := linksSpelled_of_compile h
  rw [← n.relabelAll_told, Stmt.errorsAll_relabel, List.map_eq_nil_iff] at herrors
  rw [← n.relabelAll_told, Stmt.referencesAll_relabel, linksSpelled_map_relabel] at hspelled
  rw [← n.relabelAll_told, Stmt.namesAll_relabel] at hy
  rw [DeclaresLocal, ← n.relabelAll_told, Stmt.declaresAtAny_relabel] at hx
  have hnew : Renaming.Clear ⟨x, y⟩ false (some trail) [] (Stmt.namesAll n.numbered) := hy
  have hothers : Stmt.OnlyVariablesAll x n.numbered (some trail) false :=
    Stmt.onlyVariablesAll_of_declaresAtAny n.numbered (some trail) .top (some limits.checking)
      herrors hx
  exact Stmt.renamableAll n.numbered (some trail) [] hnew hothers hspelled
    fun r hr _ => hrefers _ _ ⟨r, hr, rfl, rfl⟩

end Compilation

namespace Numbering

variable {program : List Stmt} (n : Numbering program)

/--
The run of a program on numbers, where all code of the session is on the numbers of its lines.
-/
def run (limits : Limits) (s : Session) : Outcome × Session :=
  (s.relabel (.lines n.elsewhere)).runCompiled limits n.numbered

/-- A step with its numbers told as lines. -/
def tell
    (step : Report × List (String × String × Bool)) :
    Report × List (String × String × Bool) :=
  (step.1.relabel (.lines n.told), step.2)

/-- A program does what it does on numbers, told as lines. -/
theorem runCompiled_eq (limits : Limits) (s : Session) :
    s.runCompiled limits program =
      ((n.run limits s).1.relabel (.lines n.told), (n.run limits s).2.relabel (.lines n.told)) := by
  have hsession : (s.relabel (.lines n.elsewhere)).relabel (.lines n.told) = s := by
    rw [Session.relabel_relabel, n.told_comp_elsewhere, Session.relabel_none]
  have hrun := Session.runCompiled_relabel n.told limits n.numbered
    (s.relabel (.lines n.elsewhere))
  rwa [hsession, n.relabelAll_told] at hrun

/-- Texts do what they do on the numbers of their lines, told as lines. -/
theorem steps_eq (submissions : List Session.Submission) (s : Session) :
    Session.steps submissions (s.relabel (.lines n.told)) =
      (Session.stepsOn (.lines n.elsewhere) submissions s).map n.tell := by
  have hsteps := Session.stepsOn_relabel n.told (.lines n.elsewhere) submissions s
  rwa [n.told_comp_elsewhere, Session.stepsOn_none] at hsteps

/-- The run on the lines themselves. -/
theorem run_plain (limits : Limits) (s : Session) :
    (plain program).run limits s = s.runCompiled limits program :=
  congrArg (Session.runCompiled limits program) s.relabel_none

end Numbering

namespace Session

/-- On numbers, the renamed program and all later texts do what they do with the program. -/
theorem numbered_renamed
    {limits : Limits}
    {source : String}
    {program : List Stmt}
    (hcompile : compile limits source = .ok program)
    {trail : List Nat}
    {x y : String}
    (hx : DeclaresLocal trail x program)
    (hy : y ∉ Stmt.namesAll program)
    (hρ : Renaming.Proper ⟨x, y⟩)
    (n : Numbering program)
    (bounds : Limits)
    (clock : List Float)
    (before later : List Submission) :
    let ρ : Renaming := ⟨x, y⟩
    let refers : Mentions := n.mentions trail ρ (before ++ later)
    let s := runAll before (start clock)
    let result := n.run bounds s
    let result' := (n.renamed trail ρ).run bounds s
    result.1.report.Renamed ρ refers result'.1.report
      ∧ result'.2.machine.shownGlobals = result.2.machine.shownGlobals
      ∧ List.Forall₂ (StepRenamed ρ refers) (stepsOn (.lines n.elsewhere) later result.2)
        (stepsOn (.lines n.elsewhere) later result'.2) := by
  intro ρ refers s result result'
  have hbefore : ∀ line, SubmissionsReferTo before x line → refers x (n.elsewhere line) :=
    fun line ⟨w, hw, hline⟩ => .inr ⟨rfl, line, rfl, w, List.mem_append_left later hw, hline⟩
  have hlater : ∀ line, SubmissionsReferTo later x line → refers x (n.elsewhere line) :=
    fun line ⟨w, hw, hline⟩ => .inr ⟨rfl, line, rfl, w, List.mem_append_right before hw, hline⟩
  have hs : (s.relabel (.lines n.elsewhere)).Renamed ρ refers (s.relabel (.lines n.elsewhere)) := by
    have hall : runAllOn (.lines n.elsewhere) before (start clock) =
        s.relabel (.lines n.elsewhere) := by
      have hrelabel := runAllOn_relabel n.elsewhere .none before (start clock)
      rwa [relabel_start, runAllOn_none] at hrelabel
    rw [← hall]
    exact (stepsOn_renamed hρ ⟨[[]], Machine.renamed_initial clock⟩ (.lines n.elsewhere) before
      hbefore).2
  obtain ⟨hreport, hsession⟩ := runCompiled_renamed hρ hs bounds
    (renamableAll_of_declaresLocal hcompile hx hy n fun _ _ => .inl)
  exact ⟨hreport, hsession.choose_spec.shownGlobals,
    (stepsOn_renamed hρ hsession (.lines n.elsewhere) later hlater).1⟩

/--
What a local variable, a local constant or a parameter is called does not matter.  Let a new name
take its place in the declaration and in all references that lead there.  The renamed program
compiles, and its links are those of the program node for node.  In every session that has been
brought about by some texts it has the status, the output and the globals of the program, and so
have all later texts.  Errors stay on their lines.  An undefined variable may be reported under the
new name in place of the old one: under the new name only on a line where the renamed program refers
to it, and under the old one only where the renamed program or another text still refers to that.

Where a line refers to both names, numbers tell which of them is reported.  All runs are what they
are on numbers, told as lines, and on a number an undefined variable has a name that is mentioned on
this number.  There are exact numberings, in which that is the name of a single reference
(`Numbering.Exact.name_unique`).
-/
theorem local_names_do_not_matter
    {limits : Limits}
    {source : String}
    {program : List Stmt}
    (hcompile : compile limits source = .ok program)
    {trail : List Nat}
    {x y : String}
    (hx : DeclaresLocal trail x program)
    (hy : y ∉ Stmt.namesAll program)
    (hthis : y ≠ "this")
    (hsuper : y ≠ "super") :
    let ρ : Renaming := ⟨x, y⟩
    let renamed := renameLocal trail ρ program
    let parsed := Stmt.relabelAll .unlinked renamed
    (errorsWithin (some limits.checking) parsed = []
        ∧ resolveProgram parsed = renamed
        ∧ ∀ source' : String, (scan source').errors = [] →
          (Parse.within limits.parsing (scan source').tokens).errors = [] →
          statementsOf limits source' = parsed → compile limits source' = .ok renamed)
      ∧ (∀ order, List.Forall₂ (LinkRecord.Renamed ρ) (Stmt.referencesAll order program)
          (Stmt.referencesAll order renamed))
      ∧ ∀ (bounds : Limits) (clock : List Float) (before : List Submission),
        let s := runAll before (start clock)
        let result := s.runCompiled bounds program
        let result' := s.runCompiled bounds renamed
        result.1.report.Renamed ρ (mentionsOf ρ renamed before) result'.1.report
          ∧ result'.2.machine.shownGlobals = result.2.machine.shownGlobals
          ∧ (∀ later : List Submission,
            List.Forall₂ (StepRenamed ρ (mentionsOf ρ renamed (before ++ later)))
              (steps later result.2) (steps later result'.2))
          ∧ (∃ n : Numbering program, n.Exact)
          ∧ ∀ n : Numbering program,
            let numbered := n.run bounds s
            let numbered' := (n.renamed trail ρ).run bounds s
            let numberedSteps := stepsOn (.lines n.elsewhere)
            result.1 = numbered.1.relabel (.lines n.told)
              ∧ result'.1 = numbered'.1.relabel (.lines n.told)
              ∧ numbered.1.report.Renamed ρ (n.mentions trail ρ before) numbered'.1.report
              ∧ ∀ later : List Submission,
                steps later result.2 = (numberedSteps later numbered.2).map n.tell
                  ∧ steps later result'.2 = (numberedSteps later numbered'.2).map n.tell
                  ∧ List.Forall₂ (StepRenamed ρ (n.mentions trail ρ (before ++ later)))
                    (numberedSteps later numbered.2) (numberedSteps later numbered'.2) := by
  intro ρ renamed parsed
  obtain ⟨herrors, hresolved⟩ := compile_renamed hcompile hx hy hthis hsuper
  have hρ : ρ.Proper := proper_of_compile hcompile hx hthis hsuper
  refine ⟨⟨herrors, hresolved, fun source' hscan hparse hsame => ?_⟩,
    fun order => Stmt.referencesAll_renamed program (some trail) [],
    fun bounds clock before => ?_⟩
  · exact compile_eq_ok_iff.mpr ⟨hscan, hparse, hsame ▸ herrors, hsame ▸ hresolved.symm⟩
  · intro s result result'
    have hruns (n : Numbering program) (later : List Submission) :=
      numbered_renamed hcompile hx hy hρ n bounds clock before later
    have hsame : (Numbering.plain program).run bounds s = result := Numbering.run_plain bounds s
    have hsame' : ((Numbering.plain program).renamed trail ρ).run bounds s = result' :=
      Numbering.run_plain bounds s
    -- The lines themselves are a numbering, with the mentions on these lines.
    have hplain (later : List Submission) :
        result.1.report.Renamed ρ (mentionsOf ρ renamed (before ++ later)) result'.1.report
          ∧ result'.2.machine.shownGlobals = result.2.machine.shownGlobals
          ∧ List.Forall₂ (StepRenamed ρ (mentionsOf ρ renamed (before ++ later)))
            (steps later result.2) (steps later result'.2) := by
      rw [← hsame, ← hsame', ← stepsOn_none, ← stepsOn_none, ← Numbering.mentions_plain]
      exact hruns (.plain program) later
    obtain ⟨hreport, hglobals, -⟩ := hplain []
    rw [List.append_nil] at hreport
    refine ⟨hreport, hglobals, fun later => (hplain later).2.2, Numbering.exists_exact program,
      fun n => ?_⟩
    have htold : result = ((n.run bounds s).1.relabel (.lines n.told),
        (n.run bounds s).2.relabel (.lines n.told)) := n.runCompiled_eq bounds s
    have htold' : result' = (((n.renamed trail ρ).run bounds s).1.relabel (.lines n.told),
        ((n.renamed trail ρ).run bounds s).2.relabel (.lines n.told)) :=
      (n.renamed trail ρ).runCompiled_eq bounds s
    obtain ⟨hnumbered, -⟩ := hruns n []
    rw [List.append_nil] at hnumbered
    refine ⟨congrArg Prod.fst htold, congrArg Prod.fst htold', hnumbered,
      fun later => ⟨?_, ?_, (hruns n later).2.2⟩⟩
    · rw [htold]
      exact n.steps_eq later _
    · rw [htold']
      exact (n.renamed trail ρ).steps_eq later _

/--
A function refers to a global and then declares a local of the same name, which its own initializer
assigns.  With the local renamed, the global is still found, and the error has the new name.  All
this is on one line.  With a line for each reference, the error is on that of the assignment.
-/
theorem local_names_do_not_matter_shadowed :
    let limits : Limits := ⟨20, 20, 20, 20⟩
    let source := "var a; fun f() \x7b print a; var a = a = nil; \x7d"
    let source' := "var a; fun f() \x7b print a; var b = b = nil; \x7d"
    let ρ : Renaming := ⟨"a", "b"⟩
    let s := ((start []).run limits source).2
    let s' := ((start []).run limits source').2
    ∃ program, compile limits source = .ok program
      ∧ DeclaresLocal [1] "a" program
      ∧ "b" ∉ Stmt.namesAll program
      ∧ compile limits source' = .ok (renameLocal [1] ρ program)
      ∧ (s.run limits "f();").1 = .ran ["nil"] (.failed ⟨.undefinedVariable "a", some 1⟩)
      ∧ (s'.run limits "f();").1 = .ran ["nil"] (.failed ⟨.undefinedVariable "b", some 1⟩)
      ∧ s'.machine.shownGlobals = s.machine.shownGlobals
      ∧ ∃ n : Numbering program, n.Exact
        ∧ (n.run limits (start [])).1.relabel (.lines n.told) = .ran [] .finished
        ∧ ((n.run limits (start [])).2.runOn (.lines n.elsewhere) limits "f();").1 =
          .ran ["nil"] (.failed ⟨.undefinedVariable "a", some 3⟩)
        ∧ (((n.renamed [1] ρ).run limits (start [])).2.runOn (.lines n.elsewhere) limits "f();").1 =
          .ran ["nil"] (.failed ⟨.undefinedVariable "b", some 3⟩) := by
  dsimp only
  let elsewhere : Int → Int := fun line => if 0 < line then line + 3 else line
  let told : Int → Int := fun number =>
    if 3 < number then number - 3 else if 0 < number then 1 else number
  have htold : ∀ line, told (elsewhere line) = line := by
    intro line
    simp only [told, elsewhere]
    split <;> split <;> omega
  have hcompile : ∃ program numbered,
      compile ⟨20, 20, 20, 20⟩ "var a; fun f() \x7b print a; var a = a = nil; \x7d" = .ok program
        ∧ DeclaresLocal [1] "a" program
        ∧ "b" ∉ Stmt.namesAll program
        ∧ statementsOf ⟨20, 20, 20, 20⟩ "var a; fun f() \x7b print a; var b = b = nil; \x7d" =
          Stmt.relabelAll .unlinked (renameLocal [1] ⟨"a", "b"⟩ program)
        ∧ compile ⟨20, 20, 20, 20⟩ "var a; fun f() \x7b print\na; var a =\na = nil; \x7d" =
          .ok numbered
        ∧ Stmt.relabelAll (.lines told) numbered = program
        ∧ (Stmt.referencesAll .written numbered).map LinkRecord.line = [2, 3]
        ∧ (((start []).runCompiled ⟨20, 20, 20, 20⟩ numbered).2.runOn (.lines elsewhere)
            ⟨20, 20, 20, 20⟩ "f();").1 = .ran ["nil"] (.failed ⟨.undefinedVariable "a", some 3⟩)
        ∧ (((start []).runCompiled ⟨20, 20, 20, 20⟩ (renameLocal [1] ⟨"a", "b"⟩ numbered)).2.runOn
            (.lines elsewhere) ⟨20, 20, 20, 20⟩ "f();").1 =
          .ran ["nil"] (.failed ⟨.undefinedVariable "b", some 3⟩) :=
    ⟨_, _, by cbv, by unfold DeclaresLocal; cbv, by decide, by cbv, by cbv, by cbv, by cbv, by cbv,
      by cbv⟩
  obtain ⟨program, numbered, hprogram, hx, hy, hsame, -, hnumbered, hlines, hold, hnew⟩ := hcompile
  obtain ⟨⟨-, -, htext⟩, -, hruns⟩ :=
    local_names_do_not_matter hprogram hx hy (by decide) (by decide)
  have hrenamed := htext _ (by cbv) (by cbv) hsame
  obtain ⟨-, hglobals, -, -, hnumberings⟩ := hruns ⟨20, 20, 20, 20⟩ [] []
  let n : Numbering program := ⟨numbered, elsewhere, told, htold, hnumbered⟩
  have hexact : n.Exact := by
    constructor
    · rw [hlines]
      decide
    · intro r hr line hline
      have hmem : r.line ∈ [2, 3] := hlines ▸ List.mem_map_of_mem hr
      simp only [n, elsewhere, List.mem_cons, List.not_mem_nil, or_false] at hline hmem
      split at hline <;> omega
  have hends : ((start []).runCompiled ⟨20, 20, 20, 20⟩ program).1 = .ran [] .finished := by
    rw [← run_of_compile_eq_ok hprogram]
    cbv
  refine ⟨program, hprogram, hx, hy, hrenamed, by cbv, by cbv, ?_, n, hexact, ?_, ?_, ?_⟩
  · rw [run_of_compile_eq_ok hprogram, run_of_compile_eq_ok hrenamed]
    exact hglobals
  · exact (hnumberings n).1.symm.trans hends
  · rw [Numbering.run, relabel_start]
    exact hold
  · rw [Numbering.run, relabel_start]
    exact hnew

end Session

end Lox

import Lox.Proofs.Scope.Tables
import Lox.Proofs.Session.Course
import Lox.Proofs.Session.Relabel
import Lox.Session.Tables

/-!
# Rejected texts

A session with tables keeps what resolution has written for a rejected text.  Nothing ever looks it
up: numbers are not given twice, so all code that the machine holds, and all code that is still to
come, has other numbers.

That is what makes such a session the same as one that keeps the links in the trees.

**Main definitions.**
* `TableSession.Fresh`: the next numbers are new.
* `TableSession.lookedUp`: the session with the links of its code looked up.

**Results.**
* `TableSession.run_lookedUp`: a text does the same to both kinds of session.
* `TableSession.rejected_leaves_no_trace`: a rejected text changes no run that follows.
-/

namespace Lox

/-- Replaces the numbers from a bound on. -/
def Link.below (bound : Nat) (placeholder : Link) : Link :=
  if placeholder.depth.any (· < bound) then placeholder else .unresolved

theorem keepsNumbers_below (bound : Nat) : KeepsNumbers (Link.below bound) bound := by
  intro m hm
  simp [Link.below, Link.numbered, hm]

theorem Link.below_comp_below {bound greater : Nat} (h : bound ≤ greater) :
    Link.below greater ∘ Link.below bound = Link.below bound := by
  funext placeholder
  rcases placeholder with ⟨_ | m, constantDepth⟩
  · rfl
  · by_cases hm : m < bound
    · simp [Link.below, hm, hm.trans_le h]
    · simp [Link.below, hm, Link.unresolved]

namespace Tables

/-- Two tables that agree below a bound find the same links there. -/
theorem look_comp_below {t u : Tables} {bound : Nat} (h : ∀ m < bound, t.link m = u.link m) :
    t.look ∘ Link.below bound = u.look ∘ Link.below bound := by
  funext placeholder
  rcases placeholder with ⟨_ | m, constantDepth⟩
  · rfl
  · by_cases hm : m < bound
    · simp [Link.below, look, hm, h m hm]
    · simp [Link.below, look, hm, Link.unresolved]

/-- Tables without entries from a bound on do not tell the numbers there from no number. -/
theorem look_comp_below_self {t : Tables} {bound : Nat}
    (h : ∀ m, bound ≤ m → t.link m = .unresolved) : t.look ∘ Link.below bound = t.look := by
  funext placeholder
  rcases placeholder with ⟨_ | m, constantDepth⟩
  · rfl
  · by_cases hm : m < bound
    · simp [Link.below, look, hm]
    · simp [Link.below, look, hm, h m (not_lt.mp hm), Link.unresolved]

end Tables

namespace Machine

/-- The machine at the beginning holds no code. -/
theorem relabel_initial (c : Relabeling) (clock : List Float) :
    (initial clock).relabel c = initial clock := by
  have hempty : Store.empty.relabel c = Store.empty := by simp [Store.relabel, Store.empty]
  simp [relabel, initial, Store.initial, ← Store.define_relabel, ← Store.extend_relabel, hempty,
    Value.relabel]

variable (look : Link → Link) (limits : Limits) (program : List Stmt) (m : Machine)

theorem runProgramBy_eq_stopped :
    m.runProgramBy look limits program =
      stopped (Code.each (Run.executeBy look limits.rounds limits.running globalFrame) program
        { m with printed := #[] }) := by
  unfold runProgramBy
  dsimp only
  cases Code.each (Run.executeBy look limits.rounds limits.running globalFrame) program
      { m with printed := #[] } <;> rfl

theorem runProgramBy_id : m.runProgramBy id limits program = m.runProgram limits program := by
  rw [runProgramBy_eq_stopped, runProgram_eq_stopped, show Run.executeBy id limits.rounds
    limits.running globalFrame = Run.execute limits.rounds limits.running globalFrame from
      funext fun s => Run.executeBy_id limits.rounds limits.running globalFrame s]

@[simp] theorem after_empty : m.after #[] = m := by
  simp [after]

/--
A change of the links can be made before a program runs or after it, if links are looked up as what
they were before.
-/
theorem runProgramBy_relabel (f : Link → Link) :
    (m.relabel (.links f)).runProgramBy look limits (program.map (Stmt.relabel (.links f))) =
      (((m.runProgramBy (look ∘ f) limits program).1.relabel (.links f)),
        (m.runProgramBy (look ∘ f) limits program).2.relabel (.links f)) := by
  have hrun := Code.each_relabels (.links f)
    (Run.executeBy_relabels (.links f) look limits.rounds limits.running globalFrame)
    program #[] { m with printed := #[] }
  rw [after_empty] at hrun
  rw [runProgramBy_eq_stopped, runProgramBy_eq_stopped]
  change stopped ((Code.each _ _ : Run Unit) ({ m with printed := #[] }.relabel (.links f))) = _
  rw [hrun, stopped_relabel, after_empty, Relabeling.link_links]

end Machine

theorem Ending.relabel_links (f : Link → Link) (E : Ending) : E.relabel (.links f) = E := by
  rcases E with _ | ⟨_, _ | _⟩ | _ | _ <;> rfl

namespace TableSession

/-- The session with the links of its code looked up. -/
def lookedUp (s : TableSession) : Session :=
  ⟨s.machine.relabel (.links s.tables.look)⟩

/-- The numbers from the next one on stand neither in the tables nor in the code of the machine. -/
structure Fresh (s : TableSession) : Prop where
  tables : ∀ m, s.next ≤ m → s.tables.link m = .unresolved
  machine : s.machine.relabel (.links (Link.below s.next)) = s.machine

theorem fresh_start (clock : List Float) : (start clock).Fresh where
  tables _ _ := rfl
  machine := Machine.relabel_initial _ clock

/-- At the beginning both kinds of session are the same. -/
theorem lookedUp_start (clock : List Float) : (start clock).lookedUp = Session.start clock :=
  congrArg Session.mk (Machine.relabel_initial _ clock)

variable {s : TableSession}

/-- Numbers may be left out. -/
theorem Fresh.machine_of_le (h : s.Fresh) {next : Nat} (hle : s.next ≤ next) :
    s.machine.relabel (.links (Link.below next)) = s.machine := by
  have hcomp : (Relabeling.links (Link.below next)).comp (.links (Link.below s.next)) =
      .links (Link.below s.next) :=
    congrArg Relabeling.links (Link.below_comp_below hle)
  calc
    s.machine.relabel (.links (Link.below next))
        = (s.machine.relabel (.links (Link.below s.next))).relabel (.links (Link.below next)) := by
      rw [h.machine]
    _ = s.machine.relabel (.links (Link.below s.next)) := by
      rw [Machine.relabel_relabel, hcomp]
    _ = s.machine := h.machine

/-- Entries under new numbers do not change what the code of the machine stands for. -/
theorem Fresh.relabel_look (h : s.Fresh) {tables : Tables}
    (hkeeps : ∀ m < s.next, tables.link m = s.tables.link m) :
    s.machine.relabel (.links tables.look) = s.machine.relabel (.links s.tables.look) := by
  have hlook : ∀ t : Tables, s.machine.relabel (.links t.look) =
      s.machine.relabel (.links (t.look ∘ Link.below s.next)) := by
    intro t
    conv_lhs => rw [← h.machine, Machine.relabel_relabel]
    rfl
  rw [hlook, hlook s.tables, Tables.look_comp_below hkeeps]

/-- Entries under new numbers leave the numbers after them new. -/
theorem Fresh.link_recordAll (h : s.Fresh) {links : List Link} {next : Nat}
    (hnext : s.next + links.length ≤ next) :
    ∀ m, next ≤ m → (s.tables.recordAll s.next links).link m = .unresolved := by
  intro m hm
  rw [Tables.link_recordAll_of_le links (by omega), h.tables m (by omega)]

theorem length_resolvedLinks (program : List Stmt) :
    (resolvedLinks program).length = Stmt.sizeAll program := by
  rw [resolvedLinks, List.length_map]
  exact Stmt.sizeAll_resolveAll program .top

/-- With the links found by resolution looked up, a tree with numbers is the resolved tree. -/
theorem Fresh.map_relabel_numberedAll (h : s.Fresh) (program : List Stmt) :
    (Stmt.numberedAll s.next program).map
        (Stmt.relabel (.links (s.tables.recordAll s.next (resolvedLinks program)).look)) =
      resolveProgram program := by
  rw [← Stmt.relabelAll_eq_map]
  exact Stmt.relabelAll_numberedAll program .top s.next
    (Tables.finds_recordAll (resolvedLinks program) h.tables)

/--
A text does the same to a session with tables and to the session with all links looked up, and the
next numbers are new again.
-/
theorem run_lookedUp (h : s.Fresh) (reached : List Stmt → Nat) (limits : Limits)
    (source : String) :
    (s.run reached limits source).2.Fresh
      ∧ s.lookedUp.run limits source =
        ((s.run reached limits source).1, (s.run reached limits source).2.lookedUp) := by
  have hlength := length_resolvedLinks (Parse.within limits.parsing (scan source).tokens).statements
  unfold run Session.run compile
  dsimp only
  cases readingErrors (scan source) (Parse.within limits.parsing (scan source).tokens) with
  | cons e es =>
      exact ⟨⟨fun m hm => h.tables m ((Nat.le_add_right _ _).trans hm),
        h.machine_of_le (Nat.le_add_right _ _)⟩, rfl⟩
  | nil =>
      dsimp only
      set program := (Parse.within limits.parsing (scan source).tokens).statements
      cases errorsWithin (some limits.checking) program with
      | cons e es =>
          dsimp only
          set written := (resolvedLinks program).take (reached program)
          have hwritten : written.length ≤ Stmt.sizeAll program :=
            hlength ▸ List.length_take_le' _ _
          refine ⟨⟨h.link_recordAll (Nat.add_le_add_left hwritten _),
            h.machine_of_le (Nat.le_add_right _ _)⟩, ?_⟩
          rw [lookedUp, lookedUp, h.relabel_look fun m hm => Tables.link_recordAll_of_lt written hm]
      | nil =>
          dsimp only
          have hnew := h.link_recordAll (Nat.add_le_add_left hlength.le s.next)
          have hkept : ∀ m < s.next,
              (s.tables.recordAll s.next (resolvedLinks program)).link m = s.tables.link m :=
            fun m hm => Tables.link_recordAll_of_lt _ hm
          have hprogram := h.map_relabel_numberedAll program
          set tables := s.tables.recordAll s.next (resolvedLinks program)
          set numbered := Stmt.numberedAll s.next program
          refine ⟨⟨hnew, ?_⟩, ?_⟩
          · set next := s.next + Stmt.sizeAll program
            have hnumbered : numbered.map (Stmt.relabel (.links (Link.below next))) = numbered := by
              rw [← Stmt.relabelAll_eq_map]
              exact Stmt.relabelAll_numberedAll_of_le (keepsNumbers_below _) program s.next le_rfl
            have hrun := Machine.runProgramBy_relabel tables.look limits numbered s.machine
              (Link.below next)
            rw [hnumbered, h.machine_of_le (Nat.le_add_right _ _),
              Tables.look_comp_below_self hnew] at hrun
            exact (congrArg Prod.snd hrun).symm
          · have hrun := Machine.runProgramBy_relabel id limits numbered s.machine tables.look
            rw [hprogram, h.relabel_look hkept, Machine.runProgramBy_id, Ending.relabel_links]
              at hrun
            rw [lookedUp, hrun]
            rfl

/-- The session after some submissions. -/
def runAll (reached : List Stmt → Nat) (submissions : List Session.Submission)
    (s : TableSession) : TableSession :=
  submissions.foldl (fun s x => (s.run reached x.limits x.source).2) s

/-- What a host learns about each of some submissions, and the globals after it. -/
def steps (reached : List Stmt → Nat) :
    List Session.Submission → TableSession → List (Report × List (String × String × Bool))
  | [], _ => []
  | x :: rest, s =>
      let result := s.run reached x.limits x.source
      (result.1.report, result.2.machine.shownGlobals) :: steps reached rest result.2

/-- Submissions do the same to a session with tables and to the session with all links looked up. -/
theorem runAll_lookedUp (h : s.Fresh) (reached : List Stmt → Nat)
    (submissions : List Session.Submission) :
    (s.runAll reached submissions).Fresh
      ∧ s.lookedUp.runAll submissions = (s.runAll reached submissions).lookedUp := by
  induction submissions generalizing s with
  | nil => exact ⟨h, rfl⟩
  | cons x rest ih =>
      obtain ⟨hfresh, hrun⟩ := run_lookedUp h reached x.limits x.source
      obtain ⟨hrest, hruns⟩ := ih hfresh
      refine ⟨hrest, ?_⟩
      change Session.runAll rest (s.lookedUp.run x.limits x.source).2 = _
      rw [hrun]
      exact hruns

/-- Two sessions that hold the same code, once links are looked up, take the same steps. -/
theorem steps_eq_of_lookedUp_eq {t : TableSession} (hs : s.Fresh) (ht : t.Fresh)
    (hsame : s.lookedUp = t.lookedUp) (reached : List Stmt → Nat)
    (submissions : List Session.Submission) :
    steps reached submissions s = steps reached submissions t := by
  induction submissions generalizing s t with
  | nil => rfl
  | cons x rest ih =>
      obtain ⟨hs', hrunS⟩ := run_lookedUp hs reached x.limits x.source
      obtain ⟨ht', hrunT⟩ := run_lookedUp ht reached x.limits x.source
      obtain ⟨houtcome, hlookedUp⟩ := Prod.mk.inj (hrunS.symm.trans (hsame ▸ hrunT))
      have hglobals : (s.run reached x.limits x.source).2.machine.shownGlobals =
          (t.run reached x.limits x.source).2.machine.shownGlobals := by
        have h := congrArg (fun u : Session => u.machine.shownGlobals) hlookedUp
        simpa only [lookedUp, Machine.shownGlobals_relabel] using h
      simp only [steps, houtcome, hglobals, ih hs' ht' hlookedUp]

/-- Scanning, parsing or scope resolution reports an error. -/
def HasErrors (limits : Limits) (source : String) : Prop :=
  (scan source).errors ≠ []
    ∨ (Parse.within limits.parsing (scan source).tokens).errors ≠ []
    ∨ errorsWithin (some limits.checking) (statementsOf limits source) ≠ []

theorem hasErrors_iff_compile {limits : Limits} {source : String} :
    HasErrors limits source ↔ ∃ diagnostics, compile limits source = .error diagnostics := by
  cases hcompile : compile limits source with
  | ok resolved =>
      obtain ⟨hscan, hparse, hscopes, -⟩ := compile_eq_ok_iff.mp hcompile
      simp [HasErrors, hscan, hparse, hscopes]
  | error diagnostics =>
      refine ⟨fun _ => ⟨diagnostics, rfl⟩, fun _ => ?_⟩
      by_contra hnone
      simp only [HasErrors, not_or, not_not] at hnone
      obtain ⟨hscan, hparse, hscopes⟩ := hnone
      have hok := compile_eq_ok_iff.mpr ⟨hscan, hparse, hscopes, rfl⟩
      rw [hcompile] at hok
      cases hok

/-- The outcome of a text is that of the compiler, if it rejects the text. -/
theorem run_of_compile_eq_error {limits : Limits} {source : String}
    {diagnostics : List Diagnostic} (hs : s.Fresh) (reached : List Stmt → Nat)
    (h : compile limits source = .error diagnostics) :
    (s.run reached limits source).1 = .rejected diagnostics
      ∧ (s.run reached limits source).2.lookedUp = s.lookedUp := by
  have hrun := (run_lookedUp hs reached limits source).2
  rw [Session.run, h] at hrun
  obtain ⟨houtcome, hsession⟩ := Prod.mk.inj hrun
  exact ⟨houtcome.symm, hsession.symm⟩

/-- The machine takes no part in the rejection of a text. -/
theorem machine_run_of_rejected {reached : List Stmt → Nat} {limits : Limits} {source : String}
    {diagnostics : List Diagnostic}
    (h : (s.run reached limits source).1 = .rejected diagnostics) :
    (s.run reached limits source).2.machine = s.machine := by
  revert h
  unfold run
  dsimp only
  split
  · split
    · exact nofun
    · exact fun _ => rfl
  · exact fun _ => rfl

/--
A text with errors is rejected with a report of them, and the machine of the session is as it was:
nothing is printed, no clock is read and no frame is changed.  Resolution may have written into the
tables, but all later texts take the same steps as if the text had never been submitted, and all
code that is kept stands for the same.  No other text is rejected.
-/
theorem rejected_leaves_no_trace (reached : List Stmt → Nat) (clock : List Float)
    (before : List Session.Submission) (limits : Limits) (source : String) :
    let s := (start clock).runAll reached before
    let result := s.run reached limits source
    (result.1.report.status = some .compileError ↔ HasErrors limits source)
      ∧ (HasErrors limits source →
        (∃ diagnostics, diagnostics ≠ []
            ∧ result.1.report = ⟨some .compileError, [], diagnostics, [], true, false⟩)
          ∧ result.2.machine = s.machine
          ∧ ∀ after : List Session.Submission,
            steps reached after result.2 = steps reached after s
              ∧ (result.2.runAll reached after).lookedUp = (s.runAll reached after).lookedUp) := by
  intro s result
  have hs : s.Fresh := (runAll_lookedUp (fresh_start clock) reached before).1
  obtain ⟨hresult, hrun⟩ := run_lookedUp hs reached limits source
  rw [hasErrors_iff_compile]
  refine ⟨⟨fun hstatus => ?_, ?_⟩, ?_⟩
  · cases hcompile : compile limits source with
    | error diagnostics => exact ⟨diagnostics, rfl⟩
    | ok resolved =>
        rw [Session.run, hcompile] at hrun
        have houtcome := congrArg Prod.fst hrun
        change _ = result.1 at houtcome
        rw [← houtcome] at hstatus
        revert hstatus
        dsimp only
        cases (s.lookedUp.machine.runProgram limits resolved).1 <;> exact nofun
  · rintro ⟨diagnostics, hcompile⟩
    have houtcome := (run_of_compile_eq_error hs reached hcompile).1
    exact congrArg (fun x => x.report.status) houtcome
  · rintro ⟨diagnostics, hcompile⟩
    obtain ⟨houtcome, hlookedUp⟩ := run_of_compile_eq_error hs reached hcompile
    refine ⟨⟨diagnostics, ne_nil_of_compile_eq_error hcompile, congrArg Outcome.report houtcome⟩,
      machine_run_of_rejected houtcome, fun after => ⟨?_, ?_⟩⟩
    · exact steps_eq_of_lookedUp_eq hresult hs hlookedUp reached after
    · rw [← (runAll_lookedUp hresult reached after).2, ← (runAll_lookedUp hs reached after).2,
        hlookedUp]

/-- A rejected text leaves entries in the tables, and the function before it runs as it did. -/
theorem rejected_leaves_no_trace_entries_left :
    let limits : Limits := ⟨20, 20, 20, 20⟩
    let source := "\x7b const a = nil; a = a; return; \x7d"
    let s := (start []).runAll Stmt.sizeAll [⟨limits, "fun f() \x7b var x; return x; \x7d"⟩]
    let result := s.run Stmt.sizeAll limits source
    HasErrors limits source
      ∧ s.tables = ⟨[(0, 0)], []⟩
      ∧ result.2.tables = ⟨[(2, 0), (1, 0), (0, 0)], [(2, 0)]⟩
      ∧ result.2.machine = s.machine
      ∧ (result.2.run Stmt.sizeAll limits "print f();").1 = .ran ["nil"] .finished
      ∧ steps Stmt.sizeAll [⟨limits, "print f();"⟩] result.2 =
        steps Stmt.sizeAll [⟨limits, "print f();"⟩] s := by
  dsimp only
  have herrors : HasErrors ⟨20, 20, 20, 20⟩ "\x7b const a = nil; a = a; return; \x7d" :=
    hasErrors_iff_compile.mpr ⟨_, by cbv⟩
  obtain ⟨-, hmachine, hafter⟩ := (rejected_leaves_no_trace Stmt.sizeAll []
    [⟨⟨20, 20, 20, 20⟩, "fun f() \x7b var x; return x; \x7d"⟩] _ _).2 herrors
  exact ⟨herrors, by cbv, by cbv, hmachine, by cbv, (hafter _).1⟩

end TableSession
end Lox

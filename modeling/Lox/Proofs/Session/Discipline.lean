import Lox.Proofs.Machine.Active
import Lox.Proofs.Machine.Discipline
import Lox.Proofs.Session.Course

/-!
# The active frame and the names of frames

Running code changes the active frame and puts it back, and it adds names to frames.  Both are said
here of the same runs: of expressions, of statements and of whole programs, of whatever tree and
from whatever machine.

**Results.**
* `flatMap_declares_resolveAll`: a text declares names at its top level by declarations alone.
* `ActiveRun.frame_discipline`: the active frame is put back, and names are added as declared.
-/

namespace Lox

/-- A conditional or a loop that comes from a text declares nothing. -/
theorem Stmt.declares_eq_nil :
    ∀ {s : Stmt}, s.isDeclaration = false → s.AsParsed → s.declares = []
  | .ifStmt _ _ none, _, h => by rw [declares, declares_eq_nil h.2.1 h.2.2]
  | .ifStmt _ _ (some _), _, h => by
      rw [declares, declares_eq_nil h.2.1.1 h.2.1.2, declares_eq_nil h.2.2.1 h.2.2.2,
        List.append_nil]
  | .whileStmt _ _, _, h => by rw [declares, declares_eq_nil h.2.1 h.2.2]
  | .block _, _, _ => rfl
  | .exprStmt _, _, _ => rfl
  | .printStmt _, _, _ => rfl
  | .returnStmt _ _, _, _ => rfl

theorem Stmt.declares_resolve : ∀ (s : Stmt) (c : Context), (s.resolve c).declares = s.declares
  | .ifStmt _ thenBranch none, c => thenBranch.declares_resolve c
  | .ifStmt _ thenBranch (some elseBranch), c => by
      rw [resolve, declares, declares, thenBranch.declares_resolve, elseBranch.declares_resolve]
  | .whileStmt _ body, c => body.declares_resolve c
  | .funDecl ⟨_, _, _⟩, _ => rfl
  | .classDecl _ _ _, _ => rfl
  | .varDecl _ _, _ => rfl
  | .constDecl _ _, _ => rfl
  | .block _, _ => rfl
  | .exprStmt _, _ => rfl
  | .printStmt _, _ => rfl
  | .returnStmt _ _, _ => rfl

/-- What a resolved text declares at its top level are the names of its declarations there. -/
theorem flatMap_declares_resolveAll :
    ∀ (ss : List Stmt) (c : Context), Stmt.AsParsedAll ss →
      (Stmt.resolveAll ss c).flatMap Stmt.declares =
        ((Stmt.resolveAll ss c).filter Stmt.isDeclaration).flatMap Stmt.declares := by
  intro ss
  induction ss with
  | nil => exact fun _ _ => rfl
  | cons s ss ih =>
      intro c h
      rw [Stmt.resolveAll, List.flatMap_cons, ih (s.contextAfter c) h.2]
      cases hs : s.isDeclaration with
      | true =>
          rw [List.filter_cons_of_pos (by rw [Stmt.isDeclaration_resolve, hs]), List.flatMap_cons]
      | false =>
          rw [List.filter_cons_of_neg (by simp [Stmt.isDeclaration_resolve, hs]),
            Stmt.declares_resolve, Stmt.declares_eq_nil hs h.1, List.nil_append]

namespace ActiveRun

/-- Tracked code leaves the machine that the other code leaves, and the active frame. -/
theorem Tracks.final
    {α : Type}
    {frame : FrameId}
    {x : ActiveRun α}
    {y : Recorded α}
    (h : Tracks frame x y.run)
    (m : Machine) :
    x.final ⟨m, frame⟩ = ⟨y.final m, frame⟩ := by
  rw [ActiveRun.final, h m, onMachine, Recorded.final, Recorded.run]
  cases (y m).2 <;> rfl

/-- After an error the global frame is active, as it was. -/
theorem final_interpret
    (rounds room : Nat)
    (program : List Stmt)
    (m : Machine) :
    (interpret rounds room program).final ⟨m, globalFrame⟩ =
      (Code.each (execute rounds room) program).final ⟨m, globalFrame⟩ := by
  have h := tracks_each (tracks_execute rounds room globalFrame) program m
  simp only [ActiveRun.final, interpret, h, onMachine]
  cases Code.each (Run.execute rounds room globalFrame) program m with
  | ok _ m' => rfl
  | error interrupt m' => cases interrupt <;> rfl

/--
Whatever tree is run from whatever machine, and however that ends, the active frame is the same
afterwards, no frame has lost a name at any time, and the frames that were there have got exactly
the names that declarations have bound in them.  An expression binds none; a statement binds, in the
active frame alone, names that it declares directly; and a whole program binds in the global frame
names that its statements declare directly.  In a text these are the names of the declarations at
its top level.
-/
theorem frame_discipline
    (rounds room : Nat)
    (m : Machine)
    (frame : FrameId)
    (hframe : frame < m.store.nextId) :
    (∀ e : Expr,
      let recorded : Recorded Value := Code.evaluate rounds room frame e
      let after := (evaluate rounds room e).final ⟨m, frame⟩
      after.frame = frame ∧ Confined frame [] m (recorded m).1 after.machine)
    ∧ (∀ s : Stmt,
      let recorded : Recorded Completion := Code.execute rounds room frame s
      let after := (execute rounds room s).final ⟨m, frame⟩
      after.frame = frame ∧ Confined frame s.declares m (recorded m).1 after.machine)
    ∧ (frame = globalFrame → ∀ program : List Stmt,
      let recorded : Recorded Unit := Code.each (Code.execute rounds room globalFrame) program
      let after := (interpret rounds room program).final ⟨m, frame⟩
      after.frame = globalFrame
        ∧ Confined globalFrame (program.flatMap Stmt.declares) m (recorded m).1 after.machine)
    ∧ ∀ (limits : Limits) (source : String) (program : List Stmt),
      compile limits source = .ok program →
        program.flatMap Stmt.declares =
          (program.filter Stmt.isDeclaration).flatMap Stmt.declares := by
  refine ⟨fun e => ?_, fun s => ?_, ?_, fun limits source program hcompile => ?_⟩
  · have htracks := tracks_evaluate rounds room frame e
    rw [← Code.recorded_evaluate] at htracks
    simp only [htracks.final m, true_and]
    exact Code.confined_evaluate rounds room frame e m hframe
  · have htracks := tracks_execute rounds room frame s
    rw [← Code.recorded_execute] at htracks
    simp only [htracks.final m, true_and]
    exact Code.confined_execute rounds room frame s m hframe
  · rintro rfl program
    have htracks : Tracks globalFrame (Code.each (execute rounds room) program)
        (Code.each (Code.execute rounds room globalFrame) program : Recorded Unit).run := by
      rw [Code.run_each]
      exact tracks_each (fun s => Code.recorded_execute rounds room globalFrame s ▸
        tracks_execute rounds room globalFrame s) program
    simp only [final_interpret, htracks.final m, true_and]
    refine Code.confined_each (fun s hs => ?_) m hframe
    exact (Code.confined_execute rounds room globalFrame s).mono fun name h =>
      List.mem_flatMap.mpr ⟨s, hs, h⟩
  · obtain ⟨rfl, -, -⟩ := compile_eq_ok hcompile
    exact flatMap_declares_resolveAll _ .top (accepted_statementsOf hcompile).asParsed

/--
An assignment that is linked too far outward stops a block, and the block leaves nothing behind.
-/
theorem frame_discipline_linked_too_far :
    let name (lexeme : String) : Token := ⟨.identifier, lexeme, 1⟩
    let program : List Stmt :=
      [.varDecl (name "a") none,
        .block [.varDecl (name "b") none,
          .exprStmt (.assign ⟨name "c", ⟨some 5, none⟩⟩ (.literal .nil))]]
    let m := Machine.initial []
    let after := (interpret 9 9 program).final ⟨m, globalFrame⟩
    globalFrame < m.store.nextId
      ∧ (m.runProgram ⟨9, 9, 9, 9⟩ program).1 = .strayed 5
      ∧ after.frame = globalFrame
      ∧ after.machine.store.nextId = 2
      ∧ ∀ n, after.machine.store.Holds globalFrame n ↔ m.store.Holds globalFrame n ∨ n = "a" := by
  intro name program m after
  have hthere : globalFrame < m.store.nextId := by decide
  obtain ⟨hframe, hconfined⟩ := (frame_discipline 9 9 m globalFrame hthere).2.2.1 rfl program
  have hheld : after.machine.store.Holds globalFrame "a" := by
    change (after.machine.store.slot? globalFrame "a").isSome = true
    cbv
  refine ⟨hthere, by cbv, hframe, by cbv, fun n => ⟨fun h => ?_, ?_⟩⟩
  · refine ((hconfined.names globalFrame hthere n).mp h).imp_right fun hbinds => ?_
    have hn := (hconfined.binds globalFrame hthere n hbinds).2
    simpa [program, Stmt.declares, name] using hn
  · rintro (h | rfl)
    · exact hconfined.retains globalFrame n h
    · exact hheld

end ActiveRun

end Lox

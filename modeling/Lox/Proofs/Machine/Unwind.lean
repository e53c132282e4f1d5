import Lox.Machine.Unwind
import Mathlib.Control.Basic

/-!
# Completions and returns that unwind

Code passes the completion of a statement on to the statement around it, and each of these tests it.
No one drops it: what arrives at the call is the value of the first return that is executed.

**Results.**
* `Unwinding.evaluate_eq`, `Unwinding.received_execute`: running with completions and running with
  returns that unwind are the same.
* `Code.callFunction_eq`: what the call of a function yields.
-/

namespace Lox

namespace Unwinding

open Code

section Received

@[simp] theorem received_pure : received (pure ()) = pure none := rfl

@[simp] theorem received_leave (value : Value) : received (leave value) = pure (some value) := rfl

@[simp] theorem received_plain (x : Run Unit) : received (plain x) = x >>= fun _ => pure none := by
  funext m
  change EStateM.bind (EStateM.bind x _) _ m = EStateM.bind x _ m
  simp only [EStateM.bind]
  cases x m <;> rfl

/-- Code without a return of its own comes before what is received. -/
@[simp] theorem received_plain_bind
    {α : Type}
    (x : Run α)
    (f : α → Unwinding Unit) :
    received (plain x >>= f) = x >>= fun a => received (f a) := by
  funext m
  change EStateM.bind (EStateM.bind (EStateM.bind x _) _) _ m = EStateM.bind x _ m
  simp only [EStateM.bind]
  cases x m <;> rfl

/-- A return in the first part leaves the second part out. -/
theorem received_bind
    (x : Unwinding Unit)
    (f : Unit → Unwinding Unit) :
    received (x >>= f) = received x >>= fun completion =>
      match completion with
      | some value => pure (some value)
      | none => received (f ()) := by
  funext m
  change EStateM.bind (EStateM.bind x _) _ m = EStateM.bind (EStateM.bind x _) _ m
  simp only [EStateM.bind]
  cases x m with
  | ok outcome m' => cases outcome <;> rfl
  | error interrupt m' => rfl

/-- The completion of a body is what is received from its statements in sequence. -/
theorem received_sequence
    {step : Stmt → Run Completion}
    {step' : Stmt → Unwinding Unit}
    (h : ∀ s, received (step' s) = step s)
    (body : List Stmt) :
    received (sequence step' body) = untilReturn step body := by
  induction body with
  | nil => rfl
  | cons s rest ih =>
      calc received (sequence step' (s :: rest))
        _ = step s >>= fun completion =>
              match completion with
              | some value => pure (some value)
              | none => untilReturn step rest := by rw [sequence, received_bind, h, ih]
        _ = untilReturn step (s :: rest) := rfl

theorem received_loop
    (condition : Run Value)
    {body : Run Completion}
    {body' : Unwinding Unit}
    (h : received body' = body)
    (rounds : Nat) :
    received (loop condition body' rounds) = repeating condition body rounds := by
  induction rounds with
  | zero => rfl
  | succ rounds ih =>
      simp only [loop, repeating, received_plain_bind]
      refine bind_congr fun value => ?_
      split
      · calc received (body' >>= fun _ => loop condition body' rounds)
          _ = body >>= fun completion =>
                match completion with
                | some value => pure (some value)
                | none => repeating condition body rounds := by rw [received_bind, h, ih]
      · rfl

end Received

mutual

/-- Passing completions on evaluates expressions as unwinding does. -/
theorem evaluate_eq
    (rounds room : Nat)
    (frame : FrameId)
    (e : Expr) :
    evaluate rounds room frame e = Run.evaluate rounds room frame e := by
  match room with
  | 0 => rfl
  | room + 1 =>
      have ihE : evaluate rounds room = Code.evaluate rounds room :=
        funext fun frame => funext fun e => evaluate_eq rounds room frame e
      have ihS (frame : FrameId) (body : List Stmt) :
          received (sequence (execute rounds room frame) body) =
            untilReturn (Code.execute rounds room frame) body :=
        received_sequence (received_execute rounds room frame) body
      unfold Run.evaluate
      cases e <;> simp only [evaluate, Code.evaluate, ihE, ihS] <;> rfl

/-- What is received from a statement is its completion. -/
theorem received_execute
    (rounds room : Nat)
    (frame : FrameId)
    (s : Stmt) :
    received (execute rounds room frame s) = Run.execute rounds room frame s := by
  match room with
  | 0 => rfl
  | room + 1 =>
      have ihE : evaluate rounds room = Code.evaluate rounds room :=
        funext fun frame => funext fun e => evaluate_eq rounds room frame e
      have ihS (frame : FrameId) (s : Stmt) :
          received (execute rounds room frame s) = Code.execute rounds room frame s :=
        received_execute rounds room frame s
      unfold Run.execute
      cases s with
      | block body =>
          simp only [execute, Code.execute, received_plain_bind, received_sequence (ihS _)]
      | ifStmt condition thenBranch elseBranch =>
          simp only [execute, Code.execute, received_plain_bind, ihE]
          refine bind_congr fun value => ?_
          split
          · exact ihS frame thenBranch
          · cases elseBranch with
            | none => rfl
            | some other => exact ihS frame other
      | returnStmt keyword value =>
          simp only [execute, Code.execute, received_plain_bind, received_leave, ihE]
          rfl
      | whileStmt condition body =>
          simp only [execute, Code.execute, ihE, received_loop _ (ihS frame body)]
      | _ =>
          simp only [execute, Code.execute, received_plain_bind, received_plain, received_pure, ihE]
            <;> rfl

end

end Unwinding

namespace Code

open Unwinding

/-- What the bodies of functions are run by. -/
theorem received_sequence_eq (rounds room : Nat) :
    (fun frame body => received (sequence (Unwinding.execute rounds room frame) body)) =
      fun frame => untilReturn (Run.execute rounds room frame) :=
  funext fun frame => funext (received_sequence (received_execute rounds room frame))

/--
A function that is no initializer yields the value of the first return that its body executes, and
`nil` if there is none.
-/
theorem callFunction_eq
    (rounds room : Nat)
    {f : Closure}
    (hf : f.isInitializer = false)
    (arguments : List Value) :
    callFunction (fun frame => untilReturn (Run.execute rounds room frame)) f arguments =
      (fun completion => completion.getD .nil) <$> runBody rounds room f arguments := by
  rw [← received_sequence_eq]
  simp only [callFunction, runBody, hf, map_bind]
  rfl

end Code

end Lox

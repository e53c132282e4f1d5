import Lox.Proofs.Machine.Received
import Lox.Proofs.Machine.Unwind

/-!
# What a call yields

The call of a function yields the value of the first return that its body executes.  An initializer
yields the instance for which it was made, whatever its body does: nothing gives the name of the
instance another value.  The call of a class yields a new instance.

**Main definition.**
* `CallYields`: what the call of a value yields.

**Results.**
* `Code.callFunction_initializer`: the call of an initializer.
* `Code.call_yields`: the call of any value that can be called.
-/

namespace Lox

/-- Code after code comes to a result if both do. -/
theorem Run.exists_of_bind_eq_ok
    {α β : Type}
    {x : Run α}
    {f : α → Run β}
    {m m' : Machine}
    {b : β}
    (h : (x >>= f) m = .ok b m') :
    ∃ a m₁, x m = .ok a m₁ ∧ f a m₁ = .ok b m' := by
  cases hx : x m with
  | ok a m₁ => exact ⟨a, m₁, rfl, (Run.bind_of_ok hx f).symm.trans h⟩
  | error interrupt m₁ =>
      rw [Run.bind_of_error hx] at h
      cases h

open Unwinding in
/--
What the call of a value leads to.  A function yields what the first return in its body brings, or
`nil`; an initializer yields the instance that its frame binds; a class yields a new instance.
-/
def CallYields
    (rounds room : Nat)
    (callee : Value)
    (arguments : List Value)
    (m : Machine)
    (result : EStateM.Result Interrupt Machine Value) : Prop :=
  match callee with
  | .function f =>
      if f.isInitializer then
        ∃ id c, m.store.slot? f.frame "this" = some ⟨"this", .object id c, false⟩
          ∧ result = ((fun _ => .object id c) <$> runBody rounds room f arguments) m
      else
        result = ((fun completion => completion.getD .nil) <$> runBody rounds room f arguments) m
  | .classObject c => ∀ v m', result = .ok v m' → v = .object m.fields.size c
  | _ => True

namespace Code

open Unwinding (runBody received sequence)

/-- A run is the recording of the same code without its moments. -/
theorem run_untilReturn_execute (rounds room : Nat) (frame : FrameId) (body : List Stmt) :
    (untilReturn (execute rounds room frame) body : Recorded Completion).run =
      untilReturn (Run.execute rounds room frame) body := by
  rw [run_untilReturn]
  exact congrArg (untilReturn · body) (funext (recorded_execute rounds room frame))

/-- An initializer runs its body and then looks its instance up. -/
theorem callFunction_eq_runBody
    (rounds room : Nat)
    {f : Closure}
    (hf : f.isInitializer = true)
    (arguments : List Value) :
    callFunction (fun frame => untilReturn (Run.execute rounds room frame)) f arguments =
      runBody rounds room f arguments >>= fun _ =>
        Run.getAt f.frame 0 "this" f.declaration.name := by
  rw [← received_sequence_eq]
  simp only [callFunction, runBody, hf, bind_assoc, if_true]
  rfl

variable
  {accepted : List Stmt → Prop}
  (hall : ∀ program, accepted program → Accepted program)
  {H : History}
  {m : Machine}
  (hsound : Sound accepted H m)
  {arguments : List Value}
  (harguments : ∀ v ∈ arguments, ValueFits accepted H m.store v)
include hall hsound harguments

/-- An initializer yields its instance: the body cannot change what its frame binds. -/
theorem callFunction_initializer
    {f : Closure}
    (hf : ClosureFits accepted H m.store f)
    (harity : arguments.length = f.declaration.arity)
    (hinitializer : f.isInitializer = true)
    (hopened : Opened H f.frame .receiver)
    (rounds room : Nat) :
    ∃ id c, m.store.slot? f.frame "this" = some ⟨"this", .object id c, false⟩
      ∧ callFunction (fun frame => untilReturn (Run.execute rounds room frame)) f arguments m =
        ((fun _ => .object id c) <$> runBody rounds room f arguments) m := by
  obtain ⟨id, c, _, hslot, -⟩ := hsound.receivers f.frame hopened
  refine ⟨id, c, hslot, ?_⟩
  let recorded : Recorded Value :=
    callFunction (fun frame => untilReturn (execute rounds room frame)) f arguments
  have hgrows : Grows (recorded m).1 m.store (recorded.final m).store :=
    (keeps_callFunction (runsWell_untilReturn (runsWell hall rounds room).2) hsound harguments hf
      harity).course.grows
  have hrecorded : (recorded m).2 =
      callFunction (fun frame => untilReturn (Run.execute rounds room frame)) f arguments m := by
    have hrun := run_callFunction (fun frame => untilReturn (execute rounds room frame)) f arguments
    simp only [run_untilReturn_execute] at hrun
    exact congrFun hrun m
  rw [callFunction_eq_runBody rounds room hinitializer] at hrecorded ⊢
  cases hbody : runBody rounds room f arguments m with
  | error interrupt m' =>
      rw [Run.bind_of_error hbody, map_eq_pure_bind, Run.bind_of_error hbody]
  | ok completion m' =>
      rw [Run.bind_of_ok hbody] at hrecorded ⊢
      rw [map_eq_pure_bind, Run.bind_of_ok hbody]
      have hlooks : Looks (Run.getAt f.frame 0 "this" f.declaration.name) m' (fun _ => True)
          fun _ => True :=
        looks_bind (looks_slot_findAt m' f.frame 0 "this" f.declaration.name) fun _ _ =>
          looks_pure trivial
      have hfinal : recorded.final m = m' := by
        unfold Recorded.final
        rw [hrecorded]
        cases hlook : Run.getAt f.frame 0 "this" f.declaration.name m' with
        | ok v m'' => exact (hlooks.1 v m'' hlook).1
        | error interrupt m'' => exact (hlooks.2 interrupt m'' hlook).1
      rw [hfinal] at hgrows
      exact Run.getAt_eq_ok rfl (hgrows.slot?_reserved (.inl rfl) hslot) f.declaration.name

omit hall hsound harguments

/-- The call of a class yields a new instance, whatever its initializer does. -/
theorem instantiate_yields
    (run : FrameId → List Stmt → Run Completion)
    (c : ClassObject)
    {v : Value}
    {m' : Machine}
    (h : instantiate run c arguments m = .ok v m') :
    v = .object m.fields.size c := by
  have hmade : Run.newInstance c m = .ok (m.fields.size, c) { m with fields := m.fields.push [] } :=
    rfl
  unfold instantiate at h
  rw [Run.perform_eq, Run.bind_of_ok hmade] at h
  dsimp only at h
  cases hmethod : c.method? initializerName with
  | none =>
      rw [hmethod] at h
      cases h
      rfl
  | some method =>
      rw [hmethod] at h
      obtain ⟨f, m₁, -, h⟩ := Run.exists_of_bind_eq_ok h
      obtain ⟨_, m₂, -, h⟩ := Run.exists_of_bind_eq_ok h
      cases h
      rfl

include hall hsound harguments

/-- What the call of a value yields that was made at its site. -/
theorem call_yields
    {callee : Value}
    (hcallee : ValueFits accepted H m.store callee)
    (hreceived : callee.Received H)
    (harity : callee.arity? = some arguments.length)
    (place : Token)
    (rounds room : Nat) :
    CallYields rounds room callee arguments m
      (call (fun frame => untilReturn (Run.execute rounds room frame)) callee arguments
        place m) := by
  simp only [call, harity, beq_self_eq_true, if_true]
  cases callee with
  | function f =>
      have harity' : arguments.length = f.declaration.arity := (Option.some.inj harity).symm
      unfold CallYields
      dsimp only
      split
      · next hinitializer =>
          exact callFunction_initializer hall hsound harguments hcallee harity' hinitializer
            (hreceived hinitializer) rounds room
      · next hplain =>
          exact congrFun (callFunction_eq rounds room (Bool.not_eq_true _ ▸ hplain) arguments) m
  | classObject c => exact fun v m' h => instantiate_yields _ c h
  | _ => trivial

end Code

end Lox

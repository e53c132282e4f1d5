import Lox.Proofs.Session.Course

/-!
# Constants

A constant keeps its value for as long as no declaration binds its name again in the same frame,
which only the global frame allows.  An assignment to a constant is refused before its value is
evaluated.

**Result.**
* `Session.constants_never_change`: both statements for whole sessions.
-/

namespace Lox

/-- An assignment to a constant is refused at once. -/
theorem Code.evaluate_assign_constant
    {m : Machine}
    {target : Reference}
    (hconstant : Run.isConstant target m = .ok true m)
    (rounds room : Nat)
    (f : FrameId)
    (value : Expr) :
    (Code.evaluate rounds (room + 1) f (.assign target value) : Recorded Value) m =
      ([⟨m, .evaluates f (.assign target value)⟩],
        .error (.error ⟨.assignmentToConstant, some target.name.line⟩) m) := by
  simp only [Code.evaluate, Code.assign, Bind.bind, Recorded.andThen, Watch.perform, Watch.note,
    hconstant]
  rfl

namespace Session

/--
Once the declaration of a constant has bound a name in a frame, the value there stays the same until
a declaration binds the name in the same frame again, which never happens in a local frame.  An
assignment to the constant is refused without a look at its value, and changes nothing.
-/
theorem constants_never_change
    {clock : List Float}
    {submissions : List Submission}
    {A B : History}
    {x : Moment}
    (hhistory : historyOf submissions (start clock) = A ++ x :: B)
    {f : FrameId}
    {name : String}
    (hact : x.act = .binds f name true) :
    ∃ slot : Slot,
      slot.name = name
        ∧ slot.constant = true
        ∧ (f ≠ globalFrame → ¬ Binds B f name)
        ∧ (¬ Binds B f name →
            (runAll submissions (start clock)).machine.store.slot? f name = some slot)
        ∧ ∀ M z B', B = M ++ z :: B' → ¬ Binds M f name →
            z.machine.store.slot? f name = some slot
              ∧ ∀ g target value,
                  z.act = .evaluates g (.assign target value) →
                  target.name.lexeme = name →
                  target.link.leadsTo? z.machine.store g = some f →
                  ∀ rounds room,
                    (Code.evaluate rounds (room + 1) g (.assign target value) : Recorded Value)
                        z.machine =
                      ([⟨z.machine, .evaluates g (.assign target value)⟩],
                        .error (.error ⟨.assignmentToConstant, some target.name.line⟩)
                          z.machine) := by
  have hcourse := course_start clock submissions
  rw [hhistory] at hcourse
  obtain ⟨_, _, hfrom⟩ := hcourse.split
  cases hfrom with
  | @moment _ _ _ _ m₁ _ _ _ _ hdone hrest =>
      obtain ⟨slot, hslot, hconstant⟩ := Option.map_eq_some_iff.mp (hdone f name true hact)
      refine ⟨slot, Store.name_of_slot? hslot, hconstant, ?_, ?_, ?_⟩
      · exact fun hlocal => hrest.grows.not_binds_local hlocal hslot
      · exact fun hbinds => hrest.grows.constant hslot hconstant hbinds
      · rintro M z B' rfl hbinds
        obtain ⟨hbefore, hfine, _⟩ := hrest.split
        have hslot' := hbefore.grows.constant hslot hconstant hbinds
        refine ⟨hslot', ?_⟩
        rintro g target value hevaluates rfl hleads rounds room
        obtain ⟨program, p, source, haccepts, hreaches, hsource, hpresent⟩ :=
          hfine.evaluates g _ hevaluates
        cases source with
        | assign source sourceValue =>
            obtain ⟨rfl, rfl⟩ := Expr.assign.inj hsource
            have hunlinked := (hreaches.accepted haccepts.accepted).2
              ⟨.assign, source.name, source.link⟩ (by simp [Expr.references])
            have hknows := (hpresent.stands (by simp)).knowsConstant hreaches.settled hunlinked.1
              hleads hslot' hconstant
            exact Code.evaluate_assign_constant (hknows ▸ Run.isConstant_eq _ _) rounds room g _
        | _ => cases hsource

/-- A constant of one text is refused as the target of an assignment in the next. -/
theorem constants_never_change_next_text :
    ∃ (y x z : Moment) (slot : Slot),
      historyOf [⟨⟨20, 20, 20, 20⟩, "const a = nil;"⟩, ⟨⟨20, 20, 20, 20⟩, "a = nil;"⟩] (start []) =
          [y, x, z]
        ∧ x.act = .binds globalFrame "a" true
        ∧ z.act = .evaluates globalFrame
          (.assign ⟨⟨.identifier, "a", 1⟩, .unresolved⟩ (.literal .nil))
        ∧ slot.constant = true
        ∧ z.machine.store.slot? globalFrame "a" = some slot
        ∧ ∀ rounds room,
          Run.evaluate rounds (room + 1) globalFrame
              (.assign ⟨⟨.identifier, "a", 1⟩, .unresolved⟩ (.literal .nil)) z.machine =
            .error (.error ⟨.assignmentToConstant, some 1⟩) z.machine := by
  have hacts : (historyOf
      [⟨⟨20, 20, 20, 20⟩, "const a = nil;"⟩, ⟨⟨20, 20, 20, 20⟩, "a = nil;"⟩]
      (start [])).map Moment.act =
        [.evaluates globalFrame (.literal .nil), .binds globalFrame "a" true,
          .evaluates globalFrame
            (.assign ⟨⟨.identifier, "a", 1⟩, .unresolved⟩ (.literal .nil))] := by cbv
  obtain ⟨y, _, hhistory, _, htail⟩ := List.map_eq_cons_iff.mp hacts
  obtain ⟨x, _, rfl, hx, htail⟩ := List.map_eq_cons_iff.mp htail
  obtain ⟨z, _, rfl, hz, htail⟩ := List.map_eq_cons_iff.mp htail
  obtain rfl := List.map_eq_nil_iff.mp htail
  obtain ⟨slot, _, hconstant, _, _, hlater⟩ :=
    constants_never_change (A := [y]) (B := [z]) hhistory hx
  obtain ⟨hslot, hassign⟩ := hlater [] z [] rfl (binds_nil _ _)
  refine ⟨y, x, z, slot, hhistory, hx, hz, hconstant, hslot, fun rounds room => ?_⟩
  have hrecorded := hassign _ _ _ hz rfl rfl rounds room
  rw [← Code.recorded_evaluate, Recorded.run, hrecorded]

end Session
end Lox

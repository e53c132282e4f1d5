import Lox.Proofs.Machine.Heap

/-!
# Expected interruptions

The rules of the language foresee some faults, each at a token.  Code of accepted programs is
interrupted by these alone, by the want of room or rounds aside.  The fault of a superclass that is
no class comes about in one place only: where a class declaration has just evaluated its superclass.

**Main definitions.**
* `RuntimeFault.Documented`: the faults that the language foresees.
* `Interrupt.Expected`: the interruptions that can come about after some moments.
-/

namespace Lox

/-- The faults that the rules of the language foresee. -/
def RuntimeFault.Documented : RuntimeFault → Prop
  | .undefinedVariable _ => True
  | .assignmentToConstant => True
  | .notCallable => True
  | .wrongArgumentCount expected given => expected ≠ given
  | .superclassNotClass => True
  | .undefinedProperty _ => True
  | .propertyOfNonInstance => True
  | .fieldOfNonInstance => True
  | .operandNotNumber => True
  | .operandsNotNumbers => True
  | .operandsNotAddable => True
  | .unsupportedUnary _ => False
  | .unsupportedBinary _ => False
  | .superWithoutClass => False
  | .thisNotInstance => False
  | .stackOverflow => False

/-- The interruptions that can come about wherever code is run. -/
inductive Interrupt.Ordinary : Interrupt → Prop
  | unfinished : Ordinary .unfinished
  | overflow : Ordinary (.error ⟨.stackOverflow, none⟩)
  | fault (fault : RuntimeFault) {line : Int} :
      fault.Documented → fault ≠ .superclassNotClass → Ordinary (.error ⟨fault, some line⟩)

/-- At the last moment a class declaration has evaluated the name of its superclass. -/
def EndsAtSuperclass
    (accepted : List Stmt → Prop)
    (H : History)
    (inherited : Token) : Prop :=
  ∃ B x program p name methods frame,
    H = B ++ [x]
      ∧ accepted program
      ∧ Reaches program p
          (.statement (.classDecl name (some (.read ⟨inherited, .unresolved⟩)) methods))
      ∧ x.act = .evaluates frame
          ((Expr.read ⟨inherited, .unresolved⟩).resolve (p.context.atSuperclass name))

/-- The interruptions that can come about after some moments. -/
inductive Interrupt.Expected
    (accepted : List Stmt → Prop)
    (H : History) :
    Interrupt → Prop
  | ordinary {interrupt : Interrupt} : interrupt.Ordinary → Expected accepted H interrupt
  | superclass {inherited : Token} :
      EndsAtSuperclass accepted H inherited →
      Expected accepted H (.error ⟨.superclassNotClass, some inherited.line⟩)

end Lox

import Mathlib.Data.List.Basic

/-!
# What is true all along a list

The moments of a run form a list, and what is true at a moment can depend on what came before it.

**Result.**
* `Throughout.append`: one part of a run after another.
-/

namespace Lox

/-- Each element of a list has a property, together with all that came before it. -/
def Throughout {α : Type} (P : List α → α → Prop) (H L : List α) : Prop :=
  ∀ A y B, L = A ++ y :: B → P (H ++ A) y

namespace Throughout

variable {α : Type} {P : List α → α → Prop} {H L L' : List α}

theorem nil : Throughout P H [] := by
  intro A y B h
  cases A <;> cases h

theorem single {x : α} (hx : P H x) : Throughout P H [x] := by
  intro A y B h
  cases A with
  | nil =>
      cases h
      rwa [List.append_nil]
  | cons z A => cases A <;> cases h

/-- An element is in the first part or in the second. -/
theorem append (h : Throughout P H L) (h' : Throughout P (H ++ L) L') :
    Throughout P H (L ++ L') := by
  intro A y B hsplit
  rcases List.append_eq_append_iff.mp hsplit with ⟨C, rfl, hC⟩ | ⟨C, hL, hC⟩
  · rw [← List.append_assoc]
    exact h' C y B hC
  · cases C with
    | nil =>
        rw [List.append_nil] at hL
        rw [← hL]
        simpa using h' [] y B hC.symm
    | cons z C =>
        obtain ⟨rfl, -⟩ := List.cons.inj hC
        exact h A y C hL

end Throughout
end Lox

import Lox.Proofs.Tree.Trim
import Lox.Scope.Check
import Lox.Scope.Resolve
import Lox.Scope.Shorten

/-!
# Shortened programs

A declaration counts for what follows it in its body and not for what precedes it.  So a body can be
cut off anywhere: what remains refers to what it referred to before, and there are no new errors.

**Results.**
* `resolveProgram_shortenBody`: resolution commutes with shortening.
* `errorsAll_shortenBody`: the errors of a shortened program are among those of the program.
* `trimmedAll_shortenBody`: trimmed code is the same with and without what follows a return.
-/

namespace Lox

section Elsewhere

variable (count : Nat)

mutual

/-- Nothing is cut off where the trail does not lead. -/
@[simp] theorem Stmt.shortened_none : ∀ s : Stmt, s.shortened count none = s
  | .block body => congrArg Stmt.block (Stmt.shortenedAll_none body)
  | .funDecl declaration => congrArg Stmt.funDecl declaration.shortened_none
  | .classDecl name parent methods =>
      congrArg (Stmt.classDecl name parent) (FunctionDecl.shortenedAll_none methods)
  | .ifStmt condition thenBranch none =>
      congrArg (Stmt.ifStmt condition · none) thenBranch.shortened_none
  | .ifStmt condition thenBranch (some elseBranch) =>
      congrArg₂ (fun a b => Stmt.ifStmt condition a (some b)) thenBranch.shortened_none
        elseBranch.shortened_none
  | .whileStmt condition body => congrArg (Stmt.whileStmt condition) body.shortened_none
  | .varDecl _ _ => rfl
  | .constDecl _ _ => rfl
  | .exprStmt _ => rfl
  | .printStmt _ => rfl
  | .returnStmt _ _ => rfl

@[simp] theorem Stmt.shortenedAll_none : ∀ ss : List Stmt, Stmt.shortenedAll count ss none = ss
  | [] => rfl
  | s :: ss => congrArg₂ List.cons s.shortened_none (Stmt.shortenedAll_none ss)

@[simp] theorem FunctionDecl.shortened_none : ∀ f : FunctionDecl, f.shortened count none = f
  | ⟨name, parameters, body⟩ =>
      congrArg (FunctionDecl.mk name parameters) (Stmt.shortenedAll_none body)

@[simp] theorem FunctionDecl.shortenedAll_none :
    ∀ fs : List FunctionDecl, FunctionDecl.shortenedAll count fs none = fs
  | [] => rfl
  | f :: fs => congrArg₂ List.cons f.shortened_none (FunctionDecl.shortenedAll_none fs)

end

/-- Nothing is cut off inside of the statements of the body that the trail leads to. -/
theorem Stmt.shortenedAll_some_nil (ss : List Stmt) :
    Stmt.shortenedAll count ss (some []) = ss := by
  cases ss with
  | nil => rfl
  | cons s ss => exact Stmt.shortenedAll_none count (s :: ss)

@[simp] theorem FunctionDecl.name_shortened (f : FunctionDecl) (t : Trail) :
    (f.shortened count t).name = f.name := by
  obtain ⟨name, parameters, body⟩ := f
  rfl

@[simp] theorem FunctionDecl.methodRoutine_shortened (f : FunctionDecl) (t : Trail) :
    (f.shortened count t).methodRoutine = f.methodRoutine := by
  rw [FunctionDecl.methodRoutine, FunctionDecl.isInitializer, FunctionDecl.name_shortened]
  rfl

end Elsewhere

section Resolution

variable (count : Nat)

/-- A shortened statement declares what the statement declares. -/
theorem Stmt.contextAfter_shortened (s : Stmt) (t : Trail) (c : Context) :
    (s.shortened count t).contextAfter c = s.contextAfter c := by
  fun_induction Stmt.contextAfter s c generalizing t with
  | case1 declaration c =>
      rw [Stmt.shortened, Stmt.contextAfter, FunctionDecl.name_shortened]
  | case5 condition thenBranch c ih => rw [Stmt.shortened, Stmt.contextAfter, ih]
  | case6 condition thenBranch elseBranch c ihThen ihElse =>
      rw [Stmt.shortened, Stmt.contextAfter, ihThen, ihElse]
  | case7 condition body c ih => rw [Stmt.shortened, Stmt.contextAfter, ih]
  | _ => rfl

theorem Stmt.resolveAll_take (ss : List Stmt) (c : Context) :
    Stmt.resolveAll (ss.take count) c = (Stmt.resolveAll ss c).take count := by
  induction count generalizing ss c with
  | zero => rfl
  | succ count ih =>
      cases ss with
      | nil => rfl
      | cons s ss => exact congrArg (s.resolve c :: ·) (ih ss (s.contextAfter c))

theorem Stmt.resolveAll_keep (t : Trail) (body : List Stmt) (c : Context) :
    Stmt.resolveAll (t.keep count body) c = t.keep count (Stmt.resolveAll body c) := by
  unfold Trail.keep
  split
  · exact Stmt.resolveAll_take count body c
  · rfl

mutual

/-- What a statement refers to does not depend on what is cut off after it. -/
theorem Stmt.resolve_shortened :
    ∀ (s : Stmt) (t : Trail) (c : Context),
      (s.shortened count t).resolve c = (s.resolve c).shortened count t
  | .block body, t, c => by
      simp only [Stmt.shortened, Stmt.resolve, Stmt.resolveAll_keep,
        Stmt.resolveAll_shortenedAll body]
  | .funDecl declaration, t, c => by
      simp only [Stmt.shortened, Stmt.resolve, FunctionDecl.name_shortened,
        declaration.resolve_shortened]
  | .classDecl name parent methods, t, c => by
      simp only [Stmt.shortened, Stmt.resolve, FunctionDecl.resolveMethods_shortenedAll methods]
  | .ifStmt condition thenBranch none, t, c => by
      simp only [Stmt.shortened, Stmt.resolve, thenBranch.resolve_shortened]
  | .ifStmt condition thenBranch (some elseBranch), t, c => by
      simp only [Stmt.shortened, Stmt.resolve, Stmt.contextAfter_shortened,
        thenBranch.resolve_shortened, elseBranch.resolve_shortened]
  | .whileStmt condition body, t, c => by
      simp only [Stmt.shortened, Stmt.resolve, body.resolve_shortened]
  | .varDecl _ _, _, _ => rfl
  | .constDecl _ _, _, _ => rfl
  | .exprStmt _, _, _ => rfl
  | .printStmt _, _, _ => rfl
  | .returnStmt _ _, _, _ => rfl

theorem Stmt.resolveAll_shortenedAll :
    ∀ (ss : List Stmt) (t : Trail) (c : Context),
      Stmt.resolveAll (Stmt.shortenedAll count ss t) c =
        Stmt.shortenedAll count (Stmt.resolveAll ss c) t
  | [], _, _ => rfl
  | s :: ss, t, c => by
      simp only [Stmt.shortenedAll, Stmt.resolveAll, Stmt.contextAfter_shortened,
        s.resolve_shortened, Stmt.resolveAll_shortenedAll ss]

theorem FunctionDecl.resolve_shortened :
    ∀ (f : FunctionDecl) (t : Trail) (routine : Routine) (c : Context),
      (f.shortened count t).resolve routine c = (f.resolve routine c).shortened count t
  | ⟨name, parameters, body⟩, t, routine, c => by
      simp only [FunctionDecl.shortened, FunctionDecl.resolve, Stmt.resolveAll_keep,
        Stmt.resolveAll_shortenedAll body]

theorem FunctionDecl.resolveMethods_shortenedAll :
    ∀ (fs : List FunctionDecl) (t : Trail) (c : Context),
      FunctionDecl.resolveMethods (FunctionDecl.shortenedAll count fs t) c =
        FunctionDecl.shortenedAll count (FunctionDecl.resolveMethods fs c) t
  | [], _, _ => rfl
  | f :: fs, t, c => by
      simp only [FunctionDecl.shortenedAll, FunctionDecl.resolveMethods,
        FunctionDecl.methodRoutine_shortened, f.resolve_shortened,
        FunctionDecl.resolveMethods_shortenedAll fs]

end

/-- Resolution commutes with shortening: the links of what remains are the same. -/
theorem resolveProgram_shortenBody (trail : List Nat) (program : List Stmt) :
    resolveProgram (shortenBody trail count program) =
      shortenBody trail count (resolveProgram program) :=
  Stmt.resolveAll_shortenedAll count program (some trail) .top

end Resolution

section Errors

variable (count : Nat)

theorem Room.enter_sublist
    (room : Room)
    {below below' : Room → List ScopeError}
    (h : ∀ r, (below' r).Sublist (below r)) :
    (room.enter below').Sublist (room.enter below) := by
  match room with
  | none => exact h none
  | some 0 => exact .refl _
  | some (n + 1) => exact h (some n)

theorem Stmt.errorsAll_take (ss : List Stmt) (c : Context) (room : Room) :
    (Stmt.errorsAll (ss.take count) c room).Sublist (Stmt.errorsAll ss c room) := by
  induction count generalizing ss c with
  | zero => exact List.nil_sublist _
  | succ count ih =>
      cases ss with
      | nil => exact .refl _
      | cons s ss => exact (List.Sublist.refl _).append (ih ss (s.contextAfter c))

theorem Stmt.errorsAll_keep (t : Trail) (body : List Stmt) (c : Context) (room : Room) :
    (Stmt.errorsAll (t.keep count body) c room).Sublist (Stmt.errorsAll body c room) := by
  unfold Trail.keep
  split
  · exact Stmt.errorsAll_take count body c room
  · exact .refl _

mutual

/-- Cutting something off brings no new errors. -/
theorem Stmt.errors_shortened :
    ∀ (s : Stmt) (t : Trail) (c : Context) (room : Room),
      ((s.shortened count t).errors c room).Sublist (s.errors c room)
  | .block body, t, c, room => room.enter_sublist fun r =>
      (Stmt.errorsAll_keep count t _ c.inBlock r).trans
        (Stmt.errorsAll_shortened body t c.inBlock r)
  | .funDecl declaration, t, c, room => by
      simp only [Stmt.shortened, Stmt.errors, FunctionDecl.name_shortened]
      exact (List.Sublist.refl _).append (room.enter_sublist fun r =>
        declaration.errors_shortened t .function (c.define declaration.name) r)
  | .classDecl name parent methods, t, c, room =>
      (List.Sublist.refl _).append (room.enter_sublist fun r =>
        FunctionDecl.errorsOfMethods_shortened methods t ((c.define name).inClass parent.isSome) r)
  | .ifStmt condition thenBranch none, t, c, room => room.enter_sublist fun r =>
      (List.Sublist.refl _).append (thenBranch.errors_shortened t.first c r)
  | .ifStmt condition thenBranch (some elseBranch), t, c, room => room.enter_sublist fun r => by
      rw [Stmt.contextAfter_shortened]
      exact ((List.Sublist.refl _).append (thenBranch.errors_shortened t.first c r)).append
        (elseBranch.errors_shortened t.others.first (thenBranch.contextAfter c) r)
  | .whileStmt condition body, t, c, room => room.enter_sublist fun r =>
      (List.Sublist.refl _).append (body.errors_shortened t.first c r)
  | .varDecl _ _, _, _, _ => .refl _
  | .constDecl _ _, _, _, _ => .refl _
  | .exprStmt _, _, _, _ => .refl _
  | .printStmt _, _, _, _ => .refl _
  | .returnStmt _ _, _, _, _ => .refl _

theorem Stmt.errorsAll_shortened :
    ∀ (ss : List Stmt) (t : Trail) (c : Context) (room : Room),
      (Stmt.errorsAll (Stmt.shortenedAll count ss t) c room).Sublist (Stmt.errorsAll ss c room)
  | [], _, _, _ => .refl _
  | s :: ss, t, c, room => by
      simp only [Stmt.shortenedAll, Stmt.errorsAll, Stmt.contextAfter_shortened]
      exact (s.errors_shortened t.first c room).append
        (Stmt.errorsAll_shortened ss t.others (s.contextAfter c) room)

theorem FunctionDecl.errors_shortened :
    ∀ (f : FunctionDecl) (t : Trail) (routine : Routine) (c : Context) (room : Room),
      ((f.shortened count t).errors routine c room).Sublist (f.errors routine c room)
  | ⟨_, parameters, body⟩, t, routine, c, room =>
      (List.Sublist.refl _).append (room.enter_sublist fun r =>
        (Stmt.errorsAll_keep count t _ (c.inBody routine parameters) r).trans
          (Stmt.errorsAll_shortened body t (c.inBody routine parameters) r))

theorem FunctionDecl.errorsOfMethods_shortened :
    ∀ (fs : List FunctionDecl) (t : Trail) (c : Context) (room : Room),
      (FunctionDecl.errorsOfMethods (FunctionDecl.shortenedAll count fs t) c room).Sublist
        (FunctionDecl.errorsOfMethods fs c room)
  | [], _, _, _ => .refl _
  | f :: fs, t, c, room => by
      simp only [FunctionDecl.shortenedAll, FunctionDecl.errorsOfMethods,
        FunctionDecl.methodRoutine_shortened]
      exact (f.errors_shortened t.first f.methodRoutine c room).append
        (FunctionDecl.errorsOfMethods_shortened fs t.others c room)

end

/-- The errors of a shortened program are among those of the program. -/
theorem errorsAll_shortenBody (trail : List Nat) (program : List Stmt) (room : Room) :
    (Stmt.errorsAll (shortenBody trail count program) .top room).Sublist
      (Stmt.errorsAll program .top room) :=
  Stmt.errorsAll_shortened count program (some trail) .top room

end Errors

section Returns

/-- The body has a return at a position. -/
def ReturnsAt (i : Nat) (body : List Stmt) : Prop :=
  ∃ keyword value, body[i]? = some (.returnStmt keyword value)

mutual

@[simp] theorem Stmt.bodyAt?_none : ∀ s : Stmt, s.bodyAt? none = none
  | .block body => Stmt.bodyAmong?_none body
  | .funDecl declaration => declaration.bodyAt?_none
  | .classDecl _ _ methods => FunctionDecl.bodyAmong?_none methods
  | .ifStmt _ thenBranch none => thenBranch.bodyAt?_none
  | .ifStmt _ thenBranch (some elseBranch) =>
      congrArg₂ Option.or thenBranch.bodyAt?_none elseBranch.bodyAt?_none
  | .whileStmt _ body => body.bodyAt?_none
  | .varDecl _ _ => rfl
  | .constDecl _ _ => rfl
  | .exprStmt _ => rfl
  | .printStmt _ => rfl
  | .returnStmt _ _ => rfl

@[simp] theorem Stmt.bodyAmong?_none : ∀ ss : List Stmt, Stmt.bodyAmong? ss none = none
  | [] => rfl
  | s :: ss => congrArg₂ Option.or s.bodyAt?_none (Stmt.bodyAmong?_none ss)

@[simp] theorem FunctionDecl.bodyAt?_none : ∀ f : FunctionDecl, f.bodyAt? none = none
  | ⟨_, _, body⟩ => Stmt.bodyAmong?_none body

@[simp] theorem FunctionDecl.bodyAmong?_none :
    ∀ fs : List FunctionDecl, FunctionDecl.bodyAmong? fs none = none
  | [] => rfl
  | f :: fs => congrArg₂ Option.or f.bodyAt?_none (FunctionDecl.bodyAmong?_none fs)

end

/-- What holds of the body at the end of a trail holds of the body in the part where that is. -/
theorem Trail.forall_mem_parts
    {t : Trail}
    {first others : Trail → Option (List Stmt)}
    (hfirst : first none = none)
    (hothers : others none = none)
    {P : List Stmt → Prop}
    (h : ∀ body ∈ (first t.first).or (others t.others), P body) :
    (∀ body ∈ first t.first, P body) ∧ ∀ body ∈ others t.others, P body := by
  rcases t.first_eq_none_or with hnone | hnone
  · rw [hnone, hfirst, Option.none_or] at h
    rw [hnone, hfirst]
    exact ⟨nofun, h⟩
  · rw [hnone, hothers, Option.or_none] at h
    rw [hnone, hothers]
    exact ⟨h, nofun⟩

variable {i : Nat}

/-- The body at the end of the trail returns at the position, and other bodies keep all. -/
theorem upToReturn_keep
    {t : Trail}
    {body : List Stmt}
    (h : ∀ b ∈ (if t.ends then some body else Stmt.bodyAmong? body t), ReturnsAt i b)
    (hinside : (∀ b ∈ Stmt.bodyAmong? body t, ReturnsAt i b) →
      Stmt.trimmedAll (Stmt.shortenedAll (i + 1) body t) = Stmt.trimmedAll body) :
    upToReturn (Stmt.trimmedAll (t.keep (i + 1) (Stmt.shortenedAll (i + 1) body t))) =
      upToReturn (Stmt.trimmedAll body) := by
  unfold Trail.keep
  split
  · next hends =>
      obtain rfl := Trail.eq_of_ends hends
      obtain ⟨keyword, value, hreturn⟩ := h body rfl
      simp only [Stmt.shortenedAll_some_nil, Stmt.trimmedAll_eq_map]
      exact upToReturn_take hreturn
  · next hends =>
      rw [if_neg hends] at h
      rw [hinside h]

mutual

/-- Trimmed code is the same with and without what follows a return. -/
theorem Stmt.trimmed_shortened :
    ∀ (s : Stmt) (t : Trail), (∀ body ∈ s.bodyAt? t, ReturnsAt i body) →
      (s.shortened (i + 1) t).trimmed = s.trimmed
  | .block body, t, h =>
      congrArg Stmt.block (upToReturn_keep h (Stmt.trimmedAll_shortened body t))
  | .funDecl declaration, t, h => congrArg Stmt.funDecl (declaration.trimmed_shortened t h)
  | .classDecl name parent methods, t, h =>
      congrArg (Stmt.classDecl name parent) (FunctionDecl.trimmedAll_shortened methods t h)
  | .ifStmt condition thenBranch none, t, h =>
      congrArg (Stmt.ifStmt condition · none) (thenBranch.trimmed_shortened t.first h)
  | .ifStmt condition thenBranch (some elseBranch), t, h =>
      have ⟨hthen, helse⟩ := @Trail.forall_mem_parts t thenBranch.bodyAt?
        (fun others => elseBranch.bodyAt? others.first)
        thenBranch.bodyAt?_none elseBranch.bodyAt?_none _ h
      congrArg₂ (fun a b => Stmt.ifStmt condition a (some b))
        (thenBranch.trimmed_shortened t.first hthen)
        (elseBranch.trimmed_shortened t.others.first helse)
  | .whileStmt condition body, t, h =>
      congrArg (Stmt.whileStmt condition) (body.trimmed_shortened t.first h)
  | .varDecl _ _, _, _ => rfl
  | .constDecl _ _, _, _ => rfl
  | .exprStmt _, _, _ => rfl
  | .printStmt _, _, _ => rfl
  | .returnStmt _ _, _, _ => rfl

theorem Stmt.trimmedAll_shortened :
    ∀ (ss : List Stmt) (t : Trail), (∀ body ∈ Stmt.bodyAmong? ss t, ReturnsAt i body) →
      Stmt.trimmedAll (Stmt.shortenedAll (i + 1) ss t) = Stmt.trimmedAll ss
  | [], _, _ => rfl
  | s :: ss, t, h =>
      have ⟨hfirst, hothers⟩ :=
        Trail.forall_mem_parts s.bodyAt?_none (Stmt.bodyAmong?_none ss) h
      congrArg₂ List.cons (s.trimmed_shortened t.first hfirst)
        (Stmt.trimmedAll_shortened ss t.others hothers)

theorem FunctionDecl.trimmed_shortened :
    ∀ (f : FunctionDecl) (t : Trail), (∀ body ∈ f.bodyAt? t, ReturnsAt i body) →
      (f.shortened (i + 1) t).trimmed = f.trimmed
  | ⟨name, parameters, body⟩, t, h =>
      congrArg (FunctionDecl.mk name parameters)
        (upToReturn_keep h (Stmt.trimmedAll_shortened body t))

theorem FunctionDecl.trimmedAll_shortened :
    ∀ (fs : List FunctionDecl) (t : Trail),
      (∀ body ∈ FunctionDecl.bodyAmong? fs t, ReturnsAt i body) →
      FunctionDecl.trimmedAll (FunctionDecl.shortenedAll (i + 1) fs t) = FunctionDecl.trimmedAll fs
  | [], _, _ => rfl
  | f :: fs, t, h =>
      have ⟨hfirst, hothers⟩ :=
        Trail.forall_mem_parts f.bodyAt?_none (FunctionDecl.bodyAmong?_none fs) h
      congrArg₂ List.cons (f.trimmed_shortened t.first hfirst)
        (FunctionDecl.trimmedAll_shortened fs t.others hothers)

end

/-- What follows a return does not matter to a trimmed program. -/
theorem trimmedAll_shortenBody
    {trail : List Nat}
    {program body : List Stmt}
    (hbody : bodyOf? trail program = some body)
    (hreturn : ReturnsAt i body) :
    Stmt.trimmedAll (shortenBody trail (i + 1) program) = Stmt.trimmedAll program :=
  Stmt.trimmedAll_shortened program (some trail) fun b hb => by
    obtain rfl := Option.some.inj (hbody.symm.trans hb)
    exact hreturn

end Returns

end Lox

import Lox.Proofs.Machine.Discipline
import Lox.Proofs.Scope.Renamable
import Lox.Proofs.Scope.Wording

/-!
# Local names of accepted programs

A scope of an accepted program declares a name once.  So if a variable, a constant or a parameter
bears it, no function and no class of that scope does, and the name can be replaced there.

**Results.**
* `Stmt.relabel_resolve`: without its links a resolved program is what was parsed.
* `Stmt.onlyVariables_of_declaresAt`: functions and classes of the scope have other names.
-/

namespace Lox

section Unlinked

theorem Reference.relabel_unlinked
    {r : Reference}
    (h : r.link = .unresolved)
    (link : Link) :
    Reference.relabel .unlinked ⟨r.name, link⟩ = r := by
  obtain ⟨name, _⟩ := r
  subst h
  rfl

mutual

/-- Without its links a resolved expression is what was parsed. -/
theorem Expr.relabel_resolve (c : Context) :
    ∀ e : Expr, e.AsParsed → (e.resolve c).relabel .unlinked = e
  | .literal _, _ => rfl
  | .grouping inner, h => congrArg Expr.grouping (inner.relabel_resolve c h)
  | .unary operator operand, h => congrArg (Expr.unary operator) (operand.relabel_resolve c h)
  | .binary left operator right, h => by
      obtain ⟨hleft, hright⟩ := List.forall_mem_append.mp h
      simp only [Expr.resolve, Expr.relabel, left.relabel_resolve c hleft,
        right.relabel_resolve c hright, Token.relabel_unlinked]
  | .logical left operator right, h => by
      obtain ⟨hleft, hright⟩ := List.forall_mem_append.mp h
      simp only [Expr.resolve, Expr.relabel, left.relabel_resolve c hleft,
        right.relabel_resolve c hright, Token.relabel_unlinked]
  | .read target, h =>
      congrArg Expr.read (Reference.relabel_unlinked (h _ List.mem_cons_self).1 _)
  | .readConstant target, h =>
      congrArg Expr.readConstant (Reference.relabel_unlinked (h _ List.mem_cons_self).1 _)
  | .assign target value, h => by
      obtain ⟨hvalue, htarget⟩ := List.forall_mem_append.mp h
      have hreference := Reference.relabel_unlinked (r := target) (htarget _ List.mem_cons_self).1
        (c.assignmentLink target.name.lexeme target.link)
      simp only [Expr.resolve, Expr.relabel, value.relabel_resolve c hvalue]
      exact congrArg (Expr.assign · value) hreference
  | .call callee closing arguments, h => by
      obtain ⟨hcallee, harguments⟩ := List.forall_mem_append.mp h
      simp only [Expr.resolve, Expr.relabel, callee.relabel_resolve c hcallee,
        Expr.relabelAll_resolveAll c arguments harguments, Token.relabel_unlinked]
  | .get object name, h => congrArg (Expr.get · name) (object.relabel_resolve c h)
  | .set object name value, h => by
      obtain ⟨hobject, hvalue⟩ := List.forall_mem_append.mp h
      simp only [Expr.resolve, Expr.relabel, object.relabel_resolve c hobject,
        value.relabel_resolve c hvalue, Token.relabel_unlinked]
  | .this keyword link, h =>
      congrArg (Expr.this keyword) (h ⟨.this, keyword, link⟩ List.mem_cons_self).1.symm
  | .super keyword method link, h =>
      congrArg (Expr.super keyword method) (h ⟨.super, method, link⟩ List.mem_cons_self).1.symm

theorem Expr.relabelAll_resolveAll (c : Context) :
    ∀ es : List Expr, (∀ r ∈ Expr.referencesAll .written es, r.AsParsed) →
      Expr.relabelAll .unlinked (Expr.resolveAll c es) = es
  | [], _ => rfl
  | e :: es, h =>
      have ⟨hfirst, hrest⟩ := List.forall_mem_append.mp h
      congrArg₂ List.cons (e.relabel_resolve c hfirst) (Expr.relabelAll_resolveAll c es hrest)

end

theorem Expr.map_relabel_resolve
    {e : Option Expr}
    (h : optionAsParsed e)
    (c : Context) :
    (e.map (Expr.resolve c)).map (Expr.relabel .unlinked) = e := by
  cases e with
  | none => rfl
  | some e => exact congrArg some (e.relabel_resolve c (h e rfl))

mutual

/-- Without its links a resolved statement is what was parsed. -/
theorem Stmt.relabel_resolve :
    ∀ (s : Stmt) (c : Context), s.AsParsed → (s.resolve c).relabel .unlinked = s
  | .block body, c, h => congrArg Stmt.block (Stmt.relabelAll_resolveAll body c.inBlock h)
  | .funDecl declaration, c, h =>
      congrArg Stmt.funDecl (declaration.relabel_resolve .function (c.define declaration.name) h)
  | .classDecl name parent methods, c, h => by
      have hparent : optionAsParsed parent := by
        rintro e he
        obtain ⟨inherited, rfl⟩ := h.1 e he
        simp [Expr.AsParsed, Expr.references, LinkRecord.AsParsed]
      simp only [Stmt.resolve, Stmt.relabel, Expr.map_relabel_resolve hparent,
        FunctionDecl.relabelAll_resolveMethods methods _ h.2, Token.relabel_unlinked]
  | .varDecl name initializer, c, h =>
      congrArg (Stmt.varDecl name) (Expr.map_relabel_resolve h.2 (c.declare name))
  | .constDecl name initializer, c, h =>
      congrArg (Stmt.constDecl name) (Expr.map_relabel_resolve h.2 (c.declare name))
  | .exprStmt expression, c, h => congrArg Stmt.exprStmt (expression.relabel_resolve c h)
  | .ifStmt condition thenBranch none, c, h => by
      simp only [Stmt.resolve, Stmt.relabel, condition.relabel_resolve c h.1,
        thenBranch.relabel_resolve c h.2.2]
  | .ifStmt condition thenBranch (some elseBranch), c, h => by
      simp only [Stmt.resolve, Stmt.relabel, condition.relabel_resolve c h.1,
        thenBranch.relabel_resolve c h.2.1.2,
        elseBranch.relabel_resolve (thenBranch.contextAfter c) h.2.2.2]
  | .printStmt expression, c, h => congrArg Stmt.printStmt (expression.relabel_resolve c h)
  | .returnStmt keyword value, c, h =>
      congrArg (Stmt.returnStmt keyword) (Expr.map_relabel_resolve h c)
  | .whileStmt condition body, c, h => by
      simp only [Stmt.resolve, Stmt.relabel, condition.relabel_resolve c h.1,
        body.relabel_resolve c h.2.2]

theorem Stmt.relabelAll_resolveAll :
    ∀ (ss : List Stmt) (c : Context), Stmt.AsParsedAll ss →
      Stmt.relabelAll .unlinked (Stmt.resolveAll ss c) = ss
  | [], _, _ => rfl
  | s :: ss, c, h =>
      congrArg₂ List.cons (s.relabel_resolve c h.1)
        (Stmt.relabelAll_resolveAll ss (s.contextAfter c) h.2)

theorem FunctionDecl.relabel_resolve :
    ∀ (f : FunctionDecl) (routine : Routine) (c : Context), f.AsParsed →
      (f.resolve routine c).relabel .unlinked = f
  | ⟨name, parameters, body⟩, routine, c, h =>
      congrArg₂ (FunctionDecl.mk name) (Token.map_relabel_unlinked parameters)
        (Stmt.relabelAll_resolveAll body (c.inBody routine parameters) h)

theorem FunctionDecl.relabelAll_resolveMethods :
    ∀ (fs : List FunctionDecl) (c : Context), FunctionDecl.AsParsedAll fs →
      FunctionDecl.relabelAll .unlinked (FunctionDecl.resolveMethods fs c) = fs
  | [], _, _ => rfl
  | f :: fs, c, h =>
      congrArg₂ List.cons (f.relabel_resolve f.methodRoutine c h.1)
        (FunctionDecl.relabelAll_resolveMethods fs c h.2)

end

end Unlinked

section Once

variable {n : String}

/-- The innermost scope knows a name. -/
def Context.Knows (c : Context) (n : String) : Prop :=
  (c.scopes.head?.bind (·.standing? n)).isSome

theorem Context.not_knows_of_declarationErrors
    {c : Context}
    {name : Token}
    (h : c.declarationErrors name = []) :
    ¬ c.Knows name.lexeme := by
  have hnone : c.scopes.head?.bind (·.standing? name.lexeme) = none :=
    declarationErrors_eq_nil.mp h
  simp [Knows, hnone]

theorem Context.knows_declareIn
    {c : Context}
    (hscopes : c.scopes ≠ [])
    (name : String)
    (standing : Standing) :
    Knows { c with scopes := declareIn name standing c.scopes } n ↔ name = n ∨ c.Knows n := by
  obtain ⟨scopes, routine, owner⟩ := c
  cases scopes with
  | nil => exact absurd rfl hscopes
  | cons scope outer =>
      simp only [Knows, declareIn, List.head?_cons, Option.bind_some, Scope.standing?,
        List.find?_cons]
      by_cases hname : name = n
      · simp [hname]
      · simp [hname, beq_eq_false_iff_ne.mpr hname]

theorem declareIn_ne_nil
    {scopes : List Scope}
    (h : scopes ≠ [])
    (name : String)
    (standing : Standing) :
    declareIn name standing scopes ≠ [] := by
  cases scopes with
  | nil => exact absurd rfl h
  | cons scope outer => exact nofun

theorem Stmt.contextAfter_ne_nil (s : Stmt) (c : Context) (h : c.scopes ≠ []) :
    (s.contextAfter c).scopes ≠ [] := by
  fun_induction Stmt.contextAfter s c <;> simp_all [Context.define, Context.defineConstant,
    declareIn_ne_nil]

/-- After a statement the scope knows what it knew and what the statement declares. -/
theorem Stmt.knows_contextAfter (s : Stmt) (c : Context) (h : c.scopes ≠ []) :
    (s.contextAfter c).Knows n ↔ n ∈ s.declares ∨ c.Knows n := by
  fun_induction Stmt.contextAfter s c with
  | case6 condition thenBranch elseBranch c ihThen ihElse =>
      rw [ihElse (thenBranch.contextAfter_ne_nil c h), ihThen h, Stmt.declares, List.mem_append]
      tauto
  | case5 | case7 => simp_all [Stmt.declares]
  | case1 | case2 | case3 | case4 =>
      simp_all [Stmt.declares, Context.define, Context.defineConstant, Context.knows_declareIn,
        eq_comm]
  | _ => simp [Stmt.declares]

/-- Without errors a statement declares nothing that the scope knows already. -/
theorem Stmt.not_knows_of_declares
    {s : Stmt}
    {c : Context}
    {room : Room}
    (hc : c.scopes ≠ [])
    (h : s.errors c room = [])
    (hn : n ∈ s.declares) :
    ¬ c.Knows n := by
  fun_induction Stmt.declares s generalizing c room with
  | case1 declaration =>
      obtain rfl := List.mem_singleton.mp hn
      exact Context.not_knows_of_declarationErrors (List.append_eq_nil_iff.mp h).1
  | case2 name parent methods =>
      obtain rfl := List.mem_singleton.mp hn
      simp only [Stmt.errors, List.append_eq_nil_iff] at h
      exact Context.not_knows_of_declarationErrors h.1.1
  | case3 name initializer =>
      obtain rfl := List.mem_singleton.mp hn
      exact Context.not_knows_of_declarationErrors (List.append_eq_nil_iff.mp h).1
  | case4 name initializer =>
      obtain rfl := List.mem_singleton.mp hn
      cases initializer <;>
        exact Context.not_knows_of_declarationErrors (List.append_eq_nil_iff.mp h).1
  | case5 condition thenBranch ih =>
      obtain ⟨room', h'⟩ := Room.enter_eq_nil h
      exact ih hc (List.append_eq_nil_iff.mp h').2 hn
  | case6 condition thenBranch elseBranch ihThen ihElse =>
      obtain ⟨room', h'⟩ := Room.enter_eq_nil h
      obtain ⟨hbefore, helse⟩ := List.append_eq_nil_iff.mp h'
      rcases List.mem_append.mp hn with hn | hn
      · exact ihThen hc (List.append_eq_nil_iff.mp hbefore).2 hn
      · intro hknows
        exact ihElse (thenBranch.contextAfter_ne_nil c hc) helse hn
          ((thenBranch.knows_contextAfter c hc).mpr (.inr hknows))
  | case7 condition body ih =>
      obtain ⟨room', h'⟩ := Room.enter_eq_nil h
      exact ih hc (List.append_eq_nil_iff.mp h').2 hn
  | _ => exact absurd hn List.not_mem_nil

/-- Statements without errors do not declare what the scope knows. -/
theorem Stmt.not_mem_declares_of_knows
    {ss : List Stmt}
    {c : Context}
    {room : Room}
    (hc : c.scopes ≠ [])
    (h : Stmt.errorsAll ss c room = [])
    (hknows : c.Knows n) :
    ∀ s ∈ ss, n ∉ s.declares := by
  induction ss generalizing c with
  | nil => simp
  | cons s ss ih =>
      obtain ⟨hfirst, hrest⟩ := List.append_eq_nil_iff.mp h
      refine List.forall_mem_cons.mpr ⟨fun hn => Stmt.not_knows_of_declares hc hfirst hn hknows, ?_⟩
      exact ih (s.contextAfter_ne_nil c hc) hrest ((s.knows_contextAfter c hc).mpr (.inr hknows))

theorem Stmt.mem_declares_of_declaresVariable
    {s : Stmt}
    (h : s.declaresVariable n = true) :
    n ∈ s.declares := by
  cases s with
  | varDecl name _ => exact List.mem_singleton.mpr (beq_iff_eq.mp h).symm
  | constDecl name _ => exact List.mem_singleton.mpr (beq_iff_eq.mp h).symm
  | _ => cases h

/-- If one of the statements declares a variable, the others declare nothing of its name. -/
theorem Stmt.declaresVariable_or_not_mem
    {ss : List Stmt}
    {c : Context}
    {room : Room}
    (hc : c.scopes ≠ [])
    (h : Stmt.errorsAll ss c room = [])
    (hvariable : ss.any (Stmt.declaresVariable n) = true) :
    ∀ s ∈ ss, s.declaresVariable n = true ∨ n ∉ s.declares := by
  induction ss generalizing c with
  | nil => simp
  | cons s ss ih =>
      obtain ⟨hfirst, hrest⟩ := List.append_eq_nil_iff.mp h
      have hc' := s.contextAfter_ne_nil c hc
      rw [List.any_cons, Bool.or_eq_true] at hvariable
      by_cases hs : s.declaresVariable n = true
      · have hknows : (s.contextAfter c).Knows n :=
          (s.knows_contextAfter c hc).mpr (.inl (Stmt.mem_declares_of_declaresVariable hs))
        exact List.forall_mem_cons.mpr
          ⟨.inl hs, fun s' hs' => .inr (Stmt.not_mem_declares_of_knows hc' hrest hknows s' hs')⟩
      · have hlater := hvariable.resolve_left hs
        refine List.forall_mem_cons.mpr ⟨.inr fun hn => ?_, ih hc' hrest hlater⟩
        obtain ⟨s', hs', hvariable'⟩ := List.any_eq_true.mp hlater
        exact Stmt.not_mem_declares_of_knows hc' hrest
          ((s.knows_contextAfter c hc).mpr (.inl hn)) s' hs'
          (Stmt.mem_declares_of_declaresVariable hvariable')

/-- A statement in a marked scope that declares no function and no class of a name. -/
theorem Stmt.onlyVariables_of_not_mem :
    ∀ {s : Stmt}, n ∉ s.declares → s.OnlyVariables n none true
  | .block body, _ => Stmt.onlyVariablesAll_elsewhere n body
  | .funDecl declaration, h =>
      ⟨fun _ heq => h (List.mem_singleton.mpr heq.symm), declaration.onlyVariables_elsewhere n⟩
  | .classDecl _ _ methods, h =>
      ⟨fun _ heq => h (List.mem_singleton.mpr heq.symm),
        FunctionDecl.onlyVariablesAll_elsewhere n methods⟩
  | .ifStmt _ thenBranch none, h => Stmt.onlyVariables_of_not_mem (s := thenBranch) h
  | .ifStmt _ thenBranch (some elseBranch), h =>
      ⟨Stmt.onlyVariables_of_not_mem (s := thenBranch) fun hn => h (List.mem_append_left _ hn),
        Stmt.onlyVariables_of_not_mem (s := elseBranch) fun hn => h (List.mem_append_right _ hn)⟩
  | .whileStmt _ body, h => Stmt.onlyVariables_of_not_mem (s := body) h
  | .varDecl _ _, _ => trivial
  | .constDecl _ _, _ => trivial
  | .exprStmt _, _ => trivial
  | .printStmt _, _ => trivial
  | .returnStmt _ _, _ => trivial

/-- The statements of a marked scope in which only variables bear a name. -/
theorem Stmt.onlyVariablesAll_of_forall
    {ss : List Stmt}
    {t : Trail}
    (ht : t = some [] ∨ t = none)
    (h : ∀ s ∈ ss, s.declaresVariable n = true ∨ n ∉ s.declares) :
    Stmt.OnlyVariablesAll n ss t true := by
  induction ss generalizing t with
  | nil => trivial
  | cons s ss ih =>
      obtain ⟨hfirst, hrest⟩ := List.forall_mem_cons.mp h
      have hparts : t.first = none ∧ t.others = none := by
        rcases ht with rfl | rfl <;> exact ⟨rfl, rfl⟩
      rw [Stmt.OnlyVariablesAll, hparts.1, hparts.2]
      refine ⟨?_, ih (.inr rfl) hrest⟩
      rcases hfirst with hvariable | hn
      · cases s with
        | varDecl _ _ => trivial
        | constDecl _ _ => trivial
        | _ => cases hvariable
      · exact Stmt.onlyVariables_of_not_mem hn

end Once

section Trails

variable {n : String}

mutual

/-- Without a trail nothing is declared. -/
theorem Stmt.declaresAt_elsewhere (n : String) : ∀ s : Stmt, s.declaresAt n none = false
  | .block body => Stmt.declaresAtAny_elsewhere n body
  | .funDecl declaration => declaration.declaresAt_elsewhere n
  | .classDecl _ _ methods => FunctionDecl.declaresAtAny_elsewhere n methods
  | .ifStmt _ thenBranch none => thenBranch.declaresAt_elsewhere n
  | .ifStmt _ thenBranch (some elseBranch) => by
      have hthen := thenBranch.declaresAt_elsewhere n
      have helse := elseBranch.declaresAt_elsewhere n
      exact congrArg₂ or hthen helse
  | .whileStmt _ body => body.declaresAt_elsewhere n
  | .varDecl _ _ => rfl
  | .constDecl _ _ => rfl
  | .exprStmt _ => rfl
  | .printStmt _ => rfl
  | .returnStmt _ _ => rfl

theorem Stmt.declaresAtAny_elsewhere (n : String) :
    ∀ ss : List Stmt, Stmt.declaresAtAny n ss none = false
  | [] => rfl
  | s :: ss => congrArg₂ or (s.declaresAt_elsewhere n) (Stmt.declaresAtAny_elsewhere n ss)

theorem FunctionDecl.declaresAt_elsewhere (n : String) :
    ∀ f : FunctionDecl, f.declaresAt n none = false
  | ⟨_, _, body⟩ => Stmt.declaresAtAny_elsewhere n body

theorem FunctionDecl.declaresAtAny_elsewhere (n : String) :
    ∀ fs : List FunctionDecl, FunctionDecl.declaresAtAny n fs none = false
  | [] => rfl
  | f :: fs =>
      congrArg₂ or (f.declaresAt_elsewhere n) (FunctionDecl.declaresAtAny_elsewhere n fs)

end

/-- Nothing but the statements of a scope themselves stands where its trail ends. -/
theorem Stmt.declaresAtAny_end (n : String) (ss : List Stmt) :
    Stmt.declaresAtAny n ss (some []) = false := by
  cases ss with
  | nil => rfl
  | cons s ss => exact congrArg₂ or (s.declaresAt_elsewhere n) (Stmt.declaresAtAny_elsewhere n ss)

/-- A trail leads into one of two parts and not into the other. -/
theorem Trail.leads
    {t : Trail}
    {p q : Trail → Bool}
    (hp : p none = false)
    (hq : q none = false)
    (h : (p t.first || q t.others) = true) :
    (t.first = none ∨ p t.first = true) ∧ (t.others = none ∨ q t.others = true) := by
  rcases t.first_eq_none_or with hfirst | hothers
  · rw [hfirst, hp, Bool.false_or] at h
    exact ⟨.inl hfirst, .inr h⟩
  · rw [hothers, hq, Bool.or_false] at h
    exact ⟨.inr h, .inl hothers⟩

/-- The body of a scope that declares a variable of a name. -/
theorem Stmt.onlyVariablesAll_of_end
    {body : List Stmt}
    {c : Context}
    {room : Room}
    (hc : c.scopes ≠ [])
    (h : Stmt.errorsAll body c room = [])
    (hvariable : body.any (Stmt.declaresVariable n) = true) :
    Stmt.OnlyVariablesAll n body (some []) true :=
  Stmt.onlyVariablesAll_of_forall (.inl rfl) (Stmt.declaresVariable_or_not_mem hc h hvariable)

/-- After its parameters the scope of a function knows them. -/
theorem Context.knows_defineAll
    {c : Context}
    (hc : c.scopes ≠ [])
    (names : List Token) :
    (c.defineAll names).scopes ≠ []
      ∧ ((c.defineAll names).Knows n ↔ (∃ name ∈ names, name.lexeme = n) ∨ c.Knows n) := by
  induction names generalizing c with
  | nil => exact ⟨hc, by simp [defineAll]⟩
  | cons name names ih =>
      obtain ⟨hne, hknows⟩ := ih (c := c.define name) (declareIn_ne_nil hc _ _)
      refine ⟨hne, hknows.trans ?_⟩
      rw [define, knows_declareIn hc]
      simp only [List.mem_cons, exists_eq_or_imp, or_assoc]
      exact or_left_comm

mutual

/-- Where a variable bears a name, the functions and classes of the same scope have others. -/
theorem Stmt.onlyVariables_of_declaresAt :
    ∀ (s : Stmt) (t : Trail) (c : Context) (room : Room), s.errors c room = [] →
      s.declaresAt n t = true → s.OnlyVariables n t false
  | .block body, t, c, room, h, hn => by
      obtain ⟨room', h'⟩ := Room.enter_eq_nil h
      rw [Stmt.declaresAt, Bool.or_eq_true, Bool.and_eq_true] at hn
      rw [Stmt.OnlyVariables]
      cases hends : t.ends with
      | true =>
          obtain rfl := Trail.eq_of_ends hends
          rw [Stmt.declaresAtAny_end, or_iff_left Bool.false_ne_true] at hn
          exact Stmt.onlyVariablesAll_of_end (c := c.inBlock) nofun h' hn.2
      | false =>
          rw [hends] at hn
          exact Stmt.onlyVariablesAll_of_declaresAtAny body t c.inBlock room' h'
            (hn.resolve_left fun hn => nomatch hn.1)
  | .funDecl declaration, t, c, room, h, hn => by
      obtain ⟨room', h'⟩ := Room.enter_eq_nil (List.append_eq_nil_iff.mp h).2
      exact ⟨nofun, declaration.onlyVariables_of_declaresAt t .function
        (c.define declaration.name) room' h' hn⟩
  | .classDecl name parent methods, t, c, room, h, hn => by
      obtain ⟨room', h'⟩ := Room.enter_eq_nil (List.append_eq_nil_iff.mp h).2
      exact ⟨nofun, FunctionDecl.onlyVariablesAll_of_declaresAtAny methods t
        ((c.define name).inClass parent.isSome) room' h' hn⟩
  | .ifStmt _ thenBranch none, t, c, room, h, hn => by
      obtain ⟨room', h'⟩ := Room.enter_eq_nil h
      exact thenBranch.onlyVariables_of_declaresAt t.first c room'
        (List.append_eq_nil_iff.mp h').2 hn
  | .ifStmt _ thenBranch (some elseBranch), t, c, room, h, hn => by
      obtain ⟨room', h'⟩ := Room.enter_eq_nil h
      obtain ⟨hbefore, helse⟩ := List.append_eq_nil_iff.mp h'
      obtain ⟨hthen, hothers⟩ := Trail.leads (p := thenBranch.declaresAt n)
        (q := fun t => elseBranch.declaresAt n t.first) (thenBranch.declaresAt_elsewhere n)
        (elseBranch.declaresAt_elsewhere n) hn
      exact ⟨hthen.elim (fun hnone => hnone ▸ thenBranch.onlyVariables_elsewhere n)
          (thenBranch.onlyVariables_of_declaresAt t.first c room'
            (List.append_eq_nil_iff.mp hbefore).2),
        hothers.elim (fun hnone => hnone ▸ elseBranch.onlyVariables_elsewhere n)
          (elseBranch.onlyVariables_of_declaresAt t.others.first (thenBranch.contextAfter c) room'
            helse)⟩
  | .whileStmt _ body, t, c, room, h, hn => by
      obtain ⟨room', h'⟩ := Room.enter_eq_nil h
      exact body.onlyVariables_of_declaresAt t.first c room' (List.append_eq_nil_iff.mp h').2 hn
  | .varDecl _ _, _, _, _, _, _ => trivial
  | .constDecl _ _, _, _, _, _, _ => trivial
  | .exprStmt _, _, _, _, _, _ => trivial
  | .printStmt _, _, _, _, _, _ => trivial
  | .returnStmt _ _, _, _, _, _, _ => trivial

theorem Stmt.onlyVariablesAll_of_declaresAtAny :
    ∀ (ss : List Stmt) (t : Trail) (c : Context) (room : Room), Stmt.errorsAll ss c room = [] →
      Stmt.declaresAtAny n ss t = true → Stmt.OnlyVariablesAll n ss t false
  | [], _, _, _, _, _ => trivial
  | s :: ss, t, c, room, h, hn => by
      obtain ⟨hfirst, hrest⟩ := List.append_eq_nil_iff.mp h
      obtain ⟨hs, hss⟩ := Trail.leads (p := s.declaresAt n) (q := Stmt.declaresAtAny n ss)
        (s.declaresAt_elsewhere n) (Stmt.declaresAtAny_elsewhere n ss) hn
      exact ⟨hs.elim (fun hnone => hnone ▸ s.onlyVariables_elsewhere n)
          (s.onlyVariables_of_declaresAt t.first c room hfirst),
        hss.elim (fun hnone => hnone ▸ Stmt.onlyVariablesAll_elsewhere n ss)
          (Stmt.onlyVariablesAll_of_declaresAtAny ss t.others (s.contextAfter c) room hrest)⟩

theorem FunctionDecl.onlyVariables_of_declaresAt :
    ∀ (f : FunctionDecl) (t : Trail) (routine : Routine) (c : Context) (room : Room),
      f.errors routine c room = [] → f.declaresAt n t = true → f.OnlyVariables n t
  | ⟨_, parameters, body⟩, t, routine, c, room, h, hn => by
      obtain ⟨room', h'⟩ := Room.enter_eq_nil (List.append_eq_nil_iff.mp h).2
      rw [FunctionDecl.declaresAt, Bool.or_eq_true, Bool.and_eq_true, Bool.or_eq_true] at hn
      rw [FunctionDecl.OnlyVariables]
      cases hends : t.ends with
      | true =>
          obtain rfl := Trail.eq_of_ends hends
          rw [Stmt.declaresAtAny_end, or_iff_left Bool.false_ne_true] at hn
          obtain ⟨hne, hknows⟩ := Context.knows_defineAll (n := n) (c := c.atParameters routine)
            nofun parameters
          rcases hn.2 with hparameter | hvariable
          · obtain ⟨name, hname, heq⟩ := List.any_eq_true.mp hparameter
            exact Stmt.onlyVariablesAll_of_forall (.inl rfl) fun s hs =>
              .inr (Stmt.not_mem_declares_of_knows hne h'
                (hknows.mpr (.inl ⟨name, hname, eq_of_beq heq⟩)) s hs)
          · exact Stmt.onlyVariablesAll_of_end hne h' hvariable
      | false =>
          rw [hends] at hn
          exact Stmt.onlyVariablesAll_of_declaresAtAny body t (c.inBody routine parameters) room' h'
            (hn.resolve_left fun hn => nomatch hn.1)

theorem FunctionDecl.onlyVariablesAll_of_declaresAtAny :
    ∀ (fs : List FunctionDecl) (t : Trail) (c : Context) (room : Room),
      FunctionDecl.errorsOfMethods fs c room = [] →
      FunctionDecl.declaresAtAny n fs t = true → FunctionDecl.OnlyVariablesAll n fs t
  | [], _, _, _, _, _ => trivial
  | f :: fs, t, c, room, h, hn => by
      obtain ⟨hfirst, hrest⟩ := List.append_eq_nil_iff.mp h
      obtain ⟨hf, hfs⟩ := Trail.leads (p := f.declaresAt n) (q := FunctionDecl.declaresAtAny n fs)
        (f.declaresAt_elsewhere n) (FunctionDecl.declaresAtAny_elsewhere n fs) hn
      exact ⟨hf.elim (fun hnone => hnone ▸ f.onlyVariables_elsewhere n)
          (f.onlyVariables_of_declaresAt t.first f.methodRoutine c room hfirst),
        hfs.elim (fun hnone => hnone ▸ FunctionDecl.onlyVariablesAll_elsewhere n fs)
          (FunctionDecl.onlyVariablesAll_of_declaresAtAny fs t.others c room hrest)⟩

end

end Trails

section Words

variable (n : String) (g : Relabeling)

theorem Stmt.declaresVariable_relabel (s : Stmt) :
    (s.relabel g).declaresVariable n = s.declaresVariable n := by
  cases s with
  | ifStmt _ _ elseBranch => cases elseBranch <;> rfl
  | _ => rfl

theorem Stmt.any_declaresVariable_relabel (ss : List Stmt) :
    (Stmt.relabelAll g ss).any (Stmt.declaresVariable n) = ss.any (Stmt.declaresVariable n) := by
  rw [Stmt.relabelAll_eq_map, List.any_map]
  exact congrArg (ss.any ·) (funext (Stmt.declaresVariable_relabel n g))

mutual

/-- What a scope declares does not depend on lines and links. -/
theorem Stmt.declaresAt_relabel :
    ∀ (s : Stmt) (t : Trail), (s.relabel g).declaresAt n t = s.declaresAt n t
  | .block body, t => by
      simp only [Stmt.relabel, Stmt.declaresAt, Stmt.any_declaresVariable_relabel,
        Stmt.declaresAtAny_relabel body t]
  | .funDecl declaration, t => declaration.declaresAt_relabel t
  | .classDecl _ _ methods, t => FunctionDecl.declaresAtAny_relabel methods t
  | .ifStmt _ thenBranch none, t => thenBranch.declaresAt_relabel t.first
  | .ifStmt _ thenBranch (some elseBranch), t =>
      congrArg₂ or (thenBranch.declaresAt_relabel t.first)
        (elseBranch.declaresAt_relabel t.others.first)
  | .whileStmt _ body, t => body.declaresAt_relabel t.first
  | .varDecl _ _, _ => rfl
  | .constDecl _ _, _ => rfl
  | .exprStmt _, _ => rfl
  | .printStmt _, _ => rfl
  | .returnStmt _ _, _ => rfl

theorem Stmt.declaresAtAny_relabel :
    ∀ (ss : List Stmt) (t : Trail),
      Stmt.declaresAtAny n (Stmt.relabelAll g ss) t = Stmt.declaresAtAny n ss t
  | [], _ => rfl
  | s :: ss, t =>
      congrArg₂ or (s.declaresAt_relabel t.first) (Stmt.declaresAtAny_relabel ss t.others)

theorem FunctionDecl.declaresAt_relabel :
    ∀ (f : FunctionDecl) (t : Trail), (f.relabel g).declaresAt n t = f.declaresAt n t
  | ⟨_, parameters, body⟩, t => by
      simp only [FunctionDecl.relabel, FunctionDecl.declaresAt, List.any_map,
        Stmt.any_declaresVariable_relabel, Stmt.declaresAtAny_relabel body t]
      rfl

theorem FunctionDecl.declaresAtAny_relabel :
    ∀ (fs : List FunctionDecl) (t : Trail),
      FunctionDecl.declaresAtAny n (FunctionDecl.relabelAll g fs) t =
        FunctionDecl.declaresAtAny n fs t
  | [], _ => rfl
  | f :: fs, t =>
      congrArg₂ or (f.declaresAt_relabel t.first) (FunctionDecl.declaresAtAny_relabel fs t.others)

end

variable {n}

/-- The name of a variable in a list of worded statements. -/
theorem Stmt.ne_of_declaresVariable
    {ss : List Stmt}
    (h : (Node.statements ss).Every Node.Worded)
    (hn : ss.any (Stmt.declaresVariable n) = true) :
    n ≠ "this" ∧ n ≠ "super" := by
  obtain ⟨s, hs, hn⟩ := List.any_eq_true.mp hn
  have hworded := (Grammar.every_statements_iff.mp h s hs).here
  cases s with
  | varDecl name _ => exact eq_of_beq hn ▸ hworded
  | constDecl name _ => exact eq_of_beq hn ▸ hworded
  | _ => cases hn

mutual

/-- A variable, a constant or a parameter is not called as the instance or the superclass. -/
theorem Stmt.ne_of_declaresAt :
    ∀ (s : Stmt) (t : Trail), (Node.statement s).Every Node.Worded → s.declaresAt n t = true →
      n ≠ "this" ∧ n ≠ "super"
  | .block body, t, h, hn => by
      have hbody : (Node.statements body).Every Node.Worded :=
        h.child (by simp [Node.children, Stmt.children])
      rw [Stmt.declaresAt, Bool.or_eq_true, Bool.and_eq_true] at hn
      rcases hn with ⟨_, hn⟩ | hn
      · exact Stmt.ne_of_declaresVariable hbody hn
      · exact Stmt.ne_of_declaresAtAny body t hbody hn
  | .funDecl declaration, t, h, hn =>
      declaration.ne_of_declaresAt t .function
        (h.child (by simp [Node.children, Stmt.children])) hn
  | .classDecl _ _ methods, t, h, hn =>
      FunctionDecl.ne_of_declaresAtAny methods t
        (fun _ hf => h.child (List.mem_append_right _ (List.mem_map_of_mem hf))) hn
  | .ifStmt _ thenBranch none, t, h, hn =>
      thenBranch.ne_of_declaresAt t.first (h.child (by simp [Node.children, Stmt.children])) hn
  | .ifStmt _ thenBranch (some elseBranch), t, h, hn => by
      rw [Stmt.declaresAt, Bool.or_eq_true] at hn
      rcases hn with hn | hn
      · exact thenBranch.ne_of_declaresAt t.first
          (h.child (by simp [Node.children, Stmt.children])) hn
      · exact elseBranch.ne_of_declaresAt t.others.first
          (h.child (by simp [Node.children, Stmt.children])) hn
  | .whileStmt _ body, t, h, hn =>
      body.ne_of_declaresAt t.first (h.child (by simp [Node.children, Stmt.children])) hn
  | .varDecl _ _, _, _, hn => nomatch hn
  | .constDecl _ _, _, _, hn => nomatch hn
  | .exprStmt _, _, _, hn => nomatch hn
  | .printStmt _, _, _, hn => nomatch hn
  | .returnStmt _ _, _, _, hn => nomatch hn

theorem Stmt.ne_of_declaresAtAny :
    ∀ (ss : List Stmt) (t : Trail), (Node.statements ss).Every Node.Worded →
      Stmt.declaresAtAny n ss t = true → n ≠ "this" ∧ n ≠ "super"
  | [], _, _, hn => nomatch hn
  | s :: ss, t, h, hn => by
      rw [Stmt.declaresAtAny, Bool.or_eq_true] at hn
      rcases hn with hn | hn
      · exact s.ne_of_declaresAt t.first (h.child (by simp [Node.children])) hn
      · exact Stmt.ne_of_declaresAtAny ss t.others (h.child (by simp [Node.children])) hn

theorem FunctionDecl.ne_of_declaresAt :
    ∀ (f : FunctionDecl) (t : Trail) (routine : Routine),
      (Node.function routine f).Every Node.Worded → f.declaresAt n t = true →
      n ≠ "this" ∧ n ≠ "super"
  | ⟨_, parameters, body⟩, t, routine, h, hn => by
      have hbody : (Node.statements body).Every Node.Worded := h.child (by simp [Node.children])
      rw [FunctionDecl.declaresAt, Bool.or_eq_true, Bool.and_eq_true, Bool.or_eq_true] at hn
      rcases hn with ⟨_, hn | hn⟩ | hn
      · obtain ⟨name, hname, heq⟩ := List.any_eq_true.mp hn
        exact eq_of_beq heq ▸ h.here name hname
      · exact Stmt.ne_of_declaresVariable hbody hn
      · exact Stmt.ne_of_declaresAtAny body t hbody hn

theorem FunctionDecl.ne_of_declaresAtAny :
    ∀ (fs : List FunctionDecl) (t : Trail),
      (∀ f ∈ fs, (Node.function f.methodRoutine f).Every Node.Worded) →
      FunctionDecl.declaresAtAny n fs t = true → n ≠ "this" ∧ n ≠ "super"
  | [], _, _, hn => nomatch hn
  | f :: fs, t, h, hn => by
      obtain ⟨hf, hfs⟩ := List.forall_mem_cons.mp h
      rw [FunctionDecl.declaresAtAny, Bool.or_eq_true] at hn
      rcases hn with hn | hn
      · exact f.ne_of_declaresAt t.first f.methodRoutine hf hn
      · exact FunctionDecl.ne_of_declaresAtAny fs t.others hfs hn

end

end Words

end Lox

import Lox.Proofs.Scope.Relabel
import Lox.Scope.Links
import Lox.Scope.Rename

/-!
# Scopes of renamed programs

A new name that a program does not have cannot come between a reference and what it refers to, nor
be declared twice.  So a program with a local name replaced resolves to the same links and has scope
errors at the same places.

**Main definitions.**
* `Context.renamed`: what surrounds a place after a name has been replaced.
* `Stmt.OnlyVariables`: no function or class has the name that is replaced.

**Results.**
* `findScope?_renamed`: a name is found where it was found before.
* `Stmt.resolve_renamed`, `Stmt.errors_renamed`: resolution and its errors.
* `Stmt.references_renamed`: the references one by one.
-/

namespace Lox

namespace Renaming

variable
  (ρ : Renaming)
  {marked other : Bool}
  {m n : String}

/-- A scope without a mark keeps all names. -/
@[simp] theorem apply_false (n : String) : ρ.apply false n = n := by
  simp [apply]

/-- Other names than the old one are kept in all scopes. -/
theorem apply_of_ne (h : n ≠ ρ.old) : ρ.apply marked n = n := by
  simp [apply, h]

/-- A name is replaced only by the new one. -/
theorem apply_eq (marked : Bool) (n : String) :
    ρ.apply marked n = n ∨ n = ρ.old ∧ ρ.apply marked n = ρ.new := by
  by_cases h : n = ρ.old
  · cases marked
    · exact .inl (ρ.apply_false n)
    · exact .inr ⟨h, by simp [apply, h]⟩
  · exact .inl (ρ.apply_of_ne h)

/-- Different names stay different, wherever they are declared, if neither is the new one. -/
theorem eq_of_apply_eq
    (hm : m ≠ ρ.new)
    (hn : n ≠ ρ.new)
    (h : ρ.apply marked m = ρ.apply other n) :
    m = n := by
  rcases ρ.apply_eq marked m with hm' | ⟨rfl, hm'⟩ <;>
    rcases ρ.apply_eq other n with hn' | ⟨rfl, hn'⟩ <;>
    rw [hm', hn'] at h
  · exact h
  · exact absurd h hm
  · exact absurd h.symm hn

/-- In one scope, different names stay different. -/
theorem apply_inj
    (hm : m ≠ ρ.new)
    (hn : n ≠ ρ.new) :
    ρ.apply marked m = ρ.apply marked n ↔ m = n :=
  ⟨ρ.eq_of_apply_eq hm hn, fun h => by rw [h]⟩

end Renaming

section Scopes

variable (ρ : Renaming)

/-- A declaration in a scope that may be marked. -/
def Declared.renamed (marked : Bool) (d : Declared) : Declared :=
  { d with name := ρ.apply marked d.name }

/-- The scopes around a place, from the innermost one outward, some of them marked. -/
def renamedScopes : List Bool → List Scope → List Scope
  | _, [] => []
  | marks, scope :: outer =>
      scope.map (Declared.renamed ρ (marks.headD false)) :: renamedScopes marks.tail outer

/-- No scope declares a name. -/
def Avoids (name : String) (scopes : List Scope) : Prop :=
  ∀ scope ∈ scopes, ∀ d ∈ scope, d.name ≠ name

variable
  {ρ}
  {scope : Scope}
  {scopes : List Scope}
  {marks : List Bool}
  {n : String}

/-- A name is avoided by the innermost scope and by all scopes around it. -/
theorem avoids_cons {name : String} :
    Avoids name (scope :: scopes) ↔ (∀ d ∈ scope, d.name ≠ name) ∧ Avoids name scopes := by
  simp [Avoids]

/-- A scope knows a name in the same way after the name has been replaced in it. -/
theorem Scope.standing?_renamed
    (hscope : ∀ d ∈ scope, d.name ≠ ρ.new)
    (hn : n ≠ ρ.new)
    (marked : Bool) :
    Scope.standing? (scope.map (Declared.renamed ρ marked)) (ρ.apply marked n) =
      scope.standing? n := by
  unfold Scope.standing?
  induction scope with
  | nil => rfl
  | cons d scope ih =>
      obtain ⟨hd, hrest⟩ := List.forall_mem_cons.mp hscope
      have hsame : (ρ.apply marked d.name == ρ.apply marked n) = (d.name == n) := by
        rw [Bool.eq_iff_iff, beq_iff_eq, beq_iff_eq, ρ.apply_inj hd hn]
      simp only [List.map_cons, List.find?_cons, Declared.renamed, hsame]
      cases d.name == n with
      | true => rfl
      | false => exact ih hrest

/-- A scope that does not know a name does not know what replaces it, here or in another scope. -/
theorem Scope.standing?_renamed_eq_none
    (hscope : ∀ d ∈ scope, d.name ≠ ρ.new)
    (hn : n ≠ ρ.new)
    (hnone : scope.standing? n = none)
    (marked other : Bool) :
    Scope.standing? (scope.map (Declared.renamed ρ marked)) (ρ.apply other n) = none := by
  unfold Scope.standing? at hnone ⊢
  rw [Option.map_eq_none_iff, List.find?_eq_none] at hnone ⊢
  intro d' hd' hsame
  obtain ⟨d, hd, rfl⟩ := List.mem_map.mp hd'
  exact hnone d hd (beq_iff_eq.mpr (ρ.eq_of_apply_eq (hscope d hd) hn (eq_of_beq hsame)))

/--
A name is found where it was found before, under the name that the scope there gives to it.  A name
that is found in no scope keeps its own name, and is found in none.
-/
theorem findScope?_renamed
    (hscopes : Avoids ρ.new scopes)
    (hn : n ≠ ρ.new) :
    findScope? (ρ.apply (markAt marks ((findScope? n scopes).map Prod.fst)) n)
        (renamedScopes ρ marks scopes) =
      findScope? n scopes := by
  induction scopes generalizing marks with
  | nil => rfl
  | cons scope outer ih =>
      obtain ⟨hscope, houter⟩ := avoids_cons.mp hscopes
      simp only [findScope?, renamedScopes]
      cases hstanding : scope.standing? n with
      | some standing =>
          have hmark : markAt marks (some 0) = marks.headD false := by cases marks <;> rfl
          simp only [Option.map_some, hmark, Scope.standing?_renamed hscope hn, hstanding]
      | none =>
          simp only [Scope.standing?_renamed_eq_none hscope hn hstanding]
          have hmark : markAt marks (((findScope? n outer).map fun found =>
              (found.1 + 1, found.2)).map Prod.fst) =
                markAt marks.tail ((findScope? n outer).map Prod.fst) := by
            cases findScope? n outer with
            | none => rfl
            | some found => cases marks <;> simp [markAt]
          rw [hmark, ih houter]

end Scopes

namespace Context

variable
  {ρ : Renaming}
  {c : Context}
  {marks : List Bool}
  {n : String}

/-- What surrounds a place, with some scopes marked. -/
def renamed (ρ : Renaming) (marks : List Bool) (c : Context) : Context :=
  { c with scopes := renamedScopes ρ marks c.scopes }

@[simp] theorem owner_renamed : (c.renamed ρ marks).owner = c.owner := rfl

@[simp] theorem routine_renamed : (c.renamed ρ marks).routine = c.routine := rfl

/-- The link of a name that is replaced where its scope is marked. -/
theorem link_renamed
    (hc : Avoids ρ.new c.scopes)
    (hn : n ≠ ρ.new) :
    (c.renamed ρ marks).link (ρ.apply ((c.link n .unresolved).leadsToMark marks) n) .unresolved =
      c.link n .unresolved := by
  have hdepth : (c.link n .unresolved).depth = (findScope? n c.scopes).map Prod.fst := by
    unfold link
    cases findScope? n c.scopes <;> rfl
  unfold Link.leadsToMark
  rw [hdepth]
  unfold link renamed
  rw [findScope?_renamed hc hn]

/-- The link of an assignment to a name that is replaced where its scope is marked. -/
theorem assignmentLink_renamed
    (hc : Avoids ρ.new c.scopes)
    (hn : n ≠ ρ.new) :
    (c.renamed ρ marks).assignmentLink
        (ρ.apply ((c.assignmentLink n .unresolved).leadsToMark marks) n) .unresolved =
      c.assignmentLink n .unresolved := by
  have hdepth : (c.assignmentLink n .unresolved).depth = (findScope? n c.scopes).map Prod.fst := by
    unfold assignmentLink
    rcases findScope? n c.scopes with _ | ⟨_, _ | _ | _⟩ <;> rfl
  unfold Link.leadsToMark
  rw [hdepth]
  unfold assignmentLink renamed
  rw [findScope?_renamed hc hn]

/-- The link of a name that is never replaced. -/
theorem link_renamed_of_ne
    (hc : Avoids ρ.new c.scopes)
    (hold : n ≠ ρ.old)
    (hnew : n ≠ ρ.new) :
    (c.renamed ρ marks).link n .unresolved = c.link n .unresolved := by
  have h : (c.renamed ρ marks).link _ .unresolved = c.link n .unresolved := link_renamed hc hnew
  rwa [ρ.apply_of_ne hold] at h

/-- The innermost scope knows the new name of a declaration as it knew the old one. -/
theorem innermost?_renamed
    (hc : Avoids ρ.new c.scopes)
    {name : Token}
    (hn : name.lexeme ≠ ρ.new) :
    (c.renamed ρ marks).innermost? (name.renamed ρ (marks.headD false)) = c.innermost? name := by
  unfold innermost? renamed Token.renamed
  cases hscopes : c.scopes with
  | nil => rfl
  | cons scope outer =>
      rw [hscopes] at hc
      exact Scope.standing?_renamed (avoids_cons.mp hc).1 hn _

/-- The innermost scope knows a name that is referred to as before. -/
theorem innermost?_renamed_link
    (hc : Avoids ρ.new c.scopes)
    {name : Token}
    (hn : name.lexeme ≠ ρ.new) :
    (c.renamed ρ marks).innermost?
        (name.renamed ρ ((c.link name.lexeme .unresolved).leadsToMark marks)) =
      c.innermost? name := by
  cases hscopes : c.scopes with
  | nil => simp [innermost?, renamed, renamedScopes, hscopes]
  | cons scope outer =>
      have hscope := (avoids_cons.mp (hscopes ▸ hc)).1
      cases hstanding : scope.standing? name.lexeme with
      | some standing =>
          have hmark : (c.link name.lexeme .unresolved).leadsToMark marks = marks.headD false := by
            simp only [link, hscopes, findScope?, hstanding, Link.leadsToMark]
            cases marks <;> rfl
          rw [hmark, innermost?_renamed hc hn]
      | none =>
          have hnone := Scope.standing?_renamed_eq_none hscope hn hstanding (marks.headD false)
            ((c.link name.lexeme .unresolved).leadsToMark marks)
          simp only [innermost?, renamed, renamedScopes, hscopes, List.head?_cons, Option.bind_some,
            Token.renamed, hnone, hstanding]

section Declarations

variable (ρ c marks)

/-- A name is declared in a marked scope under its new name. -/
theorem declareIn_renamed
    (name : String)
    (standing : Standing)
    (scopes : List Scope) :
    renamedScopes ρ marks (declareIn name standing scopes) =
      declareIn (ρ.apply (marks.headD false) name) standing (renamedScopes ρ marks scopes) := by
  cases scopes <;> rfl

/-- What surrounds a place behind a renamed declaration. -/
theorem declare_renamed (name : Token) :
    (c.declare name).renamed ρ marks =
      (c.renamed ρ marks).declare (name.renamed ρ (marks.headD false)) :=
  congrArg (Context.mk · c.routine c.owner)
    (declareIn_renamed ρ marks name.lexeme .pending c.scopes)

/-- What surrounds a place behind a renamed definition. -/
theorem define_renamed (name : Token) :
    (c.define name).renamed ρ marks =
      (c.renamed ρ marks).define (name.renamed ρ (marks.headD false)) :=
  congrArg (Context.mk · c.routine c.owner)
    (declareIn_renamed ρ marks name.lexeme .variable c.scopes)

/-- What surrounds a place behind a renamed constant. -/
theorem defineConstant_renamed (name : Token) :
    (c.defineConstant name).renamed ρ marks =
      (c.renamed ρ marks).defineConstant (name.renamed ρ (marks.headD false)) :=
  congrArg (Context.mk · c.routine c.owner)
    (declareIn_renamed ρ marks name.lexeme .constant c.scopes)

/-- What surrounds a place behind renamed parameters. -/
theorem defineAll_renamed (names : List Token) :
    (c.defineAll names).renamed ρ marks =
      (c.renamed ρ marks).defineAll (names.map (Token.renamed ρ (marks.headD false))) := by
  induction names generalizing c with
  | nil => rfl
  | cons name names ih =>
      have hstep : c.defineAll (name :: names) = (c.define name).defineAll names := rfl
      rw [hstep, ih, define_renamed]
      rfl

/-- Inside a block there is one more scope, which may be marked. -/
theorem inBlock_renamed (marked : Bool) :
    c.inBlock.renamed ρ (marked :: marks) = (c.renamed ρ marks).inBlock :=
  rfl

/-- The scope of the parameters may be marked. -/
theorem atParameters_renamed (marked : Bool) (routine : Routine) :
    (c.atParameters routine).renamed ρ (marked :: marks) =
      (c.renamed ρ marks).atParameters routine :=
  rfl

/-- A body sees its parameters under their new names if its scope is marked. -/
theorem inBody_renamed (marked : Bool) (routine : Routine) (names : List Token) :
    (c.inBody routine names).renamed ρ (marked :: marks) =
      (c.renamed ρ marks).inBody routine (names.map (Token.renamed ρ marked)) := by
  rw [inBody, defineAll_renamed, atParameters_renamed]
  rfl

/-- The scopes of the instance and of the superclass are never marked. -/
theorem inClass_renamed (isDerived : Bool) :
    (c.inClass isDerived).renamed ρ (marksOfMethods isDerived marks) =
      (c.renamed ρ marks).inClass isDerived := by
  cases isDerived <;>
    simp [inClass, renamed, marksOfMethods, renamedScopes, Declared.renamed]

end Declarations

end Context

section Avoidance

variable {name : String}

/-- A declaration of another name does not bring the name in. -/
theorem avoids_declareIn
    {scopes : List Scope}
    (h : Avoids name scopes)
    {declared : String}
    (hne : declared ≠ name)
    (standing : Standing) :
    Avoids name (declareIn declared standing scopes) := by
  cases scopes with
  | nil => exact h
  | cons scope outer =>
      obtain ⟨hscope, houter⟩ := avoids_cons.mp h
      exact avoids_cons.mpr ⟨List.forall_mem_cons.mpr ⟨hne, hscope⟩, houter⟩

/-- A new scope declares nothing. -/
theorem avoids_inBlock {c : Context} (h : Avoids name c.scopes) : Avoids name c.inBlock.scopes :=
  avoids_cons.mpr ⟨by simp, h⟩

/-- Parameters with other names do not bring the name in. -/
theorem avoids_defineAll
    {c : Context}
    (h : Avoids name c.scopes)
    {names : List Token}
    (hnames : name ∉ names.map Token.lexeme) :
    Avoids name (c.defineAll names).scopes := by
  induction names generalizing c with
  | nil => exact h
  | cons first rest ih =>
      simp only [List.map_cons, List.mem_cons, not_or] at hnames
      exact ih (avoids_declareIn h (Ne.symm hnames.1) .variable) hnames.2

/-- The scopes of a class declare the two keywords only. -/
theorem avoids_inClass
    {c : Context}
    (h : Avoids name c.scopes)
    (hthis : name ≠ "this")
    (hsuper : name ≠ "super")
    (isDerived : Bool) :
    Avoids name (c.inClass isDerived).scopes := by
  have hreceiver : ∀ d ∈ [(⟨"this", .variable⟩ : Declared)], d.name ≠ name := by
    simpa using Ne.symm hthis
  have hparent : ∀ d ∈ [(⟨"super", .variable⟩ : Declared)], d.name ≠ name := by
    simpa using Ne.symm hsuper
  cases isDerived with
  | false => exact avoids_cons.mpr ⟨hreceiver, h⟩
  | true => exact avoids_cons.mpr ⟨hreceiver, avoids_cons.mpr ⟨hparent, h⟩⟩

/-- A statement without the name does not bring it in. -/
theorem Stmt.avoids_contextAfter :
    ∀ (s : Stmt) (c : Context), name ∉ s.names → Avoids name c.scopes →
      Avoids name (s.contextAfter c).scopes
  | .funDecl ⟨_, _, _⟩, c, hs, hc => avoids_declareIn hc (by
      rintro rfl
      simp [Stmt.names, FunctionDecl.names] at hs) .variable
  | .classDecl _ _ _, c, hs, hc => avoids_declareIn hc (by
      rintro rfl
      simp [Stmt.names] at hs) .variable
  | .varDecl _ _, c, hs, hc => avoids_declareIn hc (by
      rintro rfl
      simp [Stmt.names] at hs) .variable
  | .constDecl _ _, c, hs, hc => avoids_declareIn hc (by
      rintro rfl
      simp [Stmt.names] at hs) .constant
  | .ifStmt _ thenBranch none, c, hs, hc => by
      simp only [Stmt.names, List.mem_append, not_or] at hs
      exact thenBranch.avoids_contextAfter c hs.2 hc
  | .ifStmt _ thenBranch (some elseBranch), c, hs, hc => by
      simp only [Stmt.names, List.mem_append, not_or] at hs
      exact elseBranch.avoids_contextAfter _ hs.2.2 (thenBranch.avoids_contextAfter c hs.2.1 hc)
  | .whileStmt _ body, c, hs, hc => by
      simp only [Stmt.names, List.mem_append, not_or] at hs
      exact body.avoids_contextAfter c hs.2 hc
  | .block _, _, _, hc => hc
  | .exprStmt _, _, _, hc => hc
  | .printStmt _, _, _, hc => hc
  | .returnStmt _ _, _, _, hc => hc

end Avoidance

mutual

/--
Functions and classes that stand in a marked scope have other names than the one given; whether the
scope around a statement is marked is told.
-/
def Stmt.OnlyVariables (name : String) : Stmt → Trail → Bool → Prop
  | .block body, t, _ => Stmt.OnlyVariablesAll name body t t.ends
  | .funDecl declaration, t, marked =>
      (marked = true → declaration.name.lexeme ≠ name) ∧ declaration.OnlyVariables name t
  | .classDecl declared _ methods, t, marked =>
      (marked = true → declared.lexeme ≠ name) ∧ FunctionDecl.OnlyVariablesAll name methods t
  | .ifStmt _ thenBranch none, t, marked => thenBranch.OnlyVariables name t.first marked
  | .ifStmt _ thenBranch (some elseBranch), t, marked =>
      thenBranch.OnlyVariables name t.first marked
        ∧ elseBranch.OnlyVariables name t.others.first marked
  | .whileStmt _ body, t, marked => body.OnlyVariables name t.first marked
  | .varDecl _ _, _, _ | .constDecl _ _, _, _ | .exprStmt _, _, _ | .printStmt _, _, _
  | .returnStmt _ _, _, _ => True

def Stmt.OnlyVariablesAll (name : String) : List Stmt → Trail → Bool → Prop
  | [], _, _ => True
  | s :: ss, t, marked =>
      s.OnlyVariables name t.first marked ∧ Stmt.OnlyVariablesAll name ss t.others marked

def FunctionDecl.OnlyVariables (name : String) : FunctionDecl → Trail → Prop
  | ⟨_, _, body⟩, t => Stmt.OnlyVariablesAll name body t t.ends

def FunctionDecl.OnlyVariablesAll (name : String) : List FunctionDecl → Trail → Prop
  | [], _ => True
  | f :: fs, t => f.OnlyVariables name t.first ∧ FunctionDecl.OnlyVariablesAll name fs t.others

end

/-- A name that a marked scope must not replace is kept. -/
theorem Token.renamed_eq_self
    {ρ : Renaming}
    {marked : Bool}
    {t : Token}
    (h : marked = true → t.lexeme ≠ ρ.old) :
    t.renamed ρ marked = t := by
  cases marked with
  | false => simp [Token.renamed]
  | true => simp [Token.renamed, ρ.apply_of_ne (h rfl)]

/-- The context after a statement, after a name has been replaced. -/
theorem Stmt.contextAfter_renamed (ρ : Renaming) :
    ∀ (s : Stmt) (t : Trail) (marks : List Bool) (c : Context),
      s.OnlyVariables ρ.old t (marks.headD false) →
      (s.renamed ρ t marks).contextAfter (c.renamed ρ marks) =
        (s.contextAfter c).renamed ρ marks
  | .funDecl ⟨name, _, _⟩, t, marks, c, h => by
      rw [Stmt.contextAfter, Context.define_renamed, Token.renamed_eq_self h.1]
      rfl
  | .classDecl name _ _, t, marks, c, h => by
      rw [Stmt.contextAfter, Context.define_renamed, Token.renamed_eq_self h.1]
      rfl
  | .varDecl name _, _, marks, c, _ => (c.define_renamed ρ marks name).symm
  | .constDecl name _, _, marks, c, _ => (c.defineConstant_renamed ρ marks name).symm
  | .ifStmt _ thenBranch none, t, marks, c, h =>
      thenBranch.contextAfter_renamed ρ t.first marks c h
  | .ifStmt _ thenBranch (some elseBranch), t, marks, c, h => by
      simp only [Stmt.renamed, Stmt.contextAfter]
      rw [thenBranch.contextAfter_renamed ρ t.first marks c h.1,
        elseBranch.contextAfter_renamed ρ t.others.first marks _ h.2]
  | .whileStmt _ body, t, marks, c, h => body.contextAfter_renamed ρ t.first marks c h
  | .block _, _, _, _, _ => rfl
  | .exprStmt _, _, _, _, _ => rfl
  | .printStmt _, _, _, _, _ => rfl
  | .returnStmt _ _, _, _, _, _ => rfl

/-- Opens all links. -/
def Relabeling.unlinked : Relabeling := .links fun _ => .unresolved

/-- Tokens have no links. -/
@[simp] theorem Token.relabel_unlinked (t : Token) : t.relabel .unlinked = t := rfl

@[simp] theorem Token.map_relabel_unlinked (ts : List Token) :
    ts.map (Token.relabel .unlinked) = ts :=
  List.map_id ts

section Routines

variable
  (ρ : Renaming)
  (f : FunctionDecl)
  (t : Trail)
  (marks : List Bool)

/-- The name of a function belongs to the scope around it, and is kept. -/
@[simp] theorem FunctionDecl.name_renamed : (f.renamed ρ t marks).name = f.name := by
  obtain ⟨name, parameters, body⟩ := f
  rfl

/-- An initializer stays one. -/
@[simp] theorem FunctionDecl.isInitializer_renamed :
    (f.renamed ρ t marks).isInitializer = f.isInitializer := by
  simp [FunctionDecl.isInitializer]

/-- A method is checked as before. -/
@[simp] theorem FunctionDecl.methodRoutine_renamed :
    (f.renamed ρ t marks).methodRoutine = f.methodRoutine := by
  simp [FunctionDecl.methodRoutine]

variable {f}

/-- The name of a function is among its names. -/
theorem FunctionDecl.name_ne_of_not_mem
    {name : String}
    (h : name ∉ f.names) :
    f.name.lexeme ≠ name := by
  obtain ⟨declared, parameters, body⟩ := f
  rintro rfl
  simp [FunctionDecl.names] at h

end Routines

/-- A renaming that leaves the instance and the superclass alone. -/
structure Renaming.Proper (ρ : Renaming) : Prop where
  old_ne_this : ρ.old ≠ "this"
  old_ne_super : ρ.old ≠ "super"
  new_ne_this : ρ.new ≠ "this"
  new_ne_super : ρ.new ≠ "super"

section References

variable
  {ρ : Renaming}
  {c : Context}
  {marks : List Bool}

/-- A renamed reference resolves to the link that it has. -/
theorem Reference.resolve_renamed
    (hc : Avoids ρ.new c.scopes)
    {r : Reference}
    (hr : (r.relabel .unlinked).resolve c = r)
    (hn : r.name.lexeme ≠ ρ.new) :
    ((r.renamed ρ marks).relabel .unlinked).resolve (c.renamed ρ marks) = r.renamed ρ marks := by
  obtain ⟨name, link⟩ := r
  obtain rfl : c.link name.lexeme .unresolved = link := congrArg Reference.link hr
  exact congrArg (Reference.mk _) (Context.link_renamed hc hn)

/-- The renamed target of an assignment resolves to the link that it has. -/
theorem Reference.resolveAssigned_renamed
    (hc : Avoids ρ.new c.scopes)
    {r : Reference}
    (hr : (r.relabel .unlinked).resolveAssigned c = r)
    (hn : r.name.lexeme ≠ ρ.new) :
    ((r.renamed ρ marks).relabel .unlinked).resolveAssigned (c.renamed ρ marks) =
      r.renamed ρ marks := by
  obtain ⟨name, link⟩ := r
  obtain rfl : c.assignmentLink name.lexeme .unresolved = link := congrArg Reference.link hr
  exact congrArg (Reference.mk _) (Context.assignmentLink_renamed hc hn)

/-- The instance is found where it was found before. -/
theorem Context.thisLink_renamed
    (hρ : ρ.Proper)
    (hc : Avoids ρ.new c.scopes) :
    (c.renamed ρ marks).thisLink .unresolved = c.thisLink .unresolved := by
  unfold thisLink
  rw [owner_renamed, link_renamed_of_ne hc hρ.old_ne_this.symm hρ.new_ne_this.symm]

end References

section Resolution

variable {ρ : Renaming}

mutual

/-- An expression whose links are those of a context keeps them when a name is replaced. -/
theorem Expr.resolve_renamed
    (hρ : ρ.Proper)
    {c : Context}
    (hc : Avoids ρ.new c.scopes)
    (marks : List Bool) :
    ∀ e : Expr, (e.relabel .unlinked).resolve c = e → ρ.new ∉ e.names →
      ((e.renamed ρ marks).relabel .unlinked).resolve (c.renamed ρ marks) = e.renamed ρ marks
  | .literal _, _, _ => rfl
  | .grouping inner, h, hn => by
      simp only [Expr.relabel, Expr.resolve, Expr.grouping.injEq] at h
      simp only [Expr.renamed, Expr.relabel, Expr.resolve, inner.resolve_renamed hρ hc marks h hn]
  | .unary operator operand, h, hn => by
      simp only [Expr.relabel, Expr.resolve, Expr.unary.injEq] at h
      simp only [Expr.renamed, Expr.relabel, Expr.resolve, h.1,
        operand.resolve_renamed hρ hc marks h.2 hn]
  | .binary left operator right, h, hn => by
      simp only [Expr.relabel, Expr.resolve, Expr.binary.injEq] at h
      simp only [Expr.names, List.mem_append, not_or] at hn
      simp only [Expr.renamed, Expr.relabel, Expr.resolve, h.2.1,
        left.resolve_renamed hρ hc marks h.1 hn.1, right.resolve_renamed hρ hc marks h.2.2 hn.2]
  | .logical left operator right, h, hn => by
      simp only [Expr.relabel, Expr.resolve, Expr.logical.injEq] at h
      simp only [Expr.names, List.mem_append, not_or] at hn
      simp only [Expr.renamed, Expr.relabel, Expr.resolve, h.2.1,
        left.resolve_renamed hρ hc marks h.1 hn.1, right.resolve_renamed hρ hc marks h.2.2 hn.2]
  | .read target, h, hn => by
      simp only [Expr.names, List.mem_singleton] at hn
      exact congrArg Expr.read
        (Reference.resolve_renamed hc (Expr.read.inj h) (Ne.symm hn))
  | .readConstant target, h, hn => by
      simp only [Expr.names, List.mem_singleton] at hn
      exact congrArg Expr.readConstant
        (Reference.resolve_renamed hc (Expr.readConstant.inj h) (Ne.symm hn))
  | .assign target value, h, hn => by
      simp only [Expr.relabel, Expr.resolve, Expr.assign.injEq] at h
      simp only [Expr.names, List.mem_cons, not_or] at hn
      simp only [Expr.renamed, Expr.relabel, Expr.resolve,
        value.resolve_renamed hρ hc marks h.2 hn.2,
        Reference.resolveAssigned_renamed hc h.1 (Ne.symm hn.1)]
  | .call callee closing arguments, h, hn => by
      simp only [Expr.relabel, Expr.resolve, Expr.call.injEq] at h
      simp only [Expr.names, List.mem_append, not_or] at hn
      simp only [Expr.renamed, Expr.relabel, Expr.resolve, h.2.1,
        callee.resolve_renamed hρ hc marks h.1 hn.1,
        Expr.resolveAll_renamed hρ hc marks arguments h.2.2 hn.2]
  | .get object name, h, hn => by
      simp only [Expr.relabel, Expr.resolve, Expr.get.injEq] at h
      simp only [Expr.renamed, Expr.relabel, Expr.resolve, h.2,
        object.resolve_renamed hρ hc marks h.1 hn]
  | .set object name value, h, hn => by
      simp only [Expr.relabel, Expr.resolve, Expr.set.injEq] at h
      simp only [Expr.names, List.mem_append, not_or] at hn
      simp only [Expr.renamed, Expr.relabel, Expr.resolve, h.2.1,
        object.resolve_renamed hρ hc marks h.1 hn.1, value.resolve_renamed hρ hc marks h.2.2 hn.2]
  | .this keyword link, h, _ => by
      obtain ⟨hkeyword, hlink⟩ := Expr.this.inj h
      exact congrArg₂ Expr.this hkeyword ((Context.thisLink_renamed hρ hc).trans hlink)
  | .super keyword method link, h, _ => by
      obtain ⟨hkeyword, hmethod, hlink⟩ := Expr.super.inj h
      have hsame : (c.renamed ρ marks).link "super" .unresolved = c.link "super" .unresolved :=
        Context.link_renamed_of_ne hc hρ.old_ne_super.symm hρ.new_ne_super.symm
      simp only [Expr.renamed, Expr.relabel, Expr.resolve, hkeyword, hmethod]
      exact congrArg _ (hsame.trans hlink)

theorem Expr.resolveAll_renamed
    (hρ : ρ.Proper)
    {c : Context}
    (hc : Avoids ρ.new c.scopes)
    (marks : List Bool) :
    ∀ es : List Expr, Expr.resolveAll c (Expr.relabelAll .unlinked es) = es →
      ρ.new ∉ Expr.namesAll es →
      Expr.resolveAll (c.renamed ρ marks)
        (Expr.relabelAll .unlinked (Expr.renamedAll ρ marks es)) = Expr.renamedAll ρ marks es
  | [], _, _ => rfl
  | e :: es, h, hn => by
      simp only [Expr.relabelAll, Expr.resolveAll, List.cons.injEq] at h
      simp only [Expr.namesAll, List.mem_append, not_or] at hn
      simp only [Expr.renamedAll, Expr.relabelAll, Expr.resolveAll,
        e.resolve_renamed hρ hc marks h.1 hn.1, Expr.resolveAll_renamed hρ hc marks es h.2 hn.2]

end

theorem optionResolve_renamed
    (hρ : ρ.Proper)
    {c : Context}
    (hc : Avoids ρ.new c.scopes)
    (marks : List Bool)
    {e : Option Expr}
    (h : (e.map (Expr.relabel .unlinked)).map (Expr.resolve c) = e)
    (hn : ρ.new ∉ optionNames e) :
    ((e.map (Expr.renamed ρ marks)).map (Expr.relabel .unlinked)).map
        (Expr.resolve (c.renamed ρ marks)) =
      e.map (Expr.renamed ρ marks) := by
  cases e with
  | none => rfl
  | some e => exact congrArg some (e.resolve_renamed hρ hc marks (Option.some.inj h) hn)

mutual

/-- A statement whose links are those of a context keeps them when a name is replaced. -/
theorem Stmt.resolve_renamed
    (hρ : ρ.Proper) :
    ∀ (s : Stmt) (t : Trail) (marks : List Bool) (c : Context),
      Avoids ρ.new c.scopes →
      (s.relabel .unlinked).resolve c = s →
      ρ.new ∉ s.names →
      s.OnlyVariables ρ.old t (marks.headD false) →
      ((s.renamed ρ t marks).relabel .unlinked).resolve (c.renamed ρ marks) = s.renamed ρ t marks
  | .block body, t, marks, c, hc, h, hn, hothers => by
      simp only [Stmt.relabel, Stmt.resolve, Stmt.block.injEq] at h
      have hbody := Stmt.resolveAll_renamed hρ body t (t.ends :: marks) c.inBlock
        (avoids_inBlock hc) h hn hothers
      simp only [Stmt.renamed, Stmt.relabel, Stmt.resolve]
      rw [← Context.inBlock_renamed ρ c marks t.ends, hbody]
  | .funDecl declaration, t, marks, c, hc, h, hn, hothers => by
      simp only [Stmt.relabel, Stmt.resolve, Stmt.funDecl.injEq, FunctionDecl.name_relabel,
        Context.define_relabel] at h
      have hname := FunctionDecl.name_ne_of_not_mem hn
      have hdeclaration := declaration.resolve_renamed hρ .function t marks
        (c.define declaration.name) (avoids_declareIn hc hname .variable) h hn hothers.2
      rw [Context.define_renamed, Token.renamed_eq_self hothers.1] at hdeclaration
      simp only [Stmt.renamed, Stmt.relabel, Stmt.resolve, FunctionDecl.name_relabel,
        Context.define_relabel, FunctionDecl.name_renamed, hdeclaration]
  | .classDecl name parent methods, t, marks, c, hc, h, hn, hothers => by
      simp only [Stmt.relabel, Stmt.resolve, Stmt.classDecl.injEq, Option.isSome_map,
        Token.relabel_unlinked, true_and] at h
      simp only [Stmt.names, List.mem_cons, List.mem_append, not_or] at hn
      have hdefined : Avoids ρ.new (c.define name).scopes :=
        avoids_declareIn hc (Ne.symm hn.1) .variable
      have hdefine : (c.define name).renamed ρ marks = (c.renamed ρ marks).define name := by
        rw [Context.define_renamed, Token.renamed_eq_self hothers.1]
      have hsuperclass : (c.atSuperclass name).renamed ρ marks =
          (c.renamed ρ marks).atSuperclass name :=
        congrArg (fun c : Context => { c with owner := .derived }) hdefine
      have hparent := optionResolve_renamed hρ (c := c.atSuperclass name) hdefined marks h.1 hn.2.1
      have hmethods := FunctionDecl.resolveMethods_renamed hρ methods t
        (marksOfMethods parent.isSome marks) ((c.define name).inClass parent.isSome)
        (avoids_inClass hdefined hρ.new_ne_this hρ.new_ne_super parent.isSome) h.2 hn.2.2 hothers.2
      rw [hsuperclass] at hparent
      rw [Context.inClass_renamed, hdefine] at hmethods
      simp only [Stmt.renamed, Stmt.relabel, Stmt.resolve, Option.isSome_map,
        Token.relabel_unlinked, hparent, hmethods]
  | .varDecl name initializer, _, marks, c, hc, h, hn, _ => by
      simp only [Stmt.relabel, Stmt.resolve, Stmt.varDecl.injEq, Token.relabel_unlinked,
        true_and] at h
      simp only [Stmt.names, List.mem_cons, not_or] at hn
      have hinitializer := optionResolve_renamed hρ (c := c.declare name)
        (avoids_declareIn hc (Ne.symm hn.1) .pending) marks h hn.2
      rw [Context.declare_renamed] at hinitializer
      simp only [Stmt.renamed, Stmt.relabel, Stmt.resolve, Token.relabel_unlinked, hinitializer]
  | .constDecl name initializer, _, marks, c, hc, h, hn, _ => by
      simp only [Stmt.relabel, Stmt.resolve, Stmt.constDecl.injEq, Token.relabel_unlinked,
        true_and] at h
      simp only [Stmt.names, List.mem_cons, not_or] at hn
      have hinitializer := optionResolve_renamed hρ (c := c.declare name)
        (avoids_declareIn hc (Ne.symm hn.1) .pending) marks h hn.2
      rw [Context.declare_renamed] at hinitializer
      simp only [Stmt.renamed, Stmt.relabel, Stmt.resolve, Token.relabel_unlinked, hinitializer]
  | .exprStmt expression, _, marks, c, hc, h, hn, _ => by
      simp only [Stmt.relabel, Stmt.resolve, Stmt.exprStmt.injEq] at h
      simp only [Stmt.renamed, Stmt.relabel, Stmt.resolve,
        expression.resolve_renamed hρ hc marks h hn]
  | .ifStmt condition thenBranch none, t, marks, c, hc, h, hn, hothers => by
      simp only [Stmt.relabel, Stmt.resolve, Stmt.ifStmt.injEq, and_true] at h
      simp only [Stmt.names, List.mem_append, not_or] at hn
      simp only [Stmt.renamed, Stmt.relabel, Stmt.resolve,
        condition.resolve_renamed hρ hc marks h.1 hn.1,
        thenBranch.resolve_renamed hρ t.first marks c hc h.2 hn.2 hothers]
  | .ifStmt condition thenBranch (some elseBranch), t, marks, c, hc, h, hn, hothers => by
      simp only [Stmt.relabel, Stmt.resolve, Stmt.ifStmt.injEq, Option.some.injEq,
        Stmt.contextAfter_relabel] at h
      simp only [Stmt.names, List.mem_append, not_or] at hn
      have helse := elseBranch.resolve_renamed hρ t.others.first marks (thenBranch.contextAfter c)
        (thenBranch.avoids_contextAfter c hn.2.1 hc) h.2.2 hn.2.2 hothers.2
      simp only [Stmt.renamed, Stmt.relabel, Stmt.resolve, Stmt.contextAfter_relabel,
        Stmt.contextAfter_renamed ρ thenBranch t.first marks c hothers.1, helse,
        condition.resolve_renamed hρ hc marks h.1 hn.1,
        thenBranch.resolve_renamed hρ t.first marks c hc h.2.1 hn.2.1 hothers.1]
  | .printStmt expression, _, marks, c, hc, h, hn, _ => by
      simp only [Stmt.relabel, Stmt.resolve, Stmt.printStmt.injEq] at h
      simp only [Stmt.renamed, Stmt.relabel, Stmt.resolve,
        expression.resolve_renamed hρ hc marks h hn]
  | .returnStmt keyword value, _, marks, c, hc, h, hn, _ => by
      simp only [Stmt.relabel, Stmt.resolve, Stmt.returnStmt.injEq, Token.relabel_unlinked,
        true_and] at h
      simp only [Stmt.renamed, Stmt.relabel, Stmt.resolve, Token.relabel_unlinked,
        optionResolve_renamed hρ hc marks h hn]
  | .whileStmt condition body, t, marks, c, hc, h, hn, hothers => by
      simp only [Stmt.relabel, Stmt.resolve, Stmt.whileStmt.injEq] at h
      simp only [Stmt.names, List.mem_append, not_or] at hn
      simp only [Stmt.renamed, Stmt.relabel, Stmt.resolve,
        condition.resolve_renamed hρ hc marks h.1 hn.1,
        body.resolve_renamed hρ t.first marks c hc h.2 hn.2 hothers]

/-- Renamed statements resolve to the links that they have, one behind the other. -/
theorem Stmt.resolveAll_renamed
    (hρ : ρ.Proper) :
    ∀ (ss : List Stmt) (t : Trail) (marks : List Bool) (c : Context),
      Avoids ρ.new c.scopes →
      Stmt.resolveAll (Stmt.relabelAll .unlinked ss) c = ss →
      ρ.new ∉ Stmt.namesAll ss →
      Stmt.OnlyVariablesAll ρ.old ss t (marks.headD false) →
      Stmt.resolveAll (Stmt.relabelAll .unlinked (Stmt.renamedAll ρ ss t marks))
          (c.renamed ρ marks) =
        Stmt.renamedAll ρ ss t marks
  | [], _, _, _, _, _, _, _ => rfl
  | s :: ss, t, marks, c, hc, h, hn, hothers => by
      simp only [Stmt.relabelAll, Stmt.resolveAll, List.cons.injEq, Stmt.contextAfter_relabel] at h
      simp only [Stmt.namesAll, List.mem_append, not_or] at hn
      have hs := s.resolve_renamed hρ t.first marks c hc h.1 hn.1 hothers.1
      have hss := Stmt.resolveAll_renamed hρ ss t.others marks (s.contextAfter c)
        (s.avoids_contextAfter c hn.1 hc) h.2 hn.2 hothers.2
      simp only [Stmt.renamedAll, Stmt.relabelAll, Stmt.resolveAll, Stmt.contextAfter_relabel,
        Stmt.contextAfter_renamed ρ s t.first marks c hothers.1, hs, hss]

/-- A renamed function resolves to the links that it has. -/
theorem FunctionDecl.resolve_renamed
    (hρ : ρ.Proper) :
    ∀ (f : FunctionDecl) (routine : Routine) (t : Trail) (marks : List Bool) (c : Context),
      Avoids ρ.new c.scopes →
      (f.relabel .unlinked).resolve routine c = f →
      ρ.new ∉ f.names →
      f.OnlyVariables ρ.old t →
      ((f.renamed ρ t marks).relabel .unlinked).resolve routine (c.renamed ρ marks) =
        f.renamed ρ t marks
  | ⟨name, parameters, body⟩, routine, t, marks, c, hc, h, hn, hothers => by
      simp only [FunctionDecl.relabel, FunctionDecl.resolve, Token.relabel_unlinked,
        Token.map_relabel_unlinked, FunctionDecl.mk.injEq, true_and] at h
      simp only [FunctionDecl.names, List.mem_cons, List.mem_append, not_or] at hn
      have hbody := Stmt.resolveAll_renamed hρ body t (t.ends :: marks)
        (c.inBody routine parameters)
        (avoids_defineAll (avoids_cons.mpr ⟨by simp, hc⟩) hn.2.1) h hn.2.2 hothers
      rw [Context.inBody_renamed] at hbody
      simp only [FunctionDecl.renamed, FunctionDecl.relabel, FunctionDecl.resolve,
        Token.relabel_unlinked, Token.map_relabel_unlinked, hbody]

/-- Renamed methods resolve to the links that they have. -/
theorem FunctionDecl.resolveMethods_renamed
    (hρ : ρ.Proper) :
    ∀ (fs : List FunctionDecl) (t : Trail) (marks : List Bool) (c : Context),
      Avoids ρ.new c.scopes →
      FunctionDecl.resolveMethods (FunctionDecl.relabelAll .unlinked fs) c = fs →
      ρ.new ∉ FunctionDecl.namesAll fs →
      FunctionDecl.OnlyVariablesAll ρ.old fs t →
      FunctionDecl.resolveMethods
          (FunctionDecl.relabelAll .unlinked (FunctionDecl.renamedAll ρ fs t marks))
          (c.renamed ρ marks) =
        FunctionDecl.renamedAll ρ fs t marks
  | [], _, _, _, _, _, _, _ => rfl
  | f :: fs, t, marks, c, hc, h, hn, hothers => by
      simp only [FunctionDecl.relabelAll, FunctionDecl.resolveMethods, List.cons.injEq,
        FunctionDecl.methodRoutine_relabel] at h
      simp only [FunctionDecl.namesAll, List.mem_append, not_or] at hn
      simp only [FunctionDecl.renamedAll, FunctionDecl.relabelAll, FunctionDecl.resolveMethods,
        FunctionDecl.methodRoutine_relabel, FunctionDecl.methodRoutine_renamed,
        f.resolve_renamed hρ f.methodRoutine t.first marks c hc h.1 hn.1 hothers.1,
        FunctionDecl.resolveMethods_renamed hρ fs t.others marks c hc h.2 hn.2 hothers.2]

end

end Resolution

section Errors

variable {ρ : Renaming}

/--
A node is entered without errors if another one is, whose parts have errors where its own have.
-/
theorem Room.enter_eq_nil_of
    {room : Room}
    {below below' : Room → List ScopeError}
    (hbelow : ∀ r, below r = [] → below' r = [])
    (h : room.enter below = []) :
    room.enter below' = [] := by
  match room with
  | none => exact hbelow none h
  | some 0 => cases h
  | some (n + 1) => exact hbelow (some n) h

section Names

variable
  {c : Context}
  {marks : List Bool}
  {name : Token}
  (hc : Avoids ρ.new c.scopes)
  (hn : name.lexeme ≠ ρ.new)
include hc hn

/-- A declaration is no error if it was none before. -/
theorem Context.declarationErrors_renamed (h : c.declarationErrors name = []) :
    (c.renamed ρ marks).declarationErrors (name.renamed ρ (marks.headD false)) = [] := by
  rw [declarationErrors_eq_nil] at h ⊢
  rw [innermost?_renamed hc hn, h]

/-- Where a name may be read, its new name may be read. -/
theorem Context.readErrors_renamed
    {link : Link}
    (hlink : c.link name.lexeme .unresolved = link)
    (h : c.readErrors name = []) :
    (c.renamed ρ marks).readErrors (name.renamed ρ (link.leadsToMark marks)) = [] := by
  subst hlink
  rw [readErrors, errorIf_eq_nil] at h ⊢
  rw [innermost?_renamed_link hc hn, h]

end Names

/-- Renamed parameters are as different as they were. -/
theorem Context.parameterErrors_renamed
    {c : Context}
    (hc : Avoids ρ.new c.scopes)
    (marks : List Bool)
    {names : List Token}
    (hn : ρ.new ∉ names.map Token.lexeme)
    (h : Context.parameterErrors names c = []) :
    Context.parameterErrors (names.map (Token.renamed ρ (marks.headD false)))
      (c.renamed ρ marks) = [] := by
  induction names generalizing c with
  | nil => rfl
  | cons name names ih =>
      simp only [List.map_cons, List.mem_cons, not_or] at hn
      simp only [Context.parameterErrors, List.append_eq_nil_iff] at h
      have hname : name.lexeme ≠ ρ.new := Ne.symm hn.1
      simp only [List.map_cons, Context.parameterErrors, List.append_eq_nil_iff]
      rw [← Context.define_renamed]
      exact ⟨Context.declarationErrors_renamed hc hname h.1,
        ih (avoids_declareIn hc hname .variable) hn.2 h.2⟩

mutual

/-- An expression without errors has none after a name has been replaced. -/
theorem Expr.errors_renamed
    {c : Context}
    (hc : Avoids ρ.new c.scopes)
    (marks : List Bool) :
    ∀ (e : Expr) (room : Room), (e.relabel .unlinked).resolve c = e → ρ.new ∉ e.names →
      e.errors c room = [] → (e.renamed ρ marks).errors (c.renamed ρ marks) room = []
  | .literal _, _, _, _, _ => rfl
  | .grouping inner, room, hlinked, hn, h => by
      simp only [Expr.relabel, Expr.resolve, Expr.grouping.injEq] at hlinked
      exact Room.enter_eq_nil_of (fun r => inner.errors_renamed hc marks r hlinked hn) h
  | .unary _ operand, room, hlinked, hn, h => by
      simp only [Expr.relabel, Expr.resolve, Expr.unary.injEq] at hlinked
      exact Room.enter_eq_nil_of (fun r => operand.errors_renamed hc marks r hlinked.2 hn) h
  | .binary left _ right, room, hlinked, hn, h => by
      simp only [Expr.relabel, Expr.resolve, Expr.binary.injEq] at hlinked
      simp only [Expr.names, List.mem_append, not_or] at hn
      refine Room.enter_eq_nil_of (fun r hr => ?_) h
      rw [List.append_eq_nil_iff] at hr ⊢
      exact ⟨left.errors_renamed hc marks r hlinked.1 hn.1 hr.1,
        right.errors_renamed hc marks r hlinked.2.2 hn.2 hr.2⟩
  | .logical left _ right, room, hlinked, hn, h => by
      simp only [Expr.relabel, Expr.resolve, Expr.logical.injEq] at hlinked
      simp only [Expr.names, List.mem_append, not_or] at hn
      refine Room.enter_eq_nil_of (fun r hr => ?_) h
      rw [List.append_eq_nil_iff] at hr ⊢
      exact ⟨left.errors_renamed hc marks r hlinked.1 hn.1 hr.1,
        right.errors_renamed hc marks r hlinked.2.2 hn.2 hr.2⟩
  | .read target, _, hlinked, hn, h => by
      simp only [Expr.names, List.mem_singleton] at hn
      exact Context.readErrors_renamed hc (Ne.symm hn)
        (congrArg Reference.link (Expr.read.inj hlinked)) h
  | .readConstant target, _, hlinked, hn, h => by
      simp only [Expr.names, List.mem_singleton] at hn
      exact Context.readErrors_renamed hc (Ne.symm hn)
        (congrArg Reference.link (Expr.readConstant.inj hlinked)) h
  | .assign _ value, room, hlinked, hn, h => by
      simp only [Expr.relabel, Expr.resolve, Expr.assign.injEq] at hlinked
      simp only [Expr.names, List.mem_cons, not_or] at hn
      exact Room.enter_eq_nil_of (fun r => value.errors_renamed hc marks r hlinked.2 hn.2) h
  | .call callee _ arguments, room, hlinked, hn, h => by
      simp only [Expr.relabel, Expr.resolve, Expr.call.injEq] at hlinked
      simp only [Expr.names, List.mem_append, not_or] at hn
      refine Room.enter_eq_nil_of (fun r hr => ?_) h
      rw [List.append_eq_nil_iff] at hr ⊢
      exact ⟨callee.errors_renamed hc marks r hlinked.1 hn.1 hr.1,
        Expr.errorsAll_renamed hc marks arguments r hlinked.2.2 hn.2 hr.2⟩
  | .get object _, room, hlinked, hn, h => by
      simp only [Expr.relabel, Expr.resolve, Expr.get.injEq] at hlinked
      exact Room.enter_eq_nil_of (fun r => object.errors_renamed hc marks r hlinked.1 hn) h
  | .set object _ value, room, hlinked, hn, h => by
      simp only [Expr.relabel, Expr.resolve, Expr.set.injEq] at hlinked
      simp only [Expr.names, List.mem_append, not_or] at hn
      refine Room.enter_eq_nil_of (fun r hr => ?_) h
      rw [List.append_eq_nil_iff] at hr ⊢
      exact ⟨value.errors_renamed hc marks r hlinked.2.2 hn.2 hr.1,
        object.errors_renamed hc marks r hlinked.1 hn.1 hr.2⟩
  | .this _ _, _, _, _, h => h
  | .super _ _ _, _, _, _, h => h

theorem Expr.errorsAll_renamed
    {c : Context}
    (hc : Avoids ρ.new c.scopes)
    (marks : List Bool) :
    ∀ (es : List Expr) (room : Room), Expr.resolveAll c (Expr.relabelAll .unlinked es) = es →
      ρ.new ∉ Expr.namesAll es → Expr.errorsAll c es room = [] →
      Expr.errorsAll (c.renamed ρ marks) (Expr.renamedAll ρ marks es) room = []
  | [], _, _, _, _ => rfl
  | e :: es, room, hlinked, hn, h => by
      simp only [Expr.relabelAll, Expr.resolveAll, List.cons.injEq] at hlinked
      simp only [Expr.namesAll, List.mem_append, not_or] at hn
      simp only [Expr.renamedAll, Expr.errorsAll, List.append_eq_nil_iff] at h ⊢
      exact ⟨e.errors_renamed hc marks room hlinked.1 hn.1 h.1,
        Expr.errorsAll_renamed hc marks es room hlinked.2 hn.2 h.2⟩

end

/-- A renamed expression that may be absent has no errors if it had none. -/
theorem optionErrors_renamed
    {c : Context}
    (hc : Avoids ρ.new c.scopes)
    (marks : List Bool)
    {e : Option Expr}
    (hlinked : (e.map (Expr.relabel .unlinked)).map (Expr.resolve c) = e)
    (hn : ρ.new ∉ optionNames e)
    (room : Room)
    (h : optionErrors c e room = []) :
    optionErrors (c.renamed ρ marks) (e.map (Expr.renamed ρ marks)) room = [] := by
  cases e with
  | none => rfl
  | some e => exact e.errors_renamed hc marks room (Option.some.inj hlinked) hn h

/-- A class does not inherit from itself after a name has been replaced in its superclass. -/
theorem inheritanceErrors_renamed
    (marks : List Bool)
    {name : Token}
    {parent : Expr}
    (hname : name.lexeme ≠ ρ.new)
    (hn : ρ.new ∉ parent.names)
    (h : inheritanceErrors name parent = []) :
    inheritanceErrors name (parent.renamed ρ marks) = [] := by
  have hreference : ∀ (r : Reference), r.name.lexeme ≠ ρ.new →
      errorIf (r.name.lexeme == name.lexeme) .inheritsFromItself r.name = [] →
      errorIf ((r.renamed ρ marks).name.lexeme == name.lexeme) .inheritsFromItself
        (r.renamed ρ marks).name = [] := by
    intro r hr hnone
    rw [errorIf_eq_nil, beq_eq_false_iff_ne] at hnone ⊢
    intro heq
    exact hnone (ρ.eq_of_apply_eq hr hname (heq.trans (ρ.apply_false _).symm))
  cases parent with
  | read target =>
      exact hreference target (Ne.symm (by simpa [Expr.names] using hn)) h
  | readConstant target =>
      exact hreference target (Ne.symm (by simpa [Expr.names] using hn)) h
  | assign target value =>
      simp only [Expr.names, List.mem_cons, not_or] at hn
      exact hreference target (Ne.symm hn.1) h
  | get object property => exact h
  | set object property value => exact h
  | _ => rfl

/-- The renamed superclass of a class has no errors if it had none. -/
theorem superclassErrors_renamed
    {c : Context}
    (marks : List Bool)
    {name : Token}
    {parent : Option Expr}
    (hc : Avoids ρ.new (c.atSuperclass name).scopes)
    (hrenamed : (c.atSuperclass name).renamed ρ marks = (c.renamed ρ marks).atSuperclass name)
    (hlinked : (parent.map (Expr.relabel .unlinked)).map (Expr.resolve (c.atSuperclass name)) =
      parent)
    (hname : name.lexeme ≠ ρ.new)
    (hn : ρ.new ∉ optionNames parent)
    (room : Room)
    (h : superclassErrors c name parent room = []) :
    superclassErrors (c.renamed ρ marks) name (parent.map (Expr.renamed ρ marks)) room = [] := by
  cases parent with
  | none => rfl
  | some parent =>
      simp only [superclassErrors, Option.map_some, List.append_eq_nil_iff] at h ⊢
      refine ⟨inheritanceErrors_renamed marks hname hn h.1,
        Room.enter_eq_nil_of (fun r hr => ?_) h.2⟩
      rw [← hrenamed]
      exact parent.errors_renamed hc marks r (Option.some.inj hlinked) hn hr

mutual

/-- A statement without errors has none after a name has been replaced. -/
theorem Stmt.errors_renamed
    (hρ : ρ.Proper) :
    ∀ (s : Stmt) (t : Trail) (marks : List Bool) (c : Context) (room : Room),
      Avoids ρ.new c.scopes →
      (s.relabel .unlinked).resolve c = s →
      ρ.new ∉ s.names →
      s.OnlyVariables ρ.old t (marks.headD false) →
      s.errors c room = [] →
      (s.renamed ρ t marks).errors (c.renamed ρ marks) room = []
  | .block body, t, marks, c, room, hc, hlinked, hn, hothers, h => by
      simp only [Stmt.relabel, Stmt.resolve, Stmt.block.injEq] at hlinked
      exact Room.enter_eq_nil_of (fun r => Stmt.errorsAll_renamed hρ body t (t.ends :: marks)
        c.inBlock r (avoids_inBlock hc) hlinked hn hothers) h
  | .funDecl declaration, t, marks, c, room, hc, hlinked, hn, hothers, h => by
      simp only [Stmt.relabel, Stmt.resolve, Stmt.funDecl.injEq, FunctionDecl.name_relabel,
        Context.define_relabel] at hlinked
      have hname := FunctionDecl.name_ne_of_not_mem hn
      simp only [Stmt.errors, Stmt.renamed, List.append_eq_nil_iff, FunctionDecl.name_renamed]
        at h ⊢
      have hdeclared : (c.renamed ρ marks).declarationErrors _ = [] :=
        Context.declarationErrors_renamed hc hname h.1
      rw [Token.renamed_eq_self hothers.1] at hdeclared
      refine ⟨hdeclared, Room.enter_eq_nil_of (fun r hr => ?_) h.2⟩
      have hdeclaration := declaration.errors_renamed hρ .function t marks
        (c.define declaration.name) r (avoids_declareIn hc hname .variable) hlinked hn hothers.2 hr
      rwa [Context.define_renamed, Token.renamed_eq_self hothers.1] at hdeclaration
  | .classDecl name parent methods, t, marks, c, room, hc, hlinked, hn, hothers, h => by
      simp only [Stmt.relabel, Stmt.resolve, Stmt.classDecl.injEq, Option.isSome_map,
        Token.relabel_unlinked, true_and] at hlinked
      simp only [Stmt.names, List.mem_cons, List.mem_append, not_or] at hn
      have hname : name.lexeme ≠ ρ.new := Ne.symm hn.1
      have hdefined : Avoids ρ.new (c.define name).scopes := avoids_declareIn hc hname .variable
      have hdefine : (c.define name).renamed ρ marks = (c.renamed ρ marks).define name := by
        rw [Context.define_renamed, Token.renamed_eq_self hothers.1]
      have hsuperclass : (c.atSuperclass name).renamed ρ marks =
          (c.renamed ρ marks).atSuperclass name :=
        congrArg (fun c : Context => { c with owner := .derived }) hdefine
      simp only [Stmt.errors, Stmt.renamed, List.append_eq_nil_iff, Option.isSome_map] at h ⊢
      have hdeclared : (c.renamed ρ marks).declarationErrors _ = [] :=
        Context.declarationErrors_renamed hc hname h.1.1
      rw [Token.renamed_eq_self hothers.1] at hdeclared
      refine ⟨⟨hdeclared, superclassErrors_renamed marks hdefined hsuperclass hlinked.1 hname hn.2.1
        room h.1.2⟩, Room.enter_eq_nil_of (fun r hr => ?_) h.2⟩
      have hmethods := FunctionDecl.errorsOfMethods_renamed hρ methods t
        (marksOfMethods parent.isSome marks) ((c.define name).inClass parent.isSome) r
        (avoids_inClass hdefined hρ.new_ne_this hρ.new_ne_super parent.isSome) hlinked.2 hn.2.2
        hothers.2 hr
      rwa [Context.inClass_renamed, hdefine] at hmethods
  | .varDecl name initializer, _, marks, c, room, hc, hlinked, hn, _, h => by
      simp only [Stmt.relabel, Stmt.resolve, Stmt.varDecl.injEq, Token.relabel_unlinked,
        true_and] at hlinked
      simp only [Stmt.names, List.mem_cons, not_or] at hn
      simp only [Stmt.errors, Stmt.renamed, List.append_eq_nil_iff] at h ⊢
      refine ⟨Context.declarationErrors_renamed hc (Ne.symm hn.1) h.1,
        Room.enter_eq_nil_of (fun r hr => ?_) h.2⟩
      rw [← Context.declare_renamed]
      exact optionErrors_renamed (avoids_declareIn hc (Ne.symm hn.1) .pending) marks hlinked hn.2 r
        hr
  | .constDecl name none, _, marks, c, room, _, _, _, _, h => by
      simp [Stmt.errors] at h
  | .constDecl name (some value), _, marks, c, room, hc, hlinked, hn, _, h => by
      simp only [Stmt.relabel, Stmt.resolve, Stmt.constDecl.injEq, Token.relabel_unlinked,
        true_and, Option.map_some, Option.some.injEq] at hlinked
      simp only [Stmt.names, optionNames, List.mem_cons, not_or] at hn
      simp only [Stmt.errors, Stmt.renamed, Option.map_some, List.append_eq_nil_iff] at h ⊢
      refine ⟨Context.declarationErrors_renamed hc (Ne.symm hn.1) h.1,
        Room.enter_eq_nil_of (fun r hr => ?_) h.2⟩
      rw [← Context.declare_renamed]
      exact value.errors_renamed (avoids_declareIn hc (Ne.symm hn.1) .pending) marks r hlinked hn.2
        hr
  | .exprStmt expression, _, marks, c, room, hc, hlinked, hn, _, h => by
      simp only [Stmt.relabel, Stmt.resolve, Stmt.exprStmt.injEq] at hlinked
      exact Room.enter_eq_nil_of (fun r => expression.errors_renamed hc marks r hlinked hn) h
  | .ifStmt condition thenBranch none, t, marks, c, room, hc, hlinked, hn, hothers, h => by
      simp only [Stmt.relabel, Stmt.resolve, Stmt.ifStmt.injEq, and_true] at hlinked
      simp only [Stmt.names, List.mem_append, not_or] at hn
      refine Room.enter_eq_nil_of (fun r hr => ?_) h
      rw [List.append_eq_nil_iff] at hr ⊢
      exact ⟨condition.errors_renamed hc marks r hlinked.1 hn.1 hr.1,
        thenBranch.errors_renamed hρ t.first marks c r hc hlinked.2 hn.2 hothers hr.2⟩
  | .ifStmt condition thenBranch (some elseBranch), t, marks, c, room, hc, hlinked, hn, hothers,
      h => by
      simp only [Stmt.relabel, Stmt.resolve, Stmt.ifStmt.injEq, Option.some.injEq,
        Stmt.contextAfter_relabel] at hlinked
      simp only [Stmt.names, List.mem_append, not_or] at hn
      refine Room.enter_eq_nil_of (fun r hr => ?_) h
      simp only [List.append_eq_nil_iff] at hr ⊢
      refine ⟨⟨condition.errors_renamed hc marks r hlinked.1 hn.1 hr.1.1,
        thenBranch.errors_renamed hρ t.first marks c r hc hlinked.2.1 hn.2.1 hothers.1 hr.1.2⟩, ?_⟩
      rw [Stmt.contextAfter_renamed ρ thenBranch t.first marks c hothers.1]
      exact elseBranch.errors_renamed hρ t.others.first marks (thenBranch.contextAfter c) r
        (thenBranch.avoids_contextAfter c hn.2.1 hc) hlinked.2.2 hn.2.2 hothers.2 hr.2
  | .printStmt expression, _, marks, c, room, hc, hlinked, hn, _, h => by
      simp only [Stmt.relabel, Stmt.resolve, Stmt.printStmt.injEq] at hlinked
      exact Room.enter_eq_nil_of (fun r => expression.errors_renamed hc marks r hlinked hn) h
  | .returnStmt keyword value, _, marks, c, room, hc, hlinked, hn, _, h => by
      simp only [Stmt.relabel, Stmt.resolve, Stmt.returnStmt.injEq, Token.relabel_unlinked,
        true_and] at hlinked
      simp only [Stmt.errors, Stmt.renamed, List.append_eq_nil_iff, Option.isSome_map] at h ⊢
      exact ⟨h.1, Room.enter_eq_nil_of
        (fun r => optionErrors_renamed hc marks hlinked hn r) h.2⟩
  | .whileStmt condition body, t, marks, c, room, hc, hlinked, hn, hothers, h => by
      simp only [Stmt.relabel, Stmt.resolve, Stmt.whileStmt.injEq] at hlinked
      simp only [Stmt.names, List.mem_append, not_or] at hn
      refine Room.enter_eq_nil_of (fun r hr => ?_) h
      rw [List.append_eq_nil_iff] at hr ⊢
      exact ⟨condition.errors_renamed hc marks r hlinked.1 hn.1 hr.1,
        body.errors_renamed hρ t.first marks c r hc hlinked.2 hn.2 hothers hr.2⟩

/-- Renamed statements have no errors if they had none. -/
theorem Stmt.errorsAll_renamed
    (hρ : ρ.Proper) :
    ∀ (ss : List Stmt) (t : Trail) (marks : List Bool) (c : Context) (room : Room),
      Avoids ρ.new c.scopes →
      Stmt.resolveAll (Stmt.relabelAll .unlinked ss) c = ss →
      ρ.new ∉ Stmt.namesAll ss →
      Stmt.OnlyVariablesAll ρ.old ss t (marks.headD false) →
      Stmt.errorsAll ss c room = [] →
      Stmt.errorsAll (Stmt.renamedAll ρ ss t marks) (c.renamed ρ marks) room = []
  | [], _, _, _, _, _, _, _, _, _ => rfl
  | s :: ss, t, marks, c, room, hc, hlinked, hn, hothers, h => by
      simp only [Stmt.relabelAll, Stmt.resolveAll, List.cons.injEq, Stmt.contextAfter_relabel]
        at hlinked
      simp only [Stmt.namesAll, List.mem_append, not_or] at hn
      simp only [Stmt.renamedAll, Stmt.errorsAll, List.append_eq_nil_iff] at h ⊢
      refine ⟨s.errors_renamed hρ t.first marks c room hc hlinked.1 hn.1 hothers.1 h.1, ?_⟩
      rw [Stmt.contextAfter_renamed ρ s t.first marks c hothers.1]
      exact Stmt.errorsAll_renamed hρ ss t.others marks (s.contextAfter c) room
        (s.avoids_contextAfter c hn.1 hc) hlinked.2 hn.2 hothers.2 h.2

/-- A renamed function has no errors if it had none. -/
theorem FunctionDecl.errors_renamed
    (hρ : ρ.Proper) :
    ∀ (f : FunctionDecl) (routine : Routine) (t : Trail) (marks : List Bool) (c : Context)
      (room : Room),
      Avoids ρ.new c.scopes →
      (f.relabel .unlinked).resolve routine c = f →
      ρ.new ∉ f.names →
      f.OnlyVariables ρ.old t →
      f.errors routine c room = [] →
      (f.renamed ρ t marks).errors routine (c.renamed ρ marks) room = []
  | ⟨name, parameters, body⟩, routine, t, marks, c, room, hc, hlinked, hn, hothers, h => by
      simp only [FunctionDecl.relabel, FunctionDecl.resolve, Token.relabel_unlinked,
        Token.map_relabel_unlinked, FunctionDecl.mk.injEq, true_and] at hlinked
      simp only [FunctionDecl.names, List.mem_cons, List.mem_append, not_or] at hn
      have hentered : Avoids ρ.new (c.atParameters routine).scopes := avoids_cons.mpr ⟨by simp, hc⟩
      simp only [FunctionDecl.errors, FunctionDecl.renamed, List.append_eq_nil_iff] at h ⊢
      refine ⟨Context.parameterErrors_renamed hentered (t.ends :: marks) hn.2.1 h.1,
        Room.enter_eq_nil_of (fun r hr => ?_) h.2⟩
      rw [← Context.inBody_renamed]
      exact Stmt.errorsAll_renamed hρ body t (t.ends :: marks) (c.inBody routine parameters) r
        (avoids_defineAll hentered hn.2.1) hlinked hn.2.2 hothers hr

/-- Renamed methods have no errors if they had none. -/
theorem FunctionDecl.errorsOfMethods_renamed
    (hρ : ρ.Proper) :
    ∀ (fs : List FunctionDecl) (t : Trail) (marks : List Bool) (c : Context) (room : Room),
      Avoids ρ.new c.scopes →
      FunctionDecl.resolveMethods (FunctionDecl.relabelAll .unlinked fs) c = fs →
      ρ.new ∉ FunctionDecl.namesAll fs →
      FunctionDecl.OnlyVariablesAll ρ.old fs t →
      FunctionDecl.errorsOfMethods fs c room = [] →
      FunctionDecl.errorsOfMethods (FunctionDecl.renamedAll ρ fs t marks) (c.renamed ρ marks)
        room = []
  | [], _, _, _, _, _, _, _, _, _ => rfl
  | f :: fs, t, marks, c, room, hc, hlinked, hn, hothers, h => by
      simp only [FunctionDecl.relabelAll, FunctionDecl.resolveMethods, List.cons.injEq,
        FunctionDecl.methodRoutine_relabel] at hlinked
      simp only [FunctionDecl.namesAll, List.mem_append, not_or] at hn
      simp only [FunctionDecl.renamedAll, FunctionDecl.errorsOfMethods, List.append_eq_nil_iff,
        FunctionDecl.methodRoutine_renamed] at h ⊢
      exact ⟨f.errors_renamed hρ f.methodRoutine t.first marks c room hc hlinked.1 hn.1 hothers.1
          h.1,
        FunctionDecl.errorsOfMethods_renamed hρ fs t.others marks c room hc hlinked.2 hn.2 hothers.2
          h.2⟩

end

end Errors

section Links

/-- A reference and what becomes of it: it is linked as before, and its name may be replaced. -/
def LinkRecord.Renamed (ρ : Renaming) (r r' : LinkRecord) : Prop :=
  r'.sort = r.sort ∧ r'.link = r.link ∧ ∃ marked, r'.name = r.name.renamed ρ marked

/-- References before and after a name has been replaced, one by one. -/
abbrev AllRenamed (ρ : Renaming) : List LinkRecord → List LinkRecord → Prop :=
  List.Forall₂ (LinkRecord.Renamed ρ)

variable
  {ρ : Renaming}
  {order : ListingOrder}

/-- The references of two parts, one after the other. -/
theorem AllRenamed.append
    {first first' second second' : List LinkRecord}
    (hfirst : AllRenamed ρ first first')
    (hsecond : AllRenamed ρ second second') :
    AllRenamed ρ (first ++ second) (first' ++ second') :=
  List.rel_append hfirst hsecond

/-- A reference is linked as before, under the name that its scope gives to it. -/
theorem Reference.links_renamed
    (sort : ReferenceSort)
    (r : Reference)
    (marks : List Bool) :
    AllRenamed ρ [⟨sort, r.name, r.link⟩]
      [⟨sort, (r.renamed ρ marks).name, (r.renamed ρ marks).link⟩] :=
  .cons ⟨rfl, rfl, r.link.leadsToMark marks, rfl⟩ .nil

/-- A reference that keeps its name. -/
theorem LinkRecord.renamed_self (r : LinkRecord) : AllRenamed ρ [r] [r] :=
  .cons ⟨rfl, rfl, false, by simp [Token.renamed]⟩ .nil

mutual

/-- The references of an expression stay what they are, apart from their names. -/
theorem Expr.references_renamed (marks : List Bool) :
    ∀ e : Expr, AllRenamed ρ (e.references order) ((e.renamed ρ marks).references order)
  | .literal _ => .nil
  | .grouping inner => inner.references_renamed marks
  | .unary _ operand => operand.references_renamed marks
  | .binary left _ right => (left.references_renamed marks).append (right.references_renamed marks)
  | .logical left _ right => (left.references_renamed marks).append (right.references_renamed marks)
  | .read target => target.links_renamed .read marks
  | .readConstant target => target.links_renamed .readConstant marks
  | .assign target value =>
      (value.references_renamed marks).append (target.links_renamed .assign marks)
  | .call callee _ arguments =>
      (callee.references_renamed marks).append (Expr.referencesAll_renamed marks arguments)
  | .get object _ => object.references_renamed marks
  | .set object _ value => by
      have hobject := object.references_renamed marks
      have hvalue := value.references_renamed marks
      cases order with
      | written => exact hobject.append hvalue
      | resolved => exact hvalue.append hobject
  | .this _ _ => LinkRecord.renamed_self _
  | .super _ _ _ => LinkRecord.renamed_self _

theorem Expr.referencesAll_renamed (marks : List Bool) :
    ∀ es : List Expr,
      AllRenamed ρ (Expr.referencesAll order es)
        (Expr.referencesAll order (Expr.renamedAll ρ marks es))
  | [] => .nil
  | e :: es => (e.references_renamed marks).append (Expr.referencesAll_renamed marks es)

end

theorem optionReferences_renamed
    (marks : List Bool)
    (e : Option Expr) :
    AllRenamed ρ (optionReferences order e)
      (optionReferences order (e.map (Expr.renamed ρ marks))) := by
  cases e with
  | none => exact .nil
  | some e => exact e.references_renamed marks

mutual

/-- The references of a statement stay what they are, apart from their names. -/
theorem Stmt.references_renamed :
    ∀ (s : Stmt) (t : Trail) (marks : List Bool),
      AllRenamed ρ (s.references order) ((s.renamed ρ t marks).references order)
  | .block body, t, marks => Stmt.referencesAll_renamed body t (t.ends :: marks)
  | .funDecl declaration, t, marks => declaration.references_renamed t marks
  | .classDecl _ none methods, t, marks =>
      FunctionDecl.referencesAll_renamed methods t (marksOfMethods false marks)
  | .classDecl _ (some parent) methods, t, marks =>
      (parent.references_renamed marks).append
        (FunctionDecl.referencesAll_renamed methods t (marksOfMethods true marks))
  | .varDecl _ initializer, _, marks => optionReferences_renamed marks initializer
  | .constDecl _ initializer, _, marks => optionReferences_renamed marks initializer
  | .exprStmt expression, _, marks => expression.references_renamed marks
  | .ifStmt condition thenBranch none, t, marks =>
      (condition.references_renamed marks).append (thenBranch.references_renamed t.first marks)
  | .ifStmt condition thenBranch (some elseBranch), t, marks =>
      ((condition.references_renamed marks).append
        (thenBranch.references_renamed t.first marks)).append
        (elseBranch.references_renamed t.others.first marks)
  | .printStmt expression, _, marks => expression.references_renamed marks
  | .returnStmt _ value, _, marks => optionReferences_renamed marks value
  | .whileStmt condition body, t, marks =>
      (condition.references_renamed marks).append (body.references_renamed t.first marks)

theorem Stmt.referencesAll_renamed :
    ∀ (ss : List Stmt) (t : Trail) (marks : List Bool),
      AllRenamed ρ (Stmt.referencesAll order ss)
        (Stmt.referencesAll order (Stmt.renamedAll ρ ss t marks))
  | [], _, _ => .nil
  | s :: ss, t, marks =>
      (s.references_renamed t.first marks).append (Stmt.referencesAll_renamed ss t.others marks)

theorem FunctionDecl.references_renamed :
    ∀ (f : FunctionDecl) (t : Trail) (marks : List Bool),
      AllRenamed ρ (f.references order) ((f.renamed ρ t marks).references order)
  | ⟨_, _, body⟩, t, marks => Stmt.referencesAll_renamed body t (t.ends :: marks)

theorem FunctionDecl.referencesAll_renamed :
    ∀ (fs : List FunctionDecl) (t : Trail) (marks : List Bool),
      AllRenamed ρ (FunctionDecl.referencesAll order fs)
        (FunctionDecl.referencesAll order (FunctionDecl.renamedAll ρ fs t marks))
  | [], _, _ => .nil
  | f :: fs, t, marks =>
      (f.references_renamed t.first marks).append
        (FunctionDecl.referencesAll_renamed fs t.others marks)

end

end Links

end Lox

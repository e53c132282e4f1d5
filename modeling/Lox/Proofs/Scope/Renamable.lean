import Lox.Proofs.Scope.Rename
import Lox.Proofs.Tree.Parsed

/-!
# Code that can be renamed

When a program runs, names are looked up in one frame at a time, and a frame tells names apart.  For
a frame of a marked scope it makes no difference whether the old name is replaced by the new one or
the two are exchanged, as long as the code does not look up the new one there.

**Main definitions.**
* `Renaming.swap`: the exchange of the two names in a marked frame.
* `Expr.Renamable`, `Stmt.Renamable`: code that refers to marked frames by other names than the new
  one, and has functions and classes in them under other names than the old one.

**Results.**
* `Stmt.renamable`: a statement without the new name is renamable.
* `Stmt.renamed_unmarked`: where nothing is marked, nothing is replaced.
-/

namespace Lox

namespace Renaming

variable
  (ρ : Renaming)
  {marked : Bool}
  {m n : String}

/-- A marked frame has each of the two names in the place of the other. -/
def swap (marked : Bool) (name : String) : String :=
  if marked then Equiv.swap ρ.old ρ.new name else name

@[simp] theorem swap_false (n : String) : ρ.swap false n = n := rfl

/-- Two names that are the same with both names exchanged are the same. -/
theorem swap_inj : ρ.swap marked m = ρ.swap marked n ↔ m = n := by
  cases marked with
  | false => rfl
  | true => exact (Equiv.swap ρ.old ρ.new).injective.eq_iff

/-- A name that is not the new one is replaced as it is exchanged. -/
theorem swap_eq_apply (h : marked = true → n ≠ ρ.new) : ρ.swap marked n = ρ.apply marked n := by
  cases marked with
  | false => simp
  | true =>
      by_cases hn : n = ρ.old
      · simp [swap, apply, hn]
      · simp [swap, apply, hn, Equiv.swap_apply_of_ne_of_ne hn (h rfl)]

/-- Other names stay as they are. -/
theorem swap_eq_self (h : marked = true → n ≠ ρ.old ∧ n ≠ ρ.new) : ρ.swap marked n = n := by
  rw [ρ.swap_eq_apply fun hmarked => (h hmarked).2]
  cases marked with
  | false => exact ρ.apply_false n
  | true => exact ρ.apply_of_ne (h rfl).1

end Renaming

/-- In a marked scope a name that may be replaced is not the new one. -/
def Token.Replaceable (ρ : Renaming) (marked : Bool) (t : Token) : Prop :=
  marked = true → t.lexeme ≠ ρ.new

/-- In a marked scope a name that must stay is neither of the two. -/
def Token.Kept (ρ : Renaming) (marked : Bool) (t : Token) : Prop :=
  marked = true → t.lexeme ≠ ρ.old ∧ t.lexeme ≠ ρ.new

/-- A name that may be replaced becomes what the exchange makes of it. -/
theorem Token.Replaceable.lexeme
    {ρ : Renaming}
    {marked : Bool}
    {t : Token}
    (h : t.Replaceable ρ marked) :
    (t.renamed ρ marked).lexeme = ρ.swap marked t.lexeme :=
  (ρ.swap_eq_apply h).symm

/-- A name that must stay is kept by the exchange. -/
theorem Token.Kept.lexeme
    {ρ : Renaming}
    {marked : Bool}
    {t : Token}
    (h : t.Kept ρ marked) :
    ρ.swap marked t.lexeme = t.lexeme :=
  ρ.swap_eq_self h

/-- Names that are referred to, each with the line of a reference. -/
abbrev Mentions := String → Int → Prop

/--
The name of a reference may be replaced where its link leads.  If it is the old name, then what
becomes of it is mentioned.
-/
def Reference.Renamable
    (ρ : Renaming)
    (refers : Mentions)
    (marks : List Bool)
    (r : Reference) : Prop :=
  r.name.Replaceable ρ (r.link.leadsToMark marks)
    ∧ (r.name.lexeme = ρ.old →
      refers (ρ.apply (r.link.leadsToMark marks) r.name.lexeme) r.name.line)

mutual

/-- No reference of an expression looks up the new name in a marked scope. -/
def Expr.Renamable (ρ : Renaming) (refers : Mentions) (marks : List Bool) : Expr → Prop
  | .literal _ => True
  | .grouping inner => inner.Renamable ρ refers marks
  | .unary _ operand => operand.Renamable ρ refers marks
  | .binary left _ right => left.Renamable ρ refers marks ∧ right.Renamable ρ refers marks
  | .logical left _ right => left.Renamable ρ refers marks ∧ right.Renamable ρ refers marks
  | .read target => target.Renamable ρ refers marks
  | .readConstant target => target.Renamable ρ refers marks
  | .assign target value => target.Renamable ρ refers marks ∧ value.Renamable ρ refers marks
  | .call callee _ arguments =>
      callee.Renamable ρ refers marks ∧ Expr.RenamableAll ρ refers marks arguments
  | .get object _ => object.Renamable ρ refers marks
  | .set object _ value => object.Renamable ρ refers marks ∧ value.Renamable ρ refers marks
  | .this keyword _ => keyword.lexeme = "this"
  | .super _ _ _ => True

def Expr.RenamableAll
    (ρ : Renaming)
    (refers : Mentions)
    (marks : List Bool) :
    List Expr → Prop
  | [] => True
  | e :: es => e.Renamable ρ refers marks ∧ Expr.RenamableAll ρ refers marks es

end

/-- An expression that is absent or renamable. -/
def optionRenamable
    (ρ : Renaming)
    (refers : Mentions)
    (marks : List Bool) :
    Option Expr → Prop
  | none => True
  | some e => e.Renamable ρ refers marks

mutual

/--
Whatever a statement looks up or declares as a variable in a marked scope is not the new name, and
its functions and classes have neither name there.
-/
def Stmt.Renamable (ρ : Renaming) (refers : Mentions) : Stmt → Trail → List Bool → Prop
  | .block body, t, marks => Stmt.RenamableAll ρ refers body t (t.ends :: marks)
  | .funDecl declaration, t, marks =>
      declaration.name.Kept ρ (marks.headD false) ∧ declaration.Renamable ρ refers t marks
  | .classDecl name parent methods, t, marks =>
      name.Kept ρ (marks.headD false)
        ∧ optionRenamable ρ refers marks parent
        ∧ FunctionDecl.RenamableAll ρ refers methods t (marksOfMethods parent.isSome marks)
  | .varDecl name initializer, _, marks =>
      name.Replaceable ρ (marks.headD false) ∧ optionRenamable ρ refers marks initializer
  | .constDecl name initializer, _, marks =>
      name.Replaceable ρ (marks.headD false) ∧ optionRenamable ρ refers marks initializer
  | .exprStmt expression, _, marks => expression.Renamable ρ refers marks
  | .ifStmt condition thenBranch none, t, marks =>
      condition.Renamable ρ refers marks ∧ thenBranch.Renamable ρ refers t.first marks
  | .ifStmt condition thenBranch (some elseBranch), t, marks =>
      condition.Renamable ρ refers marks
        ∧ thenBranch.Renamable ρ refers t.first marks
        ∧ elseBranch.Renamable ρ refers t.others.first marks
  | .printStmt expression, _, marks => expression.Renamable ρ refers marks
  | .returnStmt _ value, _, marks => optionRenamable ρ refers marks value
  | .whileStmt condition body, t, marks =>
      condition.Renamable ρ refers marks ∧ body.Renamable ρ refers t.first marks

def Stmt.RenamableAll
    (ρ : Renaming)
    (refers : Mentions) :
    List Stmt → Trail → List Bool → Prop
  | [], _, _ => True
  | s :: ss, t, marks =>
      s.Renamable ρ refers t.first marks ∧ Stmt.RenamableAll ρ refers ss t.others marks

def FunctionDecl.Renamable
    (ρ : Renaming)
    (refers : Mentions) :
    FunctionDecl → Trail → List Bool → Prop
  | ⟨_, parameters, body⟩, t, marks =>
      (∀ name ∈ parameters, name.Replaceable ρ t.ends)
        ∧ Stmt.RenamableAll ρ refers body t (t.ends :: marks)

def FunctionDecl.RenamableAll
    (ρ : Renaming)
    (refers : Mentions) :
    List FunctionDecl → Trail → List Bool → Prop
  | [], _, _ => True
  | f :: fs, t, marks =>
      f.Renamable ρ refers t.first marks ∧ FunctionDecl.RenamableAll ρ refers fs t.others marks

end

/-- All references are mentioned; of another program, those to the old name. -/
def AllMentioned
    (ρ : Renaming)
    (refers : Mentions)
    (other : Bool)
    (references : List LinkRecord) : Prop :=
  ∀ r ∈ references, (other = true → r.name.lexeme = ρ.old) → refers r.name.lexeme r.name.line

/-- Every reference to the instance is spelled as such. -/
def LinksSpelled (references : List LinkRecord) : Prop :=
  ∀ r ∈ references, r.sort = .this → r.name.lexeme = "this"

/--
The new name is not among the names of some code, or the code is of another program: nothing is
marked around it or in it.
-/
def Renaming.Clear
    (ρ : Renaming)
    (other : Bool)
    (t : Trail)
    (marks : List Bool)
    (names : List String) : Prop :=
  if other then t = none ∧ ∀ marked ∈ marks, marked = false else ρ.new ∉ names

namespace Renaming.Clear

variable
  {ρ : Renaming}
  {other : Bool}
  {t t' : Trail}
  {marks marks' : List Bool}
  {names names' : List String}

/-- With fewer names the code stays clear. -/
theorem mono (h : ρ.Clear other t marks names) (hsub : names' ⊆ names) :
    ρ.Clear other t marks names' := by
  cases other with
  | false => exact fun hmem => h (hsub hmem)
  | true => exact h

/-- The first part of some code is clear if all of it is. -/
theorem left (h : ρ.Clear other t marks (names ++ names')) : ρ.Clear other t marks names :=
  h.mono (List.subset_append_left names names')

/-- The second part of some code is clear if all of it is. -/
theorem right (h : ρ.Clear other t marks (names ++ names')) : ρ.Clear other t marks names' :=
  h.mono (List.subset_append_right names names')

/-- Behind its first name the code is clear. -/
theorem tail {name : String} (h : ρ.Clear other t marks (name :: names)) :
    ρ.Clear other t marks names :=
  h.mono (List.subset_cons_self name names)

/-- From the scopes around a place to those around another one. -/
theorem enter
    (h : ρ.Clear other t marks names)
    (ht : t = none → t' = none)
    (hmarks : t = none → (∀ marked ∈ marks, marked = false) → ∀ marked ∈ marks', marked = false) :
    ρ.Clear other t' marks' names := by
  cases other with
  | false => exact h
  | true => exact ⟨ht h.1, hmarks h.1 h.2⟩

/-- The first statement is clear on its own trail. -/
theorem first (h : ρ.Clear other t marks names) : ρ.Clear other t.first marks names :=
  h.enter (fun ht => by rw [ht]; rfl) fun _ hmarks => hmarks

/-- The other statements are clear on their trail. -/
theorem others (h : ρ.Clear other t marks names) : ρ.Clear other t.others marks names :=
  h.enter (fun ht => by rw [ht]; rfl) fun _ hmarks => hmarks

/-- Inside a scope, which may be the one that is marked, the code is clear. -/
theorem inside (h : ρ.Clear other t marks names) : ρ.Clear other t (t.ends :: marks) names :=
  h.enter id fun ht hmarks => List.forall_mem_cons.mpr ⟨ht ▸ rfl, hmarks⟩

/-- Inside a class the code is clear, since the two scopes there have no marks. -/
theorem inClass
    (h : ρ.Clear other t marks names)
    (isDerived : Bool) :
    ρ.Clear other t (marksOfMethods isDerived marks) names := by
  refine h.enter id fun _ hmarks => ?_
  cases isDerived <;> simpa [marksOfMethods] using hmarks

end Renaming.Clear

/-- Where nothing is marked, no link leads to a mark. -/
theorem Link.leadsToMark_eq_false
    {marks : List Bool}
    (h : ∀ marked ∈ marks, marked = false)
    (link : Link) :
    link.leadsToMark marks = false := by
  unfold Link.leadsToMark markAt
  cases link.depth with
  | none => rfl
  | some depth =>
      simp only [List.getD_eq_getElem?_getD]
      cases hdepth : marks[depth]? with
      | none => rfl
      | some marked => exact h marked (List.mem_of_getElem? hdepth)

/-- Where nothing is marked, the innermost scope is not. -/
theorem headD_eq_false
    {marks : List Bool}
    (h : ∀ marked ∈ marks, marked = false) :
    marks.headD false = false := by
  cases marks with
  | nil => rfl
  | cons marked marks => exact h marked List.mem_cons_self

section Renamable

variable
  {ρ : Renaming}
  {refers : Mentions}
  {other : Bool}
  {t : Trail}
  {marks : List Bool}

/-- A reference of clear code may be replaced, and what becomes of it is mentioned. -/
theorem Reference.renamable
    {r : Reference}
    {names : List String}
    {sort : ReferenceSort}
    (h : ρ.Clear other t marks names)
    (hmem : r.name.lexeme ∈ names)
    (hmentioned : AllMentioned ρ refers other
      [⟨sort, (r.renamed ρ marks).name, (r.renamed ρ marks).link⟩]) :
    r.Renamable ρ refers marks := by
  have hrefers := hmentioned _ List.mem_cons_self
  cases other with
  | false => exact ⟨fun _ heq => h (heq ▸ hmem), fun _ => hrefers nofun⟩
  | true =>
      have hmark := Link.leadsToMark_eq_false h.2 r.link
      refine ⟨fun hmarked => absurd (hmark ▸ hmarked) Bool.false_ne_true,
        fun hold => hrefers fun _ => ?_⟩
      change ρ.apply (r.link.leadsToMark marks) r.name.lexeme = ρ.old
      rw [hmark, ρ.apply_false, hold]

/-- A name of clear code may be replaced in the innermost scope. -/
theorem Token.replaceable
    {name : Token}
    {names : List String}
    (h : ρ.Clear other t marks names)
    (hmem : name.lexeme ∈ names) :
    name.Replaceable ρ (marks.headD false) := by
  cases other with
  | false => exact fun _ heq => h (heq ▸ hmem)
  | true => exact fun hmarked => absurd (headD_eq_false h.2 ▸ hmarked) Bool.false_ne_true

mutual

/-- An expression without the new name is renamable. -/
theorem Expr.renamable :
    ∀ e : Expr, ρ.Clear other t marks e.names → LinksSpelled (e.references .written) →
      AllMentioned ρ refers other ((e.renamed ρ marks).references .written) →
        e.Renamable ρ refers marks
  | .literal _, _, _, _ => trivial
  | .grouping inner, h, hspelled, hmentioned => inner.renamable h hspelled hmentioned
  | .unary _ operand, h, hspelled, hmentioned => operand.renamable h hspelled hmentioned
  | .binary left _ right, h, hspelled, hmentioned =>
      have ⟨hleft, hright⟩ := List.forall_mem_append.mp hspelled
      have ⟨hleft', hright'⟩ := List.forall_mem_append.mp hmentioned
      ⟨left.renamable h.left hleft hleft', right.renamable h.right hright hright'⟩
  | .logical left _ right, h, hspelled, hmentioned =>
      have ⟨hleft, hright⟩ := List.forall_mem_append.mp hspelled
      have ⟨hleft', hright'⟩ := List.forall_mem_append.mp hmentioned
      ⟨left.renamable h.left hleft hleft', right.renamable h.right hright hright'⟩
  | .read _, h, _, hmentioned => Reference.renamable h List.mem_cons_self hmentioned
  | .readConstant _, h, _, hmentioned => Reference.renamable h List.mem_cons_self hmentioned
  | .assign _ value, h, hspelled, hmentioned =>
      have ⟨hvalue, htarget⟩ := List.forall_mem_append.mp hmentioned
      ⟨Reference.renamable h List.mem_cons_self htarget,
        value.renamable h.tail (List.forall_mem_append.mp hspelled).1 hvalue⟩
  | .call callee _ arguments, h, hspelled, hmentioned =>
      have ⟨hcallee, harguments⟩ := List.forall_mem_append.mp hspelled
      have ⟨hcallee', harguments'⟩ := List.forall_mem_append.mp hmentioned
      ⟨callee.renamable h.left hcallee hcallee',
        Expr.renamableAll arguments h.right harguments harguments'⟩
  | .get object _, h, hspelled, hmentioned => object.renamable h hspelled hmentioned
  | .set object _ value, h, hspelled, hmentioned =>
      have ⟨hobject, hvalue⟩ := List.forall_mem_append.mp hspelled
      have ⟨hobject', hvalue'⟩ := List.forall_mem_append.mp hmentioned
      ⟨object.renamable h.left hobject hobject', value.renamable h.right hvalue hvalue'⟩
  | .this _ _, _, hspelled, _ => hspelled _ List.mem_cons_self rfl
  | .super _ _ _, _, _, _ => trivial

theorem Expr.renamableAll :
    ∀ es : List Expr, ρ.Clear other t marks (Expr.namesAll es) →
      LinksSpelled (Expr.referencesAll .written es) →
      AllMentioned ρ refers other (Expr.referencesAll .written (Expr.renamedAll ρ marks es)) →
      Expr.RenamableAll ρ refers marks es
  | [], _, _, _ => trivial
  | e :: es, h, hspelled, hmentioned =>
      have ⟨hfirst, hrest⟩ := List.forall_mem_append.mp hspelled
      have ⟨hfirst', hrest'⟩ := List.forall_mem_append.mp hmentioned
      ⟨e.renamable h.left hfirst hfirst', Expr.renamableAll es h.right hrest hrest'⟩

end

/-- An expression that may be absent can be renamed if it is clear. -/
theorem optionRenamable_of_clear
    {e : Option Expr}
    (h : ρ.Clear other t marks (optionNames e))
    (hspelled : LinksSpelled (optionReferences .written e))
    (hmentioned : AllMentioned ρ refers other
      (optionReferences .written (e.map (Expr.renamed ρ marks)))) :
    optionRenamable ρ refers marks e := by
  cases e with
  | none => trivial
  | some e => exact e.renamable h hspelled hmentioned

/-- A name that stands for a function or a class and is not the new one must stay. -/
theorem Token.kept
    {name : Token}
    {names : List String}
    (h : ρ.Clear other t marks names)
    (hmem : name.lexeme ∈ names)
    (hothers : marks.headD false = true → name.lexeme ≠ ρ.old) :
    name.Kept ρ (marks.headD false) :=
  fun hmarked => ⟨hothers hmarked, Token.replaceable h hmem hmarked⟩

mutual

/-- A statement without the new name is renamable, if only variables bear the old one. -/
theorem Stmt.renamable :
    ∀ (s : Stmt) (t : Trail) (marks : List Bool), ρ.Clear other t marks s.names →
      s.OnlyVariables ρ.old t (marks.headD false) → LinksSpelled (s.references .written) →
      AllMentioned ρ refers other ((s.renamed ρ t marks).references .written) →
        s.Renamable ρ refers t marks
  | .block body, t, marks, h, hothers, hspelled, hmentioned =>
      Stmt.renamableAll body t (t.ends :: marks) h.inside hothers hspelled hmentioned
  | .funDecl declaration, t, marks, h, hothers, hspelled, hmentioned =>
      ⟨Token.kept h (by
          obtain ⟨name, parameters, body⟩ := declaration
          exact List.mem_cons_self) hothers.1,
        declaration.renamable t marks h hothers.2 hspelled hmentioned⟩
  | .classDecl name none methods, t, marks, h, hothers, hspelled, hmentioned =>
      ⟨Token.kept h List.mem_cons_self hothers.1, trivial,
        FunctionDecl.renamableAll methods t (marksOfMethods false marks)
          (h.tail.right.inClass false)
          hothers.2 hspelled hmentioned⟩
  | .classDecl name (some parent) methods, t, marks, h, hothers, hspelled, hmentioned =>
      have ⟨hparent, hmethods⟩ := List.forall_mem_append.mp hspelled
      have ⟨hparent', hmethods'⟩ := List.forall_mem_append.mp hmentioned
      ⟨Token.kept h List.mem_cons_self hothers.1, parent.renamable h.tail.left hparent hparent',
        FunctionDecl.renamableAll methods t (marksOfMethods true marks) (h.tail.right.inClass true)
          hothers.2 hmethods hmethods'⟩
  | .varDecl _ _, _, _, h, _, hspelled, hmentioned =>
      ⟨Token.replaceable h List.mem_cons_self, optionRenamable_of_clear h.tail hspelled hmentioned⟩
  | .constDecl _ _, _, _, h, _, hspelled, hmentioned =>
      ⟨Token.replaceable h List.mem_cons_self, optionRenamable_of_clear h.tail hspelled hmentioned⟩
  | .exprStmt expression, _, _, h, _, hspelled, hmentioned =>
      expression.renamable h hspelled hmentioned
  | .ifStmt condition thenBranch none, t, marks, h, hothers, hspelled, hmentioned =>
      have ⟨hcondition, hthen⟩ := List.forall_mem_append.mp hspelled
      have ⟨hcondition', hthen'⟩ := List.forall_mem_append.mp hmentioned
      ⟨condition.renamable h.left hcondition hcondition',
        thenBranch.renamable t.first marks h.right.first hothers hthen hthen'⟩
  | .ifStmt condition thenBranch (some elseBranch), t, marks, h, hothers, hspelled, hmentioned =>
      have ⟨hbefore, helse⟩ := List.forall_mem_append.mp hspelled
      have ⟨hcondition, hthen⟩ := List.forall_mem_append.mp hbefore
      have ⟨hbefore', helse'⟩ := List.forall_mem_append.mp hmentioned
      have ⟨hcondition', hthen'⟩ := List.forall_mem_append.mp hbefore'
      ⟨condition.renamable h.left hcondition hcondition',
        thenBranch.renamable t.first marks h.right.left.first hothers.1 hthen hthen',
        elseBranch.renamable t.others.first marks h.right.right.others.first hothers.2 helse helse'⟩
  | .printStmt expression, _, _, h, _, hspelled, hmentioned =>
      expression.renamable h hspelled hmentioned
  | .returnStmt _ _, _, _, h, _, hspelled, hmentioned =>
      optionRenamable_of_clear h hspelled hmentioned
  | .whileStmt condition body, t, marks, h, hothers, hspelled, hmentioned =>
      have ⟨hcondition, hbody⟩ := List.forall_mem_append.mp hspelled
      have ⟨hcondition', hbody'⟩ := List.forall_mem_append.mp hmentioned
      ⟨condition.renamable h.left hcondition hcondition',
        body.renamable t.first marks h.right.first hothers hbody hbody'⟩

/-- Statements can be renamed if they are clear and declare the old name as a variable only. -/
theorem Stmt.renamableAll :
    ∀ (ss : List Stmt) (t : Trail) (marks : List Bool), ρ.Clear other t marks (Stmt.namesAll ss) →
      Stmt.OnlyVariablesAll ρ.old ss t (marks.headD false) →
      LinksSpelled (Stmt.referencesAll .written ss) →
      AllMentioned ρ refers other (Stmt.referencesAll .written (Stmt.renamedAll ρ ss t marks)) →
      Stmt.RenamableAll ρ refers ss t marks
  | [], _, _, _, _, _, _ => trivial
  | s :: ss, t, marks, h, hothers, hspelled, hmentioned =>
      have ⟨hfirst, hrest⟩ := List.forall_mem_append.mp hspelled
      have ⟨hfirst', hrest'⟩ := List.forall_mem_append.mp hmentioned
      ⟨s.renamable t.first marks h.left.first hothers.1 hfirst hfirst',
        Stmt.renamableAll ss t.others marks h.right.others hothers.2 hrest hrest'⟩

/-- A function can be renamed if it is clear and declares the old name as a variable only. -/
theorem FunctionDecl.renamable :
    ∀ (f : FunctionDecl) (t : Trail) (marks : List Bool), ρ.Clear other t marks f.names →
      f.OnlyVariables ρ.old t → LinksSpelled (f.references .written) →
      AllMentioned ρ refers other ((f.renamed ρ t marks).references .written) →
        f.Renamable ρ refers t marks
  | ⟨_, _, body⟩, t, marks, h, hothers, hspelled, hmentioned =>
      ⟨fun _ hname => Token.replaceable h.inside
          (List.mem_cons_of_mem _ (List.mem_append_left _ (List.mem_map_of_mem hname))),
        Stmt.renamableAll body t (t.ends :: marks) h.tail.right.inside hothers hspelled hmentioned⟩

theorem FunctionDecl.renamableAll :
    ∀ (fs : List FunctionDecl) (t : Trail) (marks : List Bool),
      ρ.Clear other t marks (FunctionDecl.namesAll fs) →
      FunctionDecl.OnlyVariablesAll ρ.old fs t →
      LinksSpelled (FunctionDecl.referencesAll .written fs) →
      AllMentioned ρ refers other
        (FunctionDecl.referencesAll .written (FunctionDecl.renamedAll ρ fs t marks)) →
      FunctionDecl.RenamableAll ρ refers fs t marks
  | [], _, _, _, _, _, _ => trivial
  | f :: fs, t, marks, h, hothers, hspelled, hmentioned =>
      have ⟨hfirst, hrest⟩ := List.forall_mem_append.mp hspelled
      have ⟨hfirst', hrest'⟩ := List.forall_mem_append.mp hmentioned
      ⟨f.renamable t.first marks h.left.first hothers.1 hfirst hfirst',
        FunctionDecl.renamableAll fs t.others marks h.right.others hothers.2 hrest hrest'⟩

end

end Renamable

mutual

/-- No scope that the code enters is marked if the trail does not lead into the code. -/
theorem Stmt.onlyVariables_elsewhere (name : String) :
    ∀ s : Stmt, s.OnlyVariables name none false
  | .block body => Stmt.onlyVariablesAll_elsewhere name body
  | .funDecl declaration => ⟨nofun, declaration.onlyVariables_elsewhere name⟩
  | .classDecl _ _ methods => ⟨nofun, FunctionDecl.onlyVariablesAll_elsewhere name methods⟩
  | .ifStmt _ thenBranch none => thenBranch.onlyVariables_elsewhere name
  | .ifStmt _ thenBranch (some elseBranch) =>
      ⟨thenBranch.onlyVariables_elsewhere name, elseBranch.onlyVariables_elsewhere name⟩
  | .whileStmt _ body => body.onlyVariables_elsewhere name
  | .varDecl _ _ => trivial
  | .constDecl _ _ => trivial
  | .exprStmt _ => trivial
  | .printStmt _ => trivial
  | .returnStmt _ _ => trivial

theorem Stmt.onlyVariablesAll_elsewhere (name : String) :
    ∀ ss : List Stmt, Stmt.OnlyVariablesAll name ss none false
  | [] => trivial
  | s :: ss => ⟨s.onlyVariables_elsewhere name, Stmt.onlyVariablesAll_elsewhere name ss⟩

/-- Nothing is asked of functions that are not on the trail. -/
theorem FunctionDecl.onlyVariables_elsewhere (name : String) :
    ∀ f : FunctionDecl, f.OnlyVariables name none
  | ⟨_, _, body⟩ => Stmt.onlyVariablesAll_elsewhere name body

theorem FunctionDecl.onlyVariablesAll_elsewhere (name : String) :
    ∀ fs : List FunctionDecl, FunctionDecl.OnlyVariablesAll name fs none
  | [] => trivial
  | f :: fs =>
      ⟨f.onlyVariables_elsewhere name, FunctionDecl.onlyVariablesAll_elsewhere name fs⟩

end

section Unmarked

variable
  {ρ : Renaming}
  {marks : List Bool}

/-- A name in a scope without a mark is kept. -/
@[simp] theorem Token.renamed_false (t : Token) : t.renamed ρ false = t := by
  simp [Token.renamed]

@[simp] theorem Token.map_renamed_false (ts : List Token) : ts.map (Token.renamed ρ false) = ts :=
  (List.map_congr_left fun t _ => t.renamed_false).trans (List.map_id ts)

/-- A reference is kept where nothing is marked. -/
theorem Reference.renamed_unmarked
    (h : ∀ marked ∈ marks, marked = false)
    (r : Reference) :
    r.renamed ρ marks = r := by
  rw [Reference.renamed, Link.leadsToMark_eq_false h, Token.renamed_false]

mutual

/-- Where nothing is marked, an expression stays as it is. -/
theorem Expr.renamed_unmarked
    (h : ∀ marked ∈ marks, marked = false) :
    ∀ e : Expr, e.renamed ρ marks = e
  | .literal _ => rfl
  | .grouping inner => congrArg Expr.grouping (inner.renamed_unmarked h)
  | .unary operator operand => congrArg (Expr.unary operator) (operand.renamed_unmarked h)
  | .binary left operator right => by
      rw [Expr.renamed, left.renamed_unmarked h, right.renamed_unmarked h]
  | .logical left operator right => by
      rw [Expr.renamed, left.renamed_unmarked h, right.renamed_unmarked h]
  | .read target => congrArg Expr.read (target.renamed_unmarked h)
  | .readConstant target => congrArg Expr.readConstant (target.renamed_unmarked h)
  | .assign target value => by
      rw [Expr.renamed, target.renamed_unmarked h, value.renamed_unmarked h]
  | .call callee closing arguments => by
      rw [Expr.renamed, callee.renamed_unmarked h, Expr.renamedAll_unmarked h arguments]
  | .get object name => by rw [Expr.renamed, object.renamed_unmarked h]
  | .set object name value => by
      rw [Expr.renamed, object.renamed_unmarked h, value.renamed_unmarked h]
  | .this _ _ => rfl
  | .super _ _ _ => rfl

theorem Expr.renamedAll_unmarked
    (h : ∀ marked ∈ marks, marked = false) :
    ∀ es : List Expr, Expr.renamedAll ρ marks es = es
  | [] => rfl
  | e :: es => by rw [Expr.renamedAll, e.renamed_unmarked h, Expr.renamedAll_unmarked h es]

end

/-- An expression that may be absent is kept where nothing is marked. -/
theorem Expr.map_renamed_unmarked
    (h : ∀ marked ∈ marks, marked = false)
    (e : Option Expr) :
    e.map (Expr.renamed ρ marks) = e := by
  cases e with
  | none => rfl
  | some e => exact congrArg some (e.renamed_unmarked h)

mutual

/-- Where nothing is marked, a statement stays as it is. -/
theorem Stmt.renamed_unmarked :
    ∀ (s : Stmt) (marks : List Bool), (∀ marked ∈ marks, marked = false) →
      s.renamed ρ none marks = s
  | .block body, marks, h =>
      congrArg Stmt.block
        (Stmt.renamedAll_unmarked body (false :: marks) (List.forall_mem_cons.mpr ⟨rfl, h⟩))
  | .funDecl declaration, marks, h => congrArg Stmt.funDecl (declaration.renamed_unmarked marks h)
  | .classDecl name parent methods, marks, h => by
      have hmethods : ∀ marked ∈ marksOfMethods parent.isSome marks, marked = false := by
        cases parent <;> simpa [marksOfMethods] using h
      rw [Stmt.renamed, Expr.map_renamed_unmarked h,
        FunctionDecl.renamedAll_unmarked methods _ hmethods]
  | .varDecl name initializer, marks, h => by
      rw [Stmt.renamed, Expr.map_renamed_unmarked h, headD_eq_false h, Token.renamed_false]
  | .constDecl name initializer, marks, h => by
      rw [Stmt.renamed, Expr.map_renamed_unmarked h, headD_eq_false h, Token.renamed_false]
  | .exprStmt expression, _, h => congrArg Stmt.exprStmt (expression.renamed_unmarked h)
  | .ifStmt condition thenBranch none, marks, h => by
      have hthen := thenBranch.renamed_unmarked marks h
      rw [Stmt.renamed, condition.renamed_unmarked h]
      exact congrArg (Stmt.ifStmt condition · none) hthen
  | .ifStmt condition thenBranch (some elseBranch), marks, h => by
      have hthen := thenBranch.renamed_unmarked marks h
      have helse := elseBranch.renamed_unmarked marks h
      rw [Stmt.renamed, condition.renamed_unmarked h]
      exact congrArg₂ (Stmt.ifStmt condition · <| some ·) hthen helse
  | .printStmt expression, _, h => congrArg Stmt.printStmt (expression.renamed_unmarked h)
  | .returnStmt keyword value, _, h =>
      congrArg (Stmt.returnStmt keyword) (Expr.map_renamed_unmarked h value)
  | .whileStmt condition body, marks, h => by
      have hbody := body.renamed_unmarked marks h
      rw [Stmt.renamed, condition.renamed_unmarked h]
      exact congrArg (Stmt.whileStmt condition) hbody

/-- Statements are kept where nothing is marked. -/
theorem Stmt.renamedAll_unmarked :
    ∀ (ss : List Stmt) (marks : List Bool), (∀ marked ∈ marks, marked = false) →
      Stmt.renamedAll ρ ss none marks = ss
  | [], _, _ => rfl
  | s :: ss, marks, h =>
      congrArg₂ List.cons (s.renamed_unmarked marks h) (Stmt.renamedAll_unmarked ss marks h)

/-- A function is kept where nothing is marked. -/
theorem FunctionDecl.renamed_unmarked :
    ∀ (f : FunctionDecl) (marks : List Bool), (∀ marked ∈ marks, marked = false) →
      f.renamed ρ none marks = f
  | ⟨name, parameters, body⟩, marks, h =>
      congrArg₂ (FunctionDecl.mk name) (Token.map_renamed_false parameters)
        (Stmt.renamedAll_unmarked body (false :: marks) (List.forall_mem_cons.mpr ⟨rfl, h⟩))

theorem FunctionDecl.renamedAll_unmarked :
    ∀ (fs : List FunctionDecl) (marks : List Bool), (∀ marked ∈ marks, marked = false) →
      FunctionDecl.renamedAll ρ fs none marks = fs
  | [], _, _ => rfl
  | f :: fs, marks, h =>
      congrArg₂ List.cons (f.renamed_unmarked marks h)
        (FunctionDecl.renamedAll_unmarked fs marks h)

end

end Unmarked

section Spelling

/-- The references of two parts are spelled if those of each part are. -/
theorem linksSpelled_append
    {first second : List LinkRecord}
    (hfirst : LinksSpelled first)
    (hsecond : LinksSpelled second) :
    LinksSpelled (first ++ second) :=
  List.forall_mem_append.mpr ⟨hfirst, hsecond⟩

/-- Without references there is nothing to be spelled. -/
theorem linksSpelled_nil : LinksSpelled [] :=
  fun _ hr => absurd hr List.not_mem_nil

/-- A reference to something else than the instance. -/
theorem linksSpelled_singleton {r : LinkRecord} (h : r.sort ≠ .this) : LinksSpelled [r] :=
  List.forall_mem_singleton.mpr fun hthis => absurd hthis h

mutual

/-- Resolution leaves the spelling of the instance. -/
theorem Expr.spelled_resolve (c : Context) :
    ∀ e : Expr, LinksSpelled (e.references .written) →
      LinksSpelled ((e.resolve c).references .written)
  | .literal _, h => h
  | .grouping inner, h => inner.spelled_resolve c h
  | .unary _ operand, h => operand.spelled_resolve c h
  | .binary left _ right, h =>
      have ⟨hleft, hright⟩ := List.forall_mem_append.mp h
      linksSpelled_append (left.spelled_resolve c hleft) (right.spelled_resolve c hright)
  | .logical left _ right, h =>
      have ⟨hleft, hright⟩ := List.forall_mem_append.mp h
      linksSpelled_append (left.spelled_resolve c hleft) (right.spelled_resolve c hright)
  | .read _, _ => linksSpelled_singleton nofun
  | .readConstant _, _ => linksSpelled_singleton nofun
  | .assign _ value, h =>
      linksSpelled_append (value.spelled_resolve c (List.forall_mem_append.mp h).1)
        (linksSpelled_singleton nofun)
  | .call callee _ arguments, h =>
      have ⟨hcallee, harguments⟩ := List.forall_mem_append.mp h
      linksSpelled_append (callee.spelled_resolve c hcallee)
        (Expr.spelledAll_resolve c arguments harguments)
  | .get object _, h => object.spelled_resolve c h
  | .set object _ value, h =>
      have ⟨hobject, hvalue⟩ := List.forall_mem_append.mp h
      linksSpelled_append (object.spelled_resolve c hobject) (value.spelled_resolve c hvalue)
  | .this keyword link, h =>
      List.forall_mem_singleton.mpr (h ⟨.this, keyword, link⟩ List.mem_cons_self)
  | .super _ _ _, _ => linksSpelled_singleton nofun

/-- Resolution does not change how references are spelled. -/
theorem Expr.spelledAll_resolve (c : Context) :
    ∀ es : List Expr, LinksSpelled (Expr.referencesAll .written es) →
      LinksSpelled (Expr.referencesAll .written (Expr.resolveAll c es))
  | [], h => h
  | e :: es, h =>
      have ⟨hfirst, hrest⟩ := List.forall_mem_append.mp h
      linksSpelled_append (e.spelled_resolve c hfirst) (Expr.spelledAll_resolve c es hrest)

end

/-- Parsed references to the instance are spelled as such, also after resolution. -/
theorem Expr.AsParsed.spelled
    {e : Expr}
    (h : e.AsParsed)
    (c : Context) :
    LinksSpelled ((e.resolve c).references .written) :=
  e.spelled_resolve c fun r hr => (h r hr).2.2

/-- An expression that may be absent is spelled as it was parsed. -/
theorem optionAsParsed.spelled
    {e : Option Expr}
    (h : optionAsParsed e)
    (c : Context) :
    LinksSpelled (optionReferences .written (e.map (Expr.resolve c))) := by
  cases e with
  | none => exact linksSpelled_nil
  | some e => exact (h e rfl).spelled c

mutual

/-- A statement is spelled as it was parsed. -/
theorem Stmt.AsParsed.spelled :
    ∀ {s : Stmt}, s.AsParsed → ∀ c : Context, LinksSpelled ((s.resolve c).references .written)
  | .block _, h, c => Stmt.AsParsedAll.spelled h c.inBlock
  | .funDecl declaration, h, c =>
      FunctionDecl.AsParsed.spelled h .function (c.define declaration.name)
  | .classDecl name none _, h, c =>
      FunctionDecl.AsParsedAll.spelled h.2 ((c.define name).inClass false)
  | .classDecl name (some _) _, h, c => by
      obtain ⟨parent, rfl⟩ := h.1 _ rfl
      exact linksSpelled_append (linksSpelled_singleton nofun)
        (FunctionDecl.AsParsedAll.spelled h.2 ((c.define name).inClass true))
  | .varDecl name _, h, c => h.2.spelled (c.declare name)
  | .constDecl name _, h, c => h.2.spelled (c.declare name)
  | .exprStmt _, h, c => Expr.AsParsed.spelled h c
  | .ifStmt _ _ none, h, c => linksSpelled_append (h.1.spelled c) (Stmt.AsParsed.spelled h.2.2 c)
  | .ifStmt _ thenBranch (some _), h, c =>
      linksSpelled_append (linksSpelled_append (h.1.spelled c) (Stmt.AsParsed.spelled h.2.1.2 c))
        (Stmt.AsParsed.spelled h.2.2.2 (thenBranch.contextAfter c))
  | .printStmt _, h, c => Expr.AsParsed.spelled h c
  | .returnStmt _ _, h, c => optionAsParsed.spelled h c
  | .whileStmt _ _, h, c => linksSpelled_append (h.1.spelled c) (Stmt.AsParsed.spelled h.2.2 c)

theorem Stmt.AsParsedAll.spelled :
    ∀ {ss : List Stmt}, Stmt.AsParsedAll ss → ∀ c : Context,
      LinksSpelled (Stmt.referencesAll .written (Stmt.resolveAll ss c))
  | [], _, _ => linksSpelled_nil
  | s :: _, h, c =>
      linksSpelled_append (Stmt.AsParsed.spelled h.1 c)
        (Stmt.AsParsedAll.spelled h.2 (s.contextAfter c))

/-- A function is spelled as it was parsed. -/
theorem FunctionDecl.AsParsed.spelled :
    ∀ {f : FunctionDecl}, f.AsParsed → ∀ (routine : Routine) (c : Context),
      LinksSpelled ((f.resolve routine c).references .written)
  | ⟨_, parameters, _⟩, h, routine, c => Stmt.AsParsedAll.spelled h (c.inBody routine parameters)

theorem FunctionDecl.AsParsedAll.spelled :
    ∀ {fs : List FunctionDecl}, FunctionDecl.AsParsedAll fs → ∀ c : Context,
      LinksSpelled (FunctionDecl.referencesAll .written (FunctionDecl.resolveMethods fs c))
  | [], _, _ => linksSpelled_nil
  | f :: _, h, c =>
      linksSpelled_append (FunctionDecl.AsParsed.spelled h.1 f.methodRoutine c)
        (FunctionDecl.AsParsedAll.spelled h.2 c)

end

end Spelling

end Lox

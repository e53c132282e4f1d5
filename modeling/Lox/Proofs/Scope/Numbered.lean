import Lox.Proofs.Scope.Locals
import Lox.Proofs.Scope.Renamable

/-!
# Numbered references

An error names a line, and on one line there may be several references.  To tell them apart, the
references of a program are put on numbers of their own in the place of lines.  Each number stands
for a line.  The lines of other texts have numbers as well, which are those of no reference.

Names and links do not depend on lines.  So a program on numbers has the names of the program, and
it is renamed as the program is.

**Main definitions.**
* `Numbering`: a program on numbers, and the lines for which they stand.
* `Numbering.Exact`: no two references have the same number.

**Results.**
* `Stmt.namesAll_relabel`, `Stmt.referencesAll_relabel`, `Stmt.renamedAll_relabel`: what becomes of
  names, references and renamed programs on other lines.
* `Numbering.exists_exact`: every program has an exact numbering.
-/

namespace Lox

/-- A reference on another line. -/
def LinkRecord.relabel (g : Relabeling) (r : LinkRecord) : LinkRecord :=
  ⟨r.sort, r.name.relabel g, g.link r.link⟩

/-- The line of a reference, or the number in its place. -/
def LinkRecord.line (r : LinkRecord) : Int :=
  r.name.line

section Names

variable (g : Relabeling)

mutual

/-- The names in an expression do not depend on lines and links. -/
theorem Expr.names_relabel : ∀ e : Expr, (e.relabel g).names = e.names
  | .literal _ => rfl
  | .grouping inner => inner.names_relabel
  | .unary _ operand => operand.names_relabel
  | .binary left _ right => congrArg₂ (· ++ ·) left.names_relabel right.names_relabel
  | .logical left _ right => congrArg₂ (· ++ ·) left.names_relabel right.names_relabel
  | .read _ => rfl
  | .readConstant _ => rfl
  | .assign target value => congrArg (target.name.lexeme :: ·) value.names_relabel
  | .call callee _ arguments =>
      congrArg₂ (· ++ ·) callee.names_relabel (Expr.namesAll_relabel arguments)
  | .get object _ => object.names_relabel
  | .set object _ value => congrArg₂ (· ++ ·) object.names_relabel value.names_relabel
  | .this _ _ => rfl
  | .super _ _ _ => rfl

theorem Expr.namesAll_relabel :
    ∀ es : List Expr, Expr.namesAll (Expr.relabelAll g es) = Expr.namesAll es
  | [] => rfl
  | e :: es => congrArg₂ (· ++ ·) e.names_relabel (Expr.namesAll_relabel es)

end

theorem optionNames_relabel (e : Option Expr) :
    optionNames (e.map (Expr.relabel g)) = optionNames e := by
  cases e with
  | none => rfl
  | some e => exact e.names_relabel g

mutual

/-- The names in a statement do not depend on lines and links. -/
theorem Stmt.names_relabel : ∀ s : Stmt, (s.relabel g).names = s.names
  | .block body => Stmt.namesAll_relabel body
  | .funDecl declaration => declaration.names_relabel
  | .classDecl name parent methods =>
      congrArg (name.lexeme :: ·) (congrArg₂ (· ++ ·) (optionNames_relabel g parent)
        (FunctionDecl.namesAll_relabel methods))
  | .varDecl name initializer => congrArg (name.lexeme :: ·) (optionNames_relabel g initializer)
  | .constDecl name initializer => congrArg (name.lexeme :: ·) (optionNames_relabel g initializer)
  | .exprStmt expression => expression.names_relabel g
  | .ifStmt condition thenBranch none =>
      congrArg₂ (· ++ ·) (condition.names_relabel g) thenBranch.names_relabel
  | .ifStmt condition thenBranch (some elseBranch) =>
      congrArg₂ (· ++ ·) (condition.names_relabel g)
        (congrArg₂ (· ++ ·) thenBranch.names_relabel elseBranch.names_relabel)
  | .printStmt expression => expression.names_relabel g
  | .returnStmt _ value => optionNames_relabel g value
  | .whileStmt condition body =>
      congrArg₂ (· ++ ·) (condition.names_relabel g) body.names_relabel

theorem Stmt.namesAll_relabel :
    ∀ ss : List Stmt, Stmt.namesAll (Stmt.relabelAll g ss) = Stmt.namesAll ss
  | [] => rfl
  | s :: ss => congrArg₂ (· ++ ·) s.names_relabel (Stmt.namesAll_relabel ss)

theorem FunctionDecl.names_relabel : ∀ f : FunctionDecl, (f.relabel g).names = f.names
  | ⟨name, parameters, body⟩ =>
      congrArg (name.lexeme :: ·) (congrArg₂ (· ++ ·) (Token.map_lexeme_relabel g parameters)
        (Stmt.namesAll_relabel body))

theorem FunctionDecl.namesAll_relabel :
    ∀ fs : List FunctionDecl,
      FunctionDecl.namesAll (FunctionDecl.relabelAll g fs) = FunctionDecl.namesAll fs
  | [] => rfl
  | f :: fs => congrArg₂ (· ++ ·) f.names_relabel (FunctionDecl.namesAll_relabel fs)

end

end Names

section References

variable (g : Relabeling) (order : ListingOrder)

/-- The references of one part and then those of another one. -/
theorem map_relabel_append
    {first first' second second' : List LinkRecord}
    (hfirst : first' = first.map (LinkRecord.relabel g))
    (hsecond : second' = second.map (LinkRecord.relabel g)) :
    first' ++ second' = (first ++ second).map (LinkRecord.relabel g) := by
  rw [hfirst, hsecond, List.map_append]

mutual

/-- The references of an expression on other lines. -/
theorem Expr.references_relabel :
    ∀ e : Expr, (e.relabel g).references order = (e.references order).map (LinkRecord.relabel g)
  | .literal _ => rfl
  | .grouping inner => inner.references_relabel
  | .unary _ operand => operand.references_relabel
  | .binary left _ right => map_relabel_append g left.references_relabel right.references_relabel
  | .logical left _ right => map_relabel_append g left.references_relabel right.references_relabel
  | .read _ => rfl
  | .readConstant _ => rfl
  | .assign _ value => map_relabel_append g value.references_relabel rfl
  | .call callee _ arguments =>
      map_relabel_append g callee.references_relabel (Expr.referencesAll_relabel arguments)
  | .get object _ => object.references_relabel
  | .set object _ value => by
      have hobject := object.references_relabel
      have hvalue := value.references_relabel
      cases order with
      | written => exact map_relabel_append g hobject hvalue
      | resolved => exact map_relabel_append g hvalue hobject
  | .this _ _ => rfl
  | .super _ _ _ => rfl

theorem Expr.referencesAll_relabel :
    ∀ es : List Expr,
      Expr.referencesAll order (Expr.relabelAll g es) =
        (Expr.referencesAll order es).map (LinkRecord.relabel g)
  | [] => rfl
  | e :: es => map_relabel_append g e.references_relabel (Expr.referencesAll_relabel es)

end

theorem optionReferences_relabel (e : Option Expr) :
    optionReferences order (e.map (Expr.relabel g)) =
      (optionReferences order e).map (LinkRecord.relabel g) := by
  cases e with
  | none => rfl
  | some e => exact e.references_relabel g order

mutual

/-- The references of a statement on other lines. -/
theorem Stmt.references_relabel :
    ∀ s : Stmt, (s.relabel g).references order = (s.references order).map (LinkRecord.relabel g)
  | .block body => Stmt.referencesAll_relabel body
  | .funDecl declaration => declaration.references_relabel
  | .classDecl _ none methods => FunctionDecl.referencesAll_relabel methods
  | .classDecl _ (some parent) methods =>
      map_relabel_append g (parent.references_relabel g order)
        (FunctionDecl.referencesAll_relabel methods)
  | .varDecl _ initializer => optionReferences_relabel g order initializer
  | .constDecl _ initializer => optionReferences_relabel g order initializer
  | .exprStmt expression => expression.references_relabel g order
  | .ifStmt condition thenBranch none =>
      map_relabel_append g (condition.references_relabel g order) thenBranch.references_relabel
  | .ifStmt condition thenBranch (some elseBranch) =>
      map_relabel_append g
        (map_relabel_append g (condition.references_relabel g order) thenBranch.references_relabel)
        elseBranch.references_relabel
  | .printStmt expression => expression.references_relabel g order
  | .returnStmt _ value => optionReferences_relabel g order value
  | .whileStmt condition body =>
      map_relabel_append g (condition.references_relabel g order) body.references_relabel

theorem Stmt.referencesAll_relabel :
    ∀ ss : List Stmt,
      Stmt.referencesAll order (Stmt.relabelAll g ss) =
        (Stmt.referencesAll order ss).map (LinkRecord.relabel g)
  | [] => rfl
  | s :: ss => map_relabel_append g s.references_relabel (Stmt.referencesAll_relabel ss)

theorem FunctionDecl.references_relabel :
    ∀ f : FunctionDecl,
      (f.relabel g).references order = (f.references order).map (LinkRecord.relabel g)
  | ⟨_, _, body⟩ => Stmt.referencesAll_relabel body

theorem FunctionDecl.referencesAll_relabel :
    ∀ fs : List FunctionDecl,
      FunctionDecl.referencesAll order (FunctionDecl.relabelAll g fs) =
        (FunctionDecl.referencesAll order fs).map (LinkRecord.relabel g)
  | [] => rfl
  | f :: fs => map_relabel_append g f.references_relabel (FunctionDecl.referencesAll_relabel fs)

end

/-- References are spelled on other lines as they are here. -/
theorem linksSpelled_map_relabel {references : List LinkRecord} :
    LinksSpelled (references.map (LinkRecord.relabel g)) ↔ LinksSpelled references := by
  constructor
  · intro h r hr hsort
    exact h (r.relabel g) (List.mem_map_of_mem hr) hsort
  · intro h r' hr' hsort
    obtain ⟨r, hr, rfl⟩ := List.mem_map.mp hr'
    exact h r hr hsort

end References

section Renamed

variable (ρ : Renaming) (f : Int → Int)

mutual

/-- It makes no difference whether lines or names are replaced first. -/
theorem Expr.renamed_relabel (marks : List Bool) :
    ∀ e : Expr, (e.relabel (.lines f)).renamed ρ marks = (e.renamed ρ marks).relabel (.lines f)
  | .literal _ => rfl
  | .grouping inner => congrArg Expr.grouping (inner.renamed_relabel marks)
  | .unary operator operand =>
      congrArg (Expr.unary (operator.relabel (.lines f))) (operand.renamed_relabel marks)
  | .binary left operator right =>
      congrArg₂ (fun left right => Expr.binary left (operator.relabel (.lines f)) right)
        (left.renamed_relabel marks) (right.renamed_relabel marks)
  | .logical left operator right =>
      congrArg₂ (fun left right => Expr.logical left (operator.relabel (.lines f)) right)
        (left.renamed_relabel marks) (right.renamed_relabel marks)
  | .read _ => rfl
  | .readConstant _ => rfl
  | .assign target value =>
      congrArg (Expr.assign ((target.renamed ρ marks).relabel (.lines f)))
        (value.renamed_relabel marks)
  | .call callee closing arguments =>
      congrArg₂ (fun callee arguments => Expr.call callee (closing.relabel (.lines f)) arguments)
        (callee.renamed_relabel marks) (Expr.renamedAll_relabel marks arguments)
  | .get object name =>
      congrArg (Expr.get · (name.relabel (.lines f))) (object.renamed_relabel marks)
  | .set object name value =>
      congrArg₂ (fun object value => Expr.set object (name.relabel (.lines f)) value)
        (object.renamed_relabel marks) (value.renamed_relabel marks)
  | .this _ _ => rfl
  | .super _ _ _ => rfl

theorem Expr.renamedAll_relabel (marks : List Bool) :
    ∀ es : List Expr,
      Expr.renamedAll ρ marks (Expr.relabelAll (.lines f) es) =
        Expr.relabelAll (.lines f) (Expr.renamedAll ρ marks es)
  | [] => rfl
  | e :: es =>
      congrArg₂ List.cons (e.renamed_relabel marks) (Expr.renamedAll_relabel marks es)

end

theorem Expr.map_renamed_relabel (marks : List Bool) (e : Option Expr) :
    (e.map (Expr.relabel (.lines f))).map (Expr.renamed ρ marks) =
      (e.map (Expr.renamed ρ marks)).map (Expr.relabel (.lines f)) := by
  cases e with
  | none => rfl
  | some e => exact congrArg some (e.renamed_relabel ρ f marks)

mutual

/-- It makes no difference whether lines or names are replaced first. -/
theorem Stmt.renamed_relabel :
    ∀ (s : Stmt) (t : Trail) (marks : List Bool),
      (s.relabel (.lines f)).renamed ρ t marks = (s.renamed ρ t marks).relabel (.lines f)
  | .block body, t, marks => congrArg Stmt.block (Stmt.renamedAll_relabel body t (t.ends :: marks))
  | .funDecl declaration, t, marks =>
      congrArg Stmt.funDecl (declaration.renamed_relabel t marks)
  | .classDecl name none methods, t, marks =>
      congrArg (Stmt.classDecl (name.relabel (.lines f)) none)
        (FunctionDecl.renamedAll_relabel methods t (marksOfMethods false marks))
  | .classDecl name (some parent) methods, t, marks =>
      congrArg₂ (fun parent methods =>
          Stmt.classDecl (name.relabel (.lines f)) (some parent) methods)
        (parent.renamed_relabel ρ f marks)
        (FunctionDecl.renamedAll_relabel methods t (marksOfMethods true marks))
  | .varDecl name initializer, _, marks =>
      congrArg (Stmt.varDecl ((name.renamed ρ (marks.headD false)).relabel (.lines f)))
        (Expr.map_renamed_relabel ρ f marks initializer)
  | .constDecl name initializer, _, marks =>
      congrArg (Stmt.constDecl ((name.renamed ρ (marks.headD false)).relabel (.lines f)))
        (Expr.map_renamed_relabel ρ f marks initializer)
  | .exprStmt expression, _, marks =>
      congrArg Stmt.exprStmt (expression.renamed_relabel ρ f marks)
  | .ifStmt condition thenBranch none, t, marks =>
      congrArg₂ (fun condition thenBranch => Stmt.ifStmt condition thenBranch none)
        (condition.renamed_relabel ρ f marks) (thenBranch.renamed_relabel t.first marks)
  | .ifStmt condition thenBranch (some elseBranch), t, marks => by
      simp only [Stmt.relabel, Stmt.renamed, condition.renamed_relabel ρ f marks,
        thenBranch.renamed_relabel t.first marks, elseBranch.renamed_relabel t.others.first marks]
  | .printStmt expression, _, marks =>
      congrArg Stmt.printStmt (expression.renamed_relabel ρ f marks)
  | .returnStmt keyword value, _, marks =>
      congrArg (Stmt.returnStmt (keyword.relabel (.lines f)))
        (Expr.map_renamed_relabel ρ f marks value)
  | .whileStmt condition body, t, marks =>
      congrArg₂ Stmt.whileStmt (condition.renamed_relabel ρ f marks)
        (body.renamed_relabel t.first marks)

theorem Stmt.renamedAll_relabel :
    ∀ (ss : List Stmt) (t : Trail) (marks : List Bool),
      Stmt.renamedAll ρ (Stmt.relabelAll (.lines f) ss) t marks =
        Stmt.relabelAll (.lines f) (Stmt.renamedAll ρ ss t marks)
  | [], _, _ => rfl
  | s :: ss, t, marks =>
      congrArg₂ List.cons (s.renamed_relabel t.first marks)
        (Stmt.renamedAll_relabel ss t.others marks)

theorem FunctionDecl.renamed_relabel :
    ∀ (d : FunctionDecl) (t : Trail) (marks : List Bool),
      (d.relabel (.lines f)).renamed ρ t marks = (d.renamed ρ t marks).relabel (.lines f)
  | ⟨name, parameters, body⟩, t, marks => by
      have hparameters : (parameters.map (Token.relabel (.lines f))).map (Token.renamed ρ t.ends) =
          (parameters.map (Token.renamed ρ t.ends)).map (Token.relabel (.lines f)) := by
        rw [List.map_map, List.map_map]
        rfl
      simp only [FunctionDecl.relabel, FunctionDecl.renamed, hparameters,
        Stmt.renamedAll_relabel body t (t.ends :: marks)]

theorem FunctionDecl.renamedAll_relabel :
    ∀ (ds : List FunctionDecl) (t : Trail) (marks : List Bool),
      FunctionDecl.renamedAll ρ (FunctionDecl.relabelAll (.lines f) ds) t marks =
        FunctionDecl.relabelAll (.lines f) (FunctionDecl.renamedAll ρ ds t marks)
  | [], _, _ => rfl
  | d :: ds, t, marks =>
      congrArg₂ List.cons (d.renamed_relabel t.first marks)
        (FunctionDecl.renamedAll_relabel ds t.others marks)

end

/-- A reference stays on its line when its name is replaced. -/
theorem Stmt.lines_renamed
    (order : ListingOrder)
    (program : List Stmt)
    (t : Trail)
    (marks : List Bool) :
    (Stmt.referencesAll order (Stmt.renamedAll ρ program t marks)).map LinkRecord.line =
      (Stmt.referencesAll order program).map LinkRecord.line := by
  have hall : AllRenamed ρ (Stmt.referencesAll order program)
      (Stmt.referencesAll order (Stmt.renamedAll ρ program t marks)) :=
    Stmt.referencesAll_renamed program t marks
  generalize Stmt.referencesAll order program = references at hall ⊢
  generalize Stmt.referencesAll order (Stmt.renamedAll ρ program t marks) = references' at hall ⊢
  induction hall with
  | nil => rfl
  | cons hr _ ih =>
      obtain ⟨-, -, marked, hname⟩ := hr
      rw [List.map_cons, List.map_cons, ih, LinkRecord.line, LinkRecord.line, hname]
      rfl

end Renamed

section Numbers

variable {told elsewhere : Int → Int}

/-- A token goes to a number that stands for its line. -/
theorem Token.relabel_told
    (h : ∀ line, told (elsewhere line) = line)
    (t : Token) :
    (t.relabel (.lines elsewhere)).relabel (.lines told) = t := by
  rw [Token.relabel, Token.relabel, Relabeling.line_lines, Relabeling.line_lines, h]

theorem Token.map_relabel_told
    (h : ∀ line, told (elsewhere line) = line)
    (ts : List Token) :
    (ts.map (Token.relabel (.lines elsewhere))).map (Token.relabel (.lines told)) = ts := by
  rw [List.map_map]
  exact (List.map_congr_left fun t _ => t.relabel_told h).trans (List.map_id ts)

/-- Numbers for references that come one after the other. -/
theorem split_numbers
    {numbers : List Int}
    {first second : List LinkRecord}
    (h : numbers.map told = (first ++ second).map LinkRecord.line) :
    ∃ numbers₁ numbers₂, numbers = numbers₁ ++ numbers₂
      ∧ numbers₁.map told = first.map LinkRecord.line
      ∧ numbers₂.map told = second.map LinkRecord.line := by
  rw [List.map_append] at h
  exact List.map_eq_append_iff.mp h

/-- A reference is put on a number that stands for its line. -/
theorem Reference.exists_numbered
    (sort : ReferenceSort)
    (r : Reference)
    {numbers : List Int}
    (h : numbers.map told = [(⟨sort, r.name, r.link⟩ : LinkRecord)].map LinkRecord.line) :
    ∃ r' : Reference, r'.relabel (.lines told) = r
      ∧ [(⟨sort, r'.name, r'.link⟩ : LinkRecord)].map LinkRecord.line = numbers := by
  obtain ⟨number, rfl, hnumber⟩ := List.map_eq_singleton_iff.mp h
  refine ⟨⟨{ r.name with line := number }, r.link⟩, ?_, rfl⟩
  rw [Reference.relabel, Token.relabel, Relabeling.line_lines, hnumber]
  rfl

mutual

/-- The references of an expression are put on any numbers that stand for their lines. -/
theorem Expr.exists_numbered (h : ∀ line, told (elsewhere line) = line) :
    ∀ (e : Expr) (numbers : List Int),
      numbers.map told = (e.references .written).map LinkRecord.line →
        ∃ e' : Expr, e'.relabel (.lines told) = e
          ∧ (e'.references .written).map LinkRecord.line = numbers
  | .literal value, _, hnumbers => ⟨.literal value, rfl, (List.map_eq_nil_iff.mp hnumbers).symm⟩
  | .grouping inner, numbers, hnumbers => by
      obtain ⟨inner', rfl, hinner⟩ := inner.exists_numbered h numbers hnumbers
      exact ⟨.grouping inner', rfl, hinner⟩
  | .unary operator operand, numbers, hnumbers => by
      obtain ⟨operand', rfl, hoperand⟩ := operand.exists_numbered h numbers hnumbers
      refine ⟨.unary (operator.relabel (.lines elsewhere)) operand', ?_, hoperand⟩
      rw [Expr.relabel, operator.relabel_told h]
  | .binary left operator right, numbers, hnumbers => by
      obtain ⟨first, second, rfl, hfirst, hsecond⟩ := split_numbers hnumbers
      obtain ⟨left', rfl, hleft⟩ := left.exists_numbered h first hfirst
      obtain ⟨right', rfl, hright⟩ := right.exists_numbered h second hsecond
      refine ⟨.binary left' (operator.relabel (.lines elsewhere)) right', ?_, ?_⟩
      · rw [Expr.relabel, operator.relabel_told h]
      · rw [Expr.references, List.map_append, hleft, hright]
  | .logical left operator right, numbers, hnumbers => by
      obtain ⟨first, second, rfl, hfirst, hsecond⟩ := split_numbers hnumbers
      obtain ⟨left', rfl, hleft⟩ := left.exists_numbered h first hfirst
      obtain ⟨right', rfl, hright⟩ := right.exists_numbered h second hsecond
      refine ⟨.logical left' (operator.relabel (.lines elsewhere)) right', ?_, ?_⟩
      · rw [Expr.relabel, operator.relabel_told h]
      · rw [Expr.references, List.map_append, hleft, hright]
  | .read target, _, hnumbers => by
      obtain ⟨target', rfl, htarget⟩ := target.exists_numbered .read hnumbers
      exact ⟨.read target', rfl, htarget⟩
  | .readConstant target, _, hnumbers => by
      obtain ⟨target', rfl, htarget⟩ := target.exists_numbered .readConstant hnumbers
      exact ⟨.readConstant target', rfl, htarget⟩
  | .assign target value, numbers, hnumbers => by
      obtain ⟨first, second, rfl, hfirst, hsecond⟩ := split_numbers hnumbers
      obtain ⟨value', rfl, hvalue⟩ := value.exists_numbered h first hfirst
      obtain ⟨target', rfl, htarget⟩ := target.exists_numbered .assign hsecond
      refine ⟨.assign target' value', rfl, ?_⟩
      rw [Expr.references, List.map_append, hvalue, htarget]
  | .call callee closing arguments, numbers, hnumbers => by
      obtain ⟨first, second, rfl, hfirst, hsecond⟩ := split_numbers hnumbers
      obtain ⟨callee', rfl, hcallee⟩ := callee.exists_numbered h first hfirst
      obtain ⟨arguments', rfl, harguments⟩ := Expr.exists_numberedAll h arguments second hsecond
      refine ⟨.call callee' (closing.relabel (.lines elsewhere)) arguments', ?_, ?_⟩
      · rw [Expr.relabel, closing.relabel_told h]
      · rw [Expr.references, List.map_append, hcallee, harguments]
  | .get object name, numbers, hnumbers => by
      obtain ⟨object', rfl, hobject⟩ := object.exists_numbered h numbers hnumbers
      refine ⟨.get object' (name.relabel (.lines elsewhere)), ?_, hobject⟩
      rw [Expr.relabel, name.relabel_told h]
  | .set object name value, numbers, hnumbers => by
      obtain ⟨first, second, rfl, hfirst, hsecond⟩ := split_numbers hnumbers
      obtain ⟨object', rfl, hobject⟩ := object.exists_numbered h first hfirst
      obtain ⟨value', rfl, hvalue⟩ := value.exists_numbered h second hsecond
      refine ⟨.set object' (name.relabel (.lines elsewhere)) value', ?_, ?_⟩
      · rw [Expr.relabel, name.relabel_told h]
      · rw [Expr.references, List.map_append, hobject, hvalue]
  | .this keyword link, _, hnumbers => by
      obtain ⟨⟨keyword', link'⟩, hsame, hkeyword⟩ :=
        Reference.exists_numbered .this ⟨keyword, link⟩ hnumbers
      obtain ⟨rfl, rfl⟩ := Reference.mk.inj hsame
      exact ⟨.this keyword' link', rfl, hkeyword⟩
  | .super keyword method link, _, hnumbers => by
      obtain ⟨⟨method', link'⟩, hsame, hmethod⟩ :=
        Reference.exists_numbered .super ⟨method, link⟩ hnumbers
      obtain ⟨rfl, rfl⟩ := Reference.mk.inj hsame
      refine ⟨.super (keyword.relabel (.lines elsewhere)) method' link', ?_, hmethod⟩
      rw [Expr.relabel, keyword.relabel_told h]

theorem Expr.exists_numberedAll (h : ∀ line, told (elsewhere line) = line) :
    ∀ (es : List Expr) (numbers : List Int),
      numbers.map told = (Expr.referencesAll .written es).map LinkRecord.line →
        ∃ es' : List Expr, Expr.relabelAll (.lines told) es' = es
          ∧ (Expr.referencesAll .written es').map LinkRecord.line = numbers
  | [], _, hnumbers => ⟨[], rfl, (List.map_eq_nil_iff.mp hnumbers).symm⟩
  | e :: es, numbers, hnumbers => by
      obtain ⟨first, second, rfl, hfirst, hsecond⟩ := split_numbers hnumbers
      obtain ⟨e', rfl, he⟩ := e.exists_numbered h first hfirst
      obtain ⟨es', rfl, hes⟩ := Expr.exists_numberedAll h es second hsecond
      refine ⟨e' :: es', rfl, ?_⟩
      rw [Expr.referencesAll, List.map_append, he, hes]

end

theorem exists_numbered_option
    (h : ∀ line, told (elsewhere line) = line)
    (e : Option Expr)
    (numbers : List Int)
    (hnumbers : numbers.map told = (optionReferences .written e).map LinkRecord.line) :
    ∃ e' : Option Expr, e'.map (Expr.relabel (.lines told)) = e
      ∧ (optionReferences .written e').map LinkRecord.line = numbers := by
  cases e with
  | none => exact ⟨none, rfl, (List.map_eq_nil_iff.mp hnumbers).symm⟩
  | some e =>
      obtain ⟨e', rfl, he⟩ := e.exists_numbered h numbers hnumbers
      exact ⟨some e', rfl, he⟩

mutual

/-- The references of a statement are put on any numbers that stand for their lines. -/
theorem Stmt.exists_numbered (h : ∀ line, told (elsewhere line) = line) :
    ∀ (s : Stmt) (numbers : List Int),
      numbers.map told = (s.references .written).map LinkRecord.line →
        ∃ s' : Stmt, s'.relabel (.lines told) = s
          ∧ (s'.references .written).map LinkRecord.line = numbers
  | .block body, numbers, hnumbers => by
      obtain ⟨body', rfl, hbody⟩ := Stmt.exists_numberedAll h body numbers hnumbers
      exact ⟨.block body', rfl, hbody⟩
  | .funDecl declaration, numbers, hnumbers => by
      obtain ⟨declaration', rfl, hdeclaration⟩ := declaration.exists_numbered h numbers hnumbers
      exact ⟨.funDecl declaration', rfl, hdeclaration⟩
  | .classDecl name none methods, numbers, hnumbers => by
      obtain ⟨methods', rfl, hmethods⟩ := FunctionDecl.exists_numberedAll h methods numbers hnumbers
      refine ⟨.classDecl (name.relabel (.lines elsewhere)) none methods', ?_, hmethods⟩
      rw [Stmt.relabel, name.relabel_told h]
      rfl
  | .classDecl name (some parent) methods, numbers, hnumbers => by
      obtain ⟨first, second, rfl, hfirst, hsecond⟩ := split_numbers hnumbers
      obtain ⟨parent', rfl, hparent⟩ := parent.exists_numbered h first hfirst
      obtain ⟨methods', rfl, hmethods⟩ := FunctionDecl.exists_numberedAll h methods second hsecond
      refine ⟨.classDecl (name.relabel (.lines elsewhere)) (some parent') methods', ?_, ?_⟩
      · rw [Stmt.relabel, name.relabel_told h]
        rfl
      · rw [Stmt.references, List.map_append, hparent, hmethods]
  | .varDecl name initializer, numbers, hnumbers => by
      obtain ⟨initializer', rfl, hvalue⟩ := exists_numbered_option h initializer numbers hnumbers
      refine ⟨.varDecl (name.relabel (.lines elsewhere)) initializer', ?_, hvalue⟩
      rw [Stmt.relabel, name.relabel_told h]
  | .constDecl name initializer, numbers, hnumbers => by
      obtain ⟨initializer', rfl, hvalue⟩ := exists_numbered_option h initializer numbers hnumbers
      refine ⟨.constDecl (name.relabel (.lines elsewhere)) initializer', ?_, hvalue⟩
      rw [Stmt.relabel, name.relabel_told h]
  | .exprStmt expression, numbers, hnumbers => by
      obtain ⟨expression', rfl, he⟩ := expression.exists_numbered h numbers hnumbers
      exact ⟨.exprStmt expression', rfl, he⟩
  | .ifStmt condition thenBranch none, numbers, hnumbers => by
      obtain ⟨first, second, rfl, hfirst, hsecond⟩ := split_numbers hnumbers
      obtain ⟨condition', rfl, hcondition⟩ := condition.exists_numbered h first hfirst
      obtain ⟨thenBranch', rfl, hthen⟩ := thenBranch.exists_numbered h second hsecond
      refine ⟨.ifStmt condition' thenBranch' none, rfl, ?_⟩
      rw [Stmt.references, List.map_append, hcondition, hthen]
  | .ifStmt condition thenBranch (some elseBranch), numbers, hnumbers => by
      obtain ⟨most, third, rfl, hmost, hthird⟩ := split_numbers hnumbers
      obtain ⟨first, second, rfl, hfirst, hsecond⟩ := split_numbers hmost
      obtain ⟨condition', rfl, hcondition⟩ := condition.exists_numbered h first hfirst
      obtain ⟨thenBranch', rfl, hthen⟩ := thenBranch.exists_numbered h second hsecond
      obtain ⟨elseBranch', rfl, helse⟩ := elseBranch.exists_numbered h third hthird
      refine ⟨.ifStmt condition' thenBranch' (some elseBranch'), rfl, ?_⟩
      rw [Stmt.references, List.map_append, List.map_append, hcondition, hthen, helse]
  | .printStmt expression, numbers, hnumbers => by
      obtain ⟨expression', rfl, he⟩ := expression.exists_numbered h numbers hnumbers
      exact ⟨.printStmt expression', rfl, he⟩
  | .returnStmt keyword value, numbers, hnumbers => by
      obtain ⟨value', rfl, hvalue⟩ := exists_numbered_option h value numbers hnumbers
      refine ⟨.returnStmt (keyword.relabel (.lines elsewhere)) value', ?_, hvalue⟩
      rw [Stmt.relabel, keyword.relabel_told h]
  | .whileStmt condition body, numbers, hnumbers => by
      obtain ⟨first, second, rfl, hfirst, hsecond⟩ := split_numbers hnumbers
      obtain ⟨condition', rfl, hcondition⟩ := condition.exists_numbered h first hfirst
      obtain ⟨body', rfl, hbody⟩ := body.exists_numbered h second hsecond
      refine ⟨.whileStmt condition' body', rfl, ?_⟩
      rw [Stmt.references, List.map_append, hcondition, hbody]

theorem Stmt.exists_numberedAll (h : ∀ line, told (elsewhere line) = line) :
    ∀ (ss : List Stmt) (numbers : List Int),
      numbers.map told = (Stmt.referencesAll .written ss).map LinkRecord.line →
        ∃ ss' : List Stmt, Stmt.relabelAll (.lines told) ss' = ss
          ∧ (Stmt.referencesAll .written ss').map LinkRecord.line = numbers
  | [], _, hnumbers => ⟨[], rfl, (List.map_eq_nil_iff.mp hnumbers).symm⟩
  | s :: ss, numbers, hnumbers => by
      obtain ⟨first, second, rfl, hfirst, hsecond⟩ := split_numbers hnumbers
      obtain ⟨s', rfl, hs⟩ := s.exists_numbered h first hfirst
      obtain ⟨ss', rfl, hss⟩ := Stmt.exists_numberedAll h ss second hsecond
      refine ⟨s' :: ss', rfl, ?_⟩
      rw [Stmt.referencesAll, List.map_append, hs, hss]

theorem FunctionDecl.exists_numbered (h : ∀ line, told (elsewhere line) = line) :
    ∀ (d : FunctionDecl) (numbers : List Int),
      numbers.map told = (d.references .written).map LinkRecord.line →
        ∃ d' : FunctionDecl, d'.relabel (.lines told) = d
          ∧ (d'.references .written).map LinkRecord.line = numbers
  | ⟨name, parameters, body⟩, numbers, hnumbers => by
      obtain ⟨body', rfl, hbody⟩ := Stmt.exists_numberedAll h body numbers hnumbers
      refine ⟨⟨name.relabel (.lines elsewhere), parameters.map (Token.relabel (.lines elsewhere)),
        body'⟩, ?_, hbody⟩
      rw [FunctionDecl.relabel, name.relabel_told h, Token.map_relabel_told h]

theorem FunctionDecl.exists_numberedAll (h : ∀ line, told (elsewhere line) = line) :
    ∀ (ds : List FunctionDecl) (numbers : List Int),
      numbers.map told = (FunctionDecl.referencesAll .written ds).map LinkRecord.line →
        ∃ ds' : List FunctionDecl, FunctionDecl.relabelAll (.lines told) ds' = ds
          ∧ (FunctionDecl.referencesAll .written ds').map LinkRecord.line = numbers
  | [], _, hnumbers => ⟨[], rfl, (List.map_eq_nil_iff.mp hnumbers).symm⟩
  | d :: ds, numbers, hnumbers => by
      obtain ⟨first, second, rfl, hfirst, hsecond⟩ := split_numbers hnumbers
      obtain ⟨d', rfl, hd⟩ := d.exists_numbered h first hfirst
      obtain ⟨ds', rfl, hds⟩ := FunctionDecl.exists_numberedAll h ds second hsecond
      refine ⟨d' :: ds', rfl, ?_⟩
      rw [FunctionDecl.referencesAll, List.map_append, hd, hds]

end

end Numbers

/-- A program on numbers, each of which stands for a line. -/
structure Numbering (program : List Stmt) where
  numbered : List Stmt
  /-- The number of a line of another text. -/
  elsewhere : Int → Int
  /-- The line for which a number stands. -/
  told : Int → Int
  told_elsewhere : ∀ line, told (elsewhere line) = line
  relabelAll_told : Stmt.relabelAll (.lines told) numbered = program

/-- The number of a reference is that of no other reference, and that of no line elsewhere. -/
structure Numbering.Exact {program : List Stmt} (n : Numbering program) : Prop where
  nodup : ((Stmt.referencesAll .written n.numbered).map LinkRecord.line).Nodup
  apart : ∀ r ∈ Stmt.referencesAll .written n.numbered, ∀ line, n.elsewhere line ≠ r.line

namespace Numbering

variable {program : List Stmt}

/-- The lines themselves. -/
def plain (program : List Stmt) : Numbering program where
  numbered := program
  elsewhere := id
  told := id
  told_elsewhere _ := rfl
  relabelAll_told := Stmt.relabelAll_none program

/-- The same numbers in the renamed program. -/
def renamed
    (n : Numbering program)
    (trail : List Nat)
    (ρ : Renaming) : Numbering (renameLocal trail ρ program) where
  numbered := renameLocal trail ρ n.numbered
  elsewhere := n.elsewhere
  told := n.told
  told_elsewhere := n.told_elsewhere
  relabelAll_told := by
    rw [renameLocal, ← Stmt.renamedAll_relabel, n.relabelAll_told]
    rfl

/-- From a line elsewhere to its number and back. -/
theorem told_comp_elsewhere (n : Numbering program) :
    (Relabeling.lines n.told).comp (.lines n.elsewhere) = .none := by
  have hline : n.told ∘ n.elsewhere = id := funext n.told_elsewhere
  rw [Relabeling.comp, Relabeling.line_lines, Relabeling.line_lines, hline]
  rfl

/-- The references get the odd numbers, in their order, and lines elsewhere get the even ones. -/
theorem exists_exact (program : List Stmt) : ∃ n : Numbering program, n.Exact := by
  let lines := (Stmt.referencesAll .written program).map LinkRecord.line
  let elsewhere : Int → Int := fun line => 2 * line
  let told : Int → Int := fun number =>
    if number % 2 = 0 then number / 2 else lines.getD (number / 2).toNat 0
  let numbers : List Int :=
    (List.range lines.length).map fun i : Nat => 2 * (i : Int) + 1
  have htold : ∀ line, told (elsewhere line) = line := by
    intro line
    simp only [told, elsewhere]
    rw [if_pos (by omega)]
    omega
  have hnumbers : numbers.map told = lines := by
    refine List.ext_getElem (by simp [numbers]) fun i hi hi' => ?_
    have hodd : (2 * (i : Int) + 1) % 2 ≠ 0 := by omega
    have hhalf : (2 * (i : Int) + 1) / 2 = i := by omega
    simp only [numbers, told, List.getElem_map, List.getElem_range, if_neg hodd, hhalf,
      Int.toNat_natCast, List.getD_eq_getElem _ _ hi']
  obtain ⟨numbered, hprogram, hlines⟩ :=
    Stmt.exists_numberedAll htold program numbers hnumbers
  refine ⟨⟨numbered, elsewhere, told, htold, hprogram⟩, ?_, ?_⟩
  · rw [hlines]
    exact List.nodup_range.map fun i j hij => by simpa using hij
  · intro r hr line hsame
    have hmem : r.line ∈ numbers := hlines ▸ List.mem_map_of_mem hr
    obtain ⟨i, -, hi⟩ := List.mem_map.mp hmem
    simp only [elsewhere] at hsame
    omega

end Numbering

end Lox

import Lox.Proofs.Tree.Relabel
import Lox.Scope.Tables

/-!
# What the tables hold

A tree with numbers becomes the resolved tree when every number is replaced by the link that was
written under it.  Links that are written later, under greater numbers, change nothing about that.

**Main definition.**
* `Finds`: links are found under consecutive numbers.

**Results.**
* `Tables.finds_recordAll`: links that have been written are found.
* `Stmt.relabelAll_numberedAll`: a tree whose links are found is the resolved tree.
* `Stmt.relabelAll_numberedAll_of_le`: what replaces no number of a tree leaves it as it is.
-/

namespace Lox

/-- Links are found under the numbers from `n` on. -/
def Finds (f : Link → Link) (n : Nat) : List Link → Prop
  | [] => True
  | link :: links => f (.numbered n) = link ∧ Finds f (n + 1) links

theorem finds_append {f : Link → Link} {n : Nat} {first second : List Link} :
    Finds f n (first ++ second) ↔ Finds f n first ∧ Finds f (n + first.length) second := by
  induction first generalizing n with
  | nil => simp [Finds]
  | cons link links ih =>
      simp only [List.cons_append, Finds, ih, List.length_cons, and_assoc]
      rw [show n + 1 + links.length = n + (links.length + 1) by omega]

namespace Tables

variable {t : Tables} {m n : Nat}

theorem lookup_entered_of_ne (h : m ≠ n) (depth : Option Nat) (table : List (Nat × Nat)) :
    (entered n depth table).lookup m = table.lookup m := by
  cases depth with
  | none => rfl
  | some d => simp [entered, List.lookup, beq_false_of_ne h]

theorem lookup_entered_self {depth : Option Nat} {table : List (Nat × Nat)}
    (h : table.lookup n = none) : (entered n depth table).lookup n = depth := by
  cases depth with
  | none => exact h
  | some d => simp [entered]

theorem link_record_of_ne (h : m ≠ n) (link : Link) : (t.record n link).link m = t.link m := by
  simp only [Tables.link, record, lookup_entered_of_ne h]

theorem link_record_self (h : t.link n = .unresolved) (link : Link) :
    (t.record n link).link n = link := by
  obtain ⟨hdepth, hconstant⟩ := Link.mk.inj h
  simp only [Tables.link, record, lookup_entered_self hdepth, lookup_entered_self hconstant]

/-- Numbers under which nothing is written keep their links. -/
theorem link_recordAll_of_lt (links : List Link) (h : m < n) :
    (t.recordAll n links).link m = t.link m := by
  induction links generalizing t n with
  | nil => rfl
  | cons link links ih => rw [recordAll, ih (by omega), link_record_of_ne (by omega)]

theorem link_recordAll_of_le (links : List Link) (h : n + links.length ≤ m) :
    (t.recordAll n links).link m = t.link m := by
  induction links generalizing t n with
  | nil => rfl
  | cons link links ih =>
      rw [List.length_cons] at h
      rw [recordAll, ih (by omega), link_record_of_ne (by omega)]

/-- Links that are written under new numbers are found there. -/
theorem finds_recordAll (links : List Link) (hnew : ∀ m, n ≤ m → t.link m = .unresolved) :
    Finds (t.recordAll n links).look n links := by
  induction links generalizing t n with
  | nil => trivial
  | cons link links ih =>
      refine ⟨?_, ih fun m hm => ?_⟩
      · change ((t.record n link).recordAll (n + 1) links).link n = link
        rw [link_recordAll_of_lt links (by omega), link_record_self (hnew n le_rfl)]
      · rw [link_record_of_ne (by omega), hnew m (by omega)]

end Tables

@[simp] theorem Token.relabel_links (f : Link → Link) (t : Token) : t.relabel (.links f) = t := rfl

@[simp] theorem Token.map_relabel_links (f : Link → Link) (ts : List Token) :
    ts.map (Token.relabel (.links f)) = ts :=
  List.map_id ts

section Resolved

mutual

/-- Resolution adds no references and removes none. -/
@[simp] theorem Expr.size_resolve (c : Context) : ∀ e : Expr, (e.resolve c).size = e.size
  | .literal _ => rfl
  | .grouping inner => inner.size_resolve c
  | .unary _ operand => operand.size_resolve c
  | .binary left _ right => by
      simp only [Expr.resolve, Expr.size_binary, left.size_resolve c, right.size_resolve c]
  | .logical left _ right => by
      simp only [Expr.resolve, Expr.size_logical, left.size_resolve c, right.size_resolve c]
  | .read _ => rfl
  | .readConstant _ => rfl
  | .assign _ value => by simp only [Expr.resolve, Expr.size_assign, value.size_resolve c]
  | .call callee _ arguments => by
      simp only [Expr.resolve, Expr.size_call, callee.size_resolve c,
        Expr.sizeAll_resolveAll c arguments]
  | .get object _ => object.size_resolve c
  | .set object _ value => by
      simp only [Expr.resolve, Expr.size_set, object.size_resolve c, value.size_resolve c]
  | .this _ _ => rfl
  | .super _ _ _ => rfl

@[simp] theorem Expr.sizeAll_resolveAll (c : Context) :
    ∀ es : List Expr, Expr.sizeAll (Expr.resolveAll c es) = Expr.sizeAll es
  | [] => rfl
  | e :: es => by
      simp only [Expr.resolveAll, Expr.sizeAll_cons, e.size_resolve c,
        Expr.sizeAll_resolveAll c es]

end

@[simp] theorem optionSize_map_resolve (c : Context) (o : Option Expr) :
    optionSize (o.map (Expr.resolve c)) = optionSize o := by
  cases o with
  | none => rfl
  | some e => exact e.size_resolve c

mutual

@[simp] theorem Stmt.size_resolve : ∀ (s : Stmt) (c : Context), (s.resolve c).size = s.size
  | .block body, c => Stmt.sizeAll_resolveAll body c.inBlock
  | .funDecl declaration, c => declaration.size_resolve .function (c.define declaration.name)
  | .classDecl name parent methods, c => by
      simp only [Stmt.resolve, Stmt.size_classDecl, optionSize_map_resolve,
        FunctionDecl.sizeAll_resolveMethods methods]
  | .varDecl name initializer, c => optionSize_map_resolve (c.declare name) initializer
  | .constDecl name initializer, c => optionSize_map_resolve (c.declare name) initializer
  | .exprStmt expression, c => expression.size_resolve c
  | .ifStmt condition thenBranch none, c => by
      simp only [Stmt.resolve, Stmt.size_ifStmt_none, Expr.size_resolve, thenBranch.size_resolve]
  | .ifStmt condition thenBranch (some elseBranch), c => by
      simp only [Stmt.resolve, Stmt.size_ifStmt_some, Expr.size_resolve, thenBranch.size_resolve,
        elseBranch.size_resolve]
  | .printStmt expression, c => expression.size_resolve c
  | .returnStmt _ value, c => optionSize_map_resolve c value
  | .whileStmt condition body, c => by
      simp only [Stmt.resolve, Stmt.size_whileStmt, Expr.size_resolve, body.size_resolve]

@[simp] theorem Stmt.sizeAll_resolveAll :
    ∀ (ss : List Stmt) (c : Context), Stmt.sizeAll (Stmt.resolveAll ss c) = Stmt.sizeAll ss
  | [], _ => rfl
  | s :: ss, c => by
      simp only [Stmt.resolveAll, Stmt.sizeAll_cons, s.size_resolve, Stmt.sizeAll_resolveAll ss]

@[simp] theorem FunctionDecl.size_resolve :
    ∀ (f : FunctionDecl) (routine : Routine) (c : Context), (f.resolve routine c).size = f.size
  | ⟨_, parameters, body⟩, routine, c =>
      Stmt.sizeAll_resolveAll body (c.inBody routine parameters)

@[simp] theorem FunctionDecl.sizeAll_resolveMethods :
    ∀ (fs : List FunctionDecl) (c : Context),
      FunctionDecl.sizeAll (FunctionDecl.resolveMethods fs c) = FunctionDecl.sizeAll fs
  | [], _ => rfl
  | f :: fs, c => by
      simp only [FunctionDecl.resolveMethods, FunctionDecl.sizeAll_cons, f.size_resolve,
        FunctionDecl.sizeAll_resolveMethods fs]

end

/-- Links of references. -/
def linksOf (records : List LinkRecord) : List Link := records.map LinkRecord.link

theorem finds_linksOf_append
    {f : Link → Link}
    {n k : Nat}
    {first second : List LinkRecord}
    (hlength : first.length = k)
    (h : Finds f n (linksOf (first ++ second))) :
    Finds f n (linksOf first) ∧ Finds f (n + k) (linksOf second) := by
  subst hlength
  rw [linksOf, List.map_append] at h
  have hboth := finds_append.mp h
  rwa [List.length_map] at hboth

variable {f : Link → Link}

mutual

theorem Expr.relabel_numbered (c : Context) :
    ∀ (e : Expr) (n : Nat), Finds f n (linksOf ((e.resolve c).references .resolved)) →
      (e.numbered n).relabel (.links f) = e.resolve c
  | .literal _, _, _ => rfl
  | .grouping inner, n, h => congrArg Expr.grouping (inner.relabel_numbered c n h)
  | .unary operator operand, n, h => congrArg (Expr.unary operator) (operand.relabel_numbered c n h)
  | .binary left operator right, n, h => by
      obtain ⟨hl, hr⟩ := finds_linksOf_append (left.size_resolve c) h
      simp only [Expr.numbered, Expr.relabel, Expr.resolve, left.relabel_numbered c n hl,
        right.relabel_numbered c _ hr, Token.relabel_links]
  | .logical left operator right, n, h => by
      obtain ⟨hl, hr⟩ := finds_linksOf_append (left.size_resolve c) h
      simp only [Expr.numbered, Expr.relabel, Expr.resolve, left.relabel_numbered c n hl,
        right.relabel_numbered c _ hr, Token.relabel_links]
  | .read target, n, h => congrArg (fun link => Expr.read ⟨target.name, link⟩) h.1
  | .readConstant target, n, h => congrArg (fun link => Expr.readConstant ⟨target.name, link⟩) h.1
  | .assign target value, n, h => by
      obtain ⟨hv, ht⟩ := finds_linksOf_append (value.size_resolve c) h
      simp only [Expr.numbered, Expr.relabel, Expr.resolve, value.relabel_numbered c n hv,
        Reference.relabel, Relabeling.link_links, ht.1, Token.relabel_links,
        Reference.resolveAssigned]
  | .call callee closing arguments, n, h => by
      obtain ⟨hc, ha⟩ := finds_linksOf_append (callee.size_resolve c) h
      simp only [Expr.numbered, Expr.relabel, Expr.resolve, callee.relabel_numbered c n hc,
        Expr.relabelAll_numberedAll c arguments _ ha, Token.relabel_links]
  | .get object name, n, h => congrArg (Expr.get · name) (object.relabel_numbered c n h)
  | .set object name value, n, h => by
      obtain ⟨hv, ho⟩ := finds_linksOf_append (value.size_resolve c) h
      simp only [Expr.numbered, Expr.relabel, Expr.resolve, value.relabel_numbered c n hv,
        object.relabel_numbered c _ ho, Token.relabel_links]
  | .this keyword _, n, h => congrArg (Expr.this keyword) h.1
  | .super keyword method _, n, h => congrArg (Expr.super keyword method) h.1

theorem Expr.relabelAll_numberedAll (c : Context) :
    ∀ (es : List Expr) (n : Nat),
      Finds f n (linksOf (Expr.referencesAll .resolved (Expr.resolveAll c es))) →
      Expr.relabelAll (.links f) (Expr.numberedAll n es) = Expr.resolveAll c es
  | [], _, _ => rfl
  | e :: es, n, h => by
      obtain ⟨he, hes⟩ := finds_linksOf_append (e.size_resolve c) h
      simp only [Expr.numberedAll, Expr.relabelAll, Expr.resolveAll, e.relabel_numbered c n he,
        Expr.relabelAll_numberedAll c es _ hes]

end

theorem Expr.map_relabel_numbered
    (c : Context)
    (o : Option Expr)
    (n : Nat)
    (h : Finds f n (linksOf (optionReferences .resolved (o.map (Expr.resolve c))))) :
    (o.map (Expr.numbered n)).map (Expr.relabel (.links f)) = o.map (Expr.resolve c) := by
  cases o with
  | none => rfl
  | some e => exact congrArg some (e.relabel_numbered c n h)

mutual

theorem Stmt.relabel_numbered :
    ∀ (s : Stmt) (c : Context) (n : Nat),
      Finds f n (linksOf ((s.resolve c).references .resolved)) →
      (s.numbered n).relabel (.links f) = s.resolve c
  | .block body, c, n, h => congrArg Stmt.block (Stmt.relabelAll_numberedAll body c.inBlock n h)
  | .funDecl declaration, c, n, h =>
      congrArg Stmt.funDecl
        (declaration.relabel_numbered .function (c.define declaration.name) n h)
  | .classDecl name none methods, c, n, h =>
      congrArg (Stmt.classDecl name none)
        (FunctionDecl.relabelAll_numberedAll methods ((c.define name).inClass false) n h)
  | .classDecl name (some parent) methods, c, n, h => by
      obtain ⟨hp, hm⟩ := finds_linksOf_append (parent.size_resolve (c.atSuperclass name)) h
      simp only [Stmt.numbered, Stmt.relabel, Stmt.resolve, Option.map_some, optionSize_some,
        parent.relabel_numbered _ n hp, Token.relabel_links, Option.isSome_some,
        FunctionDecl.relabelAll_numberedAll methods _ _ hm]
  | .varDecl name initializer, c, n, h =>
      congrArg (Stmt.varDecl name) (Expr.map_relabel_numbered (c.declare name) initializer n h)
  | .constDecl name initializer, c, n, h =>
      congrArg (Stmt.constDecl name) (Expr.map_relabel_numbered (c.declare name) initializer n h)
  | .exprStmt expression, c, n, h =>
      congrArg Stmt.exprStmt (expression.relabel_numbered c n h)
  | .ifStmt condition thenBranch none, c, n, h => by
      obtain ⟨hc, ht⟩ := finds_linksOf_append (condition.size_resolve c) h
      simp only [Stmt.numbered, Stmt.relabel, Stmt.resolve, condition.relabel_numbered c n hc,
        thenBranch.relabel_numbered c _ ht]
  | .ifStmt condition thenBranch (some elseBranch), c, n, h => by
      obtain ⟨hboth, he⟩ := finds_linksOf_append
        (k := condition.size + thenBranch.size)
        (by
          rw [List.length_append]
          exact congrArg₂ _ (condition.size_resolve c) (thenBranch.size_resolve c)) h
      obtain ⟨hc, ht⟩ := finds_linksOf_append (condition.size_resolve c) hboth
      rw [← Nat.add_assoc] at he
      simp only [Stmt.numbered, Stmt.relabel, Stmt.resolve, condition.relabel_numbered c n hc,
        thenBranch.relabel_numbered c _ ht, elseBranch.relabel_numbered _ _ he]
  | .printStmt expression, c, n, h =>
      congrArg Stmt.printStmt (expression.relabel_numbered c n h)
  | .returnStmt keyword value, c, n, h =>
      congrArg (Stmt.returnStmt keyword) (Expr.map_relabel_numbered c value n h)
  | .whileStmt condition body, c, n, h => by
      obtain ⟨hc, hb⟩ := finds_linksOf_append (condition.size_resolve c) h
      simp only [Stmt.numbered, Stmt.relabel, Stmt.resolve, condition.relabel_numbered c n hc,
        body.relabel_numbered c _ hb]

/-- A tree with numbers becomes the resolved tree if every number stands for the right link. -/
theorem Stmt.relabelAll_numberedAll :
    ∀ (ss : List Stmt) (c : Context) (n : Nat),
      Finds f n (linksOf (Stmt.referencesAll .resolved (Stmt.resolveAll ss c))) →
      Stmt.relabelAll (.links f) (Stmt.numberedAll n ss) = Stmt.resolveAll ss c
  | [], _, _, _ => rfl
  | s :: ss, c, n, h => by
      obtain ⟨hs, hss⟩ := finds_linksOf_append (s.size_resolve c) h
      simp only [Stmt.numberedAll, Stmt.relabelAll, Stmt.resolveAll, s.relabel_numbered c n hs,
        Stmt.relabelAll_numberedAll ss _ _ hss]

theorem FunctionDecl.relabel_numbered :
    ∀ (d : FunctionDecl) (routine : Routine) (c : Context) (n : Nat),
      Finds f n (linksOf ((d.resolve routine c).references .resolved)) →
      (d.numbered n).relabel (.links f) = d.resolve routine c
  | ⟨name, parameters, body⟩, routine, c, n, h => by
      simp only [FunctionDecl.numbered, FunctionDecl.relabel, FunctionDecl.resolve,
        Token.relabel_links, Token.map_relabel_links,
        Stmt.relabelAll_numberedAll body (c.inBody routine parameters) n h]

theorem FunctionDecl.relabelAll_numberedAll :
    ∀ (ds : List FunctionDecl) (c : Context) (n : Nat),
      Finds f n (linksOf (FunctionDecl.referencesAll .resolved
        (FunctionDecl.resolveMethods ds c))) →
      FunctionDecl.relabelAll (.links f) (FunctionDecl.numberedAll n ds) =
        FunctionDecl.resolveMethods ds c
  | [], _, _, _ => rfl
  | d :: ds, c, n, h => by
      obtain ⟨hd, hds⟩ := finds_linksOf_append (d.size_resolve d.methodRoutine c) h
      simp only [FunctionDecl.numberedAll, FunctionDecl.relabelAll, FunctionDecl.resolveMethods,
        d.relabel_numbered _ c n hd, FunctionDecl.relabelAll_numberedAll ds c _ hds]

end

end Resolved

section Kept

/-- The numbers below a bound stand for themselves. -/
def KeepsNumbers (f : Link → Link) (bound : Nat) : Prop :=
  ∀ m, m < bound → f (.numbered m) = .numbered m

variable {f : Link → Link} {bound : Nat}

mutual

theorem Expr.relabel_numbered_of_le (h : KeepsNumbers f bound) :
    ∀ (e : Expr) (n : Nat), n + e.size ≤ bound →
      (e.numbered n).relabel (.links f) = e.numbered n
  | .literal _, _, _ => rfl
  | .grouping inner, n, hn => congrArg Expr.grouping (inner.relabel_numbered_of_le h n hn)
  | .unary operator operand, n, hn =>
      congrArg (Expr.unary operator) (operand.relabel_numbered_of_le h n hn)
  | .binary left operator right, n, hn => by
      rw [Expr.size_binary] at hn
      simp only [Expr.numbered, Expr.relabel, Token.relabel_links,
        left.relabel_numbered_of_le h n (by omega),
        right.relabel_numbered_of_le h (n + left.size) (by omega)]
  | .logical left operator right, n, hn => by
      rw [Expr.size_logical] at hn
      simp only [Expr.numbered, Expr.relabel, Token.relabel_links,
        left.relabel_numbered_of_le h n (by omega),
        right.relabel_numbered_of_le h (n + left.size) (by omega)]
  | .read target, n, hn => congrArg (fun link => Expr.read ⟨target.name, link⟩) (h n hn)
  | .readConstant target, n, hn =>
      congrArg (fun link => Expr.readConstant ⟨target.name, link⟩) (h n hn)
  | .assign target value, n, hn => by
      rw [Expr.size_assign] at hn
      simp only [Expr.numbered, Expr.relabel, Reference.relabel, Token.relabel_links,
        Relabeling.link_links, h (n + value.size) (by omega),
        value.relabel_numbered_of_le h n (by omega)]
  | .call callee closing arguments, n, hn => by
      rw [Expr.size_call] at hn
      simp only [Expr.numbered, Expr.relabel, Token.relabel_links,
        callee.relabel_numbered_of_le h n (by omega),
        Expr.relabelAll_numberedAll_of_le h arguments (n + callee.size) (by omega)]
  | .get object name, n, hn => congrArg (Expr.get · name) (object.relabel_numbered_of_le h n hn)
  | .set object name value, n, hn => by
      rw [Expr.size_set] at hn
      simp only [Expr.numbered, Expr.relabel, Token.relabel_links,
        value.relabel_numbered_of_le h n (by omega),
        object.relabel_numbered_of_le h (n + value.size) (by omega)]
  | .this keyword _, n, hn => congrArg (Expr.this keyword) (h n hn)
  | .super keyword method _, n, hn => congrArg (Expr.super keyword method) (h n hn)

theorem Expr.relabelAll_numberedAll_of_le (h : KeepsNumbers f bound) :
    ∀ (es : List Expr) (n : Nat), n + Expr.sizeAll es ≤ bound →
      Expr.relabelAll (.links f) (Expr.numberedAll n es) = Expr.numberedAll n es
  | [], _, _ => rfl
  | e :: es, n, hn => by
      rw [Expr.sizeAll_cons] at hn
      simp only [Expr.numberedAll, Expr.relabelAll, e.relabel_numbered_of_le h n (by omega),
        Expr.relabelAll_numberedAll_of_le h es (n + e.size) (by omega)]

end

theorem Expr.map_relabel_numbered_of_le
    (h : KeepsNumbers f bound)
    (o : Option Expr)
    (n : Nat)
    (hn : n + optionSize o ≤ bound) :
    (o.map (Expr.numbered n)).map (Expr.relabel (.links f)) = o.map (Expr.numbered n) := by
  cases o with
  | none => rfl
  | some e => exact congrArg some (e.relabel_numbered_of_le h n hn)

mutual

theorem Stmt.relabel_numbered_of_le (h : KeepsNumbers f bound) :
    ∀ (s : Stmt) (n : Nat), n + s.size ≤ bound →
      (s.numbered n).relabel (.links f) = s.numbered n
  | .block body, n, hn => congrArg Stmt.block (Stmt.relabelAll_numberedAll_of_le h body n hn)
  | .funDecl declaration, n, hn =>
      congrArg Stmt.funDecl (declaration.relabel_numbered_of_le h n hn)
  | .classDecl name parent methods, n, hn => by
      rw [Stmt.size_classDecl] at hn
      simp only [Stmt.numbered, Stmt.relabel, Token.relabel_links,
        Expr.map_relabel_numbered_of_le h parent n (by omega),
        FunctionDecl.relabelAll_numberedAll_of_le h methods (n + optionSize parent) (by omega)]
  | .varDecl name initializer, n, hn =>
      congrArg (Stmt.varDecl name) (Expr.map_relabel_numbered_of_le h initializer n hn)
  | .constDecl name initializer, n, hn =>
      congrArg (Stmt.constDecl name) (Expr.map_relabel_numbered_of_le h initializer n hn)
  | .exprStmt expression, n, hn =>
      congrArg Stmt.exprStmt (expression.relabel_numbered_of_le h n hn)
  | .ifStmt condition thenBranch none, n, hn => by
      rw [Stmt.size_ifStmt_none] at hn
      simp only [Stmt.numbered, Stmt.relabel, condition.relabel_numbered_of_le h n (by omega),
        thenBranch.relabel_numbered_of_le h (n + condition.size) (by omega)]
  | .ifStmt condition thenBranch (some elseBranch), n, hn => by
      rw [Stmt.size_ifStmt_some] at hn
      simp only [Stmt.numbered, Stmt.relabel, condition.relabel_numbered_of_le h n (by omega),
        thenBranch.relabel_numbered_of_le h (n + condition.size) (by omega),
        elseBranch.relabel_numbered_of_le h (n + condition.size + thenBranch.size) (by omega)]
  | .printStmt expression, n, hn =>
      congrArg Stmt.printStmt (expression.relabel_numbered_of_le h n hn)
  | .returnStmt keyword value, n, hn =>
      congrArg (Stmt.returnStmt keyword) (Expr.map_relabel_numbered_of_le h value n hn)
  | .whileStmt condition body, n, hn => by
      rw [Stmt.size_whileStmt] at hn
      simp only [Stmt.numbered, Stmt.relabel, condition.relabel_numbered_of_le h n (by omega),
        body.relabel_numbered_of_le h (n + condition.size) (by omega)]

/-- What replaces no number of a tree leaves the tree as it is. -/
theorem Stmt.relabelAll_numberedAll_of_le (h : KeepsNumbers f bound) :
    ∀ (ss : List Stmt) (n : Nat), n + Stmt.sizeAll ss ≤ bound →
      Stmt.relabelAll (.links f) (Stmt.numberedAll n ss) = Stmt.numberedAll n ss
  | [], _, _ => rfl
  | s :: ss, n, hn => by
      rw [Stmt.sizeAll_cons] at hn
      simp only [Stmt.numberedAll, Stmt.relabelAll, s.relabel_numbered_of_le h n (by omega),
        Stmt.relabelAll_numberedAll_of_le h ss (n + s.size) (by omega)]

theorem FunctionDecl.relabel_numbered_of_le (h : KeepsNumbers f bound) :
    ∀ (d : FunctionDecl) (n : Nat), n + d.size ≤ bound →
      (d.numbered n).relabel (.links f) = d.numbered n
  | ⟨name, parameters, body⟩, n, hn => by
      simp only [FunctionDecl.numbered, FunctionDecl.relabel, Token.relabel_links,
        Token.map_relabel_links, Stmt.relabelAll_numberedAll_of_le h body n hn]

theorem FunctionDecl.relabelAll_numberedAll_of_le (h : KeepsNumbers f bound) :
    ∀ (ds : List FunctionDecl) (n : Nat), n + FunctionDecl.sizeAll ds ≤ bound →
      FunctionDecl.relabelAll (.links f) (FunctionDecl.numberedAll n ds) =
        FunctionDecl.numberedAll n ds
  | [], _, _ => rfl
  | d :: ds, n, hn => by
      rw [FunctionDecl.sizeAll_cons] at hn
      simp only [FunctionDecl.numberedAll, FunctionDecl.relabelAll,
        d.relabel_numbered_of_le h n (by omega),
        FunctionDecl.relabelAll_numberedAll_of_le h ds (n + d.size) (by omega)]

end

end Kept

end Lox

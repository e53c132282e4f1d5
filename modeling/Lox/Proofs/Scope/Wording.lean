import Lox.Proofs.Grammar.Sound
import Lox.Proofs.Scope.Sites

/-!
# The words of a program

In a tree that was parsed without errors every token stands where the grammar puts tokens of its
kind: an operator is one of the operators that its node can have, and a name is a name and neither
the word for the instance nor that for the superclass.  This is read off the derivation of the text,
rule by rule, and then found again at every node to which resolution comes.

**Main definitions.**
* `Node.Every`: a property of a node and of all nodes below it.
* `Node.Worded`: the tokens of a node are of the right kinds.

**Results.**
* `Parse.worded_within`: all nodes of a parse without errors are worded.
* `Reaches.every`: what holds of all nodes of a program holds of those that resolution comes to.
-/

namespace Lox

/-- The nodes right below a statement. -/
def Stmt.children : Stmt → List Node
  | .block body => [.statements body]
  | .funDecl f => [.function .function f]
  | .classDecl _ parent methods =>
      parent.toList.map .expression ++ methods.map fun f => .function f.methodRoutine f
  | .varDecl _ initializer => initializer.toList.map .expression
  | .constDecl _ initializer => initializer.toList.map .expression
  | .exprStmt e => [.expression e]
  | .ifStmt condition thenBranch elseBranch =>
      .expression condition :: .statement thenBranch :: elseBranch.toList.map .statement
  | .printStmt e => [.expression e]
  | .returnStmt _ value => value.toList.map .expression
  | .whileStmt condition body => [.expression condition, .statement body]

/-- The nodes right below a node. -/
def Node.children : Node → List Node
  | .expression e => e.parts.map .expression
  | .statement s => s.children
  | .statements [] => []
  | .statements (s :: ss) => [.statement s, .statements ss]
  | .function _ f => [.statements f.body]

/-- A property of a node and of all nodes below it. -/
inductive Node.Every (P : Node → Prop) : Node → Prop
  | intro {node : Node} :
      P node → (∀ child ∈ node.children, Node.Every P child) → Node.Every P node

namespace Node.Every

variable {P : Node → Prop} {node : Node}

theorem here (h : node.Every P) : P node := by
  cases h with
  | intro hnode _ => exact hnode

theorem child (h : node.Every P) {part : Node} (hpart : part ∈ node.children) :
    part.Every P := by
  cases h with
  | intro _ hchildren => exact hchildren part hpart

end Node.Every

/-- The parts of a statement are among the nodes below it. -/
theorem Stmt.mem_children_of_mem_parts
    {s : Stmt}
    {e : Expr}
    (h : e ∈ s.parts) :
    .expression e ∈ s.children := by
  cases s with
  | returnStmt keyword value => cases value <;> simp_all [Stmt.parts, Stmt.children]
  | _ => simp_all [Stmt.parts, Stmt.children]

/-- The value that initializes a name is among the nodes below the declaration. -/
theorem Stmt.mem_children_of_initialized
    {s : Stmt}
    {name : Token}
    {e : Expr}
    (h : s.initialized = some (name, e)) :
    .expression e ∈ s.children := by
  cases s with
  | varDecl n initializer => cases initializer <;> simp_all [Stmt.initialized, Stmt.children]
  | constDecl n initializer => cases initializer <;> simp_all [Stmt.initialized, Stmt.children]
  | _ => simp [Stmt.initialized] at h

/-- What holds of all nodes of a program holds of all nodes that resolution comes to. -/
theorem Reaches.every
    {P : Node → Prop}
    {program : List Stmt}
    (hprogram : (Node.statements program).Every P)
    {p : Site}
    {node : Node}
    (h : Reaches program p node) :
    node.Every P := by
  induction h with
  | program => exact hprogram
  | first _ ih => exact ih.child (by simp [Node.children])
  | rest _ ih => exact ih.child (by simp [Node.children])
  | block _ ih => exact ih.child (by simp [Node.children, Stmt.children])
  | function _ ih => exact ih.child (by simp [Node.children, Stmt.children])
  | body _ ih => exact ih.child (by simp [Node.children])
  | superclass _ ih => exact ih.child (by simp [Node.children, Stmt.children])
  | method _ hf ih => exact ih.child (List.mem_append_right _ (List.mem_map_of_mem hf))
  | initializer _ hs ih => exact ih.child (Stmt.mem_children_of_initialized hs)
  | own _ he ih => exact ih.child (Stmt.mem_children_of_mem_parts he)
  | thenBranch _ ih => exact ih.child (by simp [Node.children, Stmt.children])
  | elseBranch _ ih => exact ih.child (by simp [Node.children, Stmt.children])
  | loopBody _ ih => exact ih.child (by simp [Node.children, Stmt.children])
  | part _ hpart ih => exact ih.child (List.mem_map_of_mem hpart)

/-- The kinds of the tokens that stand for a unary operator. -/
def unaryKinds : List TokenKind := [.bang, .minus]

/-- The kinds of the tokens that stand for a binary operator. -/
def binaryKinds : List TokenKind :=
  [.bangEqual, .equalEqual, .greater, .greaterEqual, .less, .lessEqual, .minus, .plus, .slash,
    .star]

/--
The operator of an expression is one of its kind of node, and what it reads or assigns is a name.
-/
def Expr.Worded : Expr → Prop
  | .unary operator _ => operator.kind ∈ unaryKinds
  | .binary _ operator _ => operator.kind ∈ binaryKinds
  | .read target => target.name.IsName
  | .assign target _ => target.name.IsName
  | _ => True

/-- What a statement declares is a name. -/
def Stmt.Worded : Stmt → Prop
  | .funDecl f => f.name.IsName
  | .classDecl name _ _ => name.IsName
  | .varDecl name _ => name.IsName
  | .constDecl name _ => name.IsName
  | _ => True

/-- The tokens of a node are of the right kinds. -/
def Node.Worded : Node → Prop
  | .expression e => e.Worded
  | .statement s => s.Worded
  | .statements _ => True
  | .function _ f => ∀ name ∈ f.parameters, name.IsName

namespace Grammar

/-- All nodes in a phrase are worded, and its names are names. -/
def Phrase.Worded : Phrase → Prop
  | .token t => t.Spelled
  | .expr e => (Node.expression e).Every Node.Worded
  | .optionalExpr e => ∀ e' ∈ e, (Node.expression e').Every Node.Worded
  | .exprs es => ∀ e ∈ es, (Node.expression e).Every Node.Worded
  | .names ns => ∀ name ∈ ns, name.IsName
  | .parent name => ∀ t ∈ name, t.IsName
  | .stmt s => (Node.statement s).Every Node.Worded
  | .optionalStmt s => ∀ s' ∈ s, (Node.statement s').Every Node.Worded
  | .stmts ss => (Node.statements ss).Every Node.Worded
  | .routine f => f.name.IsName ∧ ∀ routine, (Node.function routine f).Every Node.Worded
  | .routines fs => ∀ f ∈ fs, ∀ routine, (Node.function routine f).Every Node.Worded

/-- A phrase for a symbol: a token of its kind, or a worded phrase. -/
def Phrase.Fills (phrase : Phrase) : Symbol → Prop
  | .terminal kind => ∃ t : Token, phrase = .token t ∧ t.kind = kind ∧ t.Spelled
  | .category _ => phrase.Worded

theorem Phrase.Fills.worded
    {phrase : Phrase}
    {s : Symbol}
    (h : phrase.Fills s) :
    phrase.Worded := by
  cases s with
  | terminal kind =>
      obtain ⟨t, rfl, _, hspelled⟩ := h
      exact hspelled
  | category c => exact h

/-- Statements that are worded one by one are worded as a list. -/
theorem every_statements_iff {ss : List Stmt} :
    (Node.statements ss).Every Node.Worded ↔ ∀ s ∈ ss, (Node.statement s).Every Node.Worded := by
  induction ss with
  | nil => exact ⟨fun _ => by simp, fun _ => .intro trivial (by simp [Node.children])⟩
  | cons s ss ih =>
      rw [List.forall_mem_cons, ← ih]
      constructor
      · exact fun h => ⟨h.child (by simp [Node.children]), h.child (by simp [Node.children])⟩
      · exact fun h => .intro trivial (by simpa [Node.children] using h)

/-- Phrases that fill the places of a row are worded. -/
theorem worded_of_fills
    {phrases : List Phrase}
    {row : List Symbol}
    (h : List.Forall₂ Phrase.Fills phrases row) :
    ∀ p ∈ phrases, p.Worded := by
  induction h with
  | nil => simp
  | cons hfirst _ ih => exact List.forall_mem_cons.mpr ⟨hfirst.worded, ih⟩

/-- The statement for a `for` loop is worded if its clauses and its body are. -/
theorem worded_forLoop
    {first : Option Stmt}
    {condition increment : Option Expr}
    {body : Stmt}
    (hfirst : (Phrase.optionalStmt first).Worded)
    (hcondition : (Phrase.optionalExpr condition).Worded)
    (hincrement : (Phrase.optionalExpr increment).Worded)
    (hbody : (Phrase.stmt body).Worded) :
    (Phrase.stmt (.forLoop first condition increment body)).Worded := by
  have htest : (Node.expression (condition.getD (.literal (.boolean true)))).Every Node.Worded := by
    cases condition with
    | none => exact .intro trivial (by simp [Node.children, Expr.parts])
    | some e => exact hcondition e rfl
  have hround : ∃ round : Stmt, (Node.statement round).Every Node.Worded
      ∧ Stmt.forLoop first condition increment body = Stmt.forLoop first condition none round := by
    cases increment with
    | none => exact ⟨body, hbody, rfl⟩
    | some step =>
        have hstep : (Node.statement (.exprStmt step)).Every Node.Worded :=
          .intro trivial (by simpa [Node.children, Stmt.children] using hincrement step rfl)
        refine ⟨.block [body, .exprStmt step], .intro trivial ?_, rfl⟩
        simpa [Node.children, Stmt.children, every_statements_iff] using ⟨hbody, hstep⟩
  obtain ⟨round, hworded, heq⟩ := hround
  have hwhile : (Node.statement (.whileStmt (condition.getD (.literal (.boolean true)))
      round)).Every Node.Worded :=
    .intro trivial (by simpa [Node.children, Stmt.children] using ⟨htest, hworded⟩)
  rw [heq]
  cases first with
  | none => exact hwhile
  | some s =>
      refine @Node.Every.intro _ (.statement (.block [s, _])) trivial ?_
      simpa [Node.children, Stmt.children, every_statements_iff] using ⟨hfirst s rfl, hwhile⟩

/-- The places of the tokens that stay in the tree, with the kinds of tokens that stand there. -/
def tokenPlaces : Meaning → List (Nat × List TokenKind)
  | .classDecl => [(1, [.identifier])]
  | .parent => [(1, [.identifier])]
  | .routine => [(0, [.identifier])]
  | .oneName => [(0, [.identifier])]
  | .moreNames => [(2, [.identifier])]
  | .constDecl => [(1, [.identifier])]
  | .varDecl => [(1, [.identifier])]
  | .unary => [(0, unaryKinds)]
  | .binary => [(1, binaryKinds)]
  | .read => [(0, [.identifier])]
  | _ => []

theorem rules_tokenPlaces :
    ∀ rule ∈ rules, ∀ place ∈ tokenPlaces rule.meaning,
      ∃ kind ∈ place.2, rule.symbols[place.1]? = some (.terminal kind) := by
  decide

/-- A token at one of these places is of one of the kinds. -/
theorem kind_of_fills
    {rule : Rule}
    (hrule : rule ∈ rules)
    {phrases : List Phrase}
    (hfills : List.Forall₂ Phrase.Fills phrases rule.symbols)
    {i : Nat}
    {kinds : List TokenKind}
    (hplace : (i, kinds) ∈ tokenPlaces rule.meaning)
    {t : Token}
    (ht : phrases[i]? = some (.token t)) :
    t.kind ∈ kinds ∧ t.Spelled := by
  obtain ⟨kind, hkind, hsymbol⟩ := rules_tokenPlaces rule hrule _ hplace
  obtain ⟨hi, hget⟩ := List.getElem?_eq_some_iff.mp ht
  obtain ⟨hi', hget'⟩ := List.getElem?_eq_some_iff.mp hsymbol
  have hfill := hfills.get hi hi'
  simp only [List.get_eq_getElem, hget, hget'] at hfill
  obtain ⟨_, ⟨⟩, rfl, hspelled⟩ := hfill
  exact ⟨hkind, hspelled⟩

theorem eq_of_limited
    {α : Type}
    {items items' : List α}
    (h : limited items = some items') :
    items' = items := by
  unfold limited at h
  split at h
  · exact (Option.some.inj h).symm
  · cases h

/-- An assignment to a name or a property is worded if its parts are. -/
theorem worded_assignment
    {target value e : Expr}
    (htarget : (Node.expression target).Every Node.Worded)
    (hvalue : (Node.expression value).Every Node.Worded)
    (h : target.assignment? value = some e) :
    (Node.expression e).Every Node.Worded := by
  unfold Expr.assignment? at h
  split at h
  · cases h
    exact .intro htarget.here (by simpa [Node.children, Expr.parts] using hvalue)
  · next object name =>
      cases h
      have hobject : (Node.expression object).Every Node.Worded :=
        htarget.child (by simp [Node.children, Expr.parts])
      exact .intro trivial (by simpa [Node.children, Expr.parts] using ⟨hobject, hvalue⟩)
  · cases h

/-- Rules build worded phrases from worded phrases. -/
theorem worded_of_phraseOf
    {rule : Rule}
    (hrule : rule ∈ rules)
    {phrases : List Phrase}
    (hfills : List.Forall₂ Phrase.Fills phrases rule.symbols)
    {phrase : Phrase}
    (h : phraseOf rule.meaning phrases = some phrase) :
    phrase.Worded := by
  have hworded := worded_of_fills hfills
  have htoken {i kinds} := @kind_of_fills rule hrule phrases hfills i kinds
  have hname : ∀ {i t}, (i, [.identifier]) ∈ tokenPlaces rule.meaning →
      phrases[i]? = some (.token t) → t.IsName := fun hplace ht =>
    have ⟨hkind, hspelled⟩ := htoken hplace ht
    hspelled.identifier (List.mem_singleton.mp hkind)
  clear hfills hrule
  generalize rule.meaning = m at h htoken hname
  fun_cases phraseOf m phrases
  case case43 =>
    rw [phraseOf] at h
    · cases h
    all_goals assumption
  all_goals simp only [List.forall_mem_cons, List.not_mem_nil, false_imp_iff, implies_true,
    and_true] at hworded
  case case10 name _ names _ _ body _ =>
    obtain ⟨names', hnames, rfl⟩ := Option.map_eq_some_iff.mp h
    obtain rfl := eq_of_limited hnames
    obtain ⟨_, _, hparameters, _, _, hbody, _⟩ := hworded
    refine ⟨hname (List.mem_singleton_self _) rfl, fun routine => .intro hparameters ?_⟩
    simpa [Node.children, Phrase.Worded] using hbody
  case case29 target _ value =>
    obtain ⟨e, he, rfl⟩ := Option.map_eq_some_iff.mp h
    exact worded_assignment hworded.1 hworded.2.2 he
  case case33 callee _ arguments closing =>
    obtain ⟨arguments', harguments, rfl⟩ := Option.map_eq_some_iff.mp h
    obtain rfl := eq_of_limited harguments
    refine .intro trivial ?_
    simpa [Node.children, Expr.parts, Phrase.Worded] using ⟨hworded.1, hworded.2.2.1⟩
  all_goals cases h
  case case1 => exact hworded
  case case2 => exact .intro trivial (by simp [Node.children])
  case case3 ss s =>
    refine every_statements_iff.mpr fun s' hs' => ?_
    rcases List.mem_append.mp hs' with hs' | hs'
    · exact every_statements_iff.mp hworded.1 s' hs'
    · exact List.mem_singleton.mp hs' ▸ hworded.2
  case case4 _ name parent _ methods _ =>
    refine .intro (hname (List.mem_singleton_self _) rfl) fun child hchild => ?_
    obtain ⟨_, _, hparent, _, hmethods, _⟩ := hworded
    rcases List.mem_append.mp hchild with hchild | hchild
    · cases parent with
      | none => simp at hchild
      | some parent =>
          cases List.mem_singleton.mp hchild
          exact .intro (hparent parent rfl) (by simp [Node.children, Expr.parts])
    · obtain ⟨f, hf, rfl⟩ := List.mem_map.mp hchild
      exact hmethods f hf _
  case case5 => simp [Phrase.Worded]
  case case6 _ name =>
    rintro _ ⟨⟩
    exact hname (List.mem_singleton_self _) rfl
  case case7 => simp [Phrase.Worded]
  case case8 fs f =>
    intro f' hf'
    rcases List.mem_append.mp hf' with hf' | hf'
    · exact hworded.1 f' hf'
    · exact List.mem_singleton.mp hf' ▸ hworded.2.2
  case case9 _ f =>
    refine .intro hworded.2.1 ?_
    simpa [Node.children, Stmt.children, Phrase.Worded] using hworded.2.2 .function
  case case11 => simp [Phrase.Worded]
  case case12 name =>
    intro n hn
    exact List.mem_singleton.mp hn ▸ hname (List.mem_singleton_self _) rfl
  case case13 names _ name =>
    intro n hn
    rcases List.mem_append.mp hn with hn | hn
    · exact hworded.1 n hn
    · exact List.mem_singleton.mp hn ▸ hname (List.mem_singleton_self _) rfl
  case case14 _ name value _ =>
    refine .intro (hname (List.mem_singleton_self _) rfl) ?_
    simpa [Node.children, Stmt.children, Phrase.Worded] using hworded.2.2.1
  case case15 _ name value _ =>
    refine .intro (hname (List.mem_singleton_self _) rfl) ?_
    simpa [Node.children, Stmt.children, Phrase.Worded] using hworded.2.2.1
  case case16 => simp [Phrase.Worded]
  case case17 e => simpa [Phrase.Worded] using hworded
  case case18 _ e => simpa [Phrase.Worded] using hworded.2
  case case19 e _ =>
    exact .intro trivial
      (by simpa [Node.children, Stmt.children, Phrase.Worded] using hworded.1)
  case case20 =>
    obtain ⟨_, _, hfirst, hcondition, _, hincrement, _, hbody⟩ := hworded
    exact worded_forLoop hfirst hcondition hincrement hbody
  case case21 => simp [Phrase.Worded]
  case case22 s => simpa [Phrase.Worded] using hworded
  case case23 _ _ condition _ s =>
    refine .intro trivial ?_
    simpa [Node.children, Stmt.children, Phrase.Worded] using ⟨hworded.2.2.1, hworded.2.2.2.2⟩
  case case24 _ _ condition _ s _ other =>
    obtain ⟨_, _, hcondition, _, hthen, _, helse⟩ := hworded
    refine .intro trivial ?_
    simpa [Node.children, Stmt.children, Phrase.Worded] using ⟨hcondition, hthen, helse⟩
  case case25 _ e _ =>
    exact .intro trivial (by simpa [Node.children, Stmt.children, Phrase.Worded] using hworded.2.1)
  case case26 keyword value _ =>
    exact .intro trivial (by simpa [Node.children, Stmt.children, Phrase.Worded] using hworded.2.1)
  case case27 _ _ condition _ body =>
    refine .intro trivial ?_
    simpa [Node.children, Stmt.children, Phrase.Worded] using ⟨hworded.2.2.1, hworded.2.2.2.2⟩
  case case28 _ body _ =>
    exact .intro trivial (by simpa [Node.children, Stmt.children, Phrase.Worded] using hworded.2.1)
  case case30 left operator right =>
    exact .intro trivial
      (by simpa [Node.children, Expr.parts, Phrase.Worded] using ⟨hworded.1, hworded.2.2⟩)
  case case31 left operator right =>
    refine .intro (htoken (List.mem_singleton_self _) rfl).1 ?_
    simpa [Node.children, Expr.parts, Phrase.Worded] using ⟨hworded.1, hworded.2.2⟩
  case case32 operator operand =>
    refine .intro (htoken (List.mem_singleton_self _) rfl).1 ?_
    simpa [Node.children, Expr.parts, Phrase.Worded] using hworded.2
  case case34 => simp [Phrase.Worded]
  case case35 e => simpa [Phrase.Worded] using hworded
  case case36 es _ e =>
    intro e' he'
    rcases List.mem_append.mp he' with he' | he'
    · exact hworded.1 e' he'
    · exact List.mem_singleton.mp he' ▸ hworded.2.2
  case case37 object _ name =>
    exact .intro trivial (by simpa [Node.children, Expr.parts, Phrase.Worded] using hworded.1)
  case case38 => exact .intro trivial (by simp [Node.children, Expr.parts])
  case case39 => exact .intro trivial (by simp [Node.children, Expr.parts])
  case case40 => exact .intro trivial (by simp [Node.children, Expr.parts])
  case case41 name =>
    exact .intro (hname (List.mem_singleton_self _) rfl) (by simp [Node.children, Expr.parts])
  case case42 _ e _ =>
    exact .intro trivial (by simpa [Node.children, Expr.parts, Phrase.Worded] using hworded.2.1)

mutual

/-- A derivation of well-spelled tokens builds a phrase that fills the place of its symbol. -/
theorem Derivation.fills :
    ∀ d : Derivation, d.Valid → (∀ t ∈ d.tokens, t.Spelled) → ∀ phrase, d.phrase? = some phrase →
      phrase.Fills d.symbol
  | .leaf t, _, hspelled, _, rfl => ⟨t, rfl, rfl, hspelled t (by simp [tokens])⟩
  | .node rule parts, hvalid, hspelled, phrase, hphrase => by
      obtain ⟨hrule, hrow, hparts⟩ := hvalid
      obtain ⟨phrases, hphrases, hbuilt⟩ := Option.bind_eq_some_iff.mp hphrase
      have hfills := fillsAll parts hparts hspelled phrases hphrases
      exact worded_of_phraseOf hrule (hrow ▸ hfills) hbuilt

theorem Derivation.fillsAll :
    ∀ ds : List Derivation, ValidAll ds → (∀ t ∈ tokensOfAll ds, t.Spelled) →
      ∀ phrases, phrases? ds = some phrases → List.Forall₂ Phrase.Fills phrases (ds.map symbol)
  | [], _, _, _, rfl => .nil
  | d :: ds, hvalid, hspelled, phrases, hphrases => by
      simp only [phrases?, Option.bind_eq_bind, Option.bind_eq_some_iff, Option.pure_def,
        Option.some.injEq] at hphrases
      obtain ⟨phrase, hphrase, rest, hrest, rfl⟩ := hphrases
      simp only [tokensOfAll, List.mem_append] at hspelled
      exact .cons (d.fills hvalid.1 (fun t ht => hspelled t (.inl ht)) phrase hphrase)
        (fillsAll ds hvalid.2 (fun t ht => hspelled t (.inr ht)) rest hrest)

end

end Grammar

/-- All nodes of a parse of well-spelled tokens without errors are worded. -/
theorem Parse.worded_within
    {allowance : Nat}
    {tokens : List Token}
    (hspelled : ∀ t ∈ tokens, t.Spelled)
    (h : (Parse.within allowance tokens).errors = []) :
    (Node.statements (Parse.within allowance tokens).statements).Every Node.Worded := by
  obtain ⟨_, d, hvalid, _, hsymbol, rfl, hphrase, _⟩ := Parse.derives_of_no_errors h
  have hfills := d.fills hvalid hspelled _ hphrase
  rw [hsymbol] at hfills
  exact hfills

end Lox

import Lox.Proofs.Decimal.Literals
import Lox.Proofs.Scope.Wording
import Lox.Proofs.Token.Spelling

/-!
# Trees of texts

In a tree that was parsed without errors every token that is kept is spelled as its kind wants it
and stands where the grammar puts tokens of its kind; the values are those that can be written down,
and all links are open.

**Main definitions.**
* `Token.Stands`: a token that is spelled as one of several kinds.
* `Expr.Written`, `Stmt.Written`: trees that a text can have.

**Result.**
* `Parse.written_within`: a parse without errors yields such trees.
-/

namespace Lox

/-- A token of one of several kinds that is spelled as its kind wants it. -/
structure Token.Stands (kinds : List TokenKind) (t : Token) : Prop where
  proper : t.Proper
  kind : t.kind ∈ kinds

/-- The values that are written in texts. -/
inductive Literal.Written : Literal → Prop
  | nil : Literal.Written .nil
  | boolean (value : Bool) : Literal.Written (.boolean value)
  | number {value : Float} (h : Number.IsMagnitude value.toModel.unpack) :
      Literal.Written (.number value)
  | string {value : String} (h : '"' ∉ value.toList) : Literal.Written (.string value)

/-- The kinds of the tokens that stand for a logical operator. -/
def logicalKinds : List TokenKind := [.andWord, .orWord]

/-- The expressions that a text can have. -/
inductive Expr.Written : Expr → Prop
  | literal {value : Literal} (hvalue : value.Written) : Expr.Written (.literal value)
  | grouping {inner : Expr} (hinner : inner.Written) : Expr.Written (.grouping inner)
  | unary
      {operator : Token}
      {operand : Expr}
      (hoperator : operator.Stands unaryKinds)
      (hoperand : operand.Written) :
      Expr.Written (.unary operator operand)
  | binary
      {left right : Expr}
      {operator : Token}
      (hleft : left.Written)
      (hoperator : operator.Stands binaryKinds)
      (hright : right.Written) :
      Expr.Written (.binary left operator right)
  | logical
      {left right : Expr}
      {operator : Token}
      (hleft : left.Written)
      (hoperator : operator.Stands logicalKinds)
      (hright : right.Written) :
      Expr.Written (.logical left operator right)
  | read {name : Token} (hname : name.Stands [.identifier]) :
      Expr.Written (.read ⟨name, .unresolved⟩)
  | assign
      {name : Token}
      {value : Expr}
      (hname : name.Stands [.identifier])
      (hvalue : value.Written) :
      Expr.Written (.assign ⟨name, .unresolved⟩ value)
  | call
      {callee : Expr}
      {closing : Token}
      {arguments : List Expr}
      (hcallee : callee.Written)
      (hclosing : closing.Stands [.rightParen])
      (harguments : ∀ e ∈ arguments, e.Written) :
      Expr.Written (.call callee closing arguments)
  | get
      {object : Expr}
      {name : Token}
      (hobject : object.Written)
      (hname : name.Stands [.identifier]) :
      Expr.Written (.get object name)
  | set
      {object value : Expr}
      {name : Token}
      (hobject : object.Written)
      (hname : name.Stands [.identifier])
      (hvalue : value.Written) :
      Expr.Written (.set object name value)
  | this {keyword : Token} (hkeyword : keyword.Stands [.thisWord]) :
      Expr.Written (.this keyword .unresolved)
  | super
      {keyword method : Token}
      (hkeyword : keyword.Stands [.superWord])
      (hmethod : method.Stands [.identifier]) :
      Expr.Written (.super keyword method .unresolved)

/-- The statements that a text can have. -/
inductive Stmt.Written : Stmt → Prop
  | block {body : List Stmt} (hbody : ∀ s ∈ body, s.Written) : Stmt.Written (.block body)
  | funDecl
      {name : Token}
      {parameters : List Token}
      {body : List Stmt}
      (hname : name.Stands [.identifier])
      (hparameters : ∀ p ∈ parameters, p.Stands [.identifier])
      (hbody : ∀ s ∈ body, s.Written) :
      Stmt.Written (.funDecl ⟨name, parameters, body⟩)
  | classDecl
      {name : Token}
      {parent : Option Token}
      {methods : List FunctionDecl}
      (hname : name.Stands [.identifier])
      (hparent : ∀ p ∈ parent, p.Stands [.identifier])
      (hmethods : ∀ f ∈ methods, Stmt.Written (.funDecl f)) :
      Stmt.Written (.classDecl name (parent.map fun p => .read ⟨p, .unresolved⟩) methods)
  | varDecl
      {name : Token}
      {initializer : Option Expr}
      (hname : name.Stands [.identifier])
      (hinitializer : ∀ e ∈ initializer, e.Written) :
      Stmt.Written (.varDecl name initializer)
  | constDecl
      {name : Token}
      {initializer : Option Expr}
      (hname : name.Stands [.identifier])
      (hinitializer : ∀ e ∈ initializer, e.Written) :
      Stmt.Written (.constDecl name initializer)
  | exprStmt {e : Expr} (he : e.Written) : Stmt.Written (.exprStmt e)
  | ifStmt
      {condition : Expr}
      {thenBranch : Stmt}
      {elseBranch : Option Stmt}
      (hcondition : condition.Written)
      (hthen : thenBranch.Written)
      (helse : ∀ s ∈ elseBranch, s.Written) :
      Stmt.Written (.ifStmt condition thenBranch elseBranch)
  | printStmt {e : Expr} (he : e.Written) : Stmt.Written (.printStmt e)
  | returnStmt
      {keyword : Token}
      {value : Option Expr}
      (hkeyword : keyword.Stands [.returnWord])
      (hvalue : ∀ e ∈ value, e.Written) :
      Stmt.Written (.returnStmt keyword value)
  | whileStmt
      {condition : Expr}
      {body : Stmt}
      (hcondition : condition.Written)
      (hbody : body.Written) :
      Stmt.Written (.whileStmt condition body)

/-- The kinds of the tokens that stand for a value. -/
def constantKinds : List TokenKind := [.trueWord, .falseWord, .nilWord, .number, .string]

/-- What a token stands for is a value that can be written. -/
theorem written_constantOf
    {t : Token}
    (h : t.Stands constantKinds) :
    (Grammar.constantOf t).Written := by
  obtain ⟨hproper, hkind⟩ := h
  simp only [constantKinds, List.mem_cons, List.not_mem_nil, or_false] at hkind
  unfold Grammar.constantOf Token.literal
  rcases hkind with hkind | hkind | hkind | hkind | hkind <;> simp only [hkind]
  · exact .boolean true
  · exact .boolean false
  · exact .nil
  · exact .number (Number.isMagnitude_ofDecimal _)
  · refine .string ?_
    cases hproper with
    | fixed hfixed =>
        have hall : (Grammar.fixedTerminals.all fun x => x.2 != .string) = true := by cbv
        have hne := List.all_eq_true.mp hall _ hfixed
        simp [hkind] at hne
    | identifier hother => rw [hother] at hkind; cases hkind
    | number hother => rw [hother] at hkind; cases hkind
    | string _ hquoted =>
        obtain ⟨inside, htext, hinside⟩ := hquoted
        simpa [unquoted, htext] using hinside

namespace Grammar

/-- All that a phrase consists of is written. -/
def Phrase.Written : Phrase → Prop
  | .token t => t.Proper
  | .expr e => e.Written
  | .optionalExpr e => ∀ e' ∈ e, e'.Written
  | .exprs es => ∀ e ∈ es, e.Written
  | .names ns => ∀ name ∈ ns, name.Stands [.identifier]
  | .parent name => ∀ t ∈ name, t.Stands [.identifier]
  | .stmt s => s.Written
  | .optionalStmt s => ∀ s' ∈ s, s'.Written
  | .stmts ss => ∀ s ∈ ss, s.Written
  | .routine f => (Stmt.funDecl f).Written
  | .routines fs => ∀ f ∈ fs, (Stmt.funDecl f).Written

/-- A phrase for a symbol: a token of its kind, or a written phrase. -/
def Phrase.Suits (phrase : Phrase) : Symbol → Prop
  | .terminal kind => ∃ t : Token, phrase = .token t ∧ t.kind = kind ∧ t.Proper
  | .category _ => phrase.Written

theorem Phrase.Suits.written
    {phrase : Phrase}
    {s : Symbol}
    (h : phrase.Suits s) :
    phrase.Written := by
  cases s with
  | terminal kind =>
      obtain ⟨t, rfl, _, hproper⟩ := h
      exact hproper
  | category c => exact h

theorem written_of_suits
    {phrases : List Phrase}
    {row : List Symbol}
    (h : List.Forall₂ Phrase.Suits phrases row) :
    ∀ p ∈ phrases, p.Written := by
  induction h with
  | nil => simp
  | cons hfirst _ ih => exact List.forall_mem_cons.mpr ⟨hfirst.written, ih⟩

/-- The places of all tokens that stay in the tree, with the kinds of tokens that stand there. -/
def keptPlaces : Meaning → List (Nat × List TokenKind)
  | .returnStmt => [(0, [.returnWord])]
  | .logical => [(1, logicalKinds)]
  | .call => [(3, [.rightParen])]
  | .get => [(2, [.identifier])]
  | .constant => [(0, constantKinds)]
  | .this => [(0, [.thisWord])]
  | .super => [(0, [.superWord]), (2, [.identifier])]
  | m => tokenPlaces m

theorem rules_keptPlaces :
    ∀ rule ∈ rules, ∀ place ∈ keptPlaces rule.meaning,
      ∃ kind ∈ place.2, rule.symbols[place.1]? = some (.terminal kind) := by
  decide

/-- A token at one of these places stands for one of the kinds. -/
theorem stands_of_suits
    {rule : Rule}
    (hrule : rule ∈ rules)
    {phrases : List Phrase}
    (hsuits : List.Forall₂ Phrase.Suits phrases rule.symbols)
    {i : Nat}
    {kinds : List TokenKind}
    (hplace : (i, kinds) ∈ keptPlaces rule.meaning)
    {t : Token}
    (ht : phrases[i]? = some (.token t)) :
    t.Stands kinds := by
  obtain ⟨kind, hkind, hsymbol⟩ := rules_keptPlaces rule hrule _ hplace
  obtain ⟨hi, hget⟩ := List.getElem?_eq_some_iff.mp ht
  obtain ⟨hi', hget'⟩ := List.getElem?_eq_some_iff.mp hsymbol
  have hsuit := hsuits.get hi hi'
  simp only [List.get_eq_getElem, hget, hget'] at hsuit
  obtain ⟨_, ⟨⟩, rfl, hproper⟩ := hsuit
  exact ⟨hproper, hkind⟩

/-- An assignment to a name or a property is written if its parts are. -/
theorem written_assignment
    {target value e : Expr}
    (htarget : target.Written)
    (hvalue : value.Written)
    (h : target.assignment? value = some e) :
    e.Written := by
  cases htarget with
  | read hname => cases h; exact .assign hname hvalue
  | get hobject hname => cases h; exact .set hobject hname hvalue
  | _ => cases h

/-- The statement for a `for` loop is written if its clauses and its body are. -/
theorem written_forLoop
    {first : Option Stmt}
    {condition increment : Option Expr}
    {body : Stmt}
    (hfirst : ∀ s ∈ first, s.Written)
    (hcondition : ∀ e ∈ condition, e.Written)
    (hincrement : ∀ e ∈ increment, e.Written)
    (hbody : body.Written) :
    (Stmt.forLoop first condition increment body).Written := by
  have htest : (condition.getD (.literal (.boolean true))).Written := by
    cases condition with
    | none => exact .literal (.boolean true)
    | some e => exact hcondition e rfl
  have hpair {s s' : Stmt} (hs : s.Written) (hs' : s'.Written) : (Stmt.block [s, s']).Written :=
    .block (by simpa using ⟨hs, hs'⟩)
  have hround : ∃ round : Stmt, round.Written
      ∧ Stmt.forLoop first condition increment body = Stmt.forLoop first condition none round := by
    cases increment with
    | none => exact ⟨body, hbody, rfl⟩
    | some step => exact ⟨_, hpair hbody (.exprStmt (hincrement step rfl)), rfl⟩
  obtain ⟨round, hwritten, heq⟩ := hround
  rw [heq]
  cases first with
  | none => exact .whileStmt htest hwritten
  | some s => exact hpair (hfirst s rfl) (.whileStmt htest hwritten)

/-- Rules build written phrases from written phrases. -/
theorem written_of_phraseOf
    {rule : Rule}
    (hrule : rule ∈ rules)
    {phrases : List Phrase}
    (hsuits : List.Forall₂ Phrase.Suits phrases rule.symbols)
    {phrase : Phrase}
    (h : phraseOf rule.meaning phrases = some phrase) :
    phrase.Written := by
  have hwritten := written_of_suits hsuits
  have htoken {i kinds} := @stands_of_suits rule hrule phrases hsuits i kinds
  clear hsuits hrule
  generalize rule.meaning = m at h htoken
  fun_cases phraseOf m phrases
  case case43 =>
    rw [phraseOf] at h
    · cases h
    all_goals assumption
  all_goals simp only [List.forall_mem_cons, List.not_mem_nil, false_imp_iff, implies_true,
    and_true] at hwritten
  case case10 name _ names _ _ body _ =>
    obtain ⟨names', hnames, rfl⟩ := Option.map_eq_some_iff.mp h
    obtain rfl := eq_of_limited hnames
    obtain ⟨_, _, hparameters, _, _, hbody, _⟩ := hwritten
    exact .funDecl (htoken (List.mem_singleton_self _) rfl) hparameters hbody
  case case29 target _ value =>
    obtain ⟨e, he, rfl⟩ := Option.map_eq_some_iff.mp h
    exact written_assignment hwritten.1 hwritten.2.2 he
  case case33 callee _ arguments closing =>
    obtain ⟨arguments', harguments, rfl⟩ := Option.map_eq_some_iff.mp h
    obtain rfl := eq_of_limited harguments
    exact .call hwritten.1 (htoken (List.mem_singleton_self _) rfl) hwritten.2.2.1
  all_goals cases h
  case case1 => exact hwritten
  case case2 => simp [Phrase.Written]
  case case3 =>
    exact List.forall_mem_append.mpr ⟨hwritten.1, List.forall_mem_singleton.mpr hwritten.2⟩
  case case4 _ name parent _ methods _ =>
    obtain ⟨_, _, hparent, _, hmethods, _⟩ := hwritten
    exact .classDecl (htoken (List.mem_singleton_self _) rfl) hparent hmethods
  case case5 => simp [Phrase.Written]
  case case6 _ name =>
    rintro _ ⟨⟩
    exact htoken (List.mem_singleton_self _) rfl
  case case7 => simp [Phrase.Written]
  case case8 =>
    exact List.forall_mem_append.mpr ⟨hwritten.1, List.forall_mem_singleton.mpr hwritten.2⟩
  case case9 => exact hwritten.2
  case case11 => simp [Phrase.Written]
  case case12 name =>
    simpa [Phrase.Written] using htoken (List.mem_singleton_self _) rfl
  case case13 names _ name =>
    have hname : name.Stands [.identifier] := htoken (List.mem_singleton_self _) rfl
    exact List.forall_mem_append.mpr ⟨hwritten.1, List.forall_mem_singleton.mpr hname⟩
  case case14 _ name value _ =>
    exact .constDecl (htoken (List.mem_singleton_self _) rfl) hwritten.2.2.1
  case case15 _ name value _ =>
    exact .varDecl (htoken (List.mem_singleton_self _) rfl) hwritten.2.2.1
  case case16 => simp [Phrase.Written]
  case case17 => simpa [Phrase.Written] using hwritten
  case case18 => simpa [Phrase.Written] using hwritten.2
  case case19 => exact .exprStmt hwritten.1
  case case20 =>
    obtain ⟨_, _, hfirst, hcondition, _, hincrement, _, hbody⟩ := hwritten
    exact written_forLoop hfirst hcondition hincrement hbody
  case case21 => simp [Phrase.Written]
  case case22 => simpa [Phrase.Written] using hwritten
  case case23 => exact .ifStmt hwritten.2.2.1 hwritten.2.2.2.2 (by simp)
  case case24 =>
    obtain ⟨_, _, hcondition, _, hthen, _, helse⟩ := hwritten
    exact .ifStmt hcondition hthen (by rintro _ ⟨⟩; exact helse)
  case case25 => exact .printStmt hwritten.2.1
  case case26 => exact .returnStmt (htoken (List.mem_singleton_self _) rfl) hwritten.2.1
  case case27 => exact .whileStmt hwritten.2.2.1 hwritten.2.2.2.2
  case case28 => exact .block hwritten.2.1
  case case30 => exact .logical hwritten.1 (htoken (List.mem_singleton_self _) rfl) hwritten.2.2
  case case31 => exact .binary hwritten.1 (htoken (List.mem_singleton_self _) rfl) hwritten.2.2
  case case32 => exact .unary (htoken (List.mem_singleton_self _) rfl) hwritten.2
  case case34 => simp [Phrase.Written]
  case case35 => simpa [Phrase.Written] using hwritten
  case case36 =>
    exact List.forall_mem_append.mpr ⟨hwritten.1, List.forall_mem_singleton.mpr hwritten.2.2⟩
  case case37 => exact .get hwritten.1 (htoken (List.mem_singleton_self _) rfl)
  case case38 => exact .literal (written_constantOf (htoken (List.mem_singleton_self _) rfl))
  case case39 => exact .this (htoken (List.mem_singleton_self _) rfl)
  case case40 =>
    exact .super (htoken List.mem_cons_self rfl)
      (htoken (List.mem_cons_of_mem _ List.mem_cons_self) rfl)
  case case41 => exact .read (htoken (List.mem_singleton_self _) rfl)
  case case42 => exact .grouping hwritten.2.1

mutual

/-- A derivation of properly spelled tokens builds a phrase that suits its symbol. -/
theorem Derivation.suits :
    ∀ d : Derivation, d.Valid → (∀ t ∈ d.tokens, t.Proper) → ∀ phrase, d.phrase? = some phrase →
      phrase.Suits d.symbol
  | .leaf t, _, hproper, _, rfl => ⟨t, rfl, rfl, hproper t (by simp [tokens])⟩
  | .node rule parts, hvalid, hproper, phrase, hphrase => by
      obtain ⟨hrule, hrow, hparts⟩ := hvalid
      obtain ⟨phrases, hphrases, hbuilt⟩ := Option.bind_eq_some_iff.mp hphrase
      have hsuits := suitsAll parts hparts hproper phrases hphrases
      exact written_of_phraseOf hrule (hrow ▸ hsuits) hbuilt

theorem Derivation.suitsAll :
    ∀ ds : List Derivation, ValidAll ds → (∀ t ∈ tokensOfAll ds, t.Proper) →
      ∀ phrases, phrases? ds = some phrases → List.Forall₂ Phrase.Suits phrases (ds.map symbol)
  | [], _, _, _, rfl => .nil
  | d :: ds, hvalid, hproper, phrases, hphrases => by
      simp only [phrases?, Option.bind_eq_bind, Option.bind_eq_some_iff, Option.pure_def,
        Option.some.injEq] at hphrases
      obtain ⟨phrase, hphrase, rest, hrest, rfl⟩ := hphrases
      simp only [tokensOfAll, List.mem_append] at hproper
      exact .cons (d.suits hvalid.1 (fun t ht => hproper t (.inl ht)) phrase hphrase)
        (suitsAll ds hvalid.2 (fun t ht => hproper t (.inr ht)) rest hrest)

end

end Grammar

/-- A parse of properly spelled tokens without errors yields statements that a text can have. -/
theorem Parse.written_within
    {allowance : Nat}
    {tokens : List Token}
    (hproper : ∀ t ∈ tokens, t.Proper)
    (h : (Parse.within allowance tokens).errors = []) :
    ∀ s ∈ (Parse.within allowance tokens).statements, s.Written := by
  obtain ⟨_, d, hvalid, _, hsymbol, rfl, hphrase, _⟩ := Parse.derives_of_no_errors h
  have hsuits := d.suits hvalid hproper _ hphrase
  rw [hsymbol] at hsuits
  exact hsuits

end Lox

import Lox.Grammar.Phrase
import Mathlib

/-!
# What derivations build

For the text of a category only four things matter: its tokens, its phrase, whether it ends with a
conditional that an `else` could still continue, and that inside it every `else` belongs to the
nearest conditional.  `Builds` says that some derivation of a symbol has given values of these, and
`BuildsAll` says the same of derivations for a row of symbols.  The rules of the grammar are then
equivalences: a category builds what one of its rules builds from what the row of the rule builds.

**Results.**
* `builds_category_iff`: the equivalence for the rules of one category.
* `Builds.opens`: the first token of a text that cannot be empty is of one of the opening kinds.
-/

namespace Lox
namespace Grammar

namespace Derivation

mutual

/-- The text ends with a conditional that an `else` could still continue. -/
def endsOpen : Derivation → Bool
  | .leaf _ => false
  | .node rule parts => rule.meaning == .ifStmt || lastOpen false parts

/-- The same for the last of several texts; without any, it is known of the text before them. -/
def lastOpen (before : Bool) : List Derivation → Bool
  | [] => before
  | d :: ds => lastOpen d.endsOpen ds

end

mutual

/-- No `else` stands behind a text that it could continue, so each belongs to the nearest `if`. -/
def NearestElse : Derivation → Prop
  | .leaf _ => True
  | .node _ parts => NearestElseAll false parts

def NearestElseAll (before : Bool) : List Derivation → Prop
  | [] => True
  | d :: ds =>
      (before = true → d.symbol ≠ .terminal .elseWord)
        ∧ d.NearestElse ∧ NearestElseAll d.endsOpen ds

end

end Derivation

/-- All members of a list, if every one of them is there. -/
def allPresent {α : Type} : List (Option α) → Option (List α)
  | [] => some []
  | none :: _ => none
  | some a :: xs => (allPresent xs).map (a :: ·)

theorem phrases?_eq (ds : List Derivation) :
    Derivation.phrases? ds = allPresent (ds.map Derivation.phrase?) := by
  induction ds with
  | nil => rfl
  | cons d ds ih =>
      rw [Derivation.phrases?, ih, List.map_cons]
      cases d.phrase? with
      | none => rfl
      | some p => cases hall : allPresent (ds.map Derivation.phrase?) <;> simp [allPresent, hall]

/-- A symbol has a derivation with these tokens, this phrase and this kind of end. -/
def Builds (s : Symbol) (used : List Token) (phrase : Option Phrase) (isOpen : Bool) : Prop :=
  ∃ d : Derivation, d.Valid ∧ d.NearestElse ∧ d.symbol = s
    ∧ d.tokens = used ∧ d.phrase? = phrase ∧ d.endsOpen = isOpen

/-- A row of symbols has derivations with these tokens and phrases, and they end in this way. -/
def BuildsAll
    (before : Bool)
    (row : List Symbol)
    (used : List Token)
    (phrases : List (Option Phrase))
    (after : Bool) : Prop :=
  ∃ ds : List Derivation, Derivation.ValidAll ds ∧ Derivation.NearestElseAll before ds
    ∧ ds.map Derivation.symbol = row ∧ Derivation.tokensOfAll ds = used
    ∧ ds.map Derivation.phrase? = phrases ∧ Derivation.lastOpen before ds = after

section Rules

variable {used : List Token} {phrase : Option Phrase} {isOpen before after : Bool}
variable {phrases : List (Option Phrase)} {row : List Symbol}

theorem builds_terminal {kind : TokenKind} :
    Builds (.terminal kind) used phrase isOpen
      ↔ ∃ t : Token, t.kind = kind ∧ used = [t] ∧ phrase = some (.token t) ∧ isOpen = false := by
  constructor
  · rintro ⟨d, -, -, hsymbol, rfl, rfl, rfl⟩
    cases d with
    | leaf t => exact ⟨t, by simpa [Derivation.symbol] using hsymbol, rfl, rfl, rfl⟩
    | node rule parts => simp [Derivation.symbol] at hsymbol
  · rintro ⟨t, rfl, rfl, rfl, rfl⟩
    exact ⟨.leaf t, trivial, trivial, rfl, rfl, rfl, rfl⟩

theorem buildsAll_nil :
    BuildsAll before [] used phrases after ↔ used = [] ∧ phrases = [] ∧ after = before := by
  constructor
  · rintro ⟨ds, -, -, hrow, rfl, rfl, rfl⟩
    obtain rfl := List.map_eq_nil_iff.mp hrow
    exact ⟨rfl, rfl, rfl⟩
  · rintro ⟨rfl, rfl, rfl⟩
    exact ⟨[], trivial, trivial, rfl, rfl, rfl, rfl⟩

theorem buildsAll_cons {s : Symbol} :
    BuildsAll before (s :: row) used phrases after
      ↔ ∃ (first rest : List Token) (p : Option Phrase) (ps : List (Option Phrase)) (o : Bool),
        used = first ++ rest ∧ phrases = p :: ps
          ∧ (before = true → s ≠ .terminal .elseWord)
          ∧ Builds s first p o ∧ BuildsAll o row rest ps after := by
  constructor
  · rintro ⟨ds, hvalid, hnearest, hrow, rfl, rfl, rfl⟩
    cases ds with
    | nil => simp at hrow
    | cons d ds =>
        obtain ⟨rfl, rfl⟩ := List.cons.inj hrow
        exact ⟨d.tokens, _, d.phrase?, _, d.endsOpen, rfl, rfl, hnearest.1,
          ⟨d, hvalid.1, hnearest.2.1, rfl, rfl, rfl, rfl⟩,
          ⟨ds, hvalid.2, hnearest.2.2, rfl, rfl, rfl, rfl⟩⟩
  · rintro ⟨_, _, _, _, _, rfl, rfl, helse, ⟨d, hd, hnd, rfl, rfl, rfl, rfl⟩,
      ⟨ds, hds, hnds, rfl, rfl, rfl, rfl⟩⟩
    exact ⟨d :: ds, ⟨hd, hds⟩, ⟨helse, hnd, hnds⟩, rfl, rfl, rfl, rfl⟩

/-- A category builds what one of its rules builds. -/
theorem builds_category_iff {c : Category} :
    Builds (.category c) used phrase isOpen
      ↔ ∃ rule ∈ rules.filter (·.category == c), ∃ (ps : List (Option Phrase)) (o : Bool),
        BuildsAll false rule.symbols used ps o
          ∧ phrase = (allPresent ps).bind (phraseOf rule.meaning)
          ∧ isOpen = (rule.meaning == .ifStmt || o) := by
  constructor
  · rintro ⟨d, hvalid, hnearest, hsymbol, rfl, rfl, rfl⟩
    cases d with
    | leaf t => simp [Derivation.symbol] at hsymbol
    | node rule parts =>
        have hcategory : rule.category = c := by simpa [Derivation.symbol] using hsymbol
        refine ⟨rule, by simpa [hcategory] using hvalid.1, _, _,
          ⟨parts, hvalid.2.2, hnearest, hvalid.2.1, rfl, rfl, rfl⟩, ?_, rfl⟩
        rw [Derivation.phrase?, phrases?_eq]
  · rintro ⟨rule, hrule, _, _, ⟨parts, hvalid, hnearest, hrow, rfl, rfl, rfl⟩, rfl, rfl⟩
    obtain ⟨hmem, hcategory⟩ := List.mem_filter.mp hrule
    refine ⟨.node rule parts, ⟨hmem, hrow, hvalid⟩, hnearest, ?_, rfl, ?_, rfl⟩
    · rw [Derivation.symbol, eq_of_beq hcategory]
    · rw [Derivation.phrase?, phrases?_eq]

end Rules

section Openings

/-- The kinds of the tokens that open a primary expression. -/
def primaryOpenings : List TokenKind :=
  [.trueWord, .falseWord, .nilWord, .number, .string, .thisWord, .superWord, .identifier,
    .leftParen]

def expressionOpenings : List TokenKind :=
  [.bang, .minus] ++ primaryOpenings

/-- The kinds of the tokens that open a statement other than an expression. -/
def statementWords : List TokenKind :=
  [.forWord, .ifWord, .printWord, .returnWord, .whileWord, .leftBrace]

/-- The kinds of the tokens that open a declaration other than a statement. -/
def declarationWords : List TokenKind :=
  [.classWord, .funWord, .constWord, .varWord]

/-- The kinds of the tokens that open a text of a category whose texts are never empty. -/
def Category.openings? : Category → Option (List TokenKind)
  | .declaration => some (declarationWords ++ statementWords ++ expressionOpenings)
  | .classDecl => some [.classWord]
  | .funDecl => some [.funWord]
  | .constDecl => some [.constWord]
  | .varDecl => some [.varWord]
  | .statement => some (statementWords ++ expressionOpenings)
  | .forStmt => some [.forWord]
  | .ifStmt => some [.ifWord]
  | .printStmt => some [.printWord]
  | .returnStmt => some [.returnWord]
  | .whileStmt => some [.whileWord]
  | .block => some [.leftBrace]
  | .exprStmt | .expression | .assignment | .logicOr | .logicAnd | .equality | .comparison
  | .term | .factor | .unary | .arguments => some expressionOpenings
  | .call | .primary => some primaryOpenings
  | .routine | .parameters => some [.identifier]
  | .program | .declarations | .parent | .methods | .parameterList | .initializer | .forFirst
  | .optionalExpression | .argumentList => none

/-- The rule opens with a kind that the openings of its category allow. -/
def Rule.opensWell (r : Rule) : Bool :=
  match r.category.openings?, r.symbols with
  | none, _ => true
  | some kinds, .terminal kind :: _ => kinds.contains kind
  | some kinds, .category c :: _ => (c.openings?.any fun inner => inner.all kinds.contains)
  | some _, [] => false

theorem rules_openWell : ∀ r ∈ rules, r.opensWell = true := by decide

theorem Derivation.opens
    {c : Category}
    {kinds : List TokenKind}
    (hkinds : c.openings? = some kinds) :
    ∀ d : Derivation, d.Valid → d.symbol = .category c →
      ∃ (t : Token) (rest : List Token), d.tokens = t :: rest ∧ t.kind ∈ kinds
  | .leaf t, _, hsymbol => by simp [symbol] at hsymbol
  | .node rule parts, hvalid, hsymbol => by
      obtain ⟨hmem, hrow, hparts⟩ := hvalid
      have hcategory : rule.category = c := by simpa [symbol] using hsymbol
      have hwell := rules_openWell rule hmem
      rw [Rule.opensWell, hcategory, hkinds, ← hrow] at hwell
      match parts, hparts, hwell with
      | [], _, hwell => simp at hwell
      | .leaf t :: rest, _, hwell =>
          exact ⟨t, tokensOfAll rest, rfl, by simpa [symbol] using hwell⟩
      | .node inner innerParts :: rest, hparts, hwell =>
          have hinner : ∃ ks, inner.category.openings? = some ks ∧ ∀ k ∈ ks, k ∈ kinds := by
            simpa [symbol, Option.any_eq_true] using hwell
          obtain ⟨ks, hks, hsubset⟩ := hinner
          obtain ⟨t, ts, htokens, ht⟩ := Derivation.opens hks (.node inner innerParts) hparts.1 rfl
          refine ⟨t, ts ++ tokensOfAll rest, ?_, hsubset _ ht⟩
          rw [tokens, tokensOfAll, htokens, List.cons_append]

/-- A text of a category that is never empty opens with a token of one of the opening kinds. -/
theorem Builds.opens
    {c : Category}
    {used : List Token}
    {phrase : Option Phrase}
    {isOpen : Bool}
    (h : Builds (.category c) used phrase isOpen)
    {kinds : List TokenKind}
    (hkinds : c.openings? = some kinds) :
    ∃ (t : Token) (rest : List Token), used = t :: rest ∧ t.kind ∈ kinds := by
  obtain ⟨d, hvalid, -, hsymbol, rfl, -, -⟩ := h
  exact d.opens hkinds hvalid hsymbol

end Openings

section Checks

variable {t₁ t₂ t₃ t₄ : Token}

theorem limited_eq {α : Type} {items : List α} (h : items.length ≤ mostArguments) :
    limited items = some items :=
  if_pos h

/-- A call has a phrase if its arguments are not too many. -/
theorem phraseOf_call (callee : Expr) (arguments : List Expr) :
    phraseOf .call [.expr callee, .token t₁, .exprs arguments, .token t₂]
      = (limited arguments).map fun es => .expr (.call callee t₂ es) := rfl

/-- A routine has a phrase if its parameters are not too many. -/
theorem phraseOf_routine (name : Token) (names : List Token) (body : List Stmt) :
    phraseOf .routine
        [.token name, .token t₁, .names names, .token t₂, .token t₃, .stmts body, .token t₄]
      = (limited names).map fun ns => .routine ⟨name, ns, body⟩ := rfl

/-- An assignment has a phrase if its target can be assigned. -/
theorem phraseOf_assign (target value : Expr) :
    phraseOf .assign [.expr target, .token t₁, .expr value]
      = (target.assignment? value).map Phrase.expr := rfl

end Checks

section Rows

variable {used first rest : List Token} {isOpen before after : Bool}
variable {phrases : List (Option Phrase)} {row : List Symbol} {c : Category}

theorem buildsAll_terminal_iff {kind : TokenKind} :
    BuildsAll before (.terminal kind :: row) used phrases after
      ↔ ∃ (t : Token) (rest : List Token) (ps : List (Option Phrase)),
        t.kind = kind ∧ used = t :: rest ∧ phrases = some (.token t) :: ps
          ∧ (before = true → kind ≠ .elseWord) ∧ BuildsAll false row rest ps after := by
  rw [buildsAll_cons]
  constructor
  · rintro ⟨_, rest, _, ps, _, rfl, rfl, helse, hfirst, hrest⟩
    obtain ⟨t, ht, rfl, rfl, rfl⟩ := builds_terminal.mp hfirst
    exact ⟨t, rest, ps, ht, rfl, rfl, by simpa using helse, hrest⟩
  · rintro ⟨t, rest, ps, ht, rfl, rfl, helse, hrest⟩
    exact ⟨[t], rest, _, ps, false, rfl, rfl, by simpa using helse,
      builds_terminal.mpr ⟨t, ht, rfl, rfl, rfl⟩, hrest⟩

theorem buildsAll_category_iff :
    BuildsAll before (.category c :: row) used phrases after
      ↔ ∃ (first rest : List Token) (p : Option Phrase) (ps : List (Option Phrase)) (o : Bool),
        used = first ++ rest ∧ phrases = p :: ps
          ∧ Builds (.category c) first p o ∧ BuildsAll o row rest ps after := by
  simp [buildsAll_cons]

/-- A text of a category is built by one of its rules. -/
theorem Builds.cases
    {phrase : Option Phrase}
    {l : List Rule}
    (h : Builds (.category c) used phrase isOpen)
    (hrules : rules.filter (·.category == c) = l) :
    ∃ rule ∈ l, ∃ (ps : List (Option Phrase)) (o : Bool), BuildsAll false rule.symbols used ps o
      ∧ phrase = (allPresent ps).bind (phraseOf rule.meaning)
      ∧ isOpen = (rule.meaning == .ifStmt || o) := by
  rw [← hrules]
  exact builds_category_iff.mp h

theorem BuildsAll.nil : BuildsAll before [] [] [] before :=
  buildsAll_nil.mpr ⟨rfl, rfl, rfl⟩

/-- A row goes on with a token that is no `else`. -/
theorem BuildsAll.terminal
    {t : Token}
    {kind : TokenKind}
    (hkind : kind ≠ .elseWord)
    (ht : t.kind = kind)
    (h : BuildsAll false row rest phrases after) :
    BuildsAll before (.terminal kind :: row) (t :: rest) (some (.token t) :: phrases) after :=
  buildsAll_terminal_iff.mpr ⟨t, rest, phrases, ht, rfl, rfl, fun _ => hkind, h⟩

/-- A row goes on with an `else` only behind a text that the `else` cannot continue. -/
theorem BuildsAll.elseWord
    {t : Token}
    (ht : t.kind = .elseWord)
    (h : BuildsAll false row rest phrases after) :
    BuildsAll false (.terminal .elseWord :: row) (t :: rest) (some (.token t) :: phrases) after :=
  buildsAll_terminal_iff.mpr ⟨t, rest, phrases, ht, rfl, rfl, by simp, h⟩

theorem BuildsAll.category
    {phrase : Option Phrase}
    (hfirst : Builds (.category c) first phrase isOpen)
    (h : BuildsAll isOpen row rest phrases after) :
    BuildsAll before (.category c :: row) (first ++ rest) (phrase :: phrases) after :=
  buildsAll_cons.mpr ⟨first, rest, phrase, phrases, isOpen, rfl, rfl, by simp, hfirst, h⟩

/-- What a row builds, a rule with this row builds. -/
theorem Builds.of_rule
    {m : Meaning}
    {phrase : Option Phrase}
    (hrule : ⟨c, m, row⟩ ∈ rules)
    (h : BuildsAll false row first phrases after)
    (hphrase : (allPresent phrases).bind (phraseOf m) = phrase)
    (hused : first = used) :
    Builds (.category c) used phrase (m == .ifStmt || after) := by
  rw [← hused]
  exact builds_category_iff.mpr
    ⟨⟨c, m, row⟩, by simpa using hrule, phrases, after, h, hphrase.symm, rfl⟩

/-- What a row of a single symbol builds. -/
theorem buildsAll_single_iff {s : Symbol} :
    BuildsAll before [s] used phrases isOpen
      ↔ (before = true → s ≠ .terminal .elseWord)
        ∧ ∃ p : Option Phrase, phrases = [p] ∧ Builds s used p isOpen := by
  rw [buildsAll_cons]
  constructor
  · rintro ⟨first, rest, p, ps, o, rfl, rfl, helse, hfirst, hrest⟩
    obtain ⟨rfl, rfl, rfl⟩ := buildsAll_nil.mp hrest
    exact ⟨helse, p, rfl, by rwa [List.append_nil]⟩
  · rintro ⟨helse, p, rfl, h⟩
    exact ⟨used, [], p, [], isOpen, by simp, rfl, helse, h, .nil⟩

/-- What a category builds, a category that can stand for it builds. -/
theorem Builds.same
    {inner : Category}
    {phrase : Option Phrase}
    (hrule : ⟨c, .same, [.category inner]⟩ ∈ rules)
    (h : Builds (.category inner) used phrase isOpen) :
    Builds (.category c) used phrase isOpen := by
  refine Builds.of_rule hrule (buildsAll_single_iff.mpr ⟨by simp, phrase, rfl, h⟩) ?_ rfl
  cases phrase <;> rfl

/-- A category that only stands for others builds what they build. -/
theorem builds_alternatives_iff
    {choices : List Category}
    {phrase : Option Phrase}
    (hrules : rules.filter (·.category == c) = alternatives c choices) :
    Builds (.category c) used phrase isOpen
      ↔ ∃ inner ∈ choices, Builds (.category inner) used phrase isOpen := by
  constructor
  · intro h
    obtain ⟨rule, hrule, ps, o, hrow, rfl, rfl⟩ := h.cases hrules
    obtain ⟨inner, hinner, rfl⟩ := List.mem_map.mp hrule
    obtain ⟨-, p, rfl, hp⟩ := buildsAll_single_iff.mp hrow
    exact ⟨inner, hinner, by cases p <;> exact hp⟩
  · rintro ⟨inner, hinner, h⟩
    have hmem : (⟨c, .same, [.category inner]⟩ : Rule) ∈ rules.filter (·.category == c) := by
      rw [hrules]
      exact List.mem_map_of_mem hinner
    exact h.same (List.mem_of_mem_filter hmem)

/-- The texts of the rule end with a token of it, so that no `else` can continue them. -/
def Rule.closes (r : Rule) : Bool :=
  match r.symbols.getLast? with
  | some (.terminal _) => r.meaning != .ifStmt
  | _ => false

theorem Derivation.lastOpen_eq_false
    {kind : TokenKind} :
    ∀ {ds : List Derivation} {before : Bool},
      (ds.map symbol).getLast? = some (.terminal kind) → lastOpen before ds = false
  | [], _, h => by simp at h
  | [.leaf _], _, _ => rfl
  | [.node _ _], _, h => by simp [symbol] at h
  | _ :: d :: ds, _, h => by
      rw [lastOpen]
      exact lastOpen_eq_false (by simpa [List.getLast?_cons_cons] using h)

/-- A category whose rules all end with a token builds only closed texts. -/
theorem Builds.closed
    {phrase : Option Phrase}
    (h : Builds (.category c) used phrase isOpen)
    (hcloses : (rules.filter (·.category == c)).all Rule.closes = true) :
    isOpen = false := by
  obtain ⟨rule, hrule, ps, o, ⟨ds, -, -, hrow, -, -, rfl⟩, -, rfl⟩ := builds_category_iff.mp h
  have hrule := List.all_eq_true.mp hcloses rule hrule
  unfold Rule.closes at hrule
  split at hrule
  · next kind hlast =>
      rw [← hrow] at hlast
      rw [Derivation.lastOpen_eq_false hlast]
      simpa using hrule
  · cases hrule

/-- A category has a text of these tokens with this phrase. -/
def Makes (c : Category) (used : List Token) (phrase : Phrase) : Prop :=
  ∃ isOpen : Bool, Builds (.category c) used (some phrase) isOpen

theorem Makes.same
    {inner : Category}
    {phrase : Phrase}
    (hrule : ⟨c, .same, [.category inner]⟩ ∈ rules)
    (h : Makes inner used phrase) :
    Makes c used phrase := by
  obtain ⟨isOpen, h⟩ := h
  exact ⟨isOpen, h.same hrule⟩

/-- The rules without an `else`. -/
def rulesWithoutElse : List Rule :=
  rules.filter fun rule => !rule.symbols.contains (.terminal .elseWord)

/-- A row without an `else` has texts of these tokens with these phrases. -/
def MakesAll (row : List Symbol) (used : List Token) (phrases : List Phrase) : Prop :=
  .terminal .elseWord ∉ row →
    ∀ before : Bool, ∃ after : Bool, BuildsAll before row used (phrases.map some) after

theorem MakesAll.nil : MakesAll [] [] [] :=
  fun _ before => ⟨before, .nil⟩

theorem MakesAll.terminal
    {t : Token}
    {kind : TokenKind}
    {ps : List Phrase}
    (ht : t.kind = kind)
    (h : MakesAll row rest ps) :
    MakesAll (.terminal kind :: row) (t :: rest) (.token t :: ps) := by
  intro hrow before
  rw [List.mem_cons, not_or] at hrow
  obtain ⟨after, h⟩ := h hrow.2 false
  have hkind : kind ≠ .elseWord := fun heq => hrow.1 (heq ▸ rfl)
  exact ⟨after, .terminal hkind ht h⟩

theorem MakesAll.category
    {p : Phrase}
    {ps : List Phrase}
    (hfirst : Makes c first p)
    (h : MakesAll row rest ps) :
    MakesAll (.category c :: row) (first ++ rest) (p :: ps) := by
  intro hrow before
  obtain ⟨isOpen, hfirst⟩ := hfirst
  obtain ⟨after, h⟩ := h (fun hmem => hrow (List.mem_cons_of_mem _ hmem)) isOpen
  exact ⟨after, .category hfirst h⟩

theorem allPresent_map_some {α : Type} (xs : List α) : allPresent (xs.map some) = some xs := by
  induction xs with
  | nil => rfl
  | cons x xs ih => simp [allPresent, ih]

theorem Makes.of_rule
    {m : Meaning}
    {ps : List Phrase}
    {phrase : Phrase}
    (hrule : ⟨c, m, row⟩ ∈ rulesWithoutElse)
    (h : MakesAll row first ps)
    (hphrase : phraseOf m ps = some phrase)
    (hused : first = used) :
    Makes c used phrase := by
  obtain ⟨hrule, hrow⟩ := List.mem_filter.mp hrule
  obtain ⟨after, h⟩ := h (by simpa using hrow) false
  exact ⟨_, Builds.of_rule hrule h (by rw [allPresent_map_some]; exact hphrase) hused⟩

end Rows

end Grammar
end Lox

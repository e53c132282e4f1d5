import Lox.Proofs.Grammar.Builds
import Lox.Tree.Parse.Expr

/-!
# Levels of precedence as categories

The parser has its levels of precedence as data, and the grammar has a category for each of them.
A `Ladder` joins the two: the rules of the category of a level are those of its operators, between
the category itself and that of the next tighter level.

**Results.**
* `builds_level_iff`: a category of a level builds what the tighter one builds, and two operands
  with an operator between them.
* `ladder_operatorLevels`: the levels of the parser are those of the grammar.
-/

namespace Lox
namespace Grammar

/-- The kinds that continue an operand: they open arguments and properties. -/
def postfixOpenings : List TokenKind := [.leftParen, .dot]

/-- The kinds that continue an expression of the given levels. -/
def continuations (levels : List OperatorLevel) : List TokenKind :=
  levels.flatMap OperatorLevel.operators ++ postfixOpenings

theorem continuations_cons (level : OperatorLevel) (levels : List OperatorLevel) :
    continuations (level :: levels) = level.operators ++ continuations levels := by
  rw [continuations, continuations, List.flatMap_cons, List.append_assoc]

/-- The next token is of none of the kinds. -/
def Stops (kinds : List TokenKind) (rest : List Token) : Prop :=
  ∀ t ∈ rest.head?, t.kind ∉ kinds

theorem stops_nil (kinds : List TokenKind) : Stops kinds [] := by
  simp [Stops]

theorem stops_cons {kinds : List TokenKind} {t : Token} {rest : List Token} :
    Stops kinds (t :: rest) ↔ t.kind ∉ kinds := by
  simp [Stops]

/-- A token of one of the kinds is ahead, or it is not. -/
theorem stops_or_cons (kinds : List TokenKind) (ahead : List Token) :
    Stops kinds ahead ∨ ∃ t rest, ahead = t :: rest ∧ t.kind ∈ kinds := by
  cases ahead with
  | nil => exact .inl (stops_nil kinds)
  | cons t rest =>
      by_cases hkind : t.kind ∈ kinds
      · exact .inr ⟨t, rest, rfl, hkind⟩
      · exact .inl (stops_cons.mpr hkind)

theorem Stops.mono
    {kinds more : List TokenKind}
    {rest : List Token}
    (h : Stops more rest)
    (hsubset : ∀ k ∈ kinds, k ∈ more) :
    Stops kinds rest :=
  fun t ht hkind => h t ht (hsubset t.kind hkind)

/-- A text that is never empty starts with no other token than its openings allow. -/
theorem Builds.stops
    {c : Category}
    {used : List Token}
    {phrase : Option Phrase}
    {isOpen : Bool}
    {kinds other : List TokenKind}
    (h : Builds (.category c) used phrase isOpen)
    (hkinds : c.openings? = some kinds)
    (hother : ∀ k ∈ kinds, k ∉ other)
    (rest : List Token) :
    Stops other (used ++ rest) := by
  obtain ⟨t, ts, rfl, ht⟩ := h.opens hkinds
  exact stops_cons.mpr (hother _ ht)

/-- The rules of a category are those of one level of operators. -/
structure LevelOf (level : OperatorLevel) (c tighter : Category) (m : Meaning) : Prop where
  rules_eq : rules.filter (·.category == c) = binaryLevel c tighter m level.operators
  phraseOf_eq (left : Expr) (operator : Token) (right : Expr) :
    phraseOf m [.expr left, .token operator, .expr right]
      = some (.expr (level.node left operator right))
  notIf : (m == .ifStmt) = false
  notElse : TokenKind.elseWord ∉ level.operators

/-- The categories of a list of levels, from that of the first one down to the operands. -/
inductive Ladder : List OperatorLevel → Category → Prop
  | bottom : Ladder [] .unary
  | level
      {level : OperatorLevel} {levels : List OperatorLevel}
      {c tighter : Category} {m : Meaning}
      (hlevel : LevelOf level c tighter m)
      (hother : ∀ k ∈ level.operators, k ∉ continuations levels)
      (htighter : Ladder levels tighter) :
      Ladder (level :: levels) c

section Levels

variable {level : OperatorLevel} {c tighter : Category} {m : Meaning}
variable {used : List Token} {phrase : Option Phrase} {isOpen : Bool}

/-- A level builds what the tighter level builds, and an operation on two operands. -/
theorem builds_level_iff (hlevel : LevelOf level c tighter m) :
    Builds (.category c) used phrase isOpen
      ↔ Builds (.category tighter) used phrase isOpen
        ∨ ∃ (first second : List Token) (operator : Token) (left right : Option Phrase) (o : Bool),
          used = first ++ operator :: second ∧ operator.kind ∈ level.operators
            ∧ Builds (.category c) first left o ∧ Builds (.category tighter) second right isOpen
            ∧ phrase = (allPresent [left, some (.token operator), right]).bind (phraseOf m) := by
  have hrules : ∀ r : Rule, r ∈ rules ∧ r.category = c
      ↔ r ∈ binaryLevel c tighter m level.operators := by
    intro r
    rw [← hlevel.rules_eq, List.mem_filter, beq_iff_eq]
  constructor
  · intro h
    obtain ⟨rule, hrule, ps, o, hrow, rfl, rfl⟩ := builds_category_iff.mp h
    rw [hlevel.rules_eq, binaryLevel, alternatives, List.map_singleton, List.singleton_append,
      List.mem_cons, List.mem_map] at hrule
    rcases hrule with rfl | ⟨kind, hkind, rfl⟩
    · left
      obtain ⟨-, p, rfl, hp⟩ := buildsAll_single_iff.mp hrow
      cases p <;> exact hp
    · right
      obtain ⟨first, rest, left, ps, o₁, rfl, rfl, hfirst, hrest⟩ := buildsAll_category_iff.mp hrow
      obtain ⟨operator, rest, ps, rfl, rfl, rfl, -, hrest⟩ := buildsAll_terminal_iff.mp hrest
      obtain ⟨-, right, rfl, hsecond⟩ := buildsAll_single_iff.mp hrest
      refine ⟨first, rest, operator, left, right, o₁, rfl, hkind, hfirst, ?_, rfl⟩
      simpa [hlevel.notIf] using hsecond
  · rintro (h | ⟨first, second, operator, left, right, o, rfl, hkind, hfirst, hsecond, rfl⟩)
    · exact Builds.same ((hrules _).mpr (by simp [binaryLevel, alternatives])).1 h
    · have hrow : BuildsAll false
          [.category c, .terminal operator.kind, .category tighter]
          (first ++ operator :: (second ++ [])) _ isOpen :=
        .category hfirst (.terminal (ne_of_mem_of_not_mem hkind hlevel.notElse) rfl
          (.category hsecond .nil))
      have hmem : ⟨c, m, [.category c, .terminal operator.kind, .category tighter]⟩ ∈ rules :=
        ((hrules _).mpr (by simp [binaryLevel, alternatives, hkind])).1
      have hbuilt := Builds.of_rule hmem hrow rfl rfl
      simpa [hlevel.notIf] using hbuilt

end Levels

/-- An expression is an assignment or what can stand for one. -/
theorem builds_expression_iff
    {used : List Token}
    {phrase : Option Phrase}
    {isOpen : Bool} :
    Builds (.category .expression) used phrase isOpen
      ↔ Builds (.category .assignment) used phrase isOpen := by
  have hrules : rules.filter (·.category == .expression) = alternatives .expression [.assignment] :=
    rfl
  rw [builds_alternatives_iff hrules]
  simp

/-- The levels of the parser are those of the grammar, from disjunctions to products. -/
theorem ladder_operatorLevels : Ladder operatorLevels .logicOr := by
  have hor : LevelOf ⟨[.orWord], .logical⟩ .logicOr .logicAnd .logical :=
    ⟨rfl, fun _ _ _ => rfl, rfl, by decide⟩
  have hand : LevelOf ⟨[.andWord], .logical⟩ .logicAnd .equality .logical :=
    ⟨rfl, fun _ _ _ => rfl, rfl, by decide⟩
  have hequality : LevelOf ⟨[.bangEqual, .equalEqual], .binary⟩ .equality .comparison .binary :=
    ⟨rfl, fun _ _ _ => rfl, rfl, by decide⟩
  have hcomparison : LevelOf ⟨[.greater, .greaterEqual, .less, .lessEqual], .binary⟩
      .comparison .term .binary :=
    ⟨rfl, fun _ _ _ => rfl, rfl, by decide⟩
  have hterm : LevelOf ⟨[.minus, .plus], .binary⟩ .term .factor .binary :=
    ⟨rfl, fun _ _ _ => rfl, rfl, by decide⟩
  have hfactor : LevelOf ⟨[.slash, .star], .binary⟩ .factor .unary .binary :=
    ⟨rfl, fun _ _ _ => rfl, rfl, by decide⟩
  exact .level hor (by decide) <| .level hand (by decide) <| .level hequality (by decide) <|
    .level hcomparison (by decide) <| .level hterm (by decide) <|
    .level hfactor (by decide) .bottom

end Grammar
end Lox

import Lox.Proofs.Grammar.Levels
import Lox.Tree.Parse.Stmt

/-!
# What the parser accepts is derived

A parser that reports no error has taken a text of the grammar from the tokens ahead, and yields
the tree of that text.  An error is never taken back, so it is enough to follow a parser as long as
it reports none; `Meets` says what is known then of the result, of the tokens taken and of the
tokens left.

**Result.**
* `Parse.derives_of_no_errors`: a parse without errors is a derivation of all its tokens.
-/

namespace Lox
namespace Parser

open Grammar

variable {α β : Type}

/--
From a state, no error has been taken back, one has been reported if the parser has given up, and
without a new error the result, the tokens taken and the tokens left are related.
-/
def Met (s : ParseState) (R : α → List Token → List Token → Prop) :
    EStateM.Result Abort ParseState α → Prop
  | .ok a s' => ∃ new, s'.errors = new ++ s.errors
      ∧ (new = [] → ∃ used, s.ahead = used ++ s'.ahead ∧ R a used s'.ahead)
  | .error .failed s' => ∃ new, new ≠ [] ∧ s'.errors = new ++ s.errors
  | .error .tooDeep _ => True

/-- The same of all runs of a parser. -/
def Meets (parser : Parser α) (R : α → List Token → List Token → Prop) : Prop :=
  ∀ s : ParseState, Met s R (parser s)

/-- Nothing is read without a parser. -/
theorem meets_pure
    {R : α → List Token → List Token → Prop}
    {a : α}
    (h : ∀ rest, R a [] rest) :
    Meets (pure a : Parser α) R :=
  fun s => ⟨[], rfl, fun _ => ⟨[], rfl, h s.ahead⟩⟩

/-- Of a second parser, the relation is known with what the first one has taken before it. -/
theorem meets_bind
    {x : Parser α}
    {f : α → Parser β}
    {P : α → List Token → List Token → Prop}
    {R : β → List Token → List Token → Prop}
    (hx : Meets x P)
    (hf : ∀ a, Meets (f a) fun b used rest =>
      ∀ first, P a first (used ++ rest) → R b (first ++ used) rest) :
    Meets (x >>= f) R := by
  intro s
  have hfirst := hx s
  simp only [bind, EStateM.bind]
  cases hresult : x s with
  | error abort s' =>
      rw [hresult] at hfirst
      cases abort <;> exact hfirst
  | ok a s' =>
      rw [hresult] at hfirst
      obtain ⟨new, herrors, hnew⟩ := hfirst
      have hsecond := hf a s'
      dsimp only
      cases hlast : f a s' with
      | ok b s'' =>
          rw [hlast] at hsecond
          obtain ⟨newer, herrors', hnewer⟩ := hsecond
          refine ⟨newer ++ new, by rw [herrors', herrors, List.append_assoc], fun hnone => ?_⟩
          obtain ⟨hnewer', hnew'⟩ := List.append_eq_nil_iff.mp hnone
          obtain ⟨first, hfirst, hP⟩ := hnew hnew'
          obtain ⟨second, hsecond, hR⟩ := hnewer hnewer'
          refine ⟨first ++ second, by rw [hfirst, hsecond, List.append_assoc], hR first ?_⟩
          rw [← hsecond]
          exact hP
      | error abort s'' =>
          rw [hlast] at hsecond
          cases abort with
          | failed =>
              obtain ⟨newer, hne, herrors'⟩ := hsecond
              exact ⟨newer ++ new, by simp [hne], by rw [herrors', herrors, List.append_assoc]⟩
          | tooDeep => trivial

/-- Less can be said of what is read. -/
theorem meets_mono
    {x : Parser α}
    {P R : α → List Token → List Token → Prop}
    (hx : Meets x P)
    (hPR : ∀ a used rest, P a used rest → R a used rest) :
    Meets x R := by
  intro s
  have h := hx s
  cases hresult : x s with
  | error abort s' =>
      rw [hresult] at h
      cases abort <;> exact h
  | ok a s' =>
      rw [hresult] at h
      obtain ⟨new, herrors, hnew⟩ := h
      refine ⟨new, herrors, fun hnone => ?_⟩
      obtain ⟨used, hused, hP⟩ := hnew hnone
      exact ⟨used, hused, hPR a used s'.ahead hP⟩

/-- The tree that is read can be changed afterwards. -/
theorem meets_map
    {x : Parser α}
    {f : α → β}
    {P : α → List Token → List Token → Prop}
    {R : β → List Token → List Token → Prop}
    (hx : Meets x P)
    (hPR : ∀ a used rest, P a used rest → R (f a) used rest) :
    Meets (f <$> x) R := by
  refine meets_bind (f := fun a => pure (f a)) hx fun a => meets_pure fun rest first hP => ?_
  rw [List.append_nil]
  exact hPR a first rest hP

/-- The bound of a parser is what it takes and what it leaves. -/
theorem meets_bounded
    {parser : List Token → Parser α}
    {R : α → List Token → List Token → Prop}
    (h : ∀ bound, Meets (parser bound) fun a used rest => bound = used ++ rest → R a used rest) :
    Meets (bounded parser) R := by
  intro s
  have hs := h s.ahead s
  unfold bounded
  cases hresult : parser s.ahead s with
  | error abort s' =>
      rw [hresult] at hs
      cases abort <;> exact hs
  | ok a s' =>
      rw [hresult] at hs
      obtain ⟨new, herrors, hnew⟩ := hs
      refine ⟨new, herrors, fun hnone => ?_⟩
      obtain ⟨used, hused, hR⟩ := hnew hnone
      exact ⟨used, hused, hR hused⟩

section Steps

variable {R : α → List Token → List Token → Prop}

/-- To look at the next token reads nothing. -/
theorem meets_peek : Meets peek fun next used rest => used = [] ∧ next = rest.head? :=
  fun _ => ⟨[], rfl, fun _ => ⟨[], rfl, rfl, rfl⟩⟩

/-- To look at the kind of the next token reads nothing. -/
theorem meets_check (kinds : List TokenKind) :
    Meets (check kinds) fun found used rest =>
      used = [] ∧ found = rest.head?.any fun t => kinds.contains t.kind :=
  fun _ => ⟨[], rfl, fun _ => ⟨[], rfl, rfl, rfl⟩⟩

/-- To look for the end reads nothing. -/
theorem meets_atEnd : Meets atEnd fun ended used rest => used = [] ∧ ended = rest.isEmpty :=
  fun _ => ⟨[], rfl, fun _ => ⟨[], rfl, rfl, rfl⟩⟩

/-- One token is read, unless there is none. -/
theorem meets_advance :
    Meets advance fun _ used rest => used = [] ∧ rest = [] ∨ ∃ t, used = [t] := by
  rintro ⟨ahead, errors⟩
  refine ⟨[], rfl, fun _ => ?_⟩
  cases ahead with
  | nil => exact ⟨[], rfl, .inl ⟨rfl, rfl⟩⟩
  | cons t rest => exact ⟨[t], rfl, .inr ⟨t, rfl⟩⟩

/-- What follows an optional token knows its kind if it is there, and what is ahead if it is not. -/
theorem meets_accept
    {kinds : List TokenKind}
    {f : Option Token → Parser α}
    (hnone : Meets (f none) fun a used rest => Stops kinds (used ++ rest) → R a used rest)
    (hsome : ∀ t : Token, t.kind ∈ kinds →
      Meets (f (some t)) fun a used rest => R a (t :: used) rest) :
    Meets (accept kinds >>= f) R := by
  rintro ⟨ahead, errors⟩
  have hstay : Stops kinds ahead → Met ⟨ahead, errors⟩ R (f none ⟨ahead, errors⟩) := by
    intro hstops
    have h := hnone ⟨ahead, errors⟩
    cases hresult : f none ⟨ahead, errors⟩ with
    | error abort s' =>
        rw [hresult] at h
        cases abort <;> exact h
    | ok a s' =>
        rw [hresult] at h
        obtain ⟨new, herrors, hnew⟩ := h
        refine ⟨new, herrors, fun hnone => ?_⟩
        obtain ⟨used, hused, hR⟩ := hnew hnone
        exact ⟨used, hused, hR (hused ▸ hstops)⟩
  simp only [bind, EStateM.bind]
  cases ahead with
  | nil => exact hstay (stops_nil kinds)
  | cons t rest =>
      cases hkind : kinds.contains t.kind with
      | false =>
          simp only [accept, hkind, if_false, Bool.false_eq_true]
          exact hstay (stops_cons.mpr (by simpa using hkind))
      | true =>
          simp only [accept, hkind, if_true]
          have h := hsome t (by simpa using hkind) ⟨rest, errors⟩
          cases hresult : f (some t) ⟨rest, errors⟩ with
          | error abort s' =>
              rw [hresult] at h
              cases abort <;> exact h
          | ok a s' =>
              rw [hresult] at h
              obtain ⟨new, herrors, hnew⟩ := h
              refine ⟨new, herrors, fun hnone => ?_⟩
              obtain ⟨used, hused, hR⟩ := hnew hnone
              exact ⟨t :: used, by rw [List.cons_append, ← hused], hR⟩

/-- After a report, there is an error, and nothing more is known. -/
theorem meets_report
    (fault : ParseFault)
    (found : Option Token) :
    Meets (report fault found) fun _ _ _ => False :=
  fun _ => ⟨[⟨fault, found⟩], rfl, by simp⟩

/-- A parser that fails has read nothing. -/
theorem meets_fail (missing : Expectation) : Meets (fail missing : Parser α) R :=
  fun s => ⟨[⟨.expected missing, s.ahead.head?⟩], List.cons_ne_nil _ _, rfl⟩

/-- A parser without allowance has read nothing. -/
theorem meets_tooDeep : Meets (tooDeep : Parser α) R :=
  fun _ => trivial

/-- A token that is expected is read. -/
theorem meets_expect
    (kind : TokenKind)
    (missing : Expectation) :
    Meets (expect kind missing) fun t used _ => used = [t] ∧ t.kind = kind := by
  refine meets_accept (meets_fail missing) fun t ht => meets_pure fun rest => ?_
  exact ⟨rfl, by simpa using ht⟩

end Steps

section Loops

variable {R : α → List Token → List Token → Prop}

/--
Items that each take a token, up to a closing token or the end: if a relation holds of no items and
is kept by each further item, it holds of all of them.
-/
theorem meets_upTo
    {closing : List TokenKind}
    {item : Parser (Option α)}
    {D : List α → List Token → Prop}
    (hnil : D [] [])
    (hitem : Meets item fun x used _ => used ≠ [] ∧ ∃ a, x = some a
      ∧ ∀ found first, D found first → D (found ++ [a]) (first ++ used)) :
    Meets (upTo closing item) fun found used rest =>
      D found used ∧ (rest = [] ∨ ∃ t ∈ rest.head?, t.kind ∈ closing) := by
  have hcollect : ∀ (bound : List Token) (found : List α),
      Meets (collectUpTo closing item bound found) fun all used rest =>
        used.length + rest.length ≤ bound.length → ∀ first, D found.reverse first →
          D all (first ++ used) ∧ (rest = [] ∨ ∃ t ∈ rest.head?, t.kind ∈ closing) := by
    intro bound
    induction bound with
    | nil =>
        intro found
        refine meets_pure fun rest hlength first hfirst => ⟨by simpa using hfirst, .inl ?_⟩
        simpa using hlength
    | cons t bound ih =>
        intro found
        unfold collectUpTo
        refine meets_bind meets_atEnd fun ended => meets_bind (meets_check closing) fun closed => ?_
        cases hstop : (ended || closed) with
        | true =>
            refine meets_pure fun rest none hclosed none' hended _ first hfirst => ?_
            obtain ⟨rfl, rfl⟩ := hended
            obtain ⟨rfl, rfl⟩ := hclosed
            refine ⟨by simpa using hfirst, ?_⟩
            simpa [Option.any_eq_true] using hstop
        | false =>
            refine meets_bind hitem fun x => ?_
            cases x with
            | none =>
                refine meets_mono (ih found) fun _ _ _ _ _ hitem => ?_
                obtain ⟨-, a, ha, -⟩ := hitem
                cases ha
            | some a =>
                refine meets_mono (ih (a :: found)) ?_
                intro all used rest hall taken htaken none hclosed none' hended hlength first hfirst
                obtain ⟨hne, b, hb, hkeep⟩ := htaken
                obtain ⟨rfl, -⟩ := hended
                obtain ⟨rfl, -⟩ := hclosed
                cases hb
                have htook : 0 < taken.length := List.length_pos_of_ne_nil hne
                simp only [List.nil_append, List.length_append, List.length_cons] at hlength
                have hnext := hall (by omega) (first ++ taken) (by
                  rw [List.reverse_cons]
                  exact hkeep _ _ hfirst)
                simpa using hnext
  refine meets_bounded fun bound => meets_mono (hcollect bound []) ?_
  intro all used rest hall hbound
  exact hall (by rw [hbound, List.length_append]) [] hnil

/--
Items between parentheses: if a relation holds of a first item and is kept by each further one, it
holds of all of them, and there are not too many.
-/
theorem meets_inParentheses
    {excess : ParseFault}
    {item : Parser α}
    {D : List α → List Token → Prop}
    (hnil : D [] [])
    (hfirst : Meets item fun a used _ => D [a] used)
    (hnext : Meets item fun a used _ => ∀ found first comma, D found first → found ≠ [] →
      comma.kind = .comma → D (found ++ [a]) (first ++ comma :: used)) :
    Meets (inParentheses excess item) fun found used _ =>
      D found used ∧ found.length ≤ mostArguments := by
  have hcollect : ∀ (bound : List Token) (count : Nat) (found : List α),
      count = found.length → found ≠ [] →
        Meets (collectSeparated excess item bound count found) fun all used _ =>
          count ≤ mostArguments → ∀ first, D found.reverse first →
            D all (first ++ used) ∧ all.length ≤ mostArguments := by
    intro bound
    induction bound with
    | nil =>
        rintro count found rfl -
        refine meets_pure fun rest hcount first hD => ?_
        rw [List.append_nil]
        exact ⟨hD, by simpa using hcount⟩
    | cons t bound ih =>
        rintro count found rfl hne
        unfold collectSeparated
        refine meets_accept (meets_pure fun rest _ hcount first hD => ?_) fun comma hkind => ?_
        · simpa using And.intro hD hcount
        · have hrest : Meets
              (do let x ← item; collectSeparated excess item bound (found.length + 1) (x :: found))
              fun all used _ => found.length < mostArguments → ∀ first, D found.reverse first →
                D all (first ++ comma :: used) ∧ all.length ≤ mostArguments := by
            refine meets_bind hnext fun x => ?_
            refine meets_mono (ih (found.length + 1) (x :: found) rfl (by simp)) ?_
            intro all used rest hall taken htaken hcount first hD
            have hcomma : comma.kind = .comma := by simpa using hkind
            have hkept := htaken found.reverse first comma hD (by simpa using hne) hcomma
            simpa using hall (by omega) (first ++ comma :: taken) (by simpa using hkept)
          dsimp only
          split
          · refine meets_bind meets_peek fun _ => meets_bind (meets_report _ _) fun _ => ?_
            exact meets_mono hrest fun _ _ _ _ _ hnever => hnever.elim
          · next hcount =>
              refine meets_mono hrest fun all used rest hall _ first hD => ?_
              exact hall (by omega) first hD
  refine meets_bind (meets_check _) fun closed => ?_
  cases closed with
  | true =>
      refine meets_pure fun rest none hnone => ?_
      obtain ⟨rfl, -⟩ := hnone
      exact ⟨hnil, by simp⟩
  | false =>
      refine meets_bind hfirst fun x => meets_bounded fun bound => ?_
      refine meets_mono (hcollect bound 1 [x] rfl (by simp)) ?_
      intro all used rest hall _ first hD none hnone
      obtain ⟨rfl, -⟩ := hnone
      exact hall (by decide) first (by simpa using hD)

end Loops

section Expressions

/-- Whatever a parser of expressions yields is an expression of a category. -/
def MeetsExpr (parser : Parser Expr) (c : Category) : Prop :=
  Meets parser fun e used _ => Makes c used (.expr e)

/-- An expression of a category is one of the category above it. -/
theorem MeetsExpr.same
    {parser : Parser Expr}
    {c inner : Category}
    (h : MeetsExpr parser inner)
    (hrule : ⟨c, .same, [.category inner]⟩ ∈ rules) :
    MeetsExpr parser c :=
  meets_mono h fun _ _ _ hmakes => hmakes.same hrule

/-- An operation on two operands is an expression of the level of its operator. -/
theorem makes_operation
    {level : OperatorLevel}
    {c tighter : Category}
    {m : Meaning}
    (hlevel : LevelOf level c tighter m)
    {first second : List Token}
    {left right : Expr}
    {operator : Token}
    (hleft : Makes c first (.expr left))
    (hoperator : operator.kind ∈ level.operators)
    (hright : Makes tighter second (.expr right)) :
    Makes c (first ++ operator :: second) (.expr (level.node left operator right)) := by
  obtain ⟨o₁, hleft⟩ := hleft
  obtain ⟨o₂, hright⟩ := hright
  exact ⟨o₂, (builds_level_iff hlevel).mpr <|
    .inr ⟨first, second, operator, _, _, o₁, rfl, hoperator, hleft, hright,
      (hlevel.phraseOf_eq left operator right).symm⟩⟩

/-- A chain of operators is derived from the category of its level. -/
theorem meets_joined
    {operand : Parser Expr}
    (hoperand : MeetsExpr operand .unary)
    {levels : List OperatorLevel}
    {c : Category}
    (hladder : Ladder levels c) :
    MeetsExpr (joined levels operand) c := by
  induction hladder with
  | bottom => exact hoperand
  | @level level levels c tighter m hlevel _ _ ih =>
      have hchain : ∀ (bound : List Token) (left : Expr),
          Meets (chainOnto level (joined levels operand) bound left) fun e used _ =>
            ∀ first, Makes c first (.expr left) → Makes c (first ++ used) (.expr e) := by
        intro bound
        induction bound with
        | nil =>
            intro left
            refine meets_pure fun rest first hleft => ?_
            rw [List.append_nil]
            exact hleft
        | cons t bound ihbound =>
            intro left
            unfold chainOnto
            refine meets_accept (meets_pure fun rest _ first hleft => ?_) fun operator hkind => ?_
            · rw [List.append_nil]
              exact hleft
            · refine meets_bind ih fun right => ?_
              refine meets_mono (ihbound (level.node left operator right)) ?_
              intro e used rest hall second hright first hleft
              have hnode := makes_operation hlevel hleft hkind hright
              simpa using hall (first ++ operator :: second) hnode
      refine meets_bind ih fun left => meets_bounded fun bound => ?_
      refine meets_mono (hchain bound left) fun e used rest hall _ first hleft => ?_
      have hsame : Makes c first (.expr left) := by
        obtain ⟨o, hleft⟩ := hleft
        exact ⟨o, (builds_level_iff hlevel).mpr (.inl hleft)⟩
      exact hall first hsame

/-- A parser that passes over the token that it has seen before has taken this token. -/
theorem meets_advance_seen
    {α : Type}
    {t : Token}
    {parser : Parser α}
    {R : α → List Token → List Token → Prop}
    (h : Meets parser fun a used rest => R a (t :: used) rest) :
    Meets (do advance; parser) fun a used rest =>
      ∀ first, first = [] ∧ some t = (used ++ rest).head? → R a (first ++ used) rest := by
  refine meets_bind meets_advance fun _ => meets_mono h ?_
  rintro a used rest hR taken htaken first ⟨rfl, hseen⟩
  rcases htaken with ⟨rfl, hnone⟩ | ⟨t', rfl⟩
  · simp [hnone] at hseen
  · obtain rfl : t = t' := by simpa using hseen
    exact hR

variable {inner : Parser Expr} (hinner : MeetsExpr inner .expression)
include hinner

/-- An operand is derived. -/
theorem meets_primary : MeetsExpr (primary inner) .primary := by
  refine meets_bind meets_peek fun next => ?_
  cases next with
  | none => exact meets_fail _
  | some t =>
      have hconstant : ∀ {kind : TokenKind} {value : Literal},
          t.kind = kind → ⟨.primary, .constant, [.terminal kind]⟩ ∈ rulesWithoutElse →
          constantOf t = value →
          Meets (pure (.literal value)) fun e used _ => Makes .primary (t :: used) (.expr e) := by
        rintro kind value hkind hrule rfl
        exact meets_pure fun _ => .of_rule hrule (.terminal hkind .nil) rfl rfl
      have hseen : ∀ {parser : Parser Expr},
          Meets parser (fun e used _ => Makes .primary (t :: used) (.expr e)) →
          Meets (do advance; parser) fun e used rest =>
            ∀ first, first = [] ∧ some t = (used ++ rest).head? →
              Makes .primary (first ++ used) (.expr e) :=
        meets_advance_seen (R := fun e used _ => Makes .primary used (.expr e))
      dsimp only
      split
      case h_1 hkind =>
        refine hseen (hconstant hkind (by decide) ?_)
        rw [constantOf, hkind]
      case h_2 hkind =>
        refine hseen (hconstant hkind (by decide) ?_)
        rw [constantOf, hkind]
      case h_3 hkind =>
        refine hseen (hconstant hkind (by decide) ?_)
        rw [constantOf, hkind, Token.literal, hkind]
      case h_4 hkind =>
        refine hseen (hconstant hkind (by decide) ?_)
        rw [constantOf, hkind]
      case h_5 hkind =>
        refine hseen (hconstant hkind (by decide) ?_)
        rw [constantOf, hkind]
      case h_6 hkind =>
        refine hseen (meets_bind (meets_expect _ _) fun dot =>
          meets_bind (meets_expect _ _) fun method => meets_pure ?_)
        rintro rest _ ⟨rfl, hmethod⟩ _ ⟨rfl, hdot⟩
        exact .of_rule (m := .super) (by decide)
          (.terminal hkind (.terminal hdot (.terminal hmethod .nil))) rfl rfl
      case h_7 hkind =>
        refine hseen (meets_pure fun _ => ?_)
        exact .of_rule (m := .this) (by decide) (.terminal hkind .nil) rfl rfl
      case h_8 hkind =>
        refine hseen (meets_pure fun _ => ?_)
        exact .of_rule (m := .read) (by decide) (.terminal hkind .nil) rfl rfl
      case h_9 hkind =>
        refine hseen (meets_bind hinner fun e => meets_bind (meets_expect _ _)
          fun closing => meets_pure ?_)
        rintro rest _ ⟨rfl, hclosing⟩ used he
        exact .of_rule (m := .grouping) (by decide)
          (.terminal hkind (.category he (.terminal hclosing .nil))) rfl rfl
      case h_10 => exact meets_fail _

/-- The arguments of a call are derived, and there are not too many. -/
theorem meets_arguments :
    Meets (inParentheses .tooManyArguments inner) fun es used _ =>
      Makes .argumentList used (.exprs es) ∧ es.length ≤ mostArguments := by
  -- a list with a last argument is built by the rules of `arguments`
  refine meets_mono (meets_inParentheses
    (D := fun es used => Makes .argumentList used (.exprs es)
      ∧ (es ≠ [] → Makes .arguments used (.exprs es))) ?_ ?_ ?_) ?_
  · exact ⟨.of_rule (m := .noArguments) (by decide) .nil rfl rfl, by simp⟩
  · refine meets_mono hinner fun e used _ he => ?_
    have hone : Makes .arguments (used ++ []) (.exprs [e]) :=
      .of_rule (m := .oneArgument) (by decide) (.category he .nil) rfl rfl
    rw [List.append_nil] at hone
    exact ⟨hone.same (by decide), fun _ => hone⟩
  · refine meets_mono hinner fun e used _ he es first comma hes hne hcomma => ?_
    have hmore : Makes .arguments (first ++ (comma :: (used ++ []))) (.exprs (es ++ [e])) :=
      .of_rule (m := .moreArguments) (by decide)
        (.category (hes.2 hne) (.terminal hcomma (.category he .nil))) rfl rfl
    rw [List.append_nil] at hmore
    exact ⟨hmore.same (by decide), fun _ => hmore⟩
  · exact fun es used _ h => ⟨h.1.1, h.2⟩

/-- A call is derived, with all that stands behind its callee. -/
theorem meets_postfixed : MeetsExpr (postfixed inner) .call := by
  have hchain : ∀ (bound : List Token) (object : Expr),
      Meets (postfixOnto inner bound object) fun e used _ =>
        ∀ first, Makes .call first (.expr object) → Makes .call (first ++ used) (.expr e) := by
    intro bound
    induction bound with
    | nil =>
        intro object
        refine meets_pure fun rest first hobject => ?_
        rw [List.append_nil]
        exact hobject
    | cons t bound ih =>
        intro object
        unfold postfixOnto
        refine meets_accept (meets_pure fun rest _ first hobject => ?_) fun opener hkind => ?_
        · rw [List.append_nil]
          exact hobject
        · dsimp only
          split
          · next hopener =>
              refine meets_bind (meets_arguments hinner) fun arguments =>
                meets_bind (meets_expect _ _) fun closing =>
                meets_mono (ih (.call object closing arguments)) ?_
              rintro e used rest hall _ ⟨rfl, hclosing⟩ second ⟨hsecond, hlimit⟩ first hobject
              have hcall : Makes .call (first ++ opener :: (second ++ [closing]))
                  (.expr (.call object closing arguments)) :=
                .of_rule (m := .call) (by decide)
                  (.category hobject (.terminal (eq_of_beq hopener)
                    (.category hsecond (.terminal hclosing .nil))))
                  (by rw [phraseOf_call, limited_eq hlimit]; rfl) rfl
              simpa using hall _ hcall
          · next hopener =>
              refine meets_bind (meets_expect _ _) fun name => meets_mono (ih (.get object name)) ?_
              rintro e used rest hall _ ⟨rfl, hname⟩ first hobject
              have hne : opener.kind ≠ .leftParen := by simpa using hopener
              have hdot : opener.kind = .dot := by simpa [hne] using hkind
              have hget : Makes .call (first ++ [opener, name]) (.expr (.get object name)) :=
                .of_rule (m := .get) (by decide)
                  (.category hobject (.terminal hdot (.terminal hname .nil))) rfl rfl
              simpa using hall _ hget
  refine meets_bind (meets_primary hinner) fun object => meets_bounded fun bound => ?_
  refine meets_mono (hchain bound object) fun e used rest hall _ first hobject => ?_
  exact hall first (hobject.same (by decide))

/-- An assignment is derived, and only a name or a property is assigned to. -/
theorem meets_assignment
    {operand : Parser Expr}
    (hoperand : MeetsExpr operand .unary) :
    MeetsExpr (assignment operand inner) .expression := by
  refine meets_bind (meets_joined hoperand ladder_operatorLevels) fun target =>
    meets_accept (meets_pure fun rest _ first hfirst => ?_) fun equals hkind => ?_
  · have hassignment : Makes .assignment first (.expr target) := hfirst.same (by decide)
    simpa using hassignment.same (c := .expression) (by decide)
  · refine meets_bind hinner fun value => ?_
    cases hresult : target.assignment? value with
    | none =>
        dsimp only
        refine meets_bind (meets_report _ _) fun _ => meets_pure ?_
        exact fun _ _ hnever => hnever.elim
    | some result =>
        refine meets_pure fun rest second hsecond first hfirst => ?_
        obtain ⟨o, hsecond⟩ := hsecond
        have hvalue : Makes .assignment second (.expr value) :=
          ⟨o, builds_expression_iff.mp hsecond⟩
        have hequal : equals.kind = .equal := by simpa using hkind
        have hassign : Makes .assignment (first ++ equals :: second) (.expr result) :=
          .of_rule (m := .assign) (by decide)
            (.category hfirst (.terminal hequal (.category hvalue .nil)))
            (by rw [phraseOf_assign, hresult]; rfl) (by simp)
        simpa using hassign.same (c := .expression) (by decide)

end Expressions

mutual

/-- An expression is derived. -/
theorem meets_expression : ∀ allowance, MeetsExpr (expression allowance) .expression
  | 0 => meets_tooDeep
  | allowance + 1 => meets_assignment (meets_expression allowance) (meets_unary allowance)

/-- A unary expression is derived. -/
theorem meets_unary : ∀ allowance, MeetsExpr (unary allowance) .unary
  | 0 => meets_tooDeep
  | allowance + 1 => by
      unfold unary
      refine meets_accept ?_ fun operator hkind => ?_
      · have hcall := (meets_postfixed (meets_expression allowance)).same
          (c := .unary) (by decide)
        exact meets_mono hcall fun e used rest he _ => he
      · refine meets_bind (meets_unary allowance) fun operand =>
          meets_pure fun rest used hused => ?_
        have hrule :
            ⟨.unary, .unary, [.terminal operator.kind, .category .unary]⟩ ∈ rulesWithoutElse := by
          rcases (by simpa using hkind : operator.kind = .bang ∨ operator.kind = .minus)
            with h | h <;> rw [h] <;> decide
        exact .of_rule hrule (.terminal rfl (.category hused .nil)) rfl rfl

end

section Statements

/-- A statement of a category has been taken, and no `else` that could continue it is left. -/
def IsStmt (c : Category) (s : Stmt) (used rest : List Token) : Prop :=
  ∃ isOpen, Builds (.category c) used (some (.stmt s)) isOpen
    ∧ (isOpen = true → Stops [.elseWord] rest)

/-- A statement of a category is one of the category above it. -/
theorem IsStmt.same
    {c inner : Category}
    {s : Stmt}
    {used rest : List Token}
    (h : IsStmt inner s used rest)
    (hrule : ⟨c, .same, [.category inner]⟩ ∈ rules) :
    IsStmt c s used rest := by
  obtain ⟨isOpen, hbuilt, hstops⟩ := h
  exact ⟨isOpen, hbuilt.same hrule, hstops⟩

/-- Statements that end with a token are not continued by an `else`. -/
theorem IsStmt.of_makes
    {c : Category}
    {s : Stmt}
    {used rest : List Token}
    (h : Makes c used (.stmt s))
    (hcloses : (rules.filter (·.category == c)).all Rule.closes = true) :
    IsStmt c s used rest := by
  obtain ⟨isOpen, hbuilt⟩ := h
  have hclosed := hbuilt.closed hcloses
  exact ⟨isOpen, hbuilt, by simp [hclosed]⟩

/-- Whatever a parser of statements yields is a statement. -/
def MeetsStmt (parser : Parser Stmt) : Prop :=
  Meets parser (IsStmt .statement)

/-- Whatever a parser of declarations yields is a declaration. -/
def MeetsItem (item : Parser (Option Stmt)) : Prop :=
  Meets item fun x used rest => ∃ s, x = some s ∧ IsStmt .declaration s used rest

/-- Where no error is reported, the declaration is read that is derived. -/
theorem meets_recovering
    {parser : Parser Stmt}
    (h : Meets parser (IsStmt .declaration)) :
    MeetsItem (recovering parser) := by
  intro s
  have hs := h s
  unfold recovering
  cases hresult : parser s with
  | ok a s' =>
      rw [hresult] at hs
      obtain ⟨new, herrors, hnew⟩ := hs
      refine ⟨new, herrors, fun hnone => ?_⟩
      obtain ⟨used, hused, hstmt⟩ := hnew hnone
      exact ⟨used, hused, a, rfl, hstmt⟩
  | error abort s' =>
      rw [hresult] at hs
      cases abort with
      | failed =>
          -- the error stays, so there is nothing to show of the tokens
          obtain ⟨new, hne, herrors⟩ := hs
          exact ⟨new, herrors, fun hnone => absurd hnone hne⟩
      | tooDeep => trivial

/-- The parameters of a function are derived, and there are not too many. -/
theorem meets_parameters :
    Meets parameters fun names used _ =>
      Makes .parameterList used (.names names) ∧ names.length ≤ mostArguments := by
  -- a list with a last name is built by the rules of `parameters`
  refine meets_mono (meets_inParentheses
    (D := fun names used => Makes .parameterList used (.names names)
      ∧ (names ≠ [] → Makes .parameters used (.names names))) ?_ ?_ ?_) ?_
  · exact ⟨.of_rule (m := .noNames) (by decide) .nil rfl rfl, by simp⟩
  · refine meets_mono (meets_expect _ _) ?_
    rintro name _ _ ⟨rfl, hname⟩
    have hone : Makes .parameters [name] (.names [name]) :=
      .of_rule (m := .oneName) (by decide) (.terminal hname .nil) rfl rfl
    exact ⟨hone.same (by decide), fun _ => hone⟩
  · refine meets_mono (meets_expect _ _) ?_
    rintro name _ _ ⟨rfl, hname⟩ names first comma hnames hne hcomma
    have hmore : Makes .parameters (first ++ [comma, name]) (.names (names ++ [name])) :=
      .of_rule (m := .moreNames) (by decide)
        (.category (hnames.2 hne) (.terminal hcomma (.terminal hname .nil))) rfl rfl
    exact ⟨hmore.same (by decide), fun _ => hmore⟩
  · exact fun names used _ h => ⟨h.1.1, h.2⟩

variable {inner : Parser Expr} (hinner : MeetsExpr inner .expression)
variable {branch : Parser Stmt} (hbranch : MeetsStmt branch)
variable {item : Parser (Option Stmt)} (hitem : MeetsItem item)

include hitem in
/-- The declarations up to a closing token are derived. -/
theorem meets_declarations (closing : List TokenKind) :
    Meets (upTo closing item) fun body used rest =>
      Makes .declarations used (.stmts body)
        ∧ (rest = [] ∨ ∃ t ∈ rest.head?, t.kind ∈ closing) := by
  refine meets_upTo (D := fun body used => Makes .declarations used (.stmts body)) ?_ ?_
  · exact .of_rule (m := .noStatements) (by decide) .nil rfl rfl
  · refine meets_mono hitem ?_
    rintro x used rest ⟨s, rfl, isOpen, hbuilt, -⟩
    obtain ⟨t, tail, rfl, -⟩ := hbuilt.opens rfl
    refine ⟨by simp, s, rfl, fun found first hfound => ?_⟩
    have hmore : Makes .declarations (first ++ ((t :: tail) ++ [])) (.stmts (found ++ [s])) :=
      .of_rule (m := .moreStatements) (by decide)
        (.category hfound (.category ⟨isOpen, hbuilt⟩ .nil)) rfl rfl
    simpa using hmore

include hitem in
/-- The body of a block is derived, without its closing brace. -/
theorem meets_blockBody :
    Meets (blockBody item) fun body used _ => ∃ (first : List Token) (closing : Token),
      used = first ++ [closing] ∧ closing.kind = .rightBrace
        ∧ Makes .declarations first (.stmts body) := by
  refine meets_bind (meets_declarations hitem _) fun body => meets_bind (meets_expect _ _)
    fun closing => meets_pure ?_
  rintro rest _ ⟨rfl, hclosing⟩ first ⟨hfirst, -⟩
  exact ⟨first, closing, rfl, hclosing, hfirst⟩

include hitem in
/-- A function or a method is derived. -/
theorem meets_routine (sort : RoutineSort) :
    Meets (routine sort item) fun f used _ => Makes .routine used (.routine f) := by
  refine meets_bind (meets_expect _ _) fun name => meets_bind (meets_expect _ _) fun opening =>
    meets_bind meets_parameters fun names => meets_bind (meets_expect _ _) fun ending =>
    meets_bind (meets_expect _ _) fun brace => meets_bind (meets_blockBody hitem) fun body =>
    meets_pure ?_
  rintro rest _ ⟨first, closing, rfl, hclosing, hfirst⟩ _ ⟨rfl, hbrace⟩ _ ⟨rfl, hending⟩
    middle ⟨hnames, hlimit⟩ _ ⟨rfl, hopening⟩ _ ⟨rfl, hname⟩
  have hroutine : Makes .routine
      (name :: opening :: (middle ++ ending :: brace :: (first ++ [closing])))
      (.routine ⟨name, names, body⟩) :=
    .of_rule (m := .routine) (by decide)
      (.terminal hname (.terminal hopening (.category hnames (.terminal hending
        (.terminal hbrace (.category hfirst (.terminal hclosing .nil)))))))
      (by rw [phraseOf_routine, limited_eq hlimit]; rfl) rfl
  simpa using hroutine

/-- The superclass of a class is derived, if there is one. -/
theorem meets_superclass :
    Meets superclass fun parent used _ => ∃ name : Option Token,
      parent = name.map (fun p => .read ⟨p, .unresolved⟩) ∧ Makes .parent used (.parent name) := by
  refine meets_accept (meets_pure fun rest _ => ?_) fun less hkind => ?_
  · exact ⟨none, rfl, .of_rule (m := .noParent) (by decide) .nil rfl rfl⟩
  · refine meets_bind (meets_expect _ _) fun name => meets_pure ?_
    rintro rest _ ⟨rfl, hname⟩
    have hless : less.kind = .less := by simpa using hkind
    exact ⟨some name, rfl,
      .of_rule (m := .parent) (by decide) (.terminal hless (.terminal hname .nil)) rfl rfl⟩

include hitem in
/-- The methods of a class are derived. -/
theorem meets_methods :
    Meets (upTo [.rightBrace] (some <$> routine .method item)) fun methods used _ =>
      Makes .methods used (.routines methods) := by
  refine meets_mono (meets_upTo (D := fun methods used => Makes .methods used (.routines methods))
    ?_ ?_) fun _ _ _ h => h.1
  · exact .of_rule (m := .noMethods) (by decide) .nil rfl rfl
  · refine meets_map (meets_routine hitem .method) ?_
    intro f used rest hf
    obtain ⟨o, hbuilt⟩ := id hf
    obtain ⟨t, tail, rfl, -⟩ := hbuilt.opens rfl
    refine ⟨by simp, f, rfl, fun found first hfound => ?_⟩
    exact .of_rule (m := .moreMethods) (by decide) (.category hfound (.category hf .nil)) rfl
      (by simp)

include hinner in
theorem meets_initializer :
    Meets (initializer inner) fun value used _ =>
      Makes .initializer used (.optionalExpr value) := by
  refine meets_accept (meets_pure fun rest _ => ?_) fun equals hkind => ?_
  · exact .of_rule (m := .noExpression) (by decide) .nil rfl rfl
  · refine meets_map hinner fun e used rest he => ?_
    have hequal : equals.kind = .equal := by simpa using hkind
    exact .of_rule (m := .initializer) (by decide) (.terminal hequal (.category he .nil)) rfl
      (by simp)

include hinner in
/-- An expression that may be absent is derived. -/
theorem meets_unlessAt (closing : TokenKind) :
    Meets (unlessAt closing inner) fun value used _ =>
      Makes .optionalExpression used (.optionalExpr value) := by
  refine meets_bind (meets_check _) fun closed => ?_
  cases closed with
  | true =>
      refine meets_pure fun rest none hnone => ?_
      obtain ⟨rfl, -⟩ := hnone
      exact .of_rule (m := .noExpression) (by decide) .nil rfl rfl
  | false =>
      refine meets_map hinner fun e used rest he none hnone => ?_
      obtain ⟨rfl, -⟩ := hnone
      have hvalue : Makes .optionalExpression (used ++ []) (.optionalExpr (some e)) :=
        .of_rule (m := .anExpression) (by decide) (.category he .nil) rfl rfl
      simpa using hvalue

section Words

variable {word : Token}

include hitem in
/-- A class is derived, together with its keyword. -/
theorem meets_classDeclaration (hword : word.kind = .classWord) :
    Meets (classDeclaration item) fun s used _ => Makes .classDecl (word :: used) (.stmt s) := by
  refine meets_bind (meets_expect _ _) fun name => meets_bind meets_superclass fun parent =>
    meets_bind (meets_expect _ _) fun opening => meets_bind (meets_methods hitem) fun methods =>
    meets_bind (meets_expect _ _) fun closing => meets_pure ?_
  rintro rest _ ⟨rfl, hclosing⟩ second hsecond _ ⟨rfl, hopening⟩ first ⟨parentName, rfl, hparent⟩
    _ ⟨rfl, hname⟩
  have hclass : Makes .classDecl (word :: name :: (first ++ opening :: (second ++ [closing])))
      (.stmt (.classDecl name (parentName.map fun p => .read ⟨p, .unresolved⟩) methods)) :=
    .of_rule (m := .classDecl) (by decide)
      (.terminal hword (.terminal hname (.category hparent (.terminal hopening
        (.category hsecond (.terminal hclosing .nil)))))) rfl rfl
  simpa using hclass

include hinner in
theorem meets_variableDeclaration (hword : word.kind = .varWord) :
    Meets (variableDeclaration inner) fun s used _ => Makes .varDecl (word :: used) (.stmt s) := by
  refine meets_bind (meets_expect _ _) fun name => meets_bind (meets_initializer hinner)
    fun value => meets_bind (meets_expect _ _) fun closing => meets_pure ?_
  rintro rest _ ⟨rfl, hclosing⟩ first hfirst _ ⟨rfl, hname⟩
  exact .of_rule (m := .varDecl) (by decide)
    (.terminal hword (.terminal hname (.category hfirst (.terminal hclosing .nil)))) rfl rfl

include hinner in
theorem meets_constantDeclaration (hword : word.kind = .constWord) :
    Meets (constantDeclaration inner) fun s used _ =>
      Makes .constDecl (word :: used) (.stmt s) := by
  refine meets_bind (meets_expect _ _) fun name => meets_bind (meets_initializer hinner)
    fun value => meets_bind (meets_expect _ _) fun closing => meets_pure ?_
  rintro rest _ ⟨rfl, hclosing⟩ first hfirst _ ⟨rfl, hname⟩
  exact .of_rule (m := .constDecl) (by decide)
    (.terminal hword (.terminal hname (.category hfirst (.terminal hclosing .nil)))) rfl rfl

include hinner in
theorem meets_expressionStatement :
    Meets (expressionStatement inner) fun s used _ => Makes .exprStmt used (.stmt s) := by
  refine meets_bind hinner fun e => meets_bind (meets_expect _ _) fun closing => meets_pure ?_
  rintro rest _ ⟨rfl, hclosing⟩ first hfirst
  exact .of_rule (m := .exprStmt) (by decide) (.category hfirst (.terminal hclosing .nil)) rfl rfl

include hinner in
theorem meets_printStatement (hword : word.kind = .printWord) :
    Meets (printStatement inner) fun s used _ => Makes .printStmt (word :: used) (.stmt s) := by
  refine meets_bind hinner fun e => meets_bind (meets_expect _ _) fun closing => meets_pure ?_
  rintro rest _ ⟨rfl, hclosing⟩ first hfirst
  exact .of_rule (m := .printStmt) (by decide)
    (.terminal hword (.category hfirst (.terminal hclosing .nil))) rfl rfl

include hinner in
theorem meets_returnStatement (hword : word.kind = .returnWord) :
    Meets (returnStatement word inner) fun s used _ =>
      Makes .returnStmt (word :: used) (.stmt s) := by
  refine meets_bind (meets_unlessAt hinner _) fun value => meets_bind (meets_expect _ _)
    fun closing => meets_pure ?_
  rintro rest _ ⟨rfl, hclosing⟩ first hfirst
  exact .of_rule (m := .returnStmt) (by decide)
    (.terminal hword (.category hfirst (.terminal hclosing .nil))) rfl rfl

include hitem in
theorem meets_block (hword : word.kind = .leftBrace) :
    Meets (.block <$> blockBody item) fun s used _ => Makes .block (word :: used) (.stmt s) := by
  refine meets_map (meets_blockBody hitem) ?_
  rintro body _ rest ⟨first, closing, rfl, hclosing, hfirst⟩
  exact .of_rule (m := .block) (by decide)
    (.terminal hword (.category hfirst (.terminal hclosing .nil))) rfl rfl

include hinner in
/-- The first clause of a loop is derived. -/
theorem meets_forInitializer :
    Meets (forInitializer inner) fun first used _ =>
      Makes .forFirst used (.optionalStmt first) := by
  refine meets_accept ?_ fun t hmem => ?_
  · refine meets_map (meets_expressionStatement hinner) fun s used rest hs _ => ?_
    have hrule : (⟨.forFirst, .first, [.category .exprStmt]⟩ : Rule) ∈ rulesWithoutElse := by decide
    exact .of_rule hrule (.category hs .nil) rfl (by simp)
  · dsimp only
    split
    · next hkind =>
        refine meets_pure fun rest => ?_
        exact .of_rule (m := .noFirst) (by decide) (.terminal (eq_of_beq hkind) .nil) rfl rfl
    · next hkind =>
        have hne : t.kind ≠ .semicolon := by simpa using hkind
        have hvar : t.kind = .varWord := by simpa [hne] using hmem
        refine meets_map (meets_variableDeclaration hinner hvar) fun s used rest hs => ?_
        have hrule : (⟨.forFirst, .first, [.category .varDecl]⟩ : Rule) ∈ rulesWithoutElse := by
          decide
        exact .of_rule hrule (.category hs .nil) rfl (by simp)

include hinner hbranch in
/-- A loop with three clauses is derived, together with its keyword. -/
theorem meets_forStatement (hword : word.kind = .forWord) :
    Meets (forStatement inner branch) fun s used rest =>
      IsStmt .forStmt s (word :: used) rest := by
  refine meets_bind (meets_expect _ _) fun opening =>
    meets_bind (meets_forInitializer hinner) fun first =>
    meets_bind (meets_unlessAt hinner _) fun condition =>
    meets_bind (meets_expect _ _) fun separator =>
    meets_bind (meets_unlessAt hinner _) fun increment =>
    meets_bind (meets_expect _ _) fun closing =>
    meets_bind hbranch fun body => meets_pure ?_
  rintro rest used₄ ⟨isOpen, hbody, hstops⟩ _ ⟨rfl, hclosing⟩ used₃ ⟨o₃, hincrement⟩
    _ ⟨rfl, hseparator⟩ used₂ ⟨o₂, hcondition⟩ used₁ ⟨o₁, hfirst⟩ _ ⟨rfl, hopening⟩
  refine ⟨isOpen, ?_, hstops⟩
  exact Builds.of_rule (m := .forStmt) (by decide)
    (.terminal (by decide) hword (.terminal (by decide) hopening (.category hfirst
      (.category hcondition (.terminal (by decide) hseparator (.category hincrement
        (.terminal (by decide) hclosing (.category hbody .nil)))))))) rfl (by simp)

include hinner hbranch in
/-- A conditional is derived, and an `else` behind it would have been read. -/
theorem meets_ifStatement (hword : word.kind = .ifWord) :
    Meets (ifStatement inner branch) fun s used rest =>
      IsStmt .ifStmt s (word :: used) rest := by
  refine meets_bind (meets_expect _ _) fun opening => meets_bind hinner fun condition =>
    meets_bind (meets_expect _ _) fun closing => meets_bind hbranch fun thenBranch =>
    meets_accept (meets_pure ?_) fun elseWord hkind => ?_
  · rintro rest hstops used₂ ⟨o₂, hthen, -⟩ _ ⟨rfl, hclosing⟩ used₁ ⟨o₁, hcondition⟩
      _ ⟨rfl, hopening⟩
    refine ⟨true, ?_, fun _ => hstops⟩
    exact Builds.of_rule (m := .ifStmt) (by decide)
      (.terminal (by decide) hword (.terminal (by decide) hopening (.category hcondition
        (.terminal (by decide) hclosing (.category hthen .nil))))) rfl (by simp)
  · refine meets_bind hbranch fun elseBranch => meets_pure ?_
    rintro rest used₃ ⟨isOpen, helse, hstops⟩ used₂ ⟨o₂, hthen, hclosed⟩
      _ ⟨rfl, hclosing⟩ used₁ ⟨o₁, hcondition⟩ _ ⟨rfl, hopening⟩
    have helseWord : elseWord.kind = .elseWord := by simpa using hkind
    -- the `else` that follows shows that the first branch is not open
    obtain rfl : o₂ = false := by
      cases o₂ with
      | false => rfl
      | true => simp [helseWord, stops_cons] at hclosed
    refine ⟨isOpen, ?_, hstops⟩
    exact Builds.of_rule (m := .ifElseStmt) (by decide)
      (.terminal (by decide) hword (.terminal (by decide) hopening (.category hcondition
        (.terminal (by decide) hclosing (.category hthen (.elseWord helseWord
          (.category helse .nil))))))) rfl (by simp)

include hinner hbranch in
/-- A loop is derived, together with its keyword. -/
theorem meets_whileStatement (hword : word.kind = .whileWord) :
    Meets (whileStatement inner branch) fun s used rest =>
      IsStmt .whileStmt s (word :: used) rest := by
  refine meets_bind (meets_expect _ _) fun opening => meets_bind hinner fun condition =>
    meets_bind (meets_expect _ _) fun closing => meets_bind hbranch fun body => meets_pure ?_
  rintro rest used₂ ⟨isOpen, hbody, hstops⟩ _ ⟨rfl, hclosing⟩ used₁ ⟨o, hfirst⟩ _ ⟨rfl, hopening⟩
  refine ⟨isOpen, ?_, hstops⟩
  exact Builds.of_rule (m := .whileStmt) (by decide)
    (.terminal (by decide) hword (.terminal (by decide) hopening (.category hfirst
      (.terminal (by decide) hclosing (.category hbody .nil))))) rfl (by simp)

end Words

include hinner hbranch hitem

/-- A statement is derived. -/
theorem meets_statementOf : MeetsStmt (statementOf inner branch item) := by
  refine meets_accept ?_ fun t hmem => ?_
  · refine meets_mono (meets_expressionStatement hinner) fun s used rest hs _ => ?_
    exact (IsStmt.of_makes hs (by decide)).same (by decide)
  · dsimp only
    split
    · next hkind =>
        exact meets_mono (meets_forStatement hinner hbranch hkind) fun s used rest hs =>
          hs.same (by decide)
    · next hkind =>
        exact meets_mono (meets_ifStatement hinner hbranch hkind) fun s used rest hs =>
          hs.same (by decide)
    · next hkind =>
        exact meets_mono (meets_printStatement hinner hkind) fun s used rest hs =>
          (IsStmt.of_makes hs (by decide)).same (by decide)
    · next hkind =>
        exact meets_mono (meets_returnStatement hinner hkind) fun s used rest hs =>
          (IsStmt.of_makes hs (by decide)).same (by decide)
    · next hkind =>
        exact meets_mono (meets_whileStatement hinner hbranch hkind) fun s used rest hs =>
          hs.same (by decide)
    · next hfor hif hprint hreturn hwhile =>
        have hbrace : t.kind = .leftBrace := by
          simp only [List.mem_cons, List.not_mem_nil, or_false] at hmem
          tauto
        exact meets_mono (meets_block hitem hbrace) fun s used rest hs =>
          (IsStmt.of_makes hs (by decide)).same (by decide)

/-- A declaration is derived, if no error is reported. -/
theorem meets_declarationOf :
    Meets (declarationOf inner branch item) (IsStmt .declaration) := by
  refine meets_accept ?_ fun t hmem => ?_
  · exact meets_mono hbranch fun s used rest hs _ => hs.same (by decide)
  · dsimp only
    split
    · next hkind =>
        exact meets_mono (meets_classDeclaration hitem hkind) fun s used rest hs =>
          (IsStmt.of_makes hs (by decide)).same (by decide)
    · next hkind =>
        refine meets_map (meets_routine hitem .function) ?_
        rintro f used rest ⟨o, hf⟩
        obtain rfl := hf.closed (by decide)
        have hfunction : Builds (.category .funDecl) (t :: used)
          (some (.stmt (.funDecl f))) false :=
          Builds.of_rule (m := .funDecl) (by decide)
            (.terminal (by decide) hkind (.category hf .nil)) rfl (by simp)
        exact ⟨false, hfunction.same (by decide), by simp⟩
    · next hkind =>
        exact meets_mono (meets_constantDeclaration hinner hkind) fun s used rest hs =>
          (IsStmt.of_makes hs (by decide)).same (by decide)
    · next hclass hfun hconst =>
        have hvar : t.kind = .varWord := by
          simp only [List.mem_cons, List.not_mem_nil, or_false] at hmem
          tauto
        exact meets_mono (meets_variableDeclaration hinner hvar) fun s used rest hs =>
          (IsStmt.of_makes hs (by decide)).same (by decide)

end Statements

mutual

theorem meets_declaration : ∀ allowance, MeetsItem (declaration allowance)
  | 0 => meets_tooDeep
  | allowance + 1 =>
      meets_recovering <|
        meets_declarationOf (meets_expression allowance) (meets_statement allowance)
          (meets_declaration allowance)

theorem meets_statement : ∀ allowance, MeetsStmt (statement allowance)
  | 0 => meets_tooDeep
  | allowance + 1 =>
      meets_statementOf (meets_expression allowance) (meets_statement allowance)
        (meets_declaration allowance)

end

end Parser

/-- A parse without errors is a derivation of all its tokens. -/
theorem Parse.derives_of_no_errors
    {allowance : Nat}
    {tokens : List Token}
    (h : (Parse.within allowance tokens).errors = []) :
    Grammar.Makes .program tokens (.stmts (Parse.within allowance tokens).statements) := by
  have hprogram := Parser.meets_declarations (Parser.meets_declaration allowance) []
    ⟨tokens, []⟩
  unfold Parse.within at h ⊢
  cases hresult : Parser.program allowance ⟨tokens, []⟩ with
  | error abort s => simp [hresult] at h
  | ok statements s =>
      rw [Parser.program] at hresult
      rw [hresult] at hprogram
      obtain ⟨new, herrors, hnew⟩ := hprogram
      have hnone : new = [] := by simpa [Parser.program, hresult, herrors] using h
      obtain ⟨used, hused, hmakes, hend⟩ := hnew hnone
      have hrest : s.ahead = [] := by simpa using hend
      rw [hrest, List.append_nil] at hused
      subst hused
      exact hmakes.same (by decide)
end Lox

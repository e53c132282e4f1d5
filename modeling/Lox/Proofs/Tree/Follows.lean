import Lox.Proofs.Tree.Relabel
import Lox.Tree.Parse.Stmt

/-!
# Parsers where more tokens lie ahead

A parser that comes to its end without errors may have looked at the token behind those it takes,
or found that there is none.  Where more tokens follow, it does the same, unless it takes the first
of them for a continuation.  What has to be true of the further tokens is a proposition beside every
parser; it is asked for only if the parser uses up the tokens it has.

The lines of the tokens do not matter to a parser.  So both are followed at once: a parser works on
relabeled tokens, with more tokens behind them, as it works on the tokens.

**Main definitions.**
* `Parser.Followed`: what another parser does in a longer text, told from a result without errors.
* `Parser.Follows`: the same of all runs of a parser.
* `Parser.Continues`: a loop that goes on as long as a token of some kinds follows.

**Results.**
* `Parser.Follows.bind`, `Parser.follows_accept`, `Parser.follows_check`, `Parser.follows_peek`: the
  steps of a parser.
* `Parser.follows_upTo`, `Parser.Continues.follows`: its loops.
-/

namespace Lox
namespace Parser

variable {α β γ δ : Type}

/--
What another parser does where relabeled tokens and more of them lie ahead, told from the result of
a parser without errors: it takes at least `n` tokens, and where the tokens of the first are used
up, the further ones are as they have to be.  Errors are never taken back.
-/
def Followed
    (g : Relabeling)
    (more : List Token)
    (known : Prop)
    (n : Nat)
    (E : Prop)
    (φ : α → β)
    (other : Parser β)
    (s : ParseState) :
    EStateM.Result Abort ParseState α → Prop
  | .ok a s' => s'.errors = [] → s.errors = [] ∧ (known → s'.ahead.length + n ≤ s.ahead.length ∧
      ((s'.ahead = [] → E) → other ⟨s.ahead.map (Token.relabel g) ++ more, []⟩ =
        .ok (φ a) ⟨s'.ahead.map (Token.relabel g) ++ more, []⟩))
  | .error .failed s' => s'.errors ≠ []
  | .error .tooDeep _ => True

/-- The same of all runs of a parser. -/
def Follows
    (g : Relabeling)
    (more : List Token)
    (n : Nat)
    (E : Prop)
    (φ : α → β)
    (parser : Parser α)
    (other : Parser β) : Prop :=
  ∀ s : ParseState, Followed g more True n E φ other s (parser s)

section Steps

variable {g : Relabeling} {more : List Token} {known known' E E' : Prop}
variable {n k : Nat} {φ : α → β} {ψ : γ → δ}

theorem Followed.mono
    {other : Parser β}
    {s : ParseState}
    {result : EStateM.Result Abort ParseState α}
    (h : Followed g more known n E φ other s result)
    (hknown : known' → known)
    (hn : k ≤ n)
    (hending : E' → E) :
    Followed g more known' k E' φ other s result := by
  match result with
  | .ok a s' =>
      intro hnone
      obtain ⟨hbefore, hafter⟩ := h hnone
      refine ⟨hbefore, fun hknown' => ?_⟩
      obtain ⟨hlength, hother⟩ := hafter (hknown hknown')
      exact ⟨by omega, fun hended => hother fun hnil => hending (hended hnil)⟩
  | .error .failed s' => exact h
  | .error .tooDeep s' => trivial

theorem Follows.mono
    {x : Parser α}
    {y : Parser β}
    (h : Follows g more n E φ x y)
    (hn : k ≤ n)
    (hending : E' → E) :
    Follows g more k E' φ x y :=
  fun s => (h s).mono id hn hending

/-- A second parser knows how many tokens the first has taken. -/
theorem Followed.bind
    {x : Parser α}
    {y : Parser β}
    {f : α → Parser γ}
    {h : β → Parser δ}
    {s : ParseState}
    (hx : Followed g more known n E φ y s (x s))
    (hf : ∀ a s', Followed g more (known ∧ s'.ahead.length + n ≤ s.ahead.length) k E' ψ
      (h (φ a)) s' (f a s'))
    (hending : k = 0 → E' → E) :
    Followed g more known (n + k) E' ψ (y >>= h) s ((x >>= f) s) := by
  simp only [Bind.bind, EStateM.bind]
  cases hresult : x s with
  | error abort s' =>
      rw [hresult] at hx
      cases abort <;> exact hx
  | ok a s' =>
      rw [hresult] at hx
      have hnext := hf a s'
      dsimp only
      cases hlast : f a s' with
      | error abort s'' =>
          rw [hlast] at hnext
          cases abort <;> exact hnext
      | ok b s'' =>
          rw [hlast] at hnext
          intro hnone
          obtain ⟨hbetween, hnext⟩ := hnext hnone
          obtain ⟨hbefore, hx⟩ := hx hbetween
          refine ⟨hbefore, fun hknown => ?_⟩
          obtain ⟨hlength, hx⟩ := hx hknown
          obtain ⟨hlength', hnext⟩ := hnext ⟨hknown, hlength⟩
          refine ⟨by omega, fun hended => ?_⟩
          have hmiddle : s'.ahead = [] → E := by
            intro hnil
            rw [hnil, List.length_nil] at hlength'
            exact hending (by omega) (hended (List.length_eq_zero_iff.mp (by omega)))
          simp only [EStateM.bind, hx hmiddle]
          exact hnext hended

theorem Follows.bind
    {x : Parser α}
    {y : Parser β}
    {f : α → Parser γ}
    {h : β → Parser δ}
    (hx : Follows g more n E φ x y)
    (hf : ∀ a, Follows g more k E' ψ (f a) (h (φ a)))
    (hending : k = 0 → E' → E) :
    Follows g more (n + k) E' ψ (x >>= f) (y >>= h) :=
  fun s => (hx s).bind (fun a s' => (hf a s').mono (fun _ => trivial) le_rfl id) hending

/-- A parser that goes on with some token asks nothing of what follows at its first part. -/
theorem Follows.andTake
    {x : Parser α}
    {y : Parser β}
    {f : α → Parser γ}
    {h : β → Parser δ}
    (hx : Follows g more n E φ x y)
    (hf : ∀ a, Follows g more 1 E' ψ (f a) (h (φ a))) :
    Follows g more 1 E' ψ (x >>= f) (y >>= h) :=
  (hx.bind hf fun hzero => absurd hzero Nat.one_ne_zero).mono (Nat.le_add_left 1 n) id

/-- A parser that has taken a token may go on without taking any. -/
theorem Follows.takeAnd
    {x : Parser α}
    {y : Parser β}
    {f : α → Parser γ}
    {h : β → Parser δ}
    (hx : Follows g more 1 E φ x y)
    (hf : ∀ a, Follows g more 0 E ψ (f a) (h (φ a))) :
    Follows g more 1 E ψ (x >>= f) (y >>= h) :=
  hx.bind hf fun _ => id

theorem follows_pure
    {a : α}
    {b : β}
    (h : b = φ a) :
    Follows g more 0 E φ (pure a) (pure b) :=
  fun _ hnone => ⟨hnone, fun _ => ⟨le_rfl, fun _ => by rw [h, ← hnone]; rfl⟩⟩

theorem Follows.map
    {x : Parser α}
    {y : Parser β}
    {f : α → γ}
    {h : β → δ}
    (hx : Follows g more n E φ x y)
    (hf : ∀ a, h (φ a) = ψ (f a)) :
    Follows g more n E ψ (f <$> x) (h <$> y) := by
  change Follows g more (n + 0) E ψ (x >>= fun a => pure (f a)) (y >>= fun b => pure (h b))
  exact hx.bind (fun a => follows_pure (hf a)) fun _ => id

theorem follows_fail (missing : Expectation) (other : Parser β) :
    Follows g more n E φ (fail missing) other :=
  fun _ => List.cons_ne_nil _ _

theorem follows_tooDeep (other : Parser β) : Follows g more n E φ tooDeep other :=
  fun _ => trivial

/-- A parser that reports a fault has an error at its end. -/
theorem follows_report
    {x : Parser α}
    {y other : Parser β}
    (h : Follows g more n E φ x y)
    (fault : ParseFault)
    (found : Option Token) :
    Follows g more n E φ (do report fault found; x) other := by
  intro s
  have hrun := h ⟨s.ahead, ⟨fault, found⟩ :: s.errors⟩
  change Followed g more True n E φ other s (x ⟨s.ahead, ⟨fault, found⟩ :: s.errors⟩)
  cases hresult : x ⟨s.ahead, ⟨fault, found⟩ :: s.errors⟩ with
  | error abort s' =>
      rw [hresult] at hrun
      cases abort <;> exact hrun
  | ok a s' =>
      rw [hresult] at hrun
      exact fun hnone => absurd (hrun hnone).1 (List.cons_ne_nil _ _)

/-- A parser that recovers from an error has reported it. -/
theorem Follows.recovering
    {ψ : Stmt → Stmt}
    {x y : Parser Stmt}
    (h : Follows g more n E ψ x y) :
    Follows g more n E (Option.map ψ) (Parser.recovering x) (Parser.recovering y) := by
  intro s
  have hrun := h s
  cases hresult : x s with
  | error abort s' =>
      rw [hresult] at hrun
      cases abort with
      | failed =>
          have hrecovers : Parser.recovering x s =
              .ok none { s' with ahead := synchronize s'.ahead } := by
            simp only [Parser.recovering, hresult]
          rw [hrecovers]
          exact fun hnone => absurd hnone hrun
      | tooDeep =>
          have hstops : Parser.recovering x s = .error .tooDeep s' := by
            simp only [Parser.recovering, hresult]
          rw [hstops]
          trivial
  | ok a s' =>
      rw [hresult] at hrun
      have hyields : Parser.recovering x s = .ok (some a) s' := by
        simp only [Parser.recovering, hresult]
      rw [hyields]
      intro hnone
      obtain ⟨hbefore, hafter⟩ := hrun hnone
      refine ⟨hbefore, fun hknown => ?_⟩
      obtain ⟨hlength, hother⟩ := hafter hknown
      refine ⟨hlength, fun hended => ?_⟩
      simp only [Parser.recovering, hother hended, Option.map_some]

/-- What is known of a step is known of a step that takes some tokens before it. -/
theorem Followed.behind
    {y other : Parser β}
    {front rest : List Token}
    {errors : List ParseError}
    {result : EStateM.Result Abort ParseState α}
    (h : Followed g more known n E φ y ⟨rest, errors⟩ result)
    (hn : k ≤ front.length + n)
    (hother : n ≤ rest.length → (rest = [] → E) →
      other ⟨(front ++ rest).map (Token.relabel g) ++ more, []⟩ =
        y ⟨rest.map (Token.relabel g) ++ more, []⟩) :
    Followed g more known k E φ other ⟨front ++ rest, errors⟩ result := by
  match result with
  | .error .failed s' => exact h
  | .error .tooDeep s' => trivial
  | .ok a s' =>
      intro hnone
      obtain ⟨hbefore, hafter⟩ := h hnone
      refine ⟨hbefore, fun hknown => ?_⟩
      obtain ⟨hlength, hsame⟩ := hafter hknown
      dsimp only at hlength ⊢
      refine ⟨by rw [List.length_append]; omega, fun hended => ?_⟩
      rw [hother (by omega), hsame hended]
      rintro rfl
      exact hended (List.length_eq_zero_iff.mp (by rw [List.length_nil] at hlength; omega))

/-- What follows an optional token is the same, if no further token can be taken in its place. -/
theorem followed_accept
    {kinds : List TokenKind}
    {f : Option Token → Parser α}
    {h : Option Token → Parser β}
    {s : ParseState}
    (hnone : Followed g more known n E φ (h none) s (f none s))
    (hstops : n = 0 → E → ∀ t ∈ more.head?, t.kind ∉ kinds)
    (hsome : ∀ (t : Token) (rest : List Token), s.ahead = t :: rest → t.kind ∈ kinds →
      Followed g more known k E φ (h (some (t.relabel g))) ⟨rest, s.errors⟩
        (f (some t) ⟨rest, s.errors⟩))
    (hn : n ≤ k + 1) :
    Followed g more known n E φ (accept kinds >>= h) s ((accept kinds >>= f) s) := by
  obtain ⟨ahead, errors⟩ := s
  cases ahead with
  | nil =>
      have hrun : Followed g more known n E φ (accept kinds >>= h) ⟨[] ++ [], errors⟩
          (f none ⟨[], errors⟩) := by
        refine hnone.behind (by simp) fun hzero hending => ?_
        cases more with
        | nil => rfl
        | cons t rest =>
            have hkind : t.kind ∉ kinds := hstops (by simpa using hzero) (hending rfl) t rfl
            simp [Bind.bind, EStateM.bind, accept, hkind]
      exact hrun
  | cons t rest =>
      by_cases hkind : t.kind ∈ kinds
      · have haccept : (accept kinds >>= f) ⟨t :: rest, errors⟩ = f (some t) ⟨rest, errors⟩ := by
          simp [Bind.bind, EStateM.bind, accept, hkind]
        rw [haccept]
        have hrun : Followed g more known n E φ (accept kinds >>= h) ⟨[t] ++ rest, errors⟩
            (f (some t) ⟨rest, errors⟩) := by
          refine (hsome t rest rfl hkind).behind (by simp; omega) fun _ _ => ?_
          simp [Bind.bind, EStateM.bind, accept, hkind]
        exact hrun
      · have haccept : (accept kinds >>= f) ⟨t :: rest, errors⟩ = f none ⟨t :: rest, errors⟩ := by
          simp [Bind.bind, EStateM.bind, accept, hkind]
        rw [haccept]
        have hrun : Followed g more known n E φ (accept kinds >>= h)
            ⟨[] ++ t :: rest, errors⟩ (f none ⟨t :: rest, errors⟩) := by
          refine hnone.behind (by simp) fun _ _ => ?_
          simp [Bind.bind, EStateM.bind, accept, hkind]
        exact hrun

theorem follows_accept
    {kinds : List TokenKind}
    {f : Option Token → Parser α}
    {h : Option Token → Parser β}
    (hnone : Follows g more n E φ (f none) (h none))
    (hstops : n = 0 → E → ∀ t ∈ more.head?, t.kind ∉ kinds)
    (hsome : ∀ t : Token, t.kind ∈ kinds →
      Follows g more k E φ (f (some t)) (h (some (t.relabel g))))
    (hn : n ≤ k + 1) :
    Follows g more n E φ (accept kinds >>= f) (accept kinds >>= h) :=
  fun s => followed_accept (hnone s) hstops (fun t rest _ hkind => hsome t hkind ⟨rest, s.errors⟩)
    hn

theorem follows_expect (kind : TokenKind) (missing : Expectation) :
    Follows g more 1 E (Token.relabel g) (expect kind missing) (expect kind missing) :=
  follows_accept (k := 0) (follows_fail missing _) (fun h => absurd h Nat.one_ne_zero)
    (fun _ _ => follows_pure rfl) le_rfl

/-- What is seen ahead is the same, if no further token can be seen in its place. -/
theorem follows_check
    {kinds : List TokenKind}
    {f : Bool → Parser α}
    {h : Bool → Parser β}
    (htrue : Follows g more n E φ (f true) (h true))
    (hfalse : Follows g more k E φ (f false) (h false))
    (hstops : k = 0 → E → ∀ t ∈ more.head?, t.kind ∉ kinds)
    (hn : n ≤ k) :
    Follows g more n E φ (check kinds >>= f) (check kinds >>= h) := by
  rintro ⟨ahead, errors⟩
  cases ahead with
  | nil =>
      have hrun : Followed g more True n E φ (check kinds >>= h) ⟨[] ++ [], errors⟩
          (f false ⟨[], errors⟩) := by
        refine (hfalse ⟨[], errors⟩).behind (by simpa using hn) fun hzero hending => ?_
        cases more with
        | nil => rfl
        | cons t rest =>
            have hkind : t.kind ∉ kinds := hstops (by simpa using hzero) (hending rfl) t rfl
            simp [Bind.bind, EStateM.bind, check, hkind]
      exact hrun
  | cons t rest =>
      have hrun : Followed g more True n E φ (check kinds >>= h) ⟨[] ++ t :: rest, errors⟩
          (f (kinds.contains t.kind) ⟨t :: rest, errors⟩) := by
        cases hkind : kinds.contains t.kind with
        | true =>
            refine (htrue ⟨t :: rest, errors⟩).behind (by simp) fun _ _ => ?_
            have hmem : t.kind ∈ kinds := by simpa using hkind
            simp [Bind.bind, EStateM.bind, check, hmem]
        | false =>
            refine (hfalse ⟨t :: rest, errors⟩).behind (by simpa using hn) fun _ _ => ?_
            have hmem : t.kind ∉ kinds := by simpa using hkind
            simp [Bind.bind, EStateM.bind, check, hmem]
      exact hrun

/-- A parser that looks at the next token and passes over it; without a token it fails. -/
theorem follows_peek
    {f : Option Token → Parser α}
    {h : Option Token → Parser β}
    (hnone : ∀ other : Parser β, Follows g more n E φ (f none) other)
    (hsome : ∀ (t : Token) (rest : List Token) (errors : List ParseError),
      Followed g more True n E φ (h (some (t.relabel g))) ⟨t :: rest, errors⟩
        (f (some t) ⟨t :: rest, errors⟩)) :
    Follows g more n E φ (peek >>= f) (peek >>= h) := by
  rintro ⟨ahead, errors⟩
  cases ahead with
  | nil => exact hnone _ ⟨[], errors⟩
  | cons t rest => exact hsome t rest errors

theorem Follows.afterNext
    {x : Parser α}
    {y : Parser β}
    (h : Follows g more n E φ x y)
    (t : Token)
    (rest : List Token)
    (errors : List ParseError) :
    Followed g more True (n + 1) E φ (do advance; y) ⟨t :: rest, errors⟩
      ((do advance; x) ⟨t :: rest, errors⟩) := by
  have hrun : Followed g more True (n + 1) E φ (do advance; y) ⟨[t] ++ rest, errors⟩
      (x ⟨rest, errors⟩) :=
    (h ⟨rest, errors⟩).behind (by simp [Nat.add_comm]) fun _ _ => rfl
  exact hrun

end Steps

section Loops

variable {g : Relabeling} {more : List Token} {E : Prop} {φ : α → β}

/-- The tokens ahead bound a loop, and all of them bound it in the longer text. -/
def Bounds (more bound bound' : List Token) (s : ParseState) : Prop :=
  s.ahead.length ≤ bound.length ∧ s.ahead.length + more.length ≤ bound'.length

theorem follows_bounded
    {n : Nat}
    {x : List Token → Parser α}
    {y : List Token → Parser β}
    (h : ∀ bound bound' s, Followed g more (Bounds more bound bound' s) n E φ (y bound') s
      (x bound s)) :
    Follows g more n E φ (bounded x) (bounded y) := by
  intro s
  have hrun := h s.ahead (s.ahead.map (Token.relabel g) ++ more) s
  have hbounds : Bounds more s.ahead (s.ahead.map (Token.relabel g) ++ more) s :=
    ⟨le_rfl, by simp⟩
  change Followed g more True n E φ _ s (x s.ahead s)
  cases hresult : x s.ahead s with
  | error abort s' =>
      rw [hresult] at hrun
      cases abort <;> exact hrun
  | ok a s' =>
      rw [hresult] at hrun
      intro hnone
      obtain ⟨hbefore, hafter⟩ := hrun hnone
      exact ⟨hbefore, fun _ => hafter hbounds⟩

/-- Nothing is known if what should be known is false. -/
theorem Followed.absurd
    {known known' E E' : Prop}
    {n k : Nat}
    {ψ : α → γ}
    {y : Parser β}
    {other : Parser γ}
    {s : ParseState}
    {result : EStateM.Result Abort ParseState α}
    (h : Followed g more known n E φ y s result)
    (hknown : ¬ known') :
    Followed g more known' k E' ψ other s result := by
  match result with
  | .ok a s' => exact fun hnone => ⟨(h hnone).1, fun h' => (hknown h').elim⟩
  | .error .failed s' => exact h
  | .error .tooDeep s' => trivial

/-- The end or a closing token is ahead, or another token. -/
theorem ends_or_goesOn (closing : List TokenKind) (ahead : List Token) :
    (∀ t ∈ ahead.head?, t.kind ∈ closing) ∨ ∃ u rest, ahead = u :: rest ∧ u.kind ∉ closing := by
  cases ahead with
  | nil => exact .inl (by simp)
  | cons u rest =>
      by_cases hkind : u.kind ∈ closing
      · exact .inl (by simpa using hkind)
      · exact .inr ⟨u, rest, rfl, hkind⟩

/-- Items end at the end and before a closing token. -/
theorem collectUpTo_ends
    {closing : List TokenKind}
    {ahead : List Token}
    (hends : ∀ t ∈ ahead.head?, t.kind ∈ closing)
    (item : Parser (Option α))
    (bound : List Token)
    (found : List α)
    (errors : List ParseError) :
    collectUpTo closing item bound found ⟨ahead, errors⟩ = .ok found.reverse ⟨ahead, errors⟩ := by
  cases bound with
  | nil => rfl
  | cons t bound =>
      cases ahead with
      | nil => rfl
      | cons u rest =>
          have hkind : u.kind ∈ closing := hends u rfl
          simp [collectUpTo, Bind.bind, EStateM.bind, atEnd, check, hkind, Pure.pure, EStateM.pure]

/-- Before any other token there is a further item. -/
theorem collectUpTo_goesOn
    {closing : List TokenKind}
    {u : Token}
    (hkind : u.kind ∉ closing)
    (item : Parser (Option α))
    (t : Token)
    (bound rest : List Token)
    (found : List α)
    (errors : List ParseError) :
    collectUpTo closing item (t :: bound) found ⟨u :: rest, errors⟩ =
      (item >>= fun x => collectUpTo closing item bound (x.toList ++ found))
        ⟨u :: rest, errors⟩ := by
  simp only [collectUpTo, Bind.bind, EStateM.bind, atEnd, check, List.isEmpty_cons,
    List.head?_cons, Option.any_some, List.contains_eq_mem, hkind, decide_false, Bool.or_self,
    Bool.false_eq_true, if_false]
  cases item ⟨u :: rest, errors⟩ with
  | error abort s' => rfl
  | ok x s' => cases x <;> rfl

theorem followed_collectUpTo
    {closing : List TokenKind}
    {item : Parser (Option α)}
    {other : Parser (Option β)}
    {itemEnding : Prop}
    (hitem : Follows g more 1 itemEnding (Option.map φ) item other)
    (hends : E → ∀ t ∈ more.head?, t.kind ∈ closing)
    (hending : E → itemEnding)
    (bound : List Token) :
    ∀ (bound' : List Token) (found : List α) (s : ParseState),
      Followed g more (Bounds more bound bound' s) 0 E (List.map φ)
        (collectUpTo closing other bound' (found.map φ)) s (collectUpTo closing item bound found s)
    := by
  induction bound with
  | nil =>
      rintro bound' found ⟨ahead, errors⟩ hnone
      refine ⟨hnone, fun hbounds => ⟨le_rfl, fun hended => ?_⟩⟩
      obtain rfl : ahead = [] := List.length_eq_zero_iff.mp (Nat.le_zero.mp hbounds.1)
      refine (collectUpTo_ends (hends (hended rfl)) other bound' (found.map φ) []).trans ?_
      rw [List.map_reverse]
      rfl
  | cons t bound ih =>
      rintro bound' found ⟨ahead, errors⟩
      by_cases hstop : ∀ t ∈ ahead.head?, t.kind ∈ closing
      · rw [collectUpTo_ends hstop]
        refine fun hnone => ⟨hnone, fun _ => ⟨le_rfl, fun hended => ?_⟩⟩
        have hstop' : ∀ t ∈ (ahead.map (Token.relabel g) ++ more).head?, t.kind ∈ closing := by
          cases ahead with
          | nil => exact hends (hended rfl)
          | cons u rest => simpa using hstop
        refine (collectUpTo_ends hstop' other bound' (found.map φ) []).trans ?_
        rw [List.map_reverse]
      · obtain ⟨u, rest, rfl, hkind⟩ : ∃ u rest, ahead = u :: rest ∧ u.kind ∉ closing := by
          cases ahead with
          | nil => simp at hstop
          | cons u rest => exact ⟨u, rest, rfl, by simpa using hstop⟩
        have hround (t' : Token) (bound'' : List Token) : Followed g more
            (Bounds more (t :: bound) (t' :: bound'') ⟨u :: rest, errors⟩) (1 + 0) E
            (List.map φ)
            (other >>= fun x => collectUpTo closing other bound'' (x.toList ++ found.map φ))
            ⟨u :: rest, errors⟩
            ((item >>= fun x => collectUpTo closing item bound (x.toList ++ found))
              ⟨u :: rest, errors⟩) := by
          refine ((hitem ⟨u :: rest, errors⟩).mono (fun _ => trivial) le_rfl id).bind
            (fun x s' => ?_) fun _ => hending
          have hrest := ih bound'' (x.toList ++ found) s'
          rw [show (x.toList ++ found).map φ = (x.map φ).toList ++ found.map φ by
            cases x <;> rfl] at hrest
          refine hrest.mono ?_ le_rfl id
          rintro ⟨⟨hbound, hbound'⟩, hlength⟩
          simp only [List.length_cons] at hbound hbound' hlength
          exact ⟨by omega, by omega⟩
        rw [collectUpTo_goesOn hkind]
        cases bound' with
        | nil => exact (hround t []).absurd fun h => by simp [Bounds] at h
        | cons t' bound'' =>
            have hrun : Followed g more
              (Bounds more (t :: bound) (t' :: bound'') ⟨u :: rest, errors⟩)
                0 E (List.map φ)
                (collectUpTo closing other (t' :: bound'') (found.map φ)) ⟨[] ++ u :: rest, errors⟩
                ((item >>= fun x => collectUpTo closing item bound (x.toList ++ found))
                  ⟨u :: rest, errors⟩) :=
              (hround t' bound'').behind (Nat.zero_le _) fun _ _ =>
                collectUpTo_goesOn (u := u.relabel g) hkind other t' bound'' _ _ _
            exact hrun

/-- Items are the same up to a closing token. -/
theorem follows_upTo
    {closing : List TokenKind}
    {item : Parser (Option α)}
    {other : Parser (Option β)}
    {itemEnding : Prop}
    (hitem : Follows g more 1 itemEnding (Option.map φ) item other)
    (hends : E → ∀ t ∈ more.head?, t.kind ∈ closing)
    (hending : E → itemEnding) :
    Follows g more 0 E (List.map φ) (upTo closing item) (upTo closing other) :=
  follows_bounded fun bound bound' s => followed_collectUpTo hitem hends hending bound bound' [] s

/-- A loop that goes on as long as a token of some kinds follows. -/
structure Continues
    {V : Type}
    (loop : List Token → V → Parser α)
    (kinds : List TokenKind)
    (step : Token → V → Parser V)
    (result : V → α) : Prop where
  nil (v : V) : loop [] v = pure (result v)
  cons (t : Token) (bound : List Token) (v : V) : loop (t :: bound) v =
    accept kinds >>= fun next => next.elim (pure (result v)) fun t => step t v >>= loop bound

/-- Such a loop ends before every other token. -/
theorem Continues.ends
    {V : Type}
    {loop : List Token → V → Parser α}
    {kinds : List TokenKind}
    {step : Token → V → Parser V}
    {result : V → α}
    (h : Continues loop kinds step result)
    {ahead : List Token}
    (hends : ∀ t ∈ ahead.head?, t.kind ∉ kinds)
    (bound : List Token)
    (v : V)
    (errors : List ParseError) :
    loop bound v ⟨ahead, errors⟩ = .ok (result v) ⟨ahead, errors⟩ := by
  cases bound with
  | nil => rw [h.nil]; rfl
  | cons t bound =>
      rw [h.cons]
      cases ahead with
      | nil => rfl
      | cons u rest =>
          have hkind : u.kind ∉ kinds := hends u rfl
          simp [Bind.bind, EStateM.bind, accept, hkind, Pure.pure, EStateM.pure]

/-- Such a loop is the same, if no further token continues it. -/
theorem Continues.followed
    {V W : Type}
    {χ : V → W}
    {loop : List Token → V → Parser α}
    {loop' : List Token → W → Parser β}
    {kinds : List TokenKind}
    {step : Token → V → Parser V}
    {step' : Token → W → Parser W}
    {result : V → α}
    {result' : W → β}
    {stepEnding : Prop}
    (h : Continues loop kinds step result)
    (h' : Continues loop' kinds step' result')
    (hresult : ∀ v, result' (χ v) = φ (result v))
    (hstep : ∀ t v, t.kind ∈ kinds →
      Follows g more 0 stepEnding χ (step t v) (step' (t.relabel g) (χ v)))
    (hstops : E → ∀ t ∈ more.head?, t.kind ∉ kinds)
    (hending : E → stepEnding)
    (bound : List Token) :
    ∀ (bound' : List Token) (v : V) (s : ParseState),
      Followed g more (Bounds more bound bound' s) 0 E φ (loop' bound' (χ v)) s
        (loop bound v s) := by
  induction bound with
  | nil =>
      rintro bound' v ⟨ahead, errors⟩
      rw [h.nil]
      refine fun hnone => ⟨hnone, fun hbounds => ⟨le_rfl, fun hended => ?_⟩⟩
      obtain rfl : ahead = [] := List.length_eq_zero_iff.mp (Nat.le_zero.mp hbounds.1)
      rw [← hresult]
      exact h'.ends (hstops (hended rfl)) bound' (χ v) []
  | cons t bound ih =>
      rintro bound' v ⟨ahead, errors⟩
      have hround (t' : Token) (bound'' : List Token) : Followed g more
          (Bounds more (t :: bound) (t' :: bound'') ⟨ahead, errors⟩) 0 E φ
          (loop' (t' :: bound'') (χ v)) ⟨ahead, errors⟩ (loop (t :: bound) v ⟨ahead, errors⟩) := by
        rw [h.cons, h'.cons]
        refine followed_accept (k := 0 + 0) ?_ (fun _ => hstops) (fun u rest hahead hkind => ?_)
          (Nat.zero_le _)
        · exact fun hnone => ⟨hnone, fun _ => ⟨le_rfl, fun _ => by
            rw [← hresult]
            rfl⟩⟩
        · refine ((hstep u v hkind ⟨rest, errors⟩).mono (fun _ => trivial) le_rfl id).bind
            (fun w s' => (ih bound'' w s').mono ?_ le_rfl id) fun _ => hending
          rintro ⟨⟨hbound, hbound'⟩, hlength⟩
          dsimp only at hahead hlength
          simp only [hahead, List.length_cons] at hbound hbound'
          exact ⟨by omega, by omega⟩
      cases bound' with
      | cons t' bound'' => exact hround t' bound''
      | nil =>
          by_cases hnil : ahead = [] ∧ more = []
          · obtain ⟨rfl, rfl⟩ := hnil
            rw [h.ends (by simp)]
            refine fun hnone => ⟨hnone, fun _ => ⟨le_rfl, fun _ => ?_⟩⟩
            rw [← hresult]
            exact h'.ends (by simp) [] (χ v) []
          · refine (hround t []).absurd fun hbounds => hnil ?_
            have hlength : ahead.length + more.length ≤ 0 := hbounds.2
            exact ⟨List.length_eq_zero_iff.mp (by omega), List.length_eq_zero_iff.mp (by omega)⟩

theorem Continues.follows
    {V W : Type}
    {χ : V → W}
    {loop : List Token → V → Parser α}
    {loop' : List Token → W → Parser β}
    {kinds : List TokenKind}
    {step : Token → V → Parser V}
    {step' : Token → W → Parser W}
    {result : V → α}
    {result' : W → β}
    {stepEnding : Prop}
    (h : Continues loop kinds step result)
    (h' : Continues loop' kinds step' result')
    (hresult : ∀ v, result' (χ v) = φ (result v))
    (hstep : ∀ t v, t.kind ∈ kinds →
      Follows g more 0 stepEnding χ (step t v) (step' (t.relabel g) (χ v)))
    (hstops : E → ∀ t ∈ more.head?, t.kind ∉ kinds)
    (hending : E → stepEnding)
    (v : V) :
    Follows g more 0 E φ (bounded fun bound => loop bound v)
      (bounded fun bound => loop' bound (χ v)) :=
  follows_bounded fun bound bound' s =>
    h.followed h' hresult hstep hstops hending bound bound' v s

end Loops

end Parser
end Lox

import Lox.Proofs.Tree.Alike
import Lox.Tree.Parse.Cursor

/-!
# Parsing by position

On a list whose last token is the only one that stands for the end, a parser that goes by position
does what the parser does that works on the tokens ahead: the tokens ahead are those from the
position on, without the last.  It never looks outside of the list, and its loops come to an end.

**Main definitions.**
* `Cursor.Text`: a list of tokens with its end.
* `Cursor.Text.Agrees`: a parser by position does the same as a parser.

**Results.**
* `Cursor.Text.agrees_program`: parses by position are parses.
* `Cursor.parse_stays_inside`: a parse by position ends, inside of the list, and every declaration
  moves on.
-/

namespace Lox
namespace Cursor

variable {α β : Type}

/-- A list of tokens, with the token behind it that alone stands for the end. -/
structure Text where
  tokens : List Token
  ending : Token
  inner : ∀ t ∈ tokens, t.kind ≠ .endOfText
  ends : ending.kind = .endOfText

namespace Text

/-- What a parser of the text is given, with fuel for its loops. -/
def input (text : Text) (fuel : Nat) : CursorInput :=
  ⟨text.tokens ++ [text.ending], fuel⟩

/-- An error as it is reported where the tokens ahead are all there is. -/
def located (text : Text) (e : PlacedError) : ParseError :=
  e.located (text.tokens ++ [text.ending])

variable (text : Text)

/-- The same state, by the tokens ahead and by position. -/
structure At (s : ParseState) (c : CursorState) : Prop where
  ahead : s.ahead = text.tokens.drop c.position
  inside : c.position ≤ text.tokens.length
  errors : s.errors = c.errors.map text.located

/-- From a state, the position has not moved back, and errors inside of the list have been added. -/
structure Moved (c c' : CursorState) : Prop where
  forward : c.position ≤ c'.position
  errors : ∃ new, c'.errors = new ++ c.errors ∧ ∀ e ∈ new, e.place ≤ text.tokens.length

/-- The same result, reached from a state. -/
def Agreed (c : CursorState) :
    EStateM.Result Abort ParseState α → EStateM.Result CursorAbort CursorState α → Prop
  | .ok a s', .ok b c' => a = b ∧ text.At s' c' ∧ text.Moved c c'
  | .error .failed s', .error .failed c' => text.At s' c' ∧ text.Moved c c'
  | .error .tooDeep _, .error .tooDeep _ => True
  | _, _ => False

/-- A parser by position does the same as a parser. -/
def Agrees (fuel : Nat) (x : Parser α) (y : Cursor α) : Prop :=
  ∀ s c, text.At s c → text.Agreed c (x s) (y (text.input fuel) c)

theorem Moved.refl (c : CursorState) : text.Moved c c :=
  ⟨Nat.le_refl _, [], rfl, nofun⟩

variable {text} {fuel : Nat} {s : ParseState} {c c' c'' : CursorState}

/-- Positions go on, and errors are kept. -/
theorem Moved.trans (h : text.Moved c c') (h' : text.Moved c' c'') : text.Moved c c'' := by
  obtain ⟨new, hnew, hplaces⟩ := h.errors
  obtain ⟨newer, hnewer, hplaces'⟩ := h'.errors
  refine ⟨h.forward.trans h'.forward, newer ++ new, by rw [hnewer, hnew, List.append_assoc], ?_⟩
  exact fun e he => (List.mem_append.mp he).elim (hplaces' e) (hplaces e)

theorem Agreed.trans
    {x : EStateM.Result Abort ParseState α}
    {y : EStateM.Result CursorAbort CursorState α}
    (hmoved : text.Moved c c')
    (h : text.Agreed c' x y) :
    text.Agreed c x y := by
  unfold Agreed at h ⊢
  split at h
  · exact ⟨h.1, h.2.1, hmoved.trans h.2.2⟩
  · exact ⟨h.1, hmoved.trans h.2⟩
  · trivial
  · exact h.elim

/-- What is ahead is a part of the tokens. -/
theorem At.length_le (h : text.At s c) : s.ahead.length ≤ text.tokens.length := by
  rw [h.ahead, List.length_drop]
  exact Nat.sub_le _ _

/-- The token at the position is the first one ahead. -/
theorem At.index
    {t : Token}
    {rest : List Token}
    (h : text.At s c)
    (hahead : s.ahead = t :: rest) :
    text.tokens[c.position]? = some t := by
  rw [← List.head?_drop, ← h.ahead, hahead, List.head?_cons]

/-- The end is reached if no token is ahead. -/
theorem At.atEnd (h : text.At s c) (hahead : s.ahead = []) : c.position = text.tokens.length := by
  have hdrop := h.ahead
  rw [hahead, eq_comm, List.drop_eq_nil_iff] at hdrop
  exact Nat.le_antisymm h.inside hdrop

/-- A position later, the next token is no longer ahead. -/
theorem At.next
    {t : Token}
    {rest : List Token}
    (h : text.At s c)
    (hahead : s.ahead = t :: rest) :
    text.At ⟨rest, s.errors⟩ ⟨c.position + 1, c.errors⟩
      ∧ text.Moved c ⟨c.position + 1, c.errors⟩ := by
  obtain ⟨hlt, -⟩ := List.getElem?_eq_some_iff.mp (h.index hahead)
  refine ⟨⟨?_, hlt, h.errors⟩, Nat.le_succ _, [], rfl, nofun⟩
  rw [← List.tail_drop, ← h.ahead, hahead, List.tail_cons]

/-- A fault at the token with an index is a fault that is found there. -/
theorem At.report
    (h : text.At s c)
    (fault : ParseFault)
    {place : Nat}
    (hplace : place ≤ text.tokens.length) :
    text.At ⟨s.ahead, ⟨fault, text.tokens[place]?⟩ :: s.errors⟩
        ⟨c.position, ⟨fault, place⟩ :: c.errors⟩
      ∧ text.Moved c ⟨c.position, ⟨fault, place⟩ :: c.errors⟩ := by
  refine ⟨⟨h.ahead, h.inside, ?_⟩, Nat.le_refl _, [⟨fault, place⟩], rfl, by simpa using hplace⟩
  rw [List.map_cons, ← h.errors, located, PlacedError.located]
  rcases Nat.lt_or_eq_of_le hplace with hlt | rfl
  · have hkind : text.tokens[place].kind ≠ .endOfText := text.inner _ (List.getElem_mem hlt)
    simp [List.getElem?_append_left hlt, List.getElem?_eq_getElem hlt, Option.filter, hkind]
  · simp [Option.filter, text.ends]

section Looks

/-- After a step that succeeds, the next one goes on from where it ended. -/
theorem bind_eq_of_ok
    {x : Cursor α}
    {f : α → Cursor β}
    {input : CursorInput}
    {a : α}
    (h : x input c = .ok a c') :
    (x >>= f) input c = f a input c' := by
  simp only [bind, ReaderT.bind, EStateM.bind, h]

/-- An index that is not negative and not behind the end is one of the list. -/
theorem look_eq (index : Nat) (hindex : index ≤ text.tokens.length) :
    look index (text.input fuel) c =
      .ok (text.tokens[index]?.getD text.ending) c := by
  have hnegative : ¬ (index : Int) < 0 := by omega
  rw [look, if_neg hnegative, Int.toNat_natCast, input]
  rcases Nat.lt_or_eq_of_le hindex with hlt | rfl
  · rw [List.getElem?_append_left hlt, List.getElem?_eq_getElem hlt]
    rfl
  · simp

/-- At the end of the tokens, the end token is seen. -/
theorem peek_eq (fuel : Nat) (h : text.At s c) :
    peek (text.input fuel) c = .ok (s.ahead.head?.getD text.ending) c := by
  rw [h.ahead, List.head?_drop]
  exact look_eq c.position h.inside

/-- Behind the first token, the one before the position is seen. -/
theorem previous_eq
    (fuel : Nat)
    (hstart : c.position ≠ 0)
    (hinside : c.position ≤ text.tokens.length) :
    previous (text.input fuel) c =
      .ok (text.tokens[c.position - 1]?.getD text.ending) c := by
  have hindex : ((c.position : Int) - 1) = ((c.position - 1 : Nat) : Int) := by omega
  have hrun : previous (text.input fuel) c =
      look ((c.position : Int) - 1) (text.input fuel) c := rfl
  rw [hrun, hindex, look_eq _ (by omega)]

theorem atEnd_eq (fuel : Nat) (h : text.At s c) :
    Cursor.atEnd (text.input fuel) c = .ok s.ahead.isEmpty c := by
  rw [Cursor.atEnd, bind_eq_of_ok (peek_eq _ h)]
  cases hahead : s.ahead with
  | nil => simp [Pure.pure, ReaderT.pure, EStateM.pure, text.ends]
  | cons t rest =>
      have ht := text.inner t (List.mem_of_getElem? (h.index hahead))
      simp [Pure.pure, ReaderT.pure, EStateM.pure, ht]

/-- A check looks at the kind of the next token and fails at the end. -/
theorem check_eq (h : text.At s c) (kinds : List TokenKind) :
    Cursor.check kinds (text.input fuel) c =
      .ok (s.ahead.head?.any fun t => kinds.contains t.kind) c := by
  rw [Cursor.check, bind_eq_of_ok (atEnd_eq _ h)]
  cases hahead : s.ahead with
  | nil => rfl
  | cons t rest =>
      have hpeek := peek_eq fuel h
      rw [hahead] at hpeek
      exact bind_eq_of_ok hpeek

theorem check_found
    {kinds : List TokenKind}
    {t : Token}
    {rest : List Token}
    (h : text.At s c)
    (hahead : s.ahead = t :: rest)
    (hkind : t.kind ∈ kinds) :
    Cursor.check kinds (text.input fuel) c = .ok true c := by
  rw [check_eq h, hahead]
  simp [hkind]

theorem check_stops
    {kinds : List TokenKind}
    (h : text.At s c)
    (hstops : Grammar.Stops kinds s.ahead) :
    Cursor.check kinds (text.input fuel) c = .ok false c := by
  rw [check_eq h]
  cases hahead : s.ahead with
  | nil => rfl
  | cons t rest =>
      rw [hahead, Grammar.stops_cons] at hstops
      simp [hstops]

/-- Before the end, the token at the position is passed over. -/
theorem advance_eq
    {t : Token}
    {rest : List Token}
    (h : text.At s c)
    (hahead : s.ahead = t :: rest) :
    advance (text.input fuel) c = .ok t ⟨c.position + 1, c.errors⟩ := by
  have hend := atEnd_eq fuel h
  rw [hahead] at hend
  have hprevious := previous_eq fuel (Nat.succ_ne_zero c.position) (h.next hahead).1.inside
  rw [advance, bind_eq_of_ok hend]
  simp only [Nat.add_sub_cancel, h.index hahead, Option.getD_some] at hprevious
  exact hprevious

/-- At the end, the position stays. -/
theorem advance_atEnd
    (fuel : Nat)
    (h : text.At s c)
    (hahead : s.ahead = [])
    (hne : text.tokens ≠ []) :
    ∃ t, advance (text.input fuel) c = .ok t c := by
  have hend := atEnd_eq fuel h
  rw [hahead] at hend
  have hstart : c.position ≠ 0 := by
    rw [h.atEnd hahead]
    exact fun hzero => hne (List.length_eq_zero_iff.mp hzero)
  refine ⟨text.tokens[c.position - 1]?.getD text.ending, ?_⟩
  rw [advance, bind_eq_of_ok hend]
  exact previous_eq fuel hstart h.inside

end Looks

section Steps

/-- What a second parser does after a first one that agrees, where the first has ended. -/
theorem Agreed.bind
    {x : Parser α}
    {y : Cursor α}
    {f : α → Parser β}
    {g : α → Cursor β}
    (hxy : text.Agreed c (x s) (y (text.input fuel) c))
    (hfg : ∀ a s' c', x s = .ok a s' → text.At s' c' → text.Moved c c' →
      text.Agreed c' (f a s') (g a (text.input fuel) c')) :
    text.Agreed c ((x >>= f) s) ((y >>= g) (text.input fuel) c) := by
  simp only [Bind.bind, ReaderT.bind, EStateM.bind]
  unfold Agreed at hxy
  split at hxy
  · next a s' b c' hx hy =>
      obtain ⟨rfl, hat, hmoved⟩ := hxy
      rw [hx, hy]
      exact (hfg a s' c' hx hat hmoved).trans hmoved
  · next s' c' hx hy =>
      rw [hx, hy]
      exact hxy
  · next hx hy =>
      rw [hx, hy]
      trivial
  · exact hxy.elim

theorem Agrees.bind
    {x : Parser α}
    {y : Cursor α}
    {f : α → Parser β}
    {g : α → Cursor β}
    (hxy : text.Agrees fuel x y)
    (hfg : ∀ a, text.Agrees fuel (f a) (g a)) :
    text.Agrees fuel (x >>= f) (y >>= g) :=
  fun s c h => Agreed.bind (hxy s c h) fun a s' c' _ h' _ => hfg a s' c' h'

theorem agrees_pure (a : α) : text.Agrees fuel (pure a) (pure a) :=
  fun _ c h => ⟨rfl, h, .refl text c⟩

theorem Agrees.map
    {x : Parser α}
    {y : Cursor α}
    (f : α → β)
    (h : text.Agrees fuel x y) :
    text.Agrees fuel (f <$> x) (f <$> y) := by
  rw [map_eq_pure_bind, map_eq_pure_bind]
  exact h.bind fun a => agrees_pure (f a)

theorem agrees_check (kinds : List TokenKind) :
    text.Agrees fuel (Parser.check kinds) (Cursor.check kinds) := by
  intro s c h
  rw [check_eq h]
  exact ⟨rfl, h, .refl text c⟩

/-- A token of another kind is not taken. -/
theorem accept_stops
    {kinds : List TokenKind}
    (h : text.At s c)
    (hstops : Grammar.Stops kinds s.ahead) :
    Cursor.accept kinds (text.input fuel) c = .ok none c := by
  rw [Cursor.accept, bind_eq_of_ok (check_stops h hstops), if_neg Bool.false_ne_true]
  rfl

/-- A token of the right kind is taken, and the position moves on by one. -/
theorem accept_cons
    {kinds : List TokenKind}
    {t : Token}
    {rest : List Token}
    (h : text.At s c)
    (hahead : s.ahead = t :: rest)
    (hkind : t.kind ∈ kinds) :
    Cursor.accept kinds (text.input fuel) c = .ok (some t) ⟨c.position + 1, c.errors⟩ := by
  rw [Cursor.accept, bind_eq_of_ok (check_found h hahead hkind), if_pos rfl, map_eq_pure_bind,
    bind_eq_of_ok (advance_eq h hahead)]
  rfl

theorem agrees_accept (kinds : List TokenKind) :
    text.Agrees fuel (Parser.accept kinds) (Cursor.accept kinds) := by
  rintro ⟨ahead, errors⟩ c h
  rcases Grammar.stops_or_cons kinds ahead with hstops | ⟨t, rest, rfl, hkind⟩
  · rw [Parser.accept_stops hstops, accept_stops h hstops]
    exact ⟨rfl, h, .refl text c⟩
  · rw [Parser.accept_cons hkind, accept_cons h rfl hkind]
    exact ⟨rfl, h.next rfl⟩

/-- An error is reported at any place up to the end token. -/
theorem report_eq (fault : ParseFault) {place : Nat} (hplace : place ≤ text.tokens.length) :
    Cursor.report fault place (text.input fuel) c =
      .ok () ⟨c.position, ⟨fault, place⟩ :: c.errors⟩ := by
  rw [Cursor.report, bind_eq_of_ok (look_eq place hplace)]
  rfl

theorem reportNext_eq (fault : ParseFault) (hinside : c.position ≤ text.tokens.length) :
    Cursor.reportNext fault (text.input fuel) c =
      .ok () ⟨c.position, ⟨fault, c.position⟩ :: c.errors⟩ :=
  report_eq fault hinside

theorem agrees_reportNext (fault : ParseFault) :
    text.Agrees fuel (Steps.reportNext fault) (Cursor.reportNext fault) := by
  intro s c h
  have hat := h.report fault h.inside
  rw [← List.head?_drop, ← h.ahead] at hat
  rw [reportNext_eq fault h.inside]
  exact ⟨rfl, hat⟩

theorem agrees_fail (missing : Expectation) :
    text.Agrees fuel (Parser.fail missing : Parser α) (Cursor.fail missing) := by
  intro s c h
  have hat := h.report (.expected missing) h.inside
  rw [← List.head?_drop, ← h.ahead] at hat
  rw [Cursor.fail, bind_eq_of_ok (reportNext_eq _ h.inside)]
  exact hat

theorem Agrees.behind
    {x : Parser α}
    {y : Cursor α}
    (hxy : text.Agrees fuel x y)
    (kind : TokenKind)
    (use : α → Option β)
    (fault : ParseFault) :
    text.Agrees fuel (Parser.behind kind x use fault) (Cursor.behind kind y use fault) := by
  rintro ⟨ahead, errors⟩ c h
  rcases Grammar.stops_or_cons [kind] ahead with hstops | ⟨t, rest, rfl, hkind⟩
  · rw [Parser.behind, Parser.bind_eq_of_ok (Parser.accept_stops hstops), Cursor.behind,
      bind_eq_of_ok (check_stops h hstops), if_neg Bool.false_ne_true]
    exact ⟨rfl, h, .refl text c⟩
  · -- the token is found at the index that was kept
    have hplace := h.index rfl
    obtain ⟨hat, hmoved⟩ := h.next rfl
    have hposition : position (text.input fuel) c = .ok c.position c := rfl
    rw [Parser.behind, Parser.bind_eq_of_ok (Parser.accept_cons hkind), Cursor.behind,
      bind_eq_of_ok (check_found h rfl hkind), if_pos rfl, bind_eq_of_ok hposition,
      bind_eq_of_ok (advance_eq h rfl)]
    refine Agreed.trans hmoved (hxy.bind (fun a => ?_) _ _ hat)
    cases use a with
    | some b => exact agrees_pure _
    | none =>
        refine Agrees.bind (fun s' c' h' => ?_) fun _ => agrees_pure _
        rw [report_eq fault h.inside]
        exact ⟨rfl, hplace ▸ h'.report fault h.inside⟩

end Steps

section Loops

/-- Behind a position fewer tokens are ahead. -/
theorem Moved.length_le
    {s' : ParseState}
    (hmoved : text.Moved c c')
    (h : text.At s c)
    (h' : text.At s' c') :
    s'.ahead.length ≤ s.ahead.length := by
  have hforward := hmoved.forward
  rw [h.ahead, h'.ahead, List.length_drop, List.length_drop]
  omega

/-- Items end at the end and before a closing token. -/
theorem collectUpTo_ends
    {closing : List TokenKind}
    (h : text.At s c)
    (hends : ∀ t ∈ s.ahead.head?, t.kind ∈ closing)
    (item : Cursor (Option α))
    (rounds : Nat)
    (found : List α) :
    Cursor.collectUpTo closing item (rounds + 1) found (text.input fuel) c =
      .ok found.reverse c := by
  cases hahead : s.ahead with
  | nil =>
      have hend := atEnd_eq fuel h
      rw [hahead] at hend
      rw [Cursor.collectUpTo, bind_eq_of_ok (check_stops h (hahead ▸ Grammar.stops_nil closing)),
        if_neg Bool.false_ne_true, bind_eq_of_ok hend]
      rfl
  | cons t rest =>
      have hkind : t.kind ∈ closing := hends t (by rw [hahead]; rfl)
      rw [Cursor.collectUpTo, bind_eq_of_ok (check_found h hahead hkind), if_pos rfl]
      rfl

/-- Before any other token there is a further item. -/
theorem collectUpTo_goesOn
    {closing : List TokenKind}
    {u : Token}
    {rest : List Token}
    (h : text.At s c)
    (hahead : s.ahead = u :: rest)
    (hkind : u.kind ∉ closing)
    (item : Cursor (Option α))
    (rounds : Nat)
    (found : List α) :
    Cursor.collectUpTo closing item (rounds + 1) found (text.input fuel) c =
      (item >>= fun x => Cursor.collectUpTo closing item rounds (x.toList ++ found))
        (text.input fuel) c := by
  have hstops : Grammar.Stops closing s.ahead := hahead ▸ Grammar.stops_cons.mpr hkind
  have hend := atEnd_eq fuel h
  rw [hahead] at hend
  rw [Cursor.collectUpTo, bind_eq_of_ok (check_stops h hstops), if_neg Bool.false_ne_true,
    bind_eq_of_ok hend, List.isEmpty_cons, if_neg Bool.false_ne_true]
  refine congrFun (congrFun (congrArg (item >>= ·) (funext fun x => ?_)) _) c
  cases x <;> rfl

/-- One loop is bounded by the tokens ahead, and the other has fuel for one more round. -/
theorem agreed_collectUpTo
    {item : Parser (Option α)}
    {item' : Cursor (Option α)}
    (htakes : Parser.Takes item)
    (hitem : text.Agrees fuel item item')
    (closing : List TokenKind)
    (bound : List Token) :
    ∀ (rounds : Nat) (found : List α) (s : ParseState) (c : CursorState), text.At s c →
      s.ahead.length ≤ bound.length → s.ahead.length ≤ rounds →
      text.Agreed c (Parser.collectUpTo closing item bound found s)
        (Cursor.collectUpTo closing item' (rounds + 1) found (text.input fuel) c) := by
  induction bound with
  | nil =>
      rintro rounds found ⟨ahead, errors⟩ c h hbound hrounds
      obtain rfl : ahead = [] := List.length_eq_zero_iff.mp (Nat.le_zero.mp hbound)
      rw [Parser.collectUpTo_ends (by simp), collectUpTo_ends h (by simp)]
      exact ⟨rfl, h, .refl text c⟩
  | cons t bound ih =>
      rintro rounds found ⟨ahead, errors⟩ c h hbound hrounds
      rcases Parser.ends_or_goesOn closing ahead with hends | ⟨u, rest, rfl, hkind⟩
      · rw [Parser.collectUpTo_ends hends, collectUpTo_ends h hends]
        exact ⟨rfl, h, .refl text c⟩
      · rw [Parser.collectUpTo_goesOn hkind, collectUpTo_goesOn h rfl hkind]
        refine Agreed.bind (hitem _ c h) fun x s' c' hrun h' hmoved => ?_
        have htook : s'.ahead.length < (u :: rest).length := htakes _ x s' (by simp) hrun
        simp only [List.length_cons] at hbound hrounds htook
        obtain ⟨rounds, rfl⟩ : ∃ n, rounds = n + 1 := ⟨rounds - 1, by omega⟩
        exact ih rounds _ s' c' h' (by omega) (by omega)

theorem agreed_repeatOnto
    {step : Token → α → Parser α}
    {step' : Token → α → Cursor α}
    (hstep : ∀ t v, text.Agrees fuel (step t v) (step' t v))
    (kinds : List TokenKind)
    (bound : List Token) :
    ∀ (rounds : Nat) (v : α) (s : ParseState) (c : CursorState), text.At s c →
      s.ahead.length ≤ bound.length → s.ahead.length ≤ rounds →
      text.Agreed c (Parser.repeatOnto kinds step bound v s)
        (Cursor.repeatOnto kinds step' (rounds + 1) v (text.input fuel) c) := by
  induction bound with
  | nil =>
      rintro rounds v ⟨ahead, errors⟩ c h hbound hrounds
      obtain rfl : ahead = [] := List.length_eq_zero_iff.mp (Nat.le_zero.mp hbound)
      rw [Cursor.repeatOnto, bind_eq_of_ok (accept_stops h (Grammar.stops_nil kinds))]
      exact ⟨rfl, h, .refl text c⟩
  | cons t bound ih =>
      rintro rounds v ⟨ahead, errors⟩ c h hbound hrounds
      rcases Grammar.stops_or_cons kinds ahead with hstops | ⟨u, rest, rfl, hkind⟩
      · rw [Parser.repeatOnto, Parser.bind_eq_of_ok (Parser.accept_stops hstops),
          Cursor.repeatOnto, bind_eq_of_ok (accept_stops h hstops)]
        exact ⟨rfl, h, .refl text c⟩
      · obtain ⟨hnext, hmoved⟩ := h.next rfl
        rw [Parser.repeatOnto, Parser.bind_eq_of_ok (Parser.accept_cons hkind),
          Cursor.repeatOnto, bind_eq_of_ok (accept_cons h rfl hkind)]
        refine Agreed.trans hmoved (Agreed.bind (hstep u v _ _ hnext)
          fun v' s' c' _ h' hmoved' => ?_)
        have hlength := hmoved'.length_le hnext h'
        simp only [List.length_cons] at hbound hrounds hlength
        obtain ⟨rounds, rfl⟩ : ∃ n, rounds = n + 1 := ⟨rounds - 1, by omega⟩
        exact ih rounds v' s' c' h' (by omega) (by omega)

end Loops

section Recovery

/-- The token before the position is the one that was passed over last. -/
theorem skip_eq
    (last : Token)
    (ahead : List Token) :
    ∀ (rounds : Nat) (errors : List ParseError) (c : CursorState), text.At ⟨ahead, errors⟩ c →
      c.position ≠ 0 → text.tokens[c.position - 1]? = some last → ahead.length ≤ rounds →
      ∃ c', skip (rounds + 1) (text.input fuel) c = .ok () c'
        ∧ text.At ⟨Parser.resume last.kind ahead, errors⟩ c' ∧ text.Moved c c' := by
  induction ahead generalizing last with
  | nil =>
      intro rounds errors c h _ _ _
      refine ⟨c, ?_, h, .refl text c⟩
      rw [skip, bind_eq_of_ok (atEnd_eq _ h)]
      rfl
  | cons t rest ih =>
      intro rounds errors c h hstart hlast hrounds
      have hprevious := previous_eq fuel hstart h.inside
      rw [hlast, Option.getD_some] at hprevious
      have hpeek := peek_eq fuel h
      rw [skip, bind_eq_of_ok (atEnd_eq _ h), List.isEmpty_cons, if_neg Bool.false_ne_true,
        bind_eq_of_ok hprevious, Parser.resume]
      by_cases hsemicolon : last.kind = .semicolon
      · rw [if_pos (by simp [hsemicolon]), if_pos (by simp [hsemicolon])]
        exact ⟨c, rfl, h, .refl text c⟩
      · rw [if_neg (by simpa using hsemicolon), bind_eq_of_ok hpeek]
        by_cases hstarts : Parser.statementStarts.contains t.kind = true
        · rw [if_pos (by simpa using hstarts), if_pos (by simp [hsemicolon]; simpa using hstarts)]
          exact ⟨c, rfl, h, .refl text c⟩
        · rw [if_neg (by simpa using hstarts), if_neg (by simp [hsemicolon]; simpa using hstarts),
            bind_eq_of_ok (advance_eq h rfl)]
          obtain ⟨hnext, hmoved⟩ := h.next rfl
          simp only [List.length_cons] at hrounds
          obtain ⟨rounds, rfl⟩ : ∃ n, rounds = n + 1 := ⟨rounds - 1, by omega⟩
          obtain ⟨c', hrun, hat, hmoved'⟩ := ih t rounds errors _ hnext (Nat.succ_ne_zero _)
            (h.index rfl) (by omega)
          exact ⟨c', hrun, hat, hmoved.trans hmoved'⟩

/-- The skipping by position ends where the skipping of the list ends, inside the tokens. -/
theorem synchronize_eq
    (h : text.At s c)
    (hne : text.tokens ≠ [])
    (hfuel : text.tokens.length < fuel) :
    ∃ c', synchronize (text.input fuel) c = .ok () c'
      ∧ text.At { s with ahead := Parser.synchronize s.ahead } c' ∧ text.Moved c c' := by
  obtain ⟨ahead, errors⟩ := s
  obtain ⟨rounds, rfl⟩ : ∃ n, fuel = n + 1 := ⟨fuel - 1, by omega⟩
  have hrounds : Cursor.fuel (text.input (rounds + 1)) = fun c => .ok (rounds + 1) c := rfl
  have hlength := h.length_le
  cases ahead with
  | nil =>
      obtain ⟨t, hadvance⟩ := advance_atEnd (rounds + 1) h rfl hne
      refine ⟨c, ?_, h, .refl text c⟩
      rw [synchronize, bind_eq_of_ok hadvance, bind_eq_of_ok (congrFun hrounds c), skip,
        bind_eq_of_ok (atEnd_eq _ h)]
      rfl
  | cons t rest =>
      obtain ⟨hnext, hmoved⟩ := h.next rfl
      simp only [List.length_cons] at hlength
      obtain ⟨c', hrun, hat, hmoved'⟩ := skip_eq t rest rounds errors _ hnext
        (Nat.succ_ne_zero _) (h.index rfl) (by omega)
      refine ⟨c', ?_, hat, hmoved.trans hmoved'⟩
      rw [synchronize, bind_eq_of_ok (advance_eq h rfl), bind_eq_of_ok (congrFun hrounds _)]
      exact hrun

/-- Recovery by position agrees with recovery on the list. -/
theorem Agrees.recovering
    {x : Parser Stmt}
    {y : Cursor Stmt}
    (hxy : text.Agrees fuel x y)
    (hne : text.tokens ≠ [])
    (hfuel : text.tokens.length < fuel) :
    text.Agrees fuel (Parser.recovering x) (Cursor.recovering y) := by
  intro s c h
  have hagreed := hxy s c h
  unfold Agreed at hagreed
  split at hagreed
  · next a s' b c' hx hy =>
      obtain ⟨rfl, hat, hmoved⟩ := hagreed
      simp only [Parser.recovering, Cursor.recovering, hx, hy]
      exact ⟨rfl, hat, hmoved⟩
  · next s' c' hx hy =>
      obtain ⟨hat, hmoved⟩ := hagreed
      obtain ⟨c'', hrun, hat', hmoved'⟩ := synchronize_eq hat hne hfuel
      simp only [Parser.recovering, Cursor.recovering, hx, hy]
      rw [bind_eq_of_ok hrun]
      exact ⟨rfl, hat', hmoved.trans hmoved'⟩
  · next hx hy =>
      simp only [Parser.recovering, Cursor.recovering, hx, hy]
      trivial
  · exact hagreed.elim

end Recovery

/-- Parsers by position correspond to parsers, if there is fuel for every token. -/
def correspondence (text : Text) (fuel : Nat) (hfuel : text.tokens.length < fuel) :
    Steps.Correspondence Parser Cursor where
  rel x y := text.Agrees fuel x y
  taking x := Parser.Takes x
  allows a b := a = b
  pure := agrees_pure
  bind := Agrees.bind
  map := Agrees.map
  check := agrees_check
  accept := agrees_accept
  reportNext _ := agrees_reportNext _
  fail := agrees_fail
  tooDeep := fun _ _ _ => trivial
  behind kind use _ h := h.behind kind use _
  upTo := by
    intro α item item' closing htakes hitem s c h
    obtain ⟨rounds, rfl⟩ : ∃ n, fuel = n + 1 := ⟨fuel - 1, by omega⟩
    have hlength := h.length_le
    exact agreed_collectUpTo htakes hitem closing s.ahead rounds [] s c h (Nat.le_refl _) (by omega)
  repeating := by
    intro α step step' kinds v hstep s c h
    obtain ⟨rounds, rfl⟩ : ∃ n, fuel = n + 1 := ⟨fuel - 1, by omega⟩
    have hlength := h.length_le
    exact agreed_repeatOnto hstep kinds s.ahead rounds v s c h (Nat.le_refl _) (by omega)
  allows_zero h := .inl h.symm
  allows_succ := Steps.exists_eq_succ

theorem recovery_recovering (hfuel : text.tokens.length < fuel) (hne : text.tokens ≠ []) :
    (text.correspondence fuel hfuel).Recovery Parser.recovering Cursor.recovering where
  rel h := Agrees.recovering h hne hfuel
  taking_declaration := Parser.takes_steps_declaration Parser.movesOn_recovering
  taking_method := Parser.takes_steps_method Parser.movesOn_recovering

theorem recovery_strictly (hfuel : text.tokens.length < fuel) :
    (text.correspondence fuel hfuel).Recovery Steps.strictly Steps.strictly where
  rel h := Agrees.map some h
  taking_declaration := Parser.takes_steps_declaration Parser.movesOn_strictly
  taking_method := Parser.takes_steps_method Parser.movesOn_strictly

/-- Declarations agree, with recovery at their start. -/
theorem agrees_declaration
    (hfuel : text.tokens.length < fuel)
    (hne : text.tokens ≠ [])
    (a : Nat) :
    text.Agrees fuel (Parser.declaration a) (Steps.declaration Cursor.recovering a) := by
  rw [← Parser.steps_declaration]
  exact (recovery_recovering hfuel hne).declaration rfl

/-- Where there is no token, there is nothing to recover from. -/
theorem agrees_program (hfuel : text.tokens.length < fuel) (a : Nat) :
    text.Agrees fuel (Parser.program a) (Steps.program Cursor.recovering a) := by
  by_cases hne : text.tokens = []
  · rintro ⟨ahead, errors⟩ c h
    obtain ⟨rounds, rfl⟩ : ∃ n, fuel = n + 1 := ⟨fuel - 1, by omega⟩
    obtain rfl : ahead = [] := by simpa [hne] using h.ahead
    have hrun : Steps.program Cursor.recovering a (text.input (rounds + 1)) c = .ok [] c :=
      collectUpTo_ends h (by simp) _ rounds []
    rw [hrun]
    exact ⟨rfl, h, .refl text c⟩
  · rw [← Parser.steps_program]
    exact (recovery_recovering hfuel hne).program rfl

/-- All tokens are ahead at the start. -/
theorem at_start : text.At ⟨text.tokens, []⟩ ⟨0, []⟩ :=
  ⟨rfl, Nat.zero_le _, rfl⟩

/-- With enough fuel, the parse of a text goes to its end, and it is the parse of its tokens. -/
theorem parse_eq (text : Text) {fuel : Nat} (hfuel : 2 * text.tokens.length + 4 ≤ fuel) :
    ∃ statements c, parse (text.tokens ++ [text.ending]) fuel = .ok statements c
      ∧ c.position = text.tokens.length
      ∧ text.Moved ⟨0, []⟩ c
      ∧ Parse.ofTokens text.tokens = ⟨statements, (c.errors.map text.located).reverse⟩ := by
  obtain ⟨statements, s, hrun, hend⟩ :=
    Parser.program_ends (s := ⟨text.tokens, []⟩) (a := fuel) hfuel
  have hless : text.tokens.length < fuel := by omega
  have hagreed := agrees_program hless fuel _ _ text.at_start
  rw [hrun] at hagreed
  unfold Agreed at hagreed
  split at hagreed
  · next a s' b c hs hc =>
      cases hs
      obtain ⟨rfl, hat, hmoved⟩ := hagreed
      refine ⟨statements, c, hc, hat.atEnd hend, hmoved, ?_⟩
      rw [← Parse.within_eq_ofTokens hfuel, Parse.within, hrun]
      dsimp only
      rw [hat.errors]
  all_goals simp_all

end Text

/--
With enough fuel, the parse of a list of tokens ends without a look outside of the list and without
a loop that goes on too long.  It ends at the token for the end, every error is at a token of the
list, and it finds what the parse of the tokens finds.  A declaration that is parsed from any place
before the end ends too, behind its start and not behind the end, whatever has been reported before.
-/
theorem parse_stays_inside
    (text : Text)
    {fuel : Nat}
    (hfuel : 2 * text.tokens.length + 4 ≤ fuel) :
    (∃ statements c, parse (text.tokens ++ [text.ending]) fuel = .ok statements c
        ∧ c.position = text.tokens.length
        ∧ (∀ e ∈ c.errors, e.place < (text.tokens ++ [text.ending]).length)
        ∧ Parse.ofTokens text.tokens = ⟨statements, (c.errors.map text.located).reverse⟩)
      ∧ ∀ c : CursorState, c.position < text.tokens.length →
        ∃ result c' new, Steps.declaration recovering fuel (text.input fuel) c = .ok result c'
          ∧ c.position < c'.position
          ∧ c'.position ≤ text.tokens.length
          ∧ c'.errors = new ++ c.errors
          ∧ ∀ e ∈ new, e.place < (text.tokens ++ [text.ending]).length := by
  have hless : text.tokens.length < fuel := by omega
  have hlength : (text.tokens ++ [text.ending]).length = text.tokens.length + 1 := by simp
  constructor
  · obtain ⟨statements, c, hrun, hend, hmoved, hsame⟩ := text.parse_eq hfuel
    obtain ⟨new, hnew, hplaces⟩ := hmoved.errors
    rw [List.append_nil] at hnew
    refine ⟨statements, c, hrun, hend, fun e he => ?_, hsame⟩
    rw [hlength]
    exact Nat.lt_succ_of_le (hplaces e (hnew ▸ he))
  · intro c hc
    have hne : text.tokens ≠ [] := fun hnil => by simp [hnil] at hc
    let s : ParseState := ⟨text.tokens.drop c.position, c.errors.map text.located⟩
    have hat : text.At s c := ⟨rfl, hc.le, rfl⟩
    have hahead : s.ahead.length = text.tokens.length - c.position := List.length_drop
    obtain ⟨x, s', hrun, htook⟩ := Parser.declaration_ends (s := s) (a := fuel) (by omega)
    have hagreed := Text.agrees_declaration hless hne fuel s c hat
    rw [hrun] at hagreed
    unfold Text.Agreed at hagreed
    split at hagreed
    · next a s'' b c' hs hc' =>
        cases hs
        obtain ⟨rfl, hat', hmoved⟩ := hagreed
        obtain ⟨new, hnew, hplaces⟩ := hmoved.errors
        have hahead' : s'.ahead.length = text.tokens.length - c'.position := by
          rw [hat'.ahead, List.length_drop]
        have hshorter := htook (List.ne_nil_of_length_pos (by omega))
        refine ⟨x, c', new, hc', by omega, hat'.inside, hnew, fun e he => ?_⟩
        rw [hlength]
        exact Nat.lt_succ_of_le (hplaces e he)
    all_goals simp_all

/--
Three recoveries in one text: the rest of a broken declaration is skipped behind its semicolon, a
stray bracket is skipped up to the start of a statement, and the last error is at the token for the
end.
-/
theorem parse_stays_inside_broken_off :
    let one : Token := ⟨.number, "1", 1⟩
    let text : Text :=
      ⟨[⟨.varWord, "var", 1⟩, one, one, ⟨.semicolon, ";", 1⟩, ⟨.rightParen, ")", 2⟩,
        ⟨.printWord, "print", 2⟩], ⟨.endOfText, "", 2⟩, by decide, rfl⟩
    2 * text.tokens.length + 4 ≤ 16
      ∧ (∃ statements c, parse (text.tokens ++ [text.ending]) 16 = .ok statements c
        ∧ c.position = 6
        ∧ c.errors.map PlacedError.place = [6, 4, 1]
        ∧ Parse.ofTokens text.tokens = ⟨statements, (c.errors.map text.located).reverse⟩)
      ∧ ∃ result c', Steps.declaration recovering 16 (text.input 16) ⟨0, []⟩ = .ok result c'
        ∧ 0 < c'.position
        ∧ c'.position = 4 := by
  intro one text
  obtain ⟨⟨statements, c, hrun, hposition, -, hparse⟩, hmoves⟩ :=
    parse_stays_inside text (by decide : 2 * text.tokens.length + 4 ≤ 16)
  obtain ⟨result, c', -, hrun', hmoved, -⟩ := hmoves ⟨0, []⟩ (by decide)
  have hplaces : (match parse (text.tokens ++ [text.ending]) 16 with
      | .ok _ c => c.errors.map PlacedError.place
      | .error _ _ => []) = [6, 4, 1] := by rfl
  have hbehind : (match Steps.declaration recovering 16 (text.input 16) ⟨0, []⟩ with
      | .ok _ c => c.position
      | .error _ _ => 0) = 4 := by rfl
  rw [hrun] at hplaces
  rw [hrun'] at hbehind
  exact ⟨by decide, ⟨statements, c, hrun, hposition, hplaces, hparse⟩, result, c', hrun', hmoved,
    hbehind⟩

end Cursor
end Lox

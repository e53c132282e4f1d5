import Lox.Proofs.Grammar.Complete
import Lox.Proofs.Tree.Correspondence
import Lox.Proofs.Tree.Spends

/-!
# What a parser does not look at

A parser looks at no token behind the next one.  So on two texts that have their first tokens in
common, and the next one too, it does the same as long as it takes none but the common ones.  What
it reports does not depend on the errors reported before, and if its allowance for nesting is
enough, a larger one changes nothing.

**Main definitions.**
* `Parser.Kept`: a run on one text has taken more than the common tokens, or it is the same as a run
  on the other.
* `Parser.Alike`: the same of all runs of two parsers, of which the second may have a larger
  allowance.

**Results.**
* `Parser.alike`: the parsers are alike.
* `Parse.within_eq_ofTokens`: the parse does not depend on the allowance.
-/

namespace Lox
namespace Parser

variable {α β : Type}

/-- Before two texts, a run on one takes some of it, or it is the same as the run on the other. -/
def Kept (rest rest' : List Token) (errors errors' : List ParseError) :
    EStateM.Result Abort ParseState α → EStateM.Result Abort ParseState α → Prop
  | .ok a s, result => s.ahead.length < rest.length ∨ ∃ left new,
      s = ⟨left ++ rest, new ++ errors⟩ ∧ result = .ok a ⟨left ++ rest', new ++ errors'⟩
  | .error .failed s, result => s.ahead.length < rest.length ∨ ∃ left new,
      s = ⟨left ++ rest, new ++ errors⟩ ∧ result = .error .failed ⟨left ++ rest', new ++ errors'⟩
  | .error .tooDeep _, _ => True

/-- Before two texts that start with the same token, two parsers do the same. -/
structure Alike (x y : Parser α) : Prop where
  spends : Spends 0 0 x
  kept (used rest rest' : List Token) (errors errors' : List ParseError) :
    rest.head? = rest'.head? →
      Kept rest rest' errors errors' (x ⟨used ++ rest, errors⟩) (y ⟨used ++ rest', errors'⟩)

section Steps

variable {used rest rest' : List Token} {errors errors' : List ParseError}

/-- A run that has taken more than the common tokens has taken them at its end. -/
theorem Kept.of_beyond
    {x : Parser α}
    {s : ParseState}
    {result : EStateM.Result Abort ParseState α}
    (hx : Spends 0 0 x)
    (hbeyond : s.ahead.length < rest.length) :
    Kept rest rest' errors errors' (x s) result := by
  have hspends := hx s
  cases hrun : x s with
  | ok a s' =>
      rw [hrun] at hspends
      exact .inl (Nat.lt_of_le_of_lt hspends hbeyond)
  | error abort s' =>
      rw [hrun] at hspends
      cases abort with
      | failed => exact .inl (Nat.lt_of_le_of_lt hspends hbeyond)
      | tooDeep => trivial

/-- What has been reported between the errors before and a later state. -/
theorem Kept.after
    {new : List ParseError}
    {result result' : EStateM.Result Abort ParseState α}
    (h : Kept rest rest' (new ++ errors) (new ++ errors') result result') :
    Kept rest rest' errors errors' result result' := by
  match result with
  | .error .tooDeep _ => trivial
  | .ok a s | .error .failed s =>
      obtain hbeyond | ⟨left, newer, rfl, rfl⟩ := h
      · exact .inl hbeyond
      · exact .inr ⟨left, newer ++ new, by rw [List.append_assoc], by rw [List.append_assoc]⟩

theorem Kept.bind
    {x y : Parser α}
    {f g : α → Parser β}
    {s s' : ParseState}
    (hxy : Kept rest rest' errors errors' (x s) (y s'))
    (hf : ∀ a, Spends 0 0 (f a))
    (hfg : ∀ a left new, x s = .ok a ⟨left ++ rest, new ++ errors⟩ →
      Kept rest rest' (new ++ errors) (new ++ errors') (f a ⟨left ++ rest, new ++ errors⟩)
        (g a ⟨left ++ rest', new ++ errors'⟩)) :
    Kept rest rest' errors errors' ((x >>= f) s) ((y >>= g) s') := by
  simp only [Bind.bind, EStateM.bind]
  cases hrun : x s with
  | ok a t =>
      rw [hrun] at hxy
      obtain hbeyond | ⟨left, new, rfl, hother⟩ := hxy
      · exact .of_beyond (hf a) hbeyond
      · rw [hother]
        exact (hfg a left new hrun).after
  | error abort t =>
      rw [hrun] at hxy
      cases abort with
      | tooDeep => trivial
      | failed =>
          obtain hbeyond | ⟨left, new, rfl, hother⟩ := hxy
          · exact .inl hbeyond
          · rw [hother]
            exact .inr ⟨left, new, rfl, rfl⟩

theorem Alike.bind
    {x y : Parser α}
    {f g : α → Parser β}
    (hxy : Alike x y)
    (hfg : ∀ a, Alike (f a) (g a)) :
    Alike (x >>= f) (y >>= g) :=
  ⟨hxy.spends.before fun a => (hfg a).spends,
    fun used rest rest' errors errors' hnext =>
      (hxy.kept used rest rest' errors errors' hnext).bind (fun a => (hfg a).spends)
        fun a left _ _ => (hfg a).kept left rest rest' _ _ hnext⟩

theorem kept_stay {a : α} :
    Kept rest rest' errors errors' (.ok a ⟨used ++ rest, errors⟩)
      (.ok a ⟨used ++ rest', errors'⟩) :=
  .inr ⟨used, [], rfl, rfl⟩

theorem alike_pure (a : α) : Alike (pure a : Parser α) (pure a) :=
  ⟨spends_pure a, fun _ _ _ _ _ _ => kept_stay⟩

theorem Alike.map {x y : Parser α} (f : α → β) (h : Alike x y) : Alike (f <$> x) (f <$> y) := by
  rw [map_eq_pure_bind, map_eq_pure_bind]
  exact h.bind fun a => alike_pure (f a)

/-- The next token is the same on both texts. -/
theorem head?_append_congr (hnext : rest.head? = rest'.head?) (used : List Token) :
    (used ++ rest).head? = (used ++ rest').head? := by
  rw [List.head?_append, List.head?_append, hnext]

theorem alike_check (kinds : List TokenKind) : Alike (check kinds) (check kinds) := by
  refine ⟨spends_check kinds, fun used rest rest' errors errors' hnext => ?_⟩
  rw [check_eq, check_eq, head?_append_congr hnext]
  exact kept_stay

theorem alike_report (fault : ParseFault) (found : Option Token) :
    Alike (report fault found) (report fault found) :=
  ⟨spends_report fault found, fun used _ _ _ _ _ => .inr ⟨used, [⟨fault, found⟩], rfl, rfl⟩⟩

theorem alike_reportNext (fault : ParseFault) :
    Alike (Steps.reportNext fault : Parser Unit) (Steps.reportNext fault) := by
  refine ⟨fun s => le_rfl, fun used rest rest' errors errors' hnext => ?_⟩
  refine .inr ⟨used, [⟨fault, (used ++ rest).head?⟩], rfl, ?_⟩
  rw [head?_append_congr hnext]
  rfl

theorem alike_fail (missing : Expectation) : Alike (fail missing : Parser α) (fail missing) := by
  refine ⟨spends_fail missing, fun used rest rest' errors errors' hnext => ?_⟩
  refine .inr ⟨used, [⟨.expected missing, (used ++ rest).head?⟩], rfl, ?_⟩
  rw [head?_append_congr hnext]
  rfl

theorem alike_tooDeep (y : Parser α) : Alike tooDeep y :=
  ⟨spends_tooDeep, fun _ _ _ _ _ _ => trivial⟩

theorem alike_accept (kinds : List TokenKind) : Alike (accept kinds) (accept kinds) := by
  refine ⟨?_, fun used rest rest' errors errors' hnext => ?_⟩
  · rw [← bind_pure (accept kinds)]
    exact spends_accept (n := 0) (c := 0) (spends_pure _) (fun _ _ => spends_pure _)
      (Nat.zero_le _) (Nat.zero_le _)
  · rcases Grammar.stops_or_cons kinds (used ++ rest) with hstops | ⟨t, left, hahead, hkind⟩
    · have hstops' : Grammar.Stops kinds (used ++ rest') := by
        rwa [Grammar.Stops, ← head?_append_congr hnext]
      rw [accept_stops hstops, accept_stops hstops']
      exact kept_stay
    · cases used with
      | nil =>
          -- the token is not one of the common ones
          rw [List.nil_append] at hahead
          rw [List.nil_append, hahead, accept_cons hkind]
          exact .inl (Nat.lt_succ_self _)
      | cons u used =>
          obtain ⟨rfl, rfl⟩ := List.cons.inj hahead
          rw [List.cons_append, List.cons_append, accept_cons hkind, accept_cons hkind]
          exact kept_stay

theorem Alike.behind
    {x y : Parser α}
    (h : Alike x y)
    (kind : TokenKind)
    (use : α → Option β)
    (fault : ParseFault) :
    Alike (Parser.behind kind x use fault) (Parser.behind kind y use fault) := by
  refine (alike_accept [kind]).bind fun found => ?_
  cases found with
  | none => exact alike_pure none
  | some t =>
      refine h.bind fun a => ?_
      split
      · exact alike_pure _
      · exact (alike_report fault (some t)).bind fun _ => alike_pure _

end Steps

section Loops

variable {rest rest' : List Token}

/-- Of two texts with the same next token, both are empty or none is. -/
theorem eq_nil_of_head?_eq (hnext : rest.head? = rest'.head?) (hnil : rest = []) : rest' = [] := by
  rw [hnil, List.head?_nil, eq_comm, List.head?_eq_none_iff] at hnext
  exact hnext

theorem kept_collectUpTo
    {item item' : Parser (Option α)}
    (htakes : Takes item)
    (hitem : Alike item item')
    (closing : List TokenKind)
    (hnext : rest.head? = rest'.head?)
    (bound : List Token) :
    ∀ (bound' : List Token) (found : List α) (used : List Token) (errors errors' : List ParseError),
      (used ++ rest).length ≤ bound.length → (used ++ rest').length ≤ bound'.length →
      Kept rest rest' errors errors' (collectUpTo closing item bound found ⟨used ++ rest, errors⟩)
        (collectUpTo closing item' bound' found ⟨used ++ rest', errors'⟩) := by
  induction bound with
  | nil =>
      intro bound' found used errors errors' hbound hbound'
      have hnil : used ++ rest = [] := List.length_eq_zero_iff.mp (Nat.le_zero.mp hbound)
      have hnil' := eq_nil_of_head?_eq (head?_append_congr hnext used) hnil
      rw [collectUpTo_ends (by simp [hnil]), collectUpTo_ends (by simp [hnil'])]
      exact kept_stay
  | cons t bound ih =>
      intro bound' found used errors errors' hbound hbound'
      rcases ends_or_goesOn closing (used ++ rest) with hends | ⟨u, left, hahead, hkind⟩
      · rw [collectUpTo_ends hends,
          collectUpTo_ends (by rwa [← head?_append_congr hnext])]
        exact kept_stay
      · have hhead := head?_append_congr hnext used
        obtain ⟨left', hahead'⟩ : ∃ left', used ++ rest' = u :: left' := by
          rw [hahead, List.head?_cons, eq_comm] at hhead
          exact List.head?_eq_some_iff.mp hhead
        obtain ⟨t', bound', rfl⟩ : ∃ t' more, bound' = t' :: more := by
          cases bound' with
          | nil => rw [hahead'] at hbound'; exact absurd hbound' (Nat.not_succ_le_zero _)
          | cons t' more => exact ⟨t', more, rfl⟩
        have hkept := hitem.kept used rest rest' errors errors' hnext
        rw [hahead, hahead'] at hkept ⊢
        rw [collectUpTo_goesOn hkind, collectUpTo_goesOn hkind]
        refine hkept.bind (fun x => spends_collectUpTo hitem.spends bound _)
          fun x left new hrun => ?_
        have htook := htakes _ x _ (List.cons_ne_nil _ _) hrun
        have hlength := congrArg List.length hahead
        have hlength' := congrArg List.length hahead'
        simp only [List.length_append, List.length_cons] at *
        exact ih bound' _ left _ _ (by omega) (by omega)

theorem spends_repeatOnto_of_step
    {step : Token → α → Parser α}
    (hstep : ∀ t v, Spends 0 0 (step t v))
    (kinds : List TokenKind)
    (bound : List Token)
    (v : α) :
    Spends 0 0 (repeatOnto kinds step bound v) :=
  spends_repeatOnto hstep (Nat.zero_le _) bound v

theorem kept_repeatOnto
    {step step' : Token → α → Parser α}
    (hstep : ∀ t v, Alike (step t v) (step' t v))
    (kinds : List TokenKind)
    (hnext : rest.head? = rest'.head?)
    (bound : List Token) :
    ∀ (bound' : List Token) (v : α) (used : List Token) (errors errors' : List ParseError),
      (used ++ rest).length ≤ bound.length → (used ++ rest').length ≤ bound'.length →
      Kept rest rest' errors errors' (repeatOnto kinds step bound v ⟨used ++ rest, errors⟩)
        (repeatOnto kinds step' bound' v ⟨used ++ rest', errors'⟩) := by
  have hrepeat := spends_repeatOnto_of_step (fun t v => (hstep t v).spends) kinds
  induction bound with
  | nil =>
      intro bound' v used errors errors' hbound hbound'
      have hnil : used ++ rest = [] := List.length_eq_zero_iff.mp (Nat.le_zero.mp hbound)
      have hnil' := eq_nil_of_head?_eq (head?_append_congr hnext used) hnil
      obtain ⟨rfl, rfl⟩ := List.append_eq_nil_iff.mp hnil
      obtain rfl : rest' = [] := hnil'
      cases bound' <;> exact .inr ⟨[], [], rfl, rfl⟩
  | cons t bound ih =>
      intro bound' v used errors errors' hbound hbound'
      rcases Grammar.stops_or_cons kinds (used ++ rest) with hstops | ⟨u, left, hahead, hkind⟩
      · have hstops' : Grammar.Stops kinds (used ++ rest') := by
          rwa [Grammar.Stops, ← head?_append_congr hnext]
        rw [repeatOnto, bind_eq_of_ok (accept_stops hstops)]
        cases bound' with
        | nil => exact kept_stay
        | cons t' bound' =>
            rw [repeatOnto, bind_eq_of_ok (accept_stops hstops')]
            exact kept_stay
      · cases used with
        | nil =>
            -- the step starts with a token that is not one of the common ones
            rw [List.nil_append] at hahead
            rw [List.nil_append, hahead, repeatOnto, bind_eq_of_ok (accept_cons hkind)]
            refine .of_beyond ((hstep u v).spends.before fun v => hrepeat bound v) ?_
            exact Nat.lt_succ_self left.length
        | cons u' used =>
            obtain ⟨rfl, rfl⟩ := List.cons.inj hahead
            cases bound' with
            | nil => exact absurd hbound' (Nat.not_succ_le_zero _)
            | cons t' bound' =>
                rw [List.cons_append, List.cons_append, repeatOnto,
                  bind_eq_of_ok (accept_cons hkind), repeatOnto, bind_eq_of_ok (accept_cons hkind)]
                refine ((hstep u' v).kept used rest rest' errors errors' hnext).bind
                  (fun v => hrepeat bound v) fun v' left new hrun => ?_
                have hspends := (hstep u' v).spends ⟨used ++ rest, errors⟩
                rw [hrun] at hspends
                simp only [Spent, List.length_append, List.length_cons] at *
                exact ih bound' v' left _ _ (by omega) (by omega)

end Loops

section Recovery

variable {rest rest' : List Token}

/-- Tokens are passed over up to the same place of two texts that start with the same token. -/
theorem resume_append
    (hnext : rest.head? = rest'.head?)
    (last : TokenKind)
    (used : List Token) :
    (resume last (used ++ rest)).length < rest.length
      ∨ ∃ left, resume last (used ++ rest) = left ++ rest
        ∧ resume last (used ++ rest') = left ++ rest' := by
  induction used generalizing last with
  | nil =>
      cases rest with
      | nil =>
          obtain rfl := eq_nil_of_head?_eq hnext rfl
          exact .inr ⟨[], rfl, rfl⟩
      | cons t ahead =>
          rw [List.head?_cons, eq_comm] at hnext
          obtain ⟨ahead', rfl⟩ := List.head?_eq_some_iff.mp hnext
          rw [List.nil_append, List.nil_append, resume, resume]
          split
          · exact .inr ⟨[], rfl, rfl⟩
          · exact .inl (Nat.lt_succ_of_le (length_resume_le _ _))
  | cons t used ih =>
      rw [List.cons_append, List.cons_append, resume, resume]
      split
      · exact .inr ⟨t :: used, rfl, rfl⟩
      · exact ih t.kind

theorem synchronize_append (hnext : rest.head? = rest'.head?) (used : List Token) :
    (synchronize (used ++ rest)).length < rest.length
      ∨ ∃ left, synchronize (used ++ rest) = left ++ rest
        ∧ synchronize (used ++ rest') = left ++ rest' := by
  cases used with
  | cons t used => exact resume_append hnext t.kind used
  | nil =>
      cases rest with
      | nil =>
          obtain rfl := eq_nil_of_head?_eq hnext rfl
          exact .inr ⟨[], rfl, rfl⟩
      | cons t ahead =>
          exact .inl (Nat.lt_succ_of_le (length_resume_le _ _))

theorem Alike.recovering {x y : Parser Stmt} (h : Alike x y) :
    Alike (Parser.recovering x) (Parser.recovering y) := by
  refine ⟨fun s => ?_, fun used rest rest' errors errors' hnext => ?_⟩
  · have hspends := h.spends s
    unfold Parser.recovering
    cases hrun : x s with
    | ok a s' => rw [hrun] at hspends; exact hspends
    | error abort s' =>
        rw [hrun] at hspends
        cases abort with
        | tooDeep => exact Nat.zero_le _
        | failed =>
            have hleft := length_synchronize_le s'.ahead
            dsimp only [Spent] at hspends ⊢
            omega
  · have hkept := h.kept used rest rest' errors errors' hnext
    unfold Parser.recovering
    cases hrun : x ⟨used ++ rest, errors⟩ with
    | ok a s =>
        rw [hrun] at hkept
        obtain hbeyond | ⟨left, new, rfl, hother⟩ := hkept
        · exact .inl hbeyond
        · rw [hother]
          exact .inr ⟨left, new, rfl, rfl⟩
    | error abort s =>
        rw [hrun] at hkept
        cases abort with
        | tooDeep => trivial
        | failed =>
            obtain hbeyond | ⟨left, new, rfl, hother⟩ := hkept
            · have hleft := length_synchronize_le s.ahead
              exact .inl (by dsimp only; omega)
            · rw [hother]
              obtain hbeyond | ⟨left', hleft, hleft'⟩ := synchronize_append hnext left
              · exact .inl hbeyond
              · refine .inr ⟨left', new, ?_, ?_⟩ <;> dsimp only
                · rw [hleft]
                · rw [hleft']

end Recovery

/-- Parsers are alike. -/
def alike : Steps.Correspondence Parser Parser where
  rel x y := Alike x y
  taking x := Takes x
  allows a b := a ≤ b
  pure := alike_pure
  bind := Alike.bind
  map := Alike.map
  check := alike_check
  accept := alike_accept
  reportNext _ := alike_reportNext _
  fail := alike_fail
  tooDeep := alike_tooDeep _
  behind kind use _ h := h.behind kind use _
  upTo closing htakes hitem :=
    ⟨spends_upTo hitem.spends, fun used rest rest' errors errors' hnext =>
      kept_collectUpTo htakes hitem closing hnext _ _ [] used errors errors' le_rfl le_rfl⟩
  repeating kinds v hstep :=
    ⟨spends_bounded fun bound =>
        spends_repeatOnto_of_step (fun t v => (hstep t v).spends) kinds bound v,
      fun used rest rest' errors errors' hnext =>
        kept_repeatOnto hstep kinds hnext _ _ v used errors errors' le_rfl le_rfl⟩
  allows_zero _ := .inr alike_tooDeep
  allows_succ {a b} h := ⟨b - 1, by omega, by omega⟩

theorem alike_recovering : alike.Recovery recovering recovering where
  rel h := Alike.recovering h
  taking_declaration := takes_steps_declaration movesOn_recovering
  taking_method := takes_steps_method movesOn_recovering

theorem alike_strictly : alike.Recovery Steps.strictly Steps.strictly where
  rel h := Alike.map some h
  taking_declaration := takes_steps_declaration movesOn_strictly
  taking_method := takes_steps_method movesOn_strictly

/-- Where one text stands, the run does not depend on the errors before, nor on the allowance. -/
theorem Alike.framed
    {x y : Parser α}
    (h : Alike x y)
    {tokens left : List Token}
    {errors new : List ParseError}
    {a : α}
    (hrun : x ⟨tokens, errors⟩ = .ok a ⟨left, new ++ errors⟩)
    (errors' : List ParseError) :
    y ⟨tokens, errors'⟩ = .ok a ⟨left, new ++ errors'⟩ := by
  have hkept := h.kept tokens [] [] errors errors' rfl
  rw [List.append_nil, hrun] at hkept
  obtain hbeyond | ⟨left', new', hstate, hother⟩ := hkept
  · exact absurd hbeyond (Nat.not_lt_zero _)
  · rw [List.append_nil] at hstate hother
    obtain ⟨hleft, hnew⟩ := ParseState.mk.inj hstate
    rw [hother, hleft, List.append_cancel_right hnew]

end Parser

/-- With enough allowance, the parse does not depend on it. -/
theorem Parse.within_eq_ofTokens
    {allowance : Nat}
    {tokens : List Token}
    (h : 2 * tokens.length + 4 ≤ allowance) :
    Parse.within allowance tokens = Parse.ofTokens tokens := by
  obtain ⟨statements, s, hrun, -⟩ :=
    Parser.program_ends (s := ⟨tokens, []⟩) (a := 2 * tokens.length + 4) le_rfl
  have halike := Parser.alike_recovering.program h
  rw [Parser.steps_program, Parser.steps_program] at halike
  have hrun' : Parser.program (2 * tokens.length + 4) ⟨tokens, []⟩ =
      .ok statements ⟨s.ahead, s.errors ++ []⟩ := by rw [hrun, List.append_nil]
  have hsame := halike.framed hrun' []
  rw [Parse.ofTokens, Parse.within, Parse.within, hrun, hsame, List.append_nil]

end Lox

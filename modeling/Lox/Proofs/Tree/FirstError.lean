import Lox.Proofs.Tree.Cursor

/-!
# The first error

A parser that does not recover stops where the first thing is missing.  Up to there, the parser that
recovers has done the same, and whatever it does behind that place, it takes back no error.  So the
first of its errors that is not a minor one is the error of the parser that does not recover, and it
is found at the place where that parser has stopped.

**Main definitions.**
* `Cursor.Heads`: how a parser that does not recover goes before one that does.
* `Cursor.firstMajor`: the first error that is not a minor one.

**Result.**
* `Cursor.Text.firstMajor_cases`: the first such error is found where the parser that does not
  recover stops, and if there is none, that parser goes to the end.
-/

namespace Lox
namespace Cursor

variable {α β : Type}

/-- The state at the end of a run. -/
def endOf : EStateM.Result CursorAbort CursorState α → CursorState
  | .ok _ c => c
  | .error _ c => c

/-- Errors have been added. -/
def Adds (errors errors' : List PlacedError) : Prop :=
  ∃ new, errors' = new ++ errors

/-- Errors have been added, and all of them are minor ones. -/
def AddsMinor (errors errors' : List PlacedError) : Prop :=
  ∃ new, errors' = new ++ errors ∧ ∀ e ∈ new, e.fault.isMinor = true

/--
If a run ends, the other ends in the same way and nothing has been missing; if it fails, something
is missing where it has stopped, and the other run reports this too.
-/
def Foretells (errors : List PlacedError) :
    EStateM.Result CursorAbort CursorState α → EStateM.Result CursorAbort CursorState α → Prop
  | .ok a c, result => result = .ok a c ∧ AddsMinor errors c.errors
  | .error .failed c, result => ∃ missing before, AddsMinor errors before
      ∧ c.errors = ⟨.expected missing, c.position⟩ :: before ∧ Adds c.errors (endOf result).errors
  | .error _ _, _ => True

/-- The second parser takes no error back, and does what the first does as long as that goes on. -/
structure Heads (x y : Cursor α) : Prop where
  adds (input : CursorInput) (c : CursorState) : Adds c.errors (endOf (y input c)).errors
  foretells (input : CursorInput) (c : CursorState) :
    Foretells c.errors (x input c) (y input c)

theorem Adds.refl (errors : List PlacedError) : Adds errors errors :=
  ⟨[], rfl⟩

theorem Adds.trans {first second third : List PlacedError}
    (h : Adds first second)
    (h' : Adds second third) :
    Adds first third := by
  obtain ⟨new, rfl⟩ := h
  obtain ⟨newer, rfl⟩ := h'
  exact ⟨newer ++ new, (List.append_assoc _ _ _).symm⟩

theorem AddsMinor.refl (errors : List PlacedError) : AddsMinor errors errors :=
  ⟨[], rfl, nofun⟩

theorem AddsMinor.trans {first second third : List PlacedError}
    (h : AddsMinor first second)
    (h' : AddsMinor second third) :
    AddsMinor first third := by
  obtain ⟨new, rfl, hnew⟩ := h
  obtain ⟨newer, rfl, hnewer⟩ := h'
  refine ⟨newer ++ new, (List.append_assoc _ _ _).symm, fun e he => ?_⟩
  exact (List.mem_append.mp he).elim (hnewer e) (hnew e)

/-- Minor errors before do not change what is foretold. -/
theorem Foretells.after {errors errors' : List PlacedError}
    {result result' : EStateM.Result CursorAbort CursorState α}
    (hminor : AddsMinor errors errors')
    (h : Foretells errors' result result') :
    Foretells errors result result' := by
  unfold Foretells at h ⊢
  split at h
  · exact ⟨h.1, hminor.trans h.2⟩
  · obtain ⟨missing, before, hbefore, hmissing, hadds⟩ := h
    exact ⟨missing, before, hminor.trans hbefore, hmissing, hadds⟩
  · trivial

section Steps

theorem Heads.adds_bind {x : Cursor α} {f : α → Cursor β} {input : CursorInput} {c : CursorState}
    {errors : List PlacedError}
    (hx : Adds errors (endOf (x input c)).errors)
    (hf : ∀ a c', Adds c'.errors (endOf (f a input c')).errors) :
    Adds errors (endOf ((x >>= f) input c)).errors := by
  simp only [Bind.bind, ReaderT.bind, EStateM.bind]
  cases hrun : x input c with
  | ok a c' =>
      rw [hrun] at hx
      exact hx.trans (hf a c')
  | error abort c' =>
      rw [hrun] at hx
      exact hx

/-- Steps of which each is a head of the other are so in sequence. -/
theorem Heads.bind {x y : Cursor α} {f g : α → Cursor β}
    (hxy : Heads x y)
    (hfg : ∀ a, Heads (f a) (g a)) :
    Heads (x >>= f) (y >>= g) := by
  refine ⟨fun input c => Heads.adds_bind (hxy.adds input c) fun a c' => (hfg a).adds input c',
    fun input c => ?_⟩
  have hforetells := hxy.foretells input c
  cases hrun : x input c with
  | ok a c' =>
      rw [hrun] at hforetells
      rw [Text.bind_eq_of_ok hrun, Text.bind_eq_of_ok hforetells.1]
      exact ((hfg a).foretells input c').after hforetells.2
  | error abort c' =>
      rw [hrun] at hforetells
      have herror : (x >>= f) input c = .error abort c' := by
        simp only [Bind.bind, ReaderT.bind, EStateM.bind, hrun]
      rw [herror]
      cases abort with
      | failed =>
          obtain ⟨missing, before, hbefore, hmissing, hadds⟩ := hforetells
          exact ⟨missing, before, hbefore, hmissing,
            Heads.adds_bind hadds fun a c' => (hfg a).adds input c'⟩
      | _ => trivial

/-- A parser that reports nothing, and stops only for good. -/
theorem heads_quiet {x : Cursor α}
    (h : ∀ input c, (endOf (x input c)).errors = c.errors ∧ ∀ c', x input c ≠ .error .failed c') :
    Heads x x := by
  refine ⟨fun input c => ?_, fun input c => ?_⟩
  · rw [(h input c).1]
    exact .refl _
  · obtain ⟨herrors, hnever⟩ := h input c
    cases hrun : x input c with
    | ok a c' =>
        rw [hrun] at herrors
        exact ⟨rfl, ⟨[], herrors, nofun⟩⟩
    | error abort c' =>
        cases abort with
        | failed => exact absurd hrun (hnever c')
        | _ => trivial

theorem heads_pure (a : α) : Heads (pure a : Cursor α) (pure a) :=
  heads_quiet fun _ _ => ⟨rfl, nofun⟩

theorem Heads.map {x y : Cursor α} (f : α → β) (h : Heads x y) : Heads (f <$> x) (f <$> y) := by
  rw [map_eq_pure_bind, map_eq_pure_bind]
  exact h.bind fun a => heads_pure (f a)

/-- Looking at a token changes nothing; it fails outside the list only. -/
theorem look_cases (index : Int) (input : CursorInput) (c : CursorState) :
    (∃ t, look index input c = .ok t c) ∨ look index input c = .error .outside c := by
  unfold look
  split
  · exact .inr rfl
  · split
    · exact .inl ⟨_, rfl⟩
    · exact .inr rfl

theorem heads_look (index : Int) : Heads (look index) (look index) := by
  refine heads_quiet fun input c => ?_
  rcases look_cases index input c with ⟨t, hlook⟩ | hlook <;> rw [hlook] <;> exact ⟨rfl, nofun⟩

theorem heads_position : Heads position position :=
  heads_quiet fun _ _ => ⟨rfl, nofun⟩

theorem heads_moveOn : Heads moveOn moveOn :=
  heads_quiet fun _ _ => ⟨rfl, nofun⟩

theorem heads_fuel : Heads fuel fuel :=
  heads_quiet fun _ _ => ⟨rfl, nofun⟩

theorem heads_stop {abort : CursorAbort} (habort : abort ≠ .failed) :
    Heads (stop abort : Cursor α) (stop abort) :=
  heads_quiet fun _ _ => ⟨rfl, fun _ hfailed => habort (by cases hfailed; rfl)⟩

theorem heads_tooDeep : Heads (stop .tooDeep : Cursor α) (stop .tooDeep) :=
  heads_stop nofun

theorem heads_peek : Heads peek peek :=
  heads_position.bind fun _ => heads_look _

theorem heads_previous : Heads previous previous :=
  heads_position.bind fun _ => heads_look _

theorem heads_atEnd : Heads Cursor.atEnd Cursor.atEnd :=
  heads_peek.bind fun _ => heads_pure _

theorem heads_advance : Heads advance advance := by
  refine heads_atEnd.bind fun ended => ?_
  cases ended with
  | true => exact heads_previous
  | false => exact heads_moveOn.bind fun _ => heads_previous

theorem heads_check (kinds : List TokenKind) : Heads (Cursor.check kinds) (Cursor.check kinds) := by
  refine heads_atEnd.bind fun ended => ?_
  split
  · exact heads_pure false
  · exact heads_peek.bind fun _ => heads_pure _

theorem heads_accept (kinds : List TokenKind) :
    Heads (Cursor.accept kinds) (Cursor.accept kinds) := by
  refine (heads_check kinds).bind fun found => ?_
  split
  · exact heads_advance.map some
  · exact heads_pure none

/-- A minor error is reported by both and stops neither. -/
theorem heads_report {fault : ParseFault} (hfault : fault.isMinor = true) (place : Nat) :
    Heads (Cursor.report fault place) (Cursor.report fault place) := by
  refine (heads_look place).bind fun _ => ⟨fun _ c => ⟨[⟨fault, place⟩], rfl⟩, fun _ c => ?_⟩
  exact ⟨rfl, [⟨fault, place⟩], rfl, by simpa using hfault⟩

theorem heads_reportNext {fault : ParseFault} (hfault : fault.isMinor = true) :
    Heads (Cursor.reportNext fault) (Cursor.reportNext fault) :=
  heads_position.bind fun _ => heads_report hfault _

/-- What is missing is reported at the position where the run stops. -/
theorem heads_fail (missing : Expectation) :
    Heads (Cursor.fail missing : Cursor α) (Cursor.fail missing) := by
  have hfail : ∀ input c, (Cursor.fail missing : Cursor α) input c =
        .error .failed ⟨c.position, ⟨.expected missing, c.position⟩ :: c.errors⟩
      ∨ (Cursor.fail missing : Cursor α) input c = .error .outside c := by
    intro input c
    simp only [Cursor.fail, Cursor.reportNext, Cursor.report, position, note, stop, Bind.bind,
      ReaderT.bind, EStateM.bind]
    rcases look_cases c.position input c with ⟨t, hlook⟩ | hlook <;> simp [hlook]
  refine ⟨fun input c => ?_, fun input c => ?_⟩
  · rcases hfail input c with h | h <;> rw [h]
    · exact ⟨[⟨.expected missing, c.position⟩], rfl⟩
    · exact .refl _
  · rcases hfail input c with h | h <;> rw [h]
    · exact ⟨missing, c.errors, .refl _, rfl, .refl _⟩
    · trivial

theorem Heads.behind {x y : Cursor α} {fault : ParseFault}
    (h : Heads x y)
    (kind : TokenKind)
    (use : α → Option β)
    (hfault : fault.isMinor = true) :
    Heads (Cursor.behind kind x use fault) (Cursor.behind kind y use fault) := by
  refine (heads_check [kind]).bind fun found => ?_
  split
  · refine heads_position.bind fun place => heads_advance.bind fun _ => h.bind fun a => ?_
    split
    · exact heads_pure _
    · exact (heads_report hfault place).bind fun _ => heads_pure _
  · exact heads_pure none

theorem heads_collectUpTo {item item' : Cursor (Option α)}
    (hitem : Heads item item')
    (closing : List TokenKind)
    (rounds : Nat)
    (found : List α) :
    Heads (Cursor.collectUpTo closing item rounds found)
      (Cursor.collectUpTo closing item' rounds found) := by
  induction rounds generalizing found with
  | zero => exact heads_stop nofun
  | succ rounds ih =>
      refine (heads_check closing).bind fun closed => ?_
      split
      · exact heads_pure _
      · refine heads_atEnd.bind fun ended => ?_
        split
        · exact heads_pure _
        · refine hitem.bind fun x => ?_
          cases x with
          | none => exact ih found
          | some a => exact ih (a :: found)

theorem heads_repeatOnto {step step' : Token → α → Cursor α}
    (hstep : ∀ t v, Heads (step t v) (step' t v))
    (kinds : List TokenKind)
    (rounds : Nat)
    (v : α) :
    Heads (Cursor.repeatOnto kinds step rounds v) (Cursor.repeatOnto kinds step' rounds v) := by
  induction rounds generalizing v with
  | zero => exact heads_stop nofun
  | succ rounds ih =>
      refine (heads_accept kinds).bind fun found => ?_
      cases found with
      | none => exact heads_pure v
      | some t => exact (hstep t v).bind fun next => ih next

theorem heads_skip (rounds : Nat) : Heads (skip rounds) (skip rounds) := by
  induction rounds with
  | zero => exact heads_stop nofun
  | succ rounds ih =>
      refine heads_atEnd.bind fun ended => ?_
      split
      · exact heads_pure ()
      · refine heads_previous.bind fun last => ?_
        split
        · exact heads_pure ()
        · refine heads_peek.bind fun next => ?_
          split
          · exact heads_pure ()
          · exact heads_advance.bind fun _ => ih

/-- Skipping reports nothing. -/
theorem heads_synchronize : Heads synchronize synchronize :=
  heads_advance.bind fun _ => heads_fuel.bind heads_skip

/-- A parser that does not recover goes before one that does. -/
theorem Heads.recovering {x y : Cursor Stmt} (h : Heads x y) :
    Heads (Steps.strictly x) (Cursor.recovering y) := by
  have hrecovers : ∀ errors input c, Adds errors (endOf (y input c)).errors →
      Adds errors (endOf (Cursor.recovering y input c)).errors := by
    intro errors input c hadds
    unfold Cursor.recovering
    cases hrun : y input c with
    | ok a c' => rw [hrun] at hadds; exact hadds
    | error abort c' =>
        rw [hrun] at hadds
        cases abort with
        | failed =>
            have hsynchronize : Heads (do synchronize; pure none : Cursor (Option Stmt))
                (do synchronize; pure none) := heads_synchronize.bind fun _ => heads_pure none
            exact hadds.trans (hsynchronize.adds input c')
        | _ => exact hadds
  refine ⟨fun input c => hrecovers _ input c (h.adds input c), fun input c => ?_⟩
  have hforetells := h.foretells input c
  cases hrun : x input c with
  | ok a c' =>
      rw [hrun] at hforetells
      have hsome : Steps.strictly x input c = .ok (some a) c' := by
        simp only [Steps.strictly, map_eq_pure_bind, Text.bind_eq_of_ok hrun]
        rfl
      rw [hsome]
      refine ⟨?_, hforetells.2⟩
      rw [Cursor.recovering, hforetells.1]
  | error abort c' =>
      rw [hrun] at hforetells
      have herror : Steps.strictly x input c = .error abort c' := by
        simp only [Steps.strictly, map_eq_pure_bind, Bind.bind, ReaderT.bind, EStateM.bind, hrun]
      rw [herror]
      cases abort with
      | failed =>
          obtain ⟨missing, before, hbefore, hmissing, hadds⟩ := hforetells
          exact ⟨missing, before, hbefore, hmissing, hrecovers _ input c hadds⟩
      | _ => trivial

end Steps

/-- Parsers go before those with the same steps, as long as they have the same allowance. -/
def heading : Steps.Correspondence Cursor Cursor where
  rel x y := Heads x y
  taking _ := True
  allows a b := a = b
  pure := heads_pure
  bind := Heads.bind
  map := Heads.map
  check := heads_check
  accept := heads_accept
  reportNext := heads_reportNext
  fail := heads_fail
  tooDeep := heads_tooDeep
  behind kind use hfault h := h.behind kind use hfault
  upTo closing _ hitem := heads_fuel.bind fun rounds => heads_collectUpTo hitem closing rounds []
  repeating kinds v hstep := heads_fuel.bind fun rounds => heads_repeatOnto hstep kinds rounds v
  allows_zero h := .inl h.symm
  allows_succ := Steps.exists_eq_succ

theorem heading_recovering : heading.Recovery Steps.strictly Cursor.recovering where
  rel h := Heads.recovering h
  taking_declaration _ := trivial
  taking_method _ := trivial

theorem heads_program (a : Nat) :
    Heads (Steps.program Steps.strictly a) (Steps.program Cursor.recovering a) :=
  heading_recovering.program rfl

/-- The first error that is not a minor one, in the order of the reports. -/
def firstMajor (errors : List PlacedError) : Option PlacedError :=
  errors.reverse.find? (!·.fault.isMinor)

/-- Where only minor errors were added, there is no major one. -/
theorem AddsMinor.firstMajor_eq_none {errors : List PlacedError} (h : AddsMinor [] errors) :
    firstMajor errors = none := by
  obtain ⟨new, rfl, hminor⟩ := h
  simpa [firstMajor] using hminor

/-- Neither minor errors before it nor any errors behind it change which is the first one. -/
theorem AddsMinor.firstMajor_eq_some {e : PlacedError} {before errors : List PlacedError}
    (h : AddsMinor [] before)
    (he : e.fault.isMinor = false)
    (hadds : Adds (e :: before) errors) :
    firstMajor errors = some e := by
  obtain ⟨new, rfl⟩ := hadds
  have hnone := h.firstMajor_eq_none
  rw [firstMajor] at hnone ⊢
  simp [List.find?_append, hnone, he]

/--
The first error that is not a minor one is where the parser stops that does not recover; without
such an error, that parser goes to the end.
-/
theorem Text.firstMajor_cases (text : Text) {fuel : Nat} {statements : List Stmt}
    {c : CursorState}
    (hfuel : 2 * text.tokens.length + 4 ≤ fuel)
    (hparse : parse (text.tokens ++ [text.ending]) fuel = .ok statements c) :
    (firstMajor c.errors = none
        ∧ ∃ found s, (Steps.program Steps.strictly fuel : Parser (List Stmt)) ⟨text.tokens, []⟩ =
          .ok found s)
      ∨ ∃ e s, firstMajor c.errors = some e
        ∧ e.place ≤ text.tokens.length
        ∧ s.ahead = text.tokens.drop e.place
        ∧ (Steps.program Steps.strictly fuel : Parser (List Stmt)) ⟨text.tokens, []⟩ =
          .error .failed s := by
  have hless : text.tokens.length < fuel := by omega
  have hspends := Parser.spends_steps_program Parser.movesOn_strictly fuel ⟨text.tokens, []⟩
  have hagreed := (recovery_strictly hless).program (a := fuel) rfl _ _ text.at_start
  have hforetells := (heads_program fuel).foretells (text.input fuel) ⟨0, []⟩
  rw [parse, show CursorInput.mk (text.tokens ++ [text.ending]) fuel = text.input fuel from rfl]
    at hparse
  unfold Agreed at hagreed
  split at hagreed
  · next found s _ c' hstrict hcursor =>
      rw [hcursor, hparse] at hforetells
      obtain ⟨hsame, hminor⟩ := hforetells
      cases hsame
      exact .inl ⟨hminor.firstMajor_eq_none, found, s, hstrict⟩
  · next s c' hstrict hcursor =>
      rw [hcursor, hparse] at hforetells
      obtain ⟨missing, before, hbefore, herrors, hadds⟩ := hforetells
      rw [herrors] at hadds
      exact .inr ⟨_, s, hbefore.firstMajor_eq_some rfl hadds, hagreed.1.inside, hagreed.1.ahead,
        hstrict⟩
  · next hstrict _ =>
      rw [hstrict] at hspends
      dsimp only [Parser.Spent] at hspends
      omega
  · exact hagreed.elim

end Cursor
end Lox

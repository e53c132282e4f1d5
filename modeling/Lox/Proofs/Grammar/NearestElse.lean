import Lox.Proofs.Grammar.Builds

/-!
# Every `else` can belong to the nearest conditional

The grammar leaves open to which conditional an `else` belongs.  But whatever derivation a text has,
it also has one in which every `else` belongs to the nearest conditional: where an `else` stands
behind a text that it could continue, it is moved into that text, to the last conditional without
one.

**Result.**
* `Derives.builds`: whatever is derived is built.
-/

namespace Lox
namespace Grammar

/-- The row of a conditional without an `else`. -/
def conditionalRow : List Symbol :=
  [.terminal .ifWord, .terminal .leftParen, .category .expression, .terminal .rightParen,
    .category .statement]

/-- What an `else` adds to a conditional. -/
def alternativeRow : List Symbol :=
  [.terminal .elseWord, .category .statement]

theorem mem_rules_conditional : ⟨.ifStmt, .ifStmt, conditionalRow⟩ ∈ rules := by decide

theorem mem_rules_alternative :
    ⟨.ifStmt, .ifElseStmt, conditionalRow ++ alternativeRow⟩ ∈ rules := by decide

/-- There is one rule for conditionals that can be continued. -/
theorem eq_conditional :
    ∀ r ∈ rules, r.meaning = .ifStmt → r = ⟨.ifStmt, .ifStmt, conditionalRow⟩ := by decide

/-- There is one rule with an `else`. -/
theorem eq_alternative :
    ∀ r ∈ rules, .terminal .elseWord ∈ r.symbols →
      r = ⟨.ifStmt, .ifElseStmt, conditionalRow ++ alternativeRow⟩ := by decide

namespace Derivation

theorem tokensOfAll_append (ds es : List Derivation) :
    tokensOfAll (ds ++ es) = tokensOfAll ds ++ tokensOfAll es := by
  induction ds with
  | nil => rfl
  | cons d ds ih => rw [List.cons_append, tokensOfAll, tokensOfAll, ih, List.append_assoc]

theorem validAll_append {ds es : List Derivation} :
    ValidAll (ds ++ es) ↔ ValidAll ds ∧ ValidAll es := by
  induction ds with
  | nil => simp [ValidAll]
  | cons d ds ih => simp [ValidAll, ih, and_assoc]

theorem nearestElseAll_append {before : Bool} {ds es : List Derivation} :
    NearestElseAll before (ds ++ es)
      ↔ NearestElseAll before ds ∧ NearestElseAll (lastOpen before ds) es := by
  induction ds generalizing before with
  | nil => simp [NearestElseAll, lastOpen]
  | cons d ds ih => simp [NearestElseAll, lastOpen, ih, and_assoc]

/-- In a row without an `else`, only the parts matter. -/
theorem nearestElseAll_of_forall
    {ds : List Derivation}
    (h : ∀ d ∈ ds, d.NearestElse)
    (helse : .terminal .elseWord ∉ ds.map symbol)
    (before : Bool) :
    NearestElseAll before ds := by
  induction ds generalizing before with
  | nil => trivial
  | cons d ds ih =>
      rw [List.map_cons, List.mem_cons, not_or] at helse
      refine ⟨fun _ hd => helse.1 hd.symm, h d List.mem_cons_self, ?_⟩
      exact ih (fun e he => h e (List.mem_cons_of_mem d he)) helse.2 _

section Alternative

variable {word : Token} {other : Derivation}

mutual

/-- A text that an `else` could continue is continued by it. -/
theorem exists_continued
    (hword : word.kind = .elseWord)
    (hother : other.Valid ∧ other.NearestElse ∧ other.symbol = .category .statement) :
    ∀ d : Derivation, d.Valid → d.NearestElse → d.endsOpen = true →
      ∃ d' : Derivation, d'.Valid ∧ d'.NearestElse ∧ d'.symbol = d.symbol
        ∧ d'.tokens = d.tokens ++ word :: other.tokens
  | .leaf t, _, _, hopen => by simp [endsOpen] at hopen
  | .node rule parts, ⟨hmem, hrow, hvalid⟩, hnearest, hopen => by
      cases hlast : lastOpen false parts with
      | true =>
          obtain ⟨parts', hvalid', hnearest', hrow', htokens⟩ :=
            exists_continuedAll hword hother parts false hvalid hnearest
              (fun hnil => by simp [hnil, lastOpen] at hlast) hlast
          exact ⟨.node rule parts', ⟨hmem, hrow'.trans hrow, hvalid'⟩, hnearest', rfl, htokens⟩
      | false =>
          -- no conditional in the text can be continued, so it is the whole text that can
          have hmeaning : rule.meaning = .ifStmt := by simpa [endsOpen, hlast] using hopen
          obtain rfl := eq_conditional rule hmem hmeaning
          obtain ⟨hvalid', hnearest', hsymbol⟩ := hother
          refine ⟨.node _ (parts ++ [.leaf word, other]), ⟨mem_rules_alternative, ?_, ?_⟩, ?_, rfl,
            ?_⟩
          · rw [List.map_append, hrow, List.map_cons, List.map_singleton, hsymbol, symbol, hword]
            rfl
          · exact validAll_append.mpr ⟨hvalid, trivial, hvalid', trivial⟩
          · refine nearestElseAll_append.mpr ⟨hnearest, ?_⟩
            rw [hlast]
            exact ⟨by simp, trivial, by simp [endsOpen], hnearest', trivial⟩
          · rw [tokens, tokensOfAll_append, tokens]
            simp [tokensOfAll, tokens]

theorem exists_continuedAll
    (hword : word.kind = .elseWord)
    (hother : other.Valid ∧ other.NearestElse ∧ other.symbol = .category .statement) :
    ∀ (ds : List Derivation) (before : Bool), ValidAll ds → NearestElseAll before ds →
      ds ≠ [] → lastOpen before ds = true →
      ∃ ds' : List Derivation, ValidAll ds' ∧ NearestElseAll before ds'
        ∧ ds'.map symbol = ds.map symbol ∧ tokensOfAll ds' = tokensOfAll ds ++ word :: other.tokens
  | [], _, _, _, hne, _ => absurd rfl hne
  | [d], before, ⟨hd, _⟩, ⟨helse, hnearest, _⟩, _, hopen => by
      obtain ⟨d', hd', hnearest', hsymbol, htokens⟩ :=
        exists_continued hword hother d hd hnearest hopen
      refine ⟨[d'], ⟨hd', trivial⟩, ⟨by rwa [hsymbol], hnearest', trivial⟩, ?_, ?_⟩
      · rw [List.map_singleton, List.map_singleton, hsymbol]
      · simp [tokensOfAll, htokens]
  | d :: e :: ds, before, ⟨hd, hds⟩, ⟨helse, hnearest, hnearests⟩, _, hopen => by
      obtain ⟨ds', hds', hnearests', hrow, htokens⟩ :=
        exists_continuedAll hword hother (e :: ds) d.endsOpen hds hnearests
          (List.cons_ne_nil e ds) hopen
      refine ⟨d :: ds', ⟨hd, hds'⟩, ⟨helse, hnearest, hnearests'⟩, ?_, ?_⟩
      · exact congrArg (d.symbol :: ·) hrow
      · rw [tokensOfAll, htokens, ← List.append_assoc]
        rfl

end

end Alternative

mutual

/-- Each derivation has one of the same text where every `else` is at the nearest conditional. -/
theorem exists_nearestElse :
    ∀ d : Derivation, d.Valid →
      ∃ d' : Derivation, d'.Valid ∧ d'.NearestElse ∧ d'.symbol = d.symbol ∧ d'.tokens = d.tokens
  | .leaf t, _ => ⟨.leaf t, trivial, trivial, rfl, rfl⟩
  | .node rule parts, ⟨hmem, hrow, hvalid⟩ => by
      obtain ⟨parts', hvalid', hnearest, hrow', htokens⟩ := exists_nearestElseAll parts hvalid
      rw [hrow] at hrow'
      by_cases helse : .terminal .elseWord ∈ rule.symbols
      · obtain rfl := eq_alternative rule hmem helse
        obtain ⟨front, back, rfl, hfront, hback⟩ := List.map_eq_append_iff.mp hrow'
        have hfrontElse : .terminal .elseWord ∉ front.map symbol := by rw [hfront]; decide
        have hnearestFront : NearestElseAll false front :=
          nearestElseAll_of_forall (fun d hd => hnearest d (List.mem_append_left back hd))
            hfrontElse false
        obtain ⟨hvalidFront, hvalidBack⟩ := validAll_append.mp hvalid'
        obtain ⟨w, _, rfl, hw, hothers⟩ := List.map_eq_cons_iff.mp hback
        obtain ⟨other, others, rfl, hother, hnone⟩ := List.map_eq_cons_iff.mp hothers
        obtain rfl := List.map_eq_nil_iff.mp hnone
        have hnearestOther : other.NearestElse := hnearest other (by simp)
        obtain ⟨word, rfl, hword⟩ : ∃ word : Token, w = .leaf word ∧ word.kind = .elseWord := by
          cases w with
          | leaf word => exact ⟨word, rfl, by simpa [symbol] using hw⟩
          | node rule parts => simp [symbol] at hw
        rw [tokensOfAll_append] at htokens
        cases hlast : lastOpen false front with
        | true =>
            -- the `else` belongs to a conditional inside of the branch before it
            obtain ⟨front', hvalid'', hnearest'', hrow'', htokens''⟩ :=
              exists_continuedAll hword ⟨hvalidBack.2.1, hnearestOther, hother⟩ front false
                hvalidFront hnearestFront (fun hnil => by simp [hnil, lastOpen] at hlast) hlast
            refine ⟨.node ⟨.ifStmt, .ifStmt, conditionalRow⟩ front',
              ⟨mem_rules_conditional, hrow''.trans hfront, hvalid''⟩, hnearest'', rfl, ?_⟩
            rw [tokens, htokens'', tokens, ← htokens]
            simp [tokensOfAll, tokens]
        | false =>
            refine ⟨.node _ (front ++ [.leaf word, other]), ⟨hmem, hrow', hvalid'⟩, ?_, rfl, ?_⟩
            · refine nearestElseAll_append.mpr ⟨hnearestFront, ?_⟩
              rw [hlast]
              exact ⟨by simp, trivial, by simp [endsOpen], hnearestOther, trivial⟩
            · rw [tokens, tokensOfAll_append, htokens, tokens]
      · exact ⟨.node rule parts', ⟨hmem, hrow', hvalid'⟩,
          nearestElseAll_of_forall hnearest (by rwa [hrow']) false, rfl, htokens⟩

theorem exists_nearestElseAll :
    ∀ ds : List Derivation, ValidAll ds →
      ∃ ds' : List Derivation, ValidAll ds' ∧ (∀ d ∈ ds', d.NearestElse)
        ∧ ds'.map symbol = ds.map symbol ∧ tokensOfAll ds' = tokensOfAll ds
  | [], _ => ⟨[], trivial, nofun, rfl, rfl⟩
  | d :: ds, ⟨hd, hds⟩ => by
      obtain ⟨d', hd', hnearest, hsymbol, htokens⟩ := exists_nearestElse d hd
      obtain ⟨ds', hds', hnearests, hrow, htokens'⟩ := exists_nearestElseAll ds hds
      refine ⟨d' :: ds', ⟨hd', hds'⟩, ?_, ?_, ?_⟩
      · exact fun e he => (List.mem_cons.mp he).elim (fun h => h ▸ hnearest) (hnearests e)
      · rw [List.map_cons, hsymbol, hrow, List.map_cons]
      · rw [tokensOfAll, htokens, htokens', tokensOfAll]

end

end Derivation

/-- Whatever is derived is built. -/
theorem Derives.builds {c : Category} {text : List Token} (h : Derives c text) :
    ∃ phrase isOpen, Builds (.category c) text phrase isOpen := by
  obtain ⟨d, hvalid, hsymbol, htokens⟩ := h
  obtain ⟨d', hvalid', hnearest, hsymbol', htokens'⟩ := d.exists_nearestElse hvalid
  exact ⟨d'.phrase?, d'.endsOpen, d', hvalid', hnearest, hsymbol'.trans hsymbol,
    htokens'.trans htokens, rfl, rfl⟩

end Grammar
end Lox

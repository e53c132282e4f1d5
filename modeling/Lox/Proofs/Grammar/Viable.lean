import Lox.Grammar.Derivation
import Mathlib.Tactic.Common

/-!
# Texts that can be completed

Every category derives some text, since for every category there is a rule that comes down to
tokens.  So there is no way through the rules that could not be brought to an end: a text of the
first symbols of a row is completed by texts of the others.  A `Language` carries such a text with
it.

**Main definitions.**
* `Viable`: a text that can be completed to a program.
* `Language`: a language with a text; the language of a symbol, of a row and of what continues a
  category.

**Result.**
* `exists_derives`: every category derives a text.
-/

namespace Lox
namespace Grammar

/-- Some continuation makes a program of the text. -/
def Viable (text : List Token) : Prop :=
  ∃ rest, Derives .program (text ++ rest)

/-- A symbol derives a text. -/
def Symbol.Derives : Symbol → List Token → Prop
  | .terminal kind, text => ∃ t : Token, t.kind = kind ∧ text = [t]
  | .category c, text => Grammar.Derives c text

/-- A row of symbols derives a text. -/
def DerivesAll : List Symbol → List Token → Prop
  | [], text => text = []
  | s :: row, text => ∃ first rest, text = first ++ rest ∧ s.Derives first ∧ DerivesAll row rest

theorem Symbol.derives_iff {s : Symbol} {text : List Token} :
    s.Derives text ↔ ∃ d : Derivation, d.Valid ∧ d.symbol = s ∧ d.tokens = text := by
  cases s with
  | category c => exact Iff.rfl
  | terminal kind =>
      constructor
      · rintro ⟨t, rfl, rfl⟩
        exact ⟨.leaf t, trivial, rfl, rfl⟩
      · rintro ⟨d, -, hsymbol, rfl⟩
        cases d with
        | leaf t => exact ⟨t, by simpa [Derivation.symbol] using hsymbol, rfl⟩
        | node rule parts => simp [Derivation.symbol] at hsymbol

theorem DerivesAll.exists_derivations {row : List Symbol} {text : List Token}
    (h : DerivesAll row text) :
    ∃ ds : List Derivation, Derivation.ValidAll ds ∧ ds.map Derivation.symbol = row
      ∧ Derivation.tokensOfAll ds = text := by
  induction row generalizing text with
  | nil => exact ⟨[], trivial, rfl, h.symm⟩
  | cons s row ih =>
      obtain ⟨first, rest, rfl, hfirst, hrest⟩ := h
      obtain ⟨d, hd, rfl, rfl⟩ := Symbol.derives_iff.mp hfirst
      obtain ⟨ds, hds, rfl, rfl⟩ := ih hrest
      exact ⟨d :: ds, ⟨hd, hds⟩, rfl, rfl⟩

/-- What the row of a rule derives, its category derives. -/
theorem Derives.of_rule {c : Category} {m : Meaning} {row : List Symbol} {text : List Token}
    (hrule : ⟨c, m, row⟩ ∈ rules)
    (h : DerivesAll row text) :
    Derives c text := by
  obtain ⟨ds, hds, hrow, htokens⟩ := h.exists_derivations
  exact ⟨.node ⟨c, m, row⟩ ds, ⟨hrule, hrow, hds⟩, rfl, htokens⟩

theorem Derives.empty {c : Category} {m : Meaning} (hrule : ⟨c, m, []⟩ ∈ rules) : Derives c [] :=
  .of_rule hrule rfl

theorem derivesAll_single {s : Symbol} {text : List Token} (h : s.Derives text) :
    DerivesAll [s] text :=
  ⟨text, [], (List.append_nil text).symm, h, rfl⟩

theorem Derives.same {c inner : Category} {text : List Token}
    (h : Derives inner text)
    (hrule : ⟨c, .same, [.category inner]⟩ ∈ rules) :
    Derives c text :=
  .of_rule hrule (derivesAll_single h)

section Texts

/-- How many rules are needed to come down to tokens. -/
def Category.height : Category → Nat
  | .primary | .declarations | .parent | .methods | .parameterList | .parameters | .initializer
  | .optionalExpression | .forFirst | .argumentList => 0
  | .program | .classDecl | .routine | .constDecl | .varDecl | .returnStmt | .block | .call => 1
  | .funDecl | .statement | .declaration | .unary => 2
  | .forStmt | .factor => 3
  | .term => 4
  | .comparison => 5
  | .equality => 6
  | .logicAnd => 7
  | .logicOr => 8
  | .assignment => 9
  | .expression => 10
  | .exprStmt | .ifStmt | .printStmt | .whileStmt | .arguments => 11

/-- The rule comes down to tokens. -/
def Rule.descends (r : Rule) : Bool :=
  r.symbols.all fun
    | .terminal _ => true
    | .category inner => decide (inner.height < r.category.height)

theorem exists_descends (c : Category) : ∃ r ∈ rules, r.category = c ∧ r.descends = true := by
  cases c <;> decide

theorem exists_derivesAll {row : List Symbol} (h : ∀ s ∈ row, ∃ text, s.Derives text) :
    ∃ text, DerivesAll row text := by
  induction row with
  | nil => exact ⟨[], rfl⟩
  | cons s row ih =>
      obtain ⟨first, hfirst⟩ := h s List.mem_cons_self
      obtain ⟨rest, hrest⟩ := ih fun s hs => h s (List.mem_cons_of_mem _ hs)
      exact ⟨first ++ rest, first, rest, rfl, hfirst, hrest⟩

/-- Every category derives a text. -/
theorem exists_derives (c : Category) : ∃ text, Derives c text := by
  induction hheight : c.height using Nat.strongRecOn generalizing c with
  | _ height ih =>
      obtain ⟨⟨_, m, row⟩, hrule, rfl, hdescends⟩ := exists_descends c
      obtain ⟨text, htext⟩ : ∃ text, DerivesAll row text := by
        refine exists_derivesAll fun s hs => ?_
        cases s with
        | terminal kind => exact ⟨[⟨kind, "", 0⟩], _, rfl, rfl⟩
        | category inner =>
            have hless := List.all_eq_true.mp hdescends _ hs
            exact ih _ (by simpa [hheight] using hless) inner rfl
      exact ⟨text, .of_rule hrule htext⟩

end Texts

/-- A language with at least one text. -/
structure Language where
  mem : List Token → Prop
  exists_mem : ∃ text, mem text

namespace Language

/-- The texts that a symbol derives. -/
def of (s : Symbol) : Language where
  mem := s.Derives
  exists_mem := by
    cases s with
    | terminal kind => exact ⟨[⟨kind, "", 0⟩], _, rfl, rfl⟩
    | category c => exact exists_derives c

/-- The empty text alone. -/
def done : Language :=
  ⟨(· = []), [], rfl⟩

/-- A text of one language, and then one of another. -/
def before (K L : Language) : Language where
  mem text := ∃ first rest, text = first ++ rest ∧ K.mem first ∧ L.mem rest
  exists_mem := by
    obtain ⟨first, hfirst⟩ := K.exists_mem
    obtain ⟨rest, hrest⟩ := L.exists_mem
    exact ⟨first ++ rest, first, rest, rfl, hfirst, hrest⟩

/-- The texts of two languages. -/
def or (K L : Language) : Language where
  mem text := K.mem text ∨ L.mem text
  exists_mem := K.exists_mem.imp fun _ => .inl

/-- The texts of a row of symbols. -/
def row : List Symbol → Language
  | [] => done
  | s :: symbols => (of s).before (row symbols)

/-- What continues a text of a category to a longer one. -/
def continuing (c : Category) : Language where
  mem text := ∀ first, Derives c first → Derives c (first ++ text)
  exists_mem := ⟨[], fun first hfirst => by rwa [List.append_nil]⟩

theorem mem_row {symbols : List Symbol} {text : List Token} :
    (row symbols).mem text ↔ DerivesAll symbols text := by
  induction symbols generalizing text with
  | nil => exact Iff.rfl
  | cons s symbols ih => simp only [row, before, of, DerivesAll, ih]

theorem continuing_nil (c : Category) : (continuing c).mem [] :=
  fun first hfirst => by rwa [List.append_nil]

theorem continuing_append {c : Category} {u v : List Token}
    (hu : (continuing c).mem u)
    (hv : (continuing c).mem v) :
    (continuing c).mem (u ++ v) :=
  fun first hfirst => List.append_assoc first u v ▸ hv _ (hu first hfirst)

/-- Behind a text of its category, the rest of a row that starts with the category goes on. -/
theorem continuing_of_rule {c : Category} {m : Meaning} {symbols : List Symbol} {text : List Token}
    (hrule : ⟨c, m, .category c :: symbols⟩ ∈ rules)
    (h : DerivesAll symbols text) :
    (continuing c).mem text :=
  fun first hfirst => .of_rule hrule ⟨first, text, rfl, hfirst, h⟩

end Language

end Grammar
end Lox

import Lox.Grammar.Rules

/-!
# Derivations

A derivation is a tree whose leaves are tokens and whose inner nodes are uses of rules.  Read from
left to right, its leaves are the tokens that it derives.
-/

namespace Lox
namespace Grammar

inductive Derivation
  | leaf (t : Token)
  | node (rule : Rule) (parts : List Derivation)

namespace Derivation

/-- The symbol that is derived. -/
def symbol : Derivation → Symbol
  | .leaf t => .terminal t.kind
  | .node rule _ => .category rule.category

mutual

/-- The tokens of a derivation. -/
def tokens : Derivation → List Token
  | .leaf t => [t]
  | .node _ parts => tokensOfAll parts

def tokensOfAll : List Derivation → List Token
  | [] => []
  | d :: ds => d.tokens ++ tokensOfAll ds

end

mutual

/-- Every node uses a rule of the grammar, and its parts derive the symbols of that rule. -/
def Valid : Derivation → Prop
  | .leaf _ => True
  | .node rule parts =>
      rule ∈ rules ∧ parts.map symbol = rule.symbols ∧ ValidAll parts

def ValidAll : List Derivation → Prop
  | [] => True
  | d :: ds => d.Valid ∧ ValidAll ds

end

end Derivation

/-- A list of tokens is derived from a category. -/
def Derives (c : Category) (text : List Token) : Prop :=
  ∃ d : Derivation, d.Valid ∧ d.symbol = .category c ∧ d.tokens = text

end Grammar
end Lox

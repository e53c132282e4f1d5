import Lox.Grammar.Derivation
import Lox.Grammar.Follow

/-!
# Deriving a list of tokens

Tokens are shifted onto a stack, and the top of the stack is reduced by a rule when the next token
can follow its category.  A state of this process is the set of rules that are partly on the stack,
each with the symbols that are still to come.  Where both steps are possible, the token is shifted;
this gives an `else` to the nearest conditional.
-/

namespace Lox
namespace Grammar

/-- A rule that is partly on the stack. -/
structure Item where
  rule : Rule
  /-- The symbols that are still to come. -/
  ahead : List Symbol
  deriving DecidableEq, Repr

/-- Adds the rules of all categories that can come next. -/
def complete (items : List Item) : List Item :=
  let next := items.foldl
    (fun found item =>
      match leadingCategory? item.ahead with
      | some c => union found (corners.get c)
      | none => found) []
  items ++ ((rules.filter fun r => next.contains r.category).map fun r => ⟨r, r.symbols⟩)

/-- The items after a symbol. -/
def Item.after (s : Symbol) (items : List Item) : List Item :=
  items.filterMap fun item =>
    match item.ahead with
    | next :: rest => if next == s then some ⟨item.rule, rest⟩ else none
    | [] => none

/-- The items before any token. -/
def initialItems : List Item :=
  complete ((rules.filter (·.category == .program)).map fun r => ⟨r, r.symbols⟩)

/-- A derivation on the stack, and the items after it. -/
structure Entry where
  derivation : Derivation
  items : List Item

/-- The items on top of the stack. -/
def topItems : List Entry → List Item
  | [] => initialItems
  | entry :: _ => entry.items

/-- Puts a derivation on the stack, if an item waits for its symbol. -/
def push? (d : Derivation) (stack : List Entry) : Option (List Entry) :=
  match Item.after d.symbol (topItems stack) with
  | [] => none
  | items => some (⟨d, complete items⟩ :: stack)

/-- The rule by which the top of the stack is reduced before a token. -/
def reduction? (next : Lookahead) (items : List Item) : Option Rule :=
  (items.find? fun item =>
    item.ahead.isEmpty && (followers.get item.rule.category).contains next).map Item.rule

/-- Takes the parts of a rule off the stack and builds the derivation. -/
def reduce (rule : Rule) (stack : List Entry) : Derivation × List Entry :=
  let size := rule.symbols.length
  (.node rule ((stack.take size).map Entry.derivation).reverse, stack.drop size)

/-- Shifts and reduces up to a whole program; every step uses up one unit of fuel. -/
def run : Nat → List Entry → List Token → Option Derivation
  | 0, _, _ => none
  | fuel + 1, stack, input =>
      let shifted :=
        match input with
        | [] => none
        | t :: rest => (push? (.leaf t) stack).map fun stack => (stack, rest)
      match shifted with
      | some (stack, rest) => run fuel stack rest
      | none =>
          match reduction? (input.head?.map Token.kind) (topItems stack) with
          | none => none
          | some rule =>
              let reduced := reduce rule stack
              if rule.category == .program then
                some reduced.1
              else
                match push? reduced.1 reduced.2 with
                | some stack => run fuel stack input
                | none => none

/-- The derivation of a program, if the tokens are one. -/
def derivation? (input : List Token) : Option Derivation :=
  run (rules.length * (input.length + 1)) [] input

end Grammar
end Lox

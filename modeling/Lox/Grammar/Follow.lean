import Lox.Grammar.Rules

/-!
# What can follow a category

For every category: whether it derives the empty text, which tokens its texts can start with, which
tokens can follow them, and which categories can stand at their start.  Each of these is the least
solution of conditions that the rules impose, and it is reached by repeating one round over all
rules: every round carries each consequence at least one category farther, and there are fewer
categories than rounds.
-/

namespace Lox
namespace Grammar

/-- A token kind, or the end of the text. -/
abbrev Lookahead := Option TokenKind

/-- Adds to a list what it does not hold yet. -/
def union {α : Type} [BEq α] (found added : List α) : List α :=
  found ++ added.filter (!found.contains ·)

/-- A set for every category; a category that is not listed has the empty one. -/
abbrev Sets (α : Type) := List (Category × List α)

/-- The set of a category. -/
def Sets.get {α : Type} (sets : Sets α) (c : Category) : List α :=
  (sets.lookup c).getD []

/-- Adds to the set of a category. -/
def Sets.add {α : Type} [BEq α] (c : Category) (added : List α) : Sets α → Sets α
  | [] => [(c, union [] added)]
  | entry :: rest =>
      if entry.1 == c then
        (c, union entry.2 added) :: rest
      else
        entry :: Sets.add c added rest

/-- Repeats a round. -/
def repeatRound {α : Type} (round : α → α) : Nat → α → α
  | 0, a => a
  | n + 1, a => repeatRound round n (round a)

/-- The number of rounds. -/
def roundCount : Nat := 40

/-- A symbol derives the empty text. -/
def Symbol.vanishes (vanishing : List Category) : Symbol → Bool
  | .terminal _ => false
  | .category c => vanishing.contains c

/-- The categories that derive the empty text. -/
def vanishing : List Category :=
  repeatRound
    (fun found =>
      union found
        ((rules.filter fun r => r.symbols.all (·.vanishes found)).map Rule.category))
    roundCount []

/-- The tokens that a row of symbols can start with. -/
def startsOf (starts : Sets TokenKind) : List Symbol → List TokenKind
  | [] => []
  | .terminal kind :: _ => [kind]
  | .category c :: rest =>
      if vanishing.contains c then
        union (starts.get c) (startsOf starts rest)
      else
        starts.get c

/-- The tokens that the texts of each category can start with. -/
def starts : Sets TokenKind :=
  repeatRound
    (fun sets => rules.foldl (fun sets r => sets.add r.category (startsOf sets r.symbols)) sets)
    roundCount []

/-- Adds what follows the categories in a row of symbols, given what follows the row. -/
def addFollowers (after : List Lookahead) : List Symbol → Sets Lookahead → Sets Lookahead
  | [], sets => sets
  | .terminal _ :: rest, sets => addFollowers after rest sets
  | .category c :: rest, sets =>
      let here := (startsOf starts rest).map some
      let added := if rest.all (·.vanishes vanishing) then union here after else here
      addFollowers after rest (sets.add c added)

/-- The tokens that can follow the texts of each category; the end follows a whole program. -/
def followers : Sets Lookahead :=
  repeatRound
    (fun sets => rules.foldl (fun sets r => addFollowers (sets.get r.category) r.symbols sets) sets)
    roundCount [(.program, [none])]

/-- The category at the start of a row of symbols. -/
def leadingCategory? : List Symbol → Option Category
  | .category c :: _ => some c
  | _ => none

/-- For every category, the categories that can stand at the start of its texts, itself included. -/
def corners : Sets Category :=
  repeatRound
    (fun sets =>
      rules.foldl
        (fun sets r =>
          let inner := (leadingCategory? r.symbols).map sets.get
          sets.add r.category (r.category :: inner.getD []))
        sets)
    roundCount []

end Grammar
end Lox

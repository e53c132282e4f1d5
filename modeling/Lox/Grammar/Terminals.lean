import Lox.Grammar.Pattern
import Lox.Token.Basic

/-!
# Terminals

The terminals of the language as regular patterns.  At every place of a text the longest match of
any terminal is taken; of several terminals with equally long matches, the first in the list counts,
so a reserved word is no identifier.  White space and comments are matched like terminals and left
out.  A text in which some place matches no terminal is not in the language.
-/

namespace Lox
namespace Grammar

/-- A pattern and the kind of token that it stands for; what has no kind is left out. -/
structure Terminal where
  kind : Option TokenKind
  pattern : Pattern

/-- The terminals with a fixed text. -/
def fixedTerminals : List (String × TokenKind) :=
  [("(", .leftParen), (")", .rightParen), ("\x7b", .leftBrace), ("\x7d", .rightBrace),
    (",", .comma), (".", .dot), ("-", .minus), ("+", .plus), (";", .semicolon), ("/", .slash),
    ("*", .star), ("!", .bang), ("!=", .bangEqual), ("=", .equal), ("==", .equalEqual),
    (">", .greater), (">=", .greaterEqual), ("<", .less), ("<=", .lessEqual),
    ("and", .andWord), ("class", .classWord), ("const", .constWord), ("else", .elseWord),
    ("false", .falseWord), ("for", .forWord), ("fun", .funWord), ("if", .ifWord),
    ("nil", .nilWord), ("or", .orWord), ("print", .printWord), ("return", .returnWord),
    ("super", .superWord), ("this", .thisWord), ("true", .trueWord), ("var", .varWord),
    ("while", .whileWord)]

/-- A letter or a low line. -/
def letter : Pattern := .ofRanges [('A', 'Z'), ('a', 'z'), ('_', '_')]

def letterOrDigit : Pattern := .ofRanges [('A', 'Z'), ('a', 'z'), ('0', '9'), ('_', '_')]

def digits : Pattern := .atLeastOnce (.ofRanges [('0', '9')])

def identifier : Pattern := .seq letter (.many letterOrDigit)

def number : Pattern := .seq digits (.optional (.seq (.ofText ['.']) digits))

def string : Pattern :=
  .seq (.ofText ['"']) (.seq (.many (.otherThan '"')) (.ofText ['"']))

def comment : Pattern := .seq (.ofText ['/', '/']) (.many (.otherThan '\n'))

def space : Pattern := .atLeastOnce (.ofChars [' ', '\t', '\r', '\n'])

/-- All terminals in the order that decides between equally long matches. -/
def terminals : List Terminal :=
  fixedTerminals.map (fun t => ⟨some t.2, .ofText t.1.toList⟩)
    ++ [⟨some .identifier, identifier⟩, ⟨some .number, number⟩, ⟨some .string, string⟩,
      ⟨none, comment⟩, ⟨none, space⟩]

/-- The length of a match and the kind that was matched. -/
structure Match where
  length : Nat
  kind : Option TokenKind
  deriving DecidableEq, Repr

/-- What is left of terminals after a character, without those that match nothing any more. -/
def advance (c : Char) (live : List Terminal) : List Terminal :=
  (live.map fun t => { t with pattern := t.pattern.after c }).filter (!·.pattern.isNothing)

/-- The longest match, given what is left of the terminals and the longest match so far. -/
def longestFrom (live : List Terminal) (taken : Nat) (best : Option Match) :
    List Char → Option Match
  | [] => best
  | c :: rest =>
      match advance c live with
      | [] => best
      | next =>
          let best :=
            match next.find? (·.pattern.nullable) with
            | some t => some ⟨taken + 1, t.kind⟩
            | none => best
          longestFrom next (taken + 1) best rest

/-- The longest match of a terminal at the start of a text. -/
def longest (text : List Char) : Option Match :=
  longestFrom terminals 0 none text

/-- Takes the longest match again and again; the tokens so far are given in reverse. -/
def tokensOnto (found : List Token) : List Char → Option (List Token)
  | [] => some found.reverse
  | c :: rest =>
      match longest (c :: rest) with
      | none => none
      | some m =>
          let text := c :: rest.take (m.length - 1)
          let found :=
            match m.kind with
            | some kind => ⟨kind, String.ofList text, 0⟩ :: found
            | none => found
          tokensOnto found (rest.drop (m.length - 1))
termination_by text => text.length
decreasing_by
  simp only [List.length_drop, List.length_cons]
  omega

/-- The tokens of a text, without lines; `none` if some place matches no terminal. -/
def tokens? (text : List Char) : Option (List Token) :=
  tokensOnto [] text

end Grammar
end Lox

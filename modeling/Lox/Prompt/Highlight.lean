import Lox.Text.Lines
import Lox.Token.Scan

/-!
# Highlighting

A line that is being typed is shown in styled fragments.  Every token is a fragment with the style
of its group, and the text between two tokens is a fragment without style.  Behind the last token,
everything from the first pair of slashes on is shown as a comment.

Tokens do not say where in the line they stand.  So each of them is looked for in the text behind
the one before it.
-/

namespace Lox

/-- Kinds of tokens that are shown in the same way. -/
inductive TokenGroup
  | keyword
  | boolean
  | constant
  | number
  | string
  | identifier
  | operator
  | punctuation
  deriving DecidableEq, Repr

def TokenKind.group : TokenKind → TokenGroup
  | .andWord | .classWord | .elseWord | .forWord | .funWord | .ifWord | .orWord | .printWord
  | .returnWord | .superWord | .thisWord | .varWord | .whileWord | .constWord => .keyword
  | .trueWord | .falseWord => .boolean
  | .nilWord => .constant
  | .number => .number
  | .string => .string
  | .identifier => .identifier
  | .minus | .plus | .slash | .star | .bang | .bangEqual | .equal | .equalEqual | .greater
  | .greaterEqual | .less | .lessEqual => .operator
  | _ => .punctuation

inductive Style
  | plain
  | keyword
  /-- The words for values. -/
  | constant
  | number
  | string
  | comment
  deriving DecidableEq, Repr

/-- The attributes of a style. -/
def Style.text : Style → String
  | .plain => ""
  | .keyword => "bold ansicyan"
  | .constant => "ansicyan"
  | .number => "ansimagenta"
  | .string => "ansigreen"
  | .comment => "italic ansigray"

/-- The style of a group; identifiers, operators and punctuation are plain. -/
def TokenGroup.style : TokenGroup → Style
  | .keyword => .keyword
  | .boolean | .constant => .constant
  | .number => .number
  | .string => .string
  | .identifier | .operator | .punctuation => .plain

structure Fragment where
  style : Style
  text : List Char
  deriving DecidableEq, Repr

/-- A fragment, unless it would be empty. -/
def Fragment.ofText (style : Style) : List Char → List Fragment
  | [] => []
  | text => [⟨style, text⟩]

/-- How a token is shown. -/
def Token.fragment (t : Token) : Fragment :=
  ⟨t.kind.group.style, t.lexeme.toList⟩

/-- The text before the first place at which a piece of text stands, if there is such a place. -/
def Text.before? (piece : List Char) : List Char → Option (List Char)
  | [] => if piece.isEmpty then some [] else none
  | c :: rest =>
      if piece.isPrefixOf (c :: rest) then some []
      else (before? piece rest).map (c :: ·)

/-- What opens a comment. -/
def slashes : List Char := ['/', '/']

/-- The fragments of the text behind the last token. -/
def tailFragments (text : List Char) : List Fragment :=
  match Text.before? slashes text with
  | some before =>
      Fragment.ofText .plain before ++ Fragment.ofText .comment (text.drop before.length)
  | none => Fragment.ofText .plain text

/-- The fragments of a text, in which each token is looked for behind the one before it. -/
def fragmentsOf : List Token → List Char → List Fragment
  | [], text => tailFragments text
  | t :: others, text =>
      match Text.before? t.lexeme.toList text with
      | some gap =>
          Fragment.ofText .plain gap
            ++ t.fragment :: fragmentsOf others (text.drop (gap.length + t.fragment.text.length))
      | none => fragmentsOf others text

/-- The fragments of a line; an empty line is one empty fragment. -/
def highlightLine (line : List Char) : List Fragment :=
  match fragmentsOf (Scan.ofList line).tokens line with
  | [] => [⟨.plain, line⟩]
  | fragments => fragments

/-- The fragments of every line of a text, and those of the empty line that may follow it. -/
def highlight (text : String) : List (List Fragment) :=
  (Text.splitLines text.toList).map highlightLine ++ [highlightLine []]

end Lox

import Lox.Number

/-!
# Tokens

A token is a kind, the piece of text that it was read from and the line on which that piece ends.
The value that a number or a string denotes is a function of its text, so a token does not store
it.  A list of tokens simply ends where the text ends, without a token for that; but a tree that was
not read from a text may hold one.
-/

namespace Lox

/-- The kinds of token: punctuation, operators, names, literals, reserved words and the end. -/
inductive TokenKind
  | leftParen
  | rightParen
  | leftBrace
  | rightBrace
  | comma
  | dot
  | minus
  | plus
  | semicolon
  | slash
  | star
  | bang
  | bangEqual
  | equal
  | equalEqual
  | greater
  | greaterEqual
  | less
  | lessEqual
  | identifier
  | string
  | number
  | andWord
  | classWord
  | elseWord
  | falseWord
  | funWord
  | forWord
  | ifWord
  | nilWord
  | orWord
  | printWord
  | returnWord
  | superWord
  | thisWord
  | trueWord
  | varWord
  | whileWord
  | constWord
  /-- The end of a text; no text has a token of this kind. -/
  | endOfText
  deriving DecidableEq, Repr

/-- The values that can be written down. -/
inductive Literal
  | nil
  | boolean (value : Bool)
  | number (value : Float)
  | string (value : String)

structure Token where
  kind : TokenKind
  lexeme : String
  /-- The line on which the lexeme ends. -/
  line : Int
  deriving DecidableEq, Repr

/-- The text between the quotes of a string lexeme. -/
def unquoted (lexeme : String) : String :=
  String.ofList (lexeme.toList.drop 1).dropLast

/-- The value that a token denotes: a number or a string, and `nil` for every other kind. -/
def Token.literal (t : Token) : Literal :=
  match t.kind with
  | .number => .number (Number.ofDecimal t.lexeme.toList)
  | .string => .string (unquoted t.lexeme)
  | _ => .nil

/-- The reserved words with their kinds. -/
def reservedWords : List (String × TokenKind) :=
  [("and", .andWord), ("class", .classWord), ("else", .elseWord), ("false", .falseWord),
    ("for", .forWord), ("fun", .funWord), ("if", .ifWord), ("nil", .nilWord), ("or", .orWord),
    ("print", .printWord), ("return", .returnWord), ("super", .superWord), ("this", .thisWord),
    ("true", .trueWord), ("var", .varWord), ("while", .whileWord), ("const", .constWord)]

/-- A word is a reserved word or an identifier. -/
def TokenKind.ofWord (word : String) : TokenKind :=
  (reservedWords.lookup word).getD .identifier

/-- The characters that are a token on their own and never part of a longer operator. -/
def TokenKind.ofPunctuation? : Char → Option TokenKind
  | '(' => some .leftParen
  | ')' => some .rightParen
  | '{' => some .leftBrace
  | '}' => some .rightBrace
  | ',' => some .comma
  | '.' => some .dot
  | '-' => some .minus
  | '+' => some .plus
  | ';' => some .semicolon
  | '*' => some .star
  | _ => none

/-- The characters that form a longer operator with `=`: the kinds without it and with it. -/
def TokenKind.ofComparison? : Char → Option (TokenKind × TokenKind)
  | '!' => some (.bang, .bangEqual)
  | '=' => some (.equal, .equalEqual)
  | '<' => some (.less, .lessEqual)
  | '>' => some (.greater, .greaterEqual)
  | _ => none

end Lox

import Lox.Text.Hidden

/-!
# Quoted text

A text in quotes, written so that it stays on one line and every character can be seen.  The quotes
are single ones, unless the text holds single quotes and no double ones.  A backslash stands before
the quote, before a backslash and before the letter of a line end or a tab; any other hidden
character is written with its code in hexadecimal digits.
-/

namespace Lox
namespace Text

/-- A number in hexadecimal digits, at least as many as given. -/
def hexadecimal (width number : Nat) : List Char :=
  let digits := Nat.toDigits 16 number
  List.replicate (width - digits.length) '0' ++ digits

/-- A character written with its code. -/
def codeEscape (c : Char) : List Char :=
  if c.toNat < 0x100 then '\\' :: 'x' :: hexadecimal 2 c.toNat
  else if c.toNat < 0x10000 then '\\' :: 'u' :: hexadecimal 4 c.toNat
  else '\\' :: 'U' :: hexadecimal 8 c.toNat

/-- The letters that stand for line ends and the tab. -/
def escapeLetter? : Char → Option Char
  | '\n' => some 'n'
  | '\r' => some 'r'
  | '\t' => some 't'
  | _ => none

/-- A character as it is written between the given quotes. -/
def quotedChar (quote c : Char) : List Char :=
  match escapeLetter? c with
  | some letter => ['\\', letter]
  | none =>
      if c == quote || c == '\\' then ['\\', c]
      else if isHidden c then codeEscape c
      else [c]

/-- The quotes that a text is given. -/
def quoteFor (text : List Char) : Char :=
  if text.contains '\x27' && !text.contains '"' then '"' else '\x27'

/-- A text in quotes. -/
def quoted (text : String) : String :=
  let quote := quoteFor text.toList
  String.ofList (quote :: text.toList.flatMap (quotedChar quote) ++ [quote])

end Text
end Lox

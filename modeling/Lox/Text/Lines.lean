/-!
# Lines

A line feed separates two lines; nothing else does.  Files from elsewhere may end their lines with
carriage returns, which are turned into line feeds when such a file is read.
-/

namespace Lox
namespace Text

/-- Splits the rest of a text, with the pieces already found and the piece begun in reverse. -/
def splitOnto
    (separator : Char) (found : List (List Char)) (begun : List Char) :
    List Char → List (List Char)
  | [] => (begun.reverse :: found).reverse
  | c :: rest =>
      if c == separator then
        splitOnto separator (begun.reverse :: found) [] rest
      else
        splitOnto separator found (c :: begun) rest

/-- The pieces of a text between its separators: one more than there are separators. -/
def split (separator : Char) (text : List Char) : List (List Char) :=
  splitOnto separator [] [] text

/-- The lines of a text. -/
def splitLines (text : List Char) : List (List Char) :=
  split '\n' text

/-- The lines that a reader gets: a line feed at the end begins no further line. -/
def readLines (text : List Char) : List (List Char) :=
  let pieces := splitLines text
  if pieces.getLast? == some [] then pieces.dropLast else pieces

/-- Continues a text whose line ends are being made uniform; the result is in reverse. -/
def unifyLineEndsOnto (done : List Char) : List Char → List Char
  | [] => done
  | '\r' :: '\n' :: rest => unifyLineEndsOnto ('\n' :: done) rest
  | '\r' :: rest => unifyLineEndsOnto ('\n' :: done) rest
  | c :: rest => unifyLineEndsOnto (c :: done) rest

/-- A carriage return, and one with a line feed after it, becomes a line feed. -/
def unifyLineEnds (text : List Char) : List Char :=
  (unifyLineEndsOnto [] text).reverse

end Text
end Lox

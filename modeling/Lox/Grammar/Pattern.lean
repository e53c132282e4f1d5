/-!
# Regular patterns

A pattern describes a set of texts.  What is left of a pattern after one character of a text is
again a pattern, so a text is matched by taking off its characters one after the other.  Patterns
that match nothing are recognized at once, which ends the search for the longest match.
-/

namespace Lox
namespace Grammar

inductive Pattern
  | nothing
  | empty
  | one (p : Char → Bool)
  | seq (first second : Pattern)
  | either (left right : Pattern)
  | many (repeated : Pattern)

namespace Pattern

/-- The texts that a pattern describes. -/
inductive Matches : Pattern → List Char → Prop
  | empty : Matches .empty []
  | one {p : Char → Bool} {c : Char} : p c = true → Matches (.one p) [c]
  | seq {a b : Pattern} {s t : List Char} :
      Matches a s → Matches b t → Matches (.seq a b) (s ++ t)
  | left {a b : Pattern} {s : List Char} : Matches a s → Matches (.either a b) s
  | right {a b : Pattern} {s : List Char} : Matches b s → Matches (.either a b) s
  | done {a : Pattern} : Matches (.many a) []
  | more {a : Pattern} {s t : List Char} :
      Matches a s → Matches (.many a) t → Matches (.many a) (s ++ t)

/-- The pattern describes the empty text. -/
def nullable : Pattern → Bool
  | .nothing => false
  | .empty => true
  | .one _ => false
  | .seq a b => a.nullable && b.nullable
  | .either a b => a.nullable || b.nullable
  | .many _ => true

/-- One pattern after another; without a match for one of them there is no match. -/
def andThen : Pattern → Pattern → Pattern
  | .nothing, _ => .nothing
  | _, .nothing => .nothing
  | .empty, b => b
  | a, b => .seq a b

/-- One of two patterns. -/
def orElse : Pattern → Pattern → Pattern
  | .nothing, b => b
  | a, .nothing => a
  | a, b => .either a b

/-- What is left of a pattern after a character. -/
def after (c : Char) : Pattern → Pattern
  | .nothing => .nothing
  | .empty => .nothing
  | .one p => if p c then .empty else .nothing
  | .seq a b =>
      if a.nullable then
        ((a.after c).andThen b).orElse (b.after c)
      else
        (a.after c).andThen b
  | .either a b => (a.after c).orElse (b.after c)
  | .many a => (a.after c).andThen (.many a)

/-- The pattern is the one that matches nothing. -/
def isNothing : Pattern → Bool
  | .nothing => true
  | _ => false

/-- A fixed text. -/
def ofText : List Char → Pattern
  | [] => .empty
  | c :: rest => .seq (.one (· == c)) (ofText rest)

/-- A pattern that may be absent. -/
def optional (a : Pattern) : Pattern := .either .empty a

/-- A pattern once or more. -/
def atLeastOnce (a : Pattern) : Pattern := .seq a (.many a)

/-- A character from one of several ranges. -/
def ofRanges (ranges : List (Char × Char)) : Pattern :=
  .one fun c => ranges.any fun range => decide (range.1 ≤ c) && decide (c ≤ range.2)

/-- A character from a list. -/
def ofChars (chars : List Char) : Pattern :=
  .one chars.contains

/-- A character that is not the given one. -/
def otherThan (c : Char) : Pattern :=
  .one (· != c)

end Pattern
end Grammar
end Lox

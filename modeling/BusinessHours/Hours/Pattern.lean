/-
Token patterns.

A pattern says which texts are a token of some symbol.  It is always asked about a whole
candidate, never about a part of one.  A weekday has one pattern, its name taken letter by
letter; the dash, the time, the blank and the comma are the same in every language.

Each pattern has a source, the regular expression that it stands for.  The source of a name
is the escaped name, so a name that looks like an expression is still only a name.
-/
import BusinessHours.Hours.Symbol
import BusinessHours.Text.Blank
import BusinessHours.Text.Escape

namespace BusinessHours

/-- Which texts are a token of one kind. -/
inductive Pattern where
  /-- Exactly the given text. -/
  | literal (chars : List Char)
  /-- A dash. -/
  | dash
  /-- Two ASCII digits, a colon and two ASCII digits. -/
  | clock
  /-- One blank character. -/
  | blank
  /-- A comma. -/
  | comma
deriving DecidableEq

/-- Whether a character is one of the ten ASCII digits. -/
def isAsciiDigit (c : Char) : Bool := '0' ≤ c && c ≤ '9'

namespace Pattern

/-- Whether a candidate, taken whole, matches. -/
def accepts : Pattern → List Char → Bool
  | literal chars, cs => chars == cs
  | dash, cs => cs == ['-']
  | clock, [a, b, c, d, e] =>
    isAsciiDigit a && isAsciiDigit b && c == ':' && isAsciiDigit d && isAsciiDigit e
  | clock, _ => false
  | blank, [c] => isBlank c
  | blank, _ => false
  | comma, cs => cs == [',']

/-- The regular expression a pattern stands for. -/
def source : Pattern → List Char
  | literal chars => escape chars
  | dash => ['-']
  | clock => "[0-9][0-9]:[0-9][0-9]".toList
  | blank => ['\\', 's']
  | comma => [',']

/-- What a message calls the pattern: a name by itself, any other pattern by its source. -/
def label : Pattern → String
  | literal chars => String.ofList chars
  | p => String.ofList p.source

/-- The patterns of every language, with the symbols they stand for. -/
def shared : List (Pattern × Symbol) :=
  [(dash, .rangeIndicator), (clock, .time), (blank, .whiteSpace), (comma, .scheduleSeparator)]

end Pattern

end BusinessHours

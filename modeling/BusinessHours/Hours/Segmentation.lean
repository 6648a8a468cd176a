/-
Texts cut into tokens.

A text is read from the left.  A window grows by one character at a time, and as soon as the
whole window is a token it is cut off and a new window begins.  So each token is the shortest
one that begins where it does, and the text behind it plays no part.  What is left in the
window at the end of the text is one unknown token.

Blanks separate tokens and mean nothing else, so they are dropped afterwards.
-/
import BusinessHours.Hours.Lexicon

namespace BusinessHours

namespace Lexicon

variable (L : Lexicon)

/-- Cuts a text into tokens, when the window already holds some characters in front of it. -/
def cut (window : List Char) : List Char → List (Token Symbol)
  | [] => if window = [] then [] else [.ofLexeme .unknown (String.ofList window)]
  | c :: rest =>
    let grown := window ++ [c]
    match L.token? grown with
    | some token => token :: cut [] rest
    | none => cut grown rest

/-- The tokens of a text, blanks dropped. -/
def tokenize (text : String) : List (Token Symbol) :=
  (L.cut [] text.toList).filter fun t => t.symbol ≠ .whiteSpace

end Lexicon

end BusinessHours

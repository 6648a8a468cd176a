/-
Grammars over letters.

Small grammars are written as in a textbook: a capital letter is a nonterminal, any other
character a terminal.  `letterGrammar` takes the sides of the rules as they would be written and
checks them as those of any other grammar, so what it makes of them is a grammar by evaluation.
The grammars that more than one module looks at stand here as well.
-/
import BusinessHours.Grammar.Basic

namespace BusinessHours

/-- The alphabet of all characters, of which the capital letters are expanded. -/
def Alphabet.letters : Alphabet Char where
  epsilon := 'ε'
  endMark := '$'
  isTerminal c := !c.isUpper
  isUnknown c := c == '?'
  name := Char.toString
  epsilon_ne_endMark := by decide

/-- A rule over letters, whose two sides can be checked by evaluation. -/
def letterRule (lhs : Char) (rhs : List Char)
    (lhs_nonterminal : Alphabet.letters.isTerminal lhs = false := by decide)
    (rhs_ne_nil : rhs ≠ [] := by decide)
    (epsilon_alone : 'ε' ∈ rhs → rhs = ['ε'] := by decide) : Rule Alphabet.letters :=
  ⟨lhs, rhs, lhs_nonterminal, rhs_ne_nil, epsilon_alone⟩

/-- The grammar of rules with the given sides, if they form one. -/
def letterGrammar? (start : Char) (sides : List (Char × List Char)) :
    Option (Grammar Alphabet.letters) := do
  let rules ← sides.mapM fun (lhs, rhs) => (Rule.ofSides? .letters lhs rhs).toOption
  (Grammar.ofRules? start rules).toOption

/-- The grammar of rules with the given sides. -/
def letterGrammar (start : Char) (sides : List (Char × List Char))
    (formed : (letterGrammar? start sides).isSome = true := by decide) :
    Grammar Alphabet.letters :=
  (letterGrammar? start sides).get formed

namespace Recognizer

/-- Nested pairs of `a` and `b`. -/
def nestedGrammar : Grammar Alphabet.letters :=
  letterGrammar 'S' [('S', ['a', 'S', 'b']), ('S', ['ε'])]

/-- A grammar in which much begins and follows behind nonterminals that can vanish. -/
def layeredGrammar : Grammar Alphabet.letters :=
  letterGrammar 'Z' [('Z', ['d']), ('Z', ['X', 'Y', 'Z']), ('Y', ['ε']), ('Y', ['c']),
    ('X', ['Y']), ('X', ['a'])]

end Recognizer

end BusinessHours

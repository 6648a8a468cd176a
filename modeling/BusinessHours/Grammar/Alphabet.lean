/-
The symbols a grammar is written in.

Nothing here fixes what a symbol is.  A grammar needs five things of the type it is
written over: which symbol stands for the empty right side, which one marks the end of
an input, which symbols are terminals, which ones no grammar may accept, and how each is
written in a message.  An `Alphabet` is those five, so one type can carry several
alphabets, and a grammar says in its type which one it is over.

The two markers are different symbols.  They get the first two terminal numbers of every
grammar, so equal markers would leave a number with no symbol behind it.
-/
namespace BusinessHours

/-- What a grammar has to know about the symbols it is written in. -/
structure Alphabet (σ : Type) where
  /-- The symbol that, alone on a right side, makes it the empty one. -/
  epsilon : σ
  /-- The symbol that ends every input. -/
  endMark : σ
  /-- Terminals stand in inputs; all other symbols are expanded by rules. -/
  isTerminal : σ → Bool
  /-- An unknown symbol has no place in any input. -/
  isUnknown : σ → Bool
  /-- How a symbol is written in rules and messages. -/
  name : σ → String
  /-- The two markers can be told apart. -/
  epsilon_ne_endMark : epsilon ≠ endMark

namespace Alphabet

variable {σ : Type}

/-- Both markers are terminals, as in every alphabet that is meant for reading text. -/
def MarkersTerminal (A : Alphabet σ) : Prop :=
  A.isTerminal A.epsilon = true ∧ A.isTerminal A.endMark = true

instance (A : Alphabet σ) : Decidable A.MarkersTerminal :=
  inferInstanceAs (Decidable (_ ∧ _))

/-- A symbol that is no terminal is a nonterminal. -/
theorem isTerminal_eq_false {A : Alphabet σ} {s : σ} (h : ¬ A.isTerminal s = true) :
    A.isTerminal s = false := Bool.eq_false_iff.mpr h

end Alphabet

end BusinessHours

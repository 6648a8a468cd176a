/-
Tokens.

A token is a symbol together with the text it was read from.  A token that nobody read,
such as an end mark that was put behind an input, has no text; this is not the same as
having the empty text.
-/
namespace BusinessHours

/-- A symbol and the text it was read from, if it was read. -/
structure Token (σ : Type) where
  /-- What the token is. -/
  symbol : σ
  /-- What stood in the text. -/
  lexeme : Option String
deriving DecidableEq, Hashable

namespace Token

variable {σ : Type}

/-- A token as it was read. -/
def ofLexeme (symbol : σ) (lexeme : String) : Token σ := ⟨symbol, some lexeme⟩

/-- A token that was not read from any text. -/
def synthetic (symbol : σ) : Token σ := ⟨symbol, none⟩

/-- The token between braces: its symbol, then its text if it has one. -/
def text (name : σ → String) (t : Token σ) : String :=
  match t.lexeme with
  | some lexeme => "\x7b" ++ name t.symbol ++ " " ++ lexeme ++ "\x7d"
  | none => "\x7b" ++ name t.symbol ++ "\x7d"

end Token

end BusinessHours

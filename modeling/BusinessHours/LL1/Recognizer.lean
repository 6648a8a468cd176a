/-
Recognisers.

A recogniser is a grammar together with everything that is computed from it once: the
numbering, the FIRST and FOLLOW sets and the predictive table.  The equations that say how
each of them was computed are part of the type, so a recogniser is determined by its
grammar, and it exists exactly if the grammar is LL(1).

Questions are asked and answered in symbols.  A symbol the grammar does not have is not an
error: as a nonterminal it has the empty FIRST set and no FOLLOW set, and in an input it
leads to rejection.
-/
import BusinessHours.LL1.Automaton
import BusinessHours.LL1.Verdict
import BusinessHours.Token

namespace BusinessHours

/-- A grammar that is LL(1), with its sets and its table. -/
structure Recognizer {σ : Type} [DecidableEq σ] (A : Alphabet σ) where
  /-- The grammar whose texts are recognised. -/
  grammar : Grammar A
  /-- The grammar over numbers. -/
  indexed : IndexedGrammar σ
  /-- The FIRST sets. -/
  first : Family indexed.termCount indexed.nontermCount
  /-- The FOLLOW sets. -/
  follow : Family indexed.termCount indexed.nontermCount
  /-- The predictive table. -/
  table : Table indexed.termCount indexed.nontermCount
  indexed_eq : indexed = grammar.indexed
  first_eq : first = indexed.first
  follow_eq : follow = indexed.follow first
  table?_eq : indexed.table? first follow = .ok table

/-- The symbol in place `i` of a list as it is written; a place outside the list has no text. -/
def Alphabet.nameAt {σ : Type} (A : Alphabet σ) (symbols : List σ) (i : Nat) : String :=
  symbols[i]?.elim "" A.name

/-- The message of a clash in the table of `g`: both rules, and where they meet. -/
def Clash.message {σ : Type} {A : Alphabet σ} [DecidableEq σ] (g : Grammar A) (c : Clash) :
    String :=
  let rule (i : Nat) : String := g.rules[i]?.elim "" Rule.text
  "the given grammar is not LL(1): `" ++ rule c.existing ++ "` and `" ++
    rule c.placement.prod ++ "` both expand " ++ A.nameAt g.nonterms c.placement.nonterm ++
    " on " ++ A.nameAt g.terms c.placement.term

namespace Recognizer

variable {σ : Type} [DecidableEq σ] {A : Alphabet σ}

/-- The recogniser of a grammar, or the clash that keeps the grammar from being LL(1). -/
def ofGrammar? (g : Grammar A) : Except Clash (Recognizer A) :=
  let indexed := g.indexed
  let first := indexed.first
  let follow := indexed.follow first
  match h : indexed.table? first follow with
  | .error clash => .error clash
  | .ok table => .ok
      { grammar := g, indexed, first, follow, table
        indexed_eq := rfl, first_eq := rfl, follow_eq := rfl, table?_eq := h }

variable (r : Recognizer A)

/-! ### Sets of symbols -/

/-- The members of a set of terminals as symbols, in the order of their numbers. -/
def symbolsOf (s : IdSet r.indexed.termCount) : List σ :=
  r.indexed.termsAt s.toList

/-- The FIRST set of one symbol. A terminal is its own; an undefined nonterminal has none. -/
def firstSet (s : σ) : List σ :=
  if A.isTerminal s then [s]
  else match r.indexed.nontermId? s with
    | some a => r.symbolsOf (r.first.get a)
    | none => []

/-- Whether the empty text can be derived from a symbol. -/
def isNullable (s : σ) : Bool :=
  decide (A.epsilon ∈ r.firstSet s)

/-- The symbols that can begin a text of the list: up to the first that cannot vanish. -/
def leading : List σ → List σ
  | [] => []
  | s :: rest => if r.isNullable s then s :: leading rest else [s]

/--
The FIRST set of a list of symbols. Terminals stand in the order in which the list first
shows them, behind epsilon if the whole list can vanish.
-/
def firstOfSequence (symbols : List σ) : List σ :=
  let found := (((r.leading symbols).flatMap r.firstSet).filter (· ≠ A.epsilon)).eraseDups
  if symbols.all r.isNullable then A.epsilon :: found else found

/-- The FOLLOW set of a nonterminal the grammar defines. -/
def followSet? (s : σ) : Option (List σ) :=
  (r.indexed.nontermId? s).map fun a => r.symbolsOf (r.follow.get a)

/-- The rule that is predicted for a nonterminal when the given terminal comes next. -/
def tableEntry? (nonterminal lookahead : σ) : Option (Rule A) := do
  let a ← r.indexed.nontermId? nonterminal
  let t ← r.indexed.termId? lookahead
  let p ← r.table.entry? a t
  r.grammar.rules[p]?

/-! ### Inputs -/

/-- The number of a token's symbol, if it is a terminal of the grammar. -/
def inputId? (t : Token σ) : Option Nat :=
  if A.isTerminal t.symbol then r.indexed.termId? t.symbol else none

/-- An input with an end mark behind it, unless it ends with one. -/
def terminated (ids : List Nat) : List Nat :=
  if ids.getLast? = some endId then ids else ids ++ [endId]

/--
The verdict on a list of tokens. The empty list is always accepted. A token with an unknown
symbol rejects the list before anything is read, and the explanation shows its text. All
other lists are left to the automaton, if their symbols are terminals of the grammar.
-/
def validate (tokens : List (Token σ)) : Verdict :=
  if tokens.isEmpty then .accepted
  else match tokens.find? fun t => A.isUnknown t.symbol with
    | some t => .rejected (some ("Unknown token '" ++ t.lexeme.getD "" ++ "'"))
    | none => match tokens.mapM r.inputId? with
      | none => .rejected none
      | some ids =>
        if r.indexed.accepts r.table (terminated ids) then .accepted else .rejected none

end Recognizer

end BusinessHours

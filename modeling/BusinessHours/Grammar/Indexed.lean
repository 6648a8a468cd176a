/-
Grammars over numbers.

The analyses work on sets of terminals and on a table, and both are indexed by numbers.
`Grammar.indexed` numbers the symbols of a grammar by first appearance: the two markers
come first, then the terminals of the right sides, and the nonterminals are numbered by
themselves in the order in which they first appear as a left side.  Each rule becomes a
production over these numbers, in the place it had, and an epsilon rule becomes a
production with nothing on its right.

The terminals can as well be numbered while the rules are read: one that has a number keeps it,
and a new one gets the next.  `Grammar.interned` does this, in one pass over the rules.  It also
has to say what it does with a nonterminal that has no number, and takes whatever number it is
told.  `Grammar.indexed` needs no such number, and the two agree for every one of them
(`Proofs/Grammar/Interning`).

A number is the place of its symbol in `terms` or `nonterms`, so the two lists hold all
that is needed to read a number back.
-/
import BusinessHours.Grammar.Basic

namespace BusinessHours

/-- One place of a right side: a terminal or a nonterminal, by number. -/
inductive Node where
  | term (id : Nat)
  | nonterm (id : Nat)
deriving DecidableEq, Repr

/-- A rule over numbers. -/
structure Production where
  /-- The number of the nonterminal that is replaced. -/
  lhs : Nat
  /-- What it is replaced by, possibly nothing. -/
  rhs : List Node
deriving DecidableEq, Repr

/-- A grammar over numbers, with the symbols the numbers stand for. -/
structure IndexedGrammar (σ : Type) where
  /-- The terminals; a terminal's number is its place. -/
  terms : List σ
  /-- The nonterminals; a nonterminal's number is its place. -/
  nonterms : List σ
  /-- The number of the start symbol. -/
  start : Nat
  /-- The productions, one for each rule, in the same order. -/
  prods : List Production

/-- The terminal number of the epsilon symbol. -/
def epsilonId : Nat := 0

/-- The terminal number of the end mark. -/
def endId : Nat := 1

namespace Grammar

variable {σ : Type} {A : Alphabet σ} [DecidableEq σ]

/-- The terminals of a grammar: both markers, then those of the right sides. -/
def terms (g : Grammar A) : List σ :=
  (A.epsilon :: A.endMark :: g.rules.flatMap fun r => r.body.filter A.isTerminal).eraseDups

/-- The nonterminals of a grammar, which are its left sides. -/
def nonterms (g : Grammar A) : List σ :=
  (g.rules.map Rule.lhs).eraseDups

/-- A symbol of a right side as a node, given the two numberings. -/
def nodeOf (A : Alphabet σ) (terms nonterms : List σ) (s : σ) : Node :=
  if A.isTerminal s then .term (terms.idxOf s) else .nonterm (nonterms.idxOf s)

/-- The grammar over numbers. -/
def indexed (g : Grammar A) : IndexedGrammar σ :=
  let terms := g.terms
  let nonterms := g.nonterms
  { terms, nonterms
    start := nonterms.idxOf g.start
    prods := g.rules.map fun r =>
      { lhs := nonterms.idxOf r.lhs, rhs := r.body.map (nodeOf A terms nonterms) } }

end Grammar

/-! ### Numbering in one pass -/

section Interning

variable {σ : Type} [DecidableEq σ]

/-- The number of a terminal among those seen so far; a new one is put behind them. -/
def internTerm (s : σ) : StateM (List σ) Nat := do
  let terms ← get
  match terms.idxOf? s with
  | some i => return i
  | none =>
    set (terms ++ [s])
    return terms.length

/-- The number of a nonterminal, or `missing` if it has none. -/
def numberOr (missing : Nat) (nonterms : List σ) (a : σ) : Nat :=
  (nonterms.idxOf? a).getD missing

/-- A symbol of a right side as a node. -/
def internNode (A : Alphabet σ) (missing : Nat) (nonterms : List σ) (s : σ) :
    StateM (List σ) Node :=
  if A.isTerminal s then .term <$> internTerm s
  else pure (.nonterm (numberOr missing nonterms s))

/-- A rule as a production. -/
def internRule {A : Alphabet σ} (missing : Nat) (nonterms : List σ) (r : Rule A) :
    StateM (List σ) Production := do
  let rhs ← r.body.mapM (internNode A missing nonterms)
  return { lhs := numberOr missing nonterms r.lhs, rhs }

/-- The grammar over numbers, with the terminals numbered as they come. -/
def Grammar.interned {A : Alphabet σ} (g : Grammar A) (missing : Nat) : IndexedGrammar σ :=
  let nonterms := g.nonterms
  let (prods, terms) := (g.rules.mapM (internRule missing nonterms)).run [A.epsilon, A.endMark]
  { terms, nonterms, start := numberOr missing nonterms g.start, prods }

end Interning

namespace IndexedGrammar

variable {σ : Type}

/-- How many terminals there are, both markers included. -/
def termCount (G : IndexedGrammar σ) : Nat := G.terms.length

/-- How many nonterminals there are. -/
def nontermCount (G : IndexedGrammar σ) : Nat := G.nonterms.length

/-- The number of a terminal, if the grammar has it. -/
def termId? [DecidableEq σ] (G : IndexedGrammar σ) (s : σ) : Option Nat :=
  G.terms.idxOf? s

/-- The number of a nonterminal, if the grammar has it. -/
def nontermId? [DecidableEq σ] (G : IndexedGrammar σ) (s : σ) : Option Nat :=
  G.nonterms.idxOf? s

/-- The terminals with the given numbers, in the order of the numbers given. -/
def termsAt (G : IndexedGrammar σ) (ids : List Nat) : List σ :=
  ids.filterMap fun i => G.terms[i]?

/-- The right side of the production in place `p`. -/
def rhsAt? (G : IndexedGrammar σ) (p : Nat) : Option (List Node) :=
  G.prods[p]?.map Production.rhs

/-- The symbol a node stands for. -/
def symbolAt? (G : IndexedGrammar σ) : Node → Option σ
  | .term i => G.terms[i]?
  | .nonterm a => G.nonterms[a]?

/-- The two sides that a production stands for; an empty one is written with epsilon. -/
def sides? (G : IndexedGrammar σ) (A : Alphabet σ) (p : Production) : Option (σ × List σ) := do
  let lhs ← G.nonterms[p.lhs]?
  let rhs ← p.rhs.mapM G.symbolAt?
  return (lhs, if p.rhs.isEmpty then [A.epsilon] else rhs)

end IndexedGrammar

end BusinessHours

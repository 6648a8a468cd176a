/-
FIRST sets.

The FIRST set of a right side holds the terminals that a text derived from it can begin
with, and the epsilon number if the empty text can be derived.  For a list of nodes it is
read off from the front: a terminal begins every text by itself, and behind a nonterminal
one looks on only if that nonterminal can vanish.

The FIRST set of a nonterminal collects those of its right sides, so the family of all
FIRST sets is the least one that every production agrees with.
-/
import BusinessHours.Grammar.Indexed
import BusinessHours.LL1.Saturation

namespace BusinessHours

/-- FIRST of a list of nodes, when `first` holds the FIRST sets of the nonterminals. -/
def Family.firstOf {terms nonterms : Nat} (first : Family terms nonterms) :
    List Node → IdSet terms
  | [] => .single epsilonId
  | .term t :: _ => .single t
  | .nonterm a :: rest =>
    let own := first.get a
    if epsilonId ∈ own then (first.firstOf rest).unionExcept own epsilonId else own

/-- Lets a production add the FIRST set of its right side to its left side. -/
def Family.firstOnce {terms nonterms : Nat} (p : Production) (first : Family terms nonterms) :
    Progress terms nonterms :=
  first.enlargeReporting p.lhs (first.firstOf p.rhs)

namespace IndexedGrammar

variable {σ : Type}

/-- Goes over all productions, in order, and reports whether that has changed anything. -/
def firstRoundReporting (G : IndexedGrammar σ) (f : Family G.termCount G.nontermCount) :
    Family.Progress G.termCount G.nontermCount :=
  G.prods.foldl (fun done p => done.andThen (Family.firstOnce p)) (.start f)

/-- What a round leaves of a family. -/
def firstRound (G : IndexedGrammar σ) (f : Family G.termCount G.nontermCount) :
    Family G.termCount G.nontermCount :=
  (G.firstRoundReporting f).family

/-- The FIRST sets of the nonterminals. -/
def first (G : IndexedGrammar σ) : Family G.termCount G.nontermCount :=
  .saturate G.firstRoundReporting (Family.enoughRounds G.termCount G.nontermCount) .empty

end IndexedGrammar

end BusinessHours

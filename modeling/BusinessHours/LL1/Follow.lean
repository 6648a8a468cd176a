/-
FOLLOW sets.

The FOLLOW set of a nonterminal holds the terminals that can stand directly after it.
Three things put a terminal there.  The end mark follows the start symbol.  Where a
nonterminal stands in a right side, whatever can begin the rest of that side follows it.
And where the rest can vanish, whatever follows the left side follows it too.

Epsilon is never a member: it is not a terminal that an input can show.
-/
import BusinessHours.LL1.First

namespace BusinessHours

namespace Family

variable {terms nonterms : Nat}

/--
Lets `b`, which stands before `rest` on a right side of `lhs`, have what can stand after it there:
the FIRST set of the rest, and the FOLLOW set of the left side if the rest can vanish.  If `b` is
the left side itself, it has that already.
-/
def followOnce (first : Family terms nonterms) (lhs b : Nat) (rest : List Node)
    (follow : Family terms nonterms) : Progress terms nonterms :=
  let after := first.firstOf rest
  let done := follow.enlargeExceptReporting b after epsilonId
  if epsilonId ∈ after ∧ b ≠ lhs then
    done.andThen fun follow => follow.enlargeReporting b (follow.get lhs)
  else done

/-- Walks along a right side and comes to each nonterminal on it. -/
def followAlong (first : Family terms nonterms) (lhs : Nat) :
    List Node → Progress terms nonterms → Progress terms nonterms
  | [], done => done
  | .term _ :: rest, done => first.followAlong lhs rest done
  | .nonterm b :: rest, done =>
    first.followAlong lhs rest (done.andThen (first.followOnce lhs b rest))

end Family

namespace IndexedGrammar

variable {σ : Type}

/--
Walks along the right sides of all productions, in order, and reports whether that has changed
anything.
-/
def followRoundReporting (G : IndexedGrammar σ) (first f : Family G.termCount G.nontermCount) :
    Family.Progress G.termCount G.nontermCount :=
  G.prods.foldl (fun done p => first.followAlong p.lhs p.rhs done) (.start f)

/-- What a round leaves of a family. -/
def followRound (G : IndexedGrammar σ) (first f : Family G.termCount G.nontermCount) :
    Family G.termCount G.nontermCount :=
  (G.followRoundReporting first f).family

/-- The family from which FOLLOW sets grow: only the start symbol is followed, by the end. -/
def followSeed (G : IndexedGrammar σ) : Family G.termCount G.nontermCount :=
  Family.empty.enlarge G.start (.single endId)

/-- The FOLLOW sets of the nonterminals, given their FIRST sets. -/
def follow (G : IndexedGrammar σ) (first : Family G.termCount G.nontermCount) :
    Family G.termCount G.nontermCount :=
  .saturate (G.followRoundReporting first) (Family.enoughRounds G.termCount G.nontermCount)
    G.followSeed

end IndexedGrammar

end BusinessHours

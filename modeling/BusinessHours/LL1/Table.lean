/-
Predictive tables.

A predictive table says, for a nonterminal and the terminal that comes next, which
production to use.  A production is *predicted* on the terminals its right side can begin
with and, if the right side can vanish, on those that can follow its left side.

The table is filled production by production.  A cell that already holds another
production is a clash: one terminal of lookahead does not decide between the two, and the
grammar is not LL(1).  A production may be placed in its own cell again.  The first clash
ends the filling, and since productions come in order and the terminals of each in a fixed
order, it is always the same one.
-/
import BusinessHours.LL1.Follow

namespace BusinessHours

/-- A production on its way into the cell of a nonterminal and a terminal, all by number. -/
structure Placement where
  nonterm : Nat
  term : Nat
  prod : Nat
deriving DecidableEq, Repr

/-- A placement that found another production in its cell. -/
structure Clash where
  /-- What was to be placed. -/
  placement : Placement
  /-- The production that was there. -/
  existing : Nat
deriving DecidableEq, Repr

/-- For every nonterminal and terminal at most one production. -/
structure Table (terms nonterms : Nat) where
  /-- The cells, one row of `terms` cells for each nonterminal. -/
  cells : Vector (Option Nat) (nonterms * terms)

namespace Table

variable {terms nonterms : Nat}

/-- The table without entries. -/
def empty : Table terms nonterms := ⟨Vector.replicate _ none⟩

/-- The place of a cell: whole rows come before it, then the cells of its own row. -/
def cellAt (terms a t : Nat) : Nat := a * terms + t

/-- The production for nonterminal `a` on terminal `t`. -/
def entry? (T : Table terms nonterms) (a t : Nat) : Option Nat :=
  T.cells[cellAt terms a t]?.join

/-- Fills a cell, unless another production is there. -/
def place (T : Table terms nonterms) (x : Placement) : Except Clash (Table terms nonterms) :=
  match T.entry? x.nonterm x.term with
  | some p =>
    if p = x.prod then .ok T else .error ⟨x, p⟩
  | none => .ok ⟨T.cells.setIfInBounds (cellAt terms x.nonterm x.term) (some x.prod)⟩

/-- The table of some placements, made in order, or the first clash. -/
def ofPlacements? (xs : List Placement) : Except Clash (Table terms nonterms) :=
  xs.foldlM place empty

end Table

/--
The terminals a production is predicted on: those its right side can begin with, then those
that can follow its left side if the right side can vanish, each in ascending order.
-/
def Production.predictedOn {terms nonterms : Nat} (first follow : Family terms nonterms)
    (p : Production) : List Nat :=
  let begins := first.firstOf p.rhs
  (begins.erase epsilonId).toList ++
    if epsilonId ∈ begins then (follow.get p.lhs).toList else []

namespace IndexedGrammar

variable {σ : Type}

/-- Every production with every terminal it is predicted on. -/
def placements (G : IndexedGrammar σ) (first follow : Family G.termCount G.nontermCount) :
    List Placement :=
  G.prods.zipIdx.flatMap fun (p, i) =>
    (p.predictedOn first follow).map fun t => ⟨p.lhs, t, i⟩

/-- The predictive table, or the clash that keeps the grammar from being LL(1). -/
def table? (G : IndexedGrammar σ) (first follow : Family G.termCount G.nontermCount) :
    Except Clash (Table G.termCount G.nontermCount) :=
  Table.ofPlacements? (G.placements first follow)

end IndexedGrammar

end BusinessHours

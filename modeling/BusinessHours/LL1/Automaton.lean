/-
The pushdown automaton of a predictive table.

The automaton holds a stack of nodes that are still to be read and the terminals that are
still to come.  A terminal on top has to be the one that comes next.  A nonterminal on top
is replaced by the right side that the table predicts for it on the terminal that comes
next, so everything below it stays as it is.  When an end mark meets an end mark, the input
is accepted, and when nothing fits, it is rejected.

An expansion reads nothing and makes the stack longer, so it is not evident that the
automaton halts.  `run` counts its steps down from a limit and says `none` if that limit
was too small; a caller starts it with `stepLimit`, which depends on the grammar and the
input only.
-/
import BusinessHours.LL1.Table

namespace BusinessHours

/-- What is still to be read: by the stack, top first, and from the input. -/
structure Config where
  stack : List Node
  input : List Nat
deriving DecidableEq, Repr

/-- What the automaton does next. -/
inductive Move where
  /-- An end mark has met an end mark. -/
  | accept
  /-- Nothing fits. -/
  | reject
  /-- The automaton goes on from another configuration. -/
  | goOn (next : Config)
deriving DecidableEq, Repr

namespace IndexedGrammar

variable {σ : Type}

/-- The configuration in which an input is first looked at: the start symbol, then the end. -/
def startConfig (G : IndexedGrammar σ) (input : List Nat) : Config :=
  ⟨[.nonterm G.start, .term endId], input⟩

variable (G : IndexedGrammar σ) (T : Table G.termCount G.nontermCount)

/-- The right side that is predicted for nonterminal `a` on terminal `t`. -/
def predicted? (a t : Nat) : Option (List Node) :=
  (T.entry? a t).bind G.rhsAt?

/-- One move of the automaton. -/
def step : Config → Move
  | ⟨.term t :: stack, next :: input⟩ =>
    if t = next then
      if t = endId then .accept else .goOn ⟨stack, input⟩
    else .reject
  | ⟨.nonterm a :: stack, next :: input⟩ =>
    match G.predicted? T a next with
    | some rhs => .goOn ⟨rhs ++ stack, next :: input⟩
    | none => .reject
  | ⟨[], _⟩ | ⟨_, []⟩ => .reject

/-- Whether the automaton accepts, or `none` if it is still going on after `fuel` moves. -/
def run : Nat → Config → Option Bool
  | 0, _ => none
  | fuel + 1, c =>
    match G.step T c with
    | .accept => some true
    | .reject => some false
    | .goOn next => run fuel next

/-- The automaton gets from one configuration to another by some moves, none included. -/
inductive Reaches : Config → Config → Prop
  | refl (c : Config) : Reaches c c
  | step {c d e : Config} (first : G.step T c = .goOn d) (rest : Reaches d e) : Reaches c e

/-- The length of the longest right side. -/
def maxRhsLength : Nat :=
  G.prods.foldr (fun p n => max p.rhs.length n) 0

/--
A number of moves after which the automaton has halted on an input of the given length.

On one lookahead, a nonterminal that vanishes is the root of a tree of expansions that is no
deeper than there are nonterminals and no wider than the longest right side.  One that does
not vanish leads to the lookahead over a chain of at most as many nonterminals, and leaves
at most one right side behind for each of them.
-/
def stepLimit (inputLength : Nat) : Nat :=
  (inputLength + 3) * (G.nontermCount + 2) * Nat.pow (G.maxRhsLength + 2) (G.nontermCount + 3)

/-- Whether the automaton accepts an input of terminal numbers. -/
def accepts (input : List Nat) : Bool :=
  (G.run T (G.stepLimit input.length) (G.startConfig input)).getD false

variable {G T}

/-- What every move preserves holds wherever the automaton gets. -/
theorem Reaches.preserves {P : Config → Prop}
    (hstep : ∀ {c d : Config}, P c → G.step T c = .goOn d → P d) {c d : Config} (hc : P c)
    (h : G.Reaches T c d) : P d := by
  induction h with
  | refl => exact hc
  | step first _ ih => exact ih (hstep hc first)

/-- More fuel does not change an answer that was found. -/
theorem run_mono {m n : Nat} (hmn : m ≤ n) {c : Config} {b : Bool}
    (h : G.run T m c = some b) : G.run T n c = some b := by
  induction m generalizing n c with
  | zero => simp [run] at h
  | succ m ih =>
    obtain ⟨n, rfl⟩ : ∃ k, n = k + 1 := ⟨n - 1, by omega⟩
    rw [run] at h ⊢
    split at h
    · exact h
    · exact h
    · exact ih (Nat.le_of_succ_le_succ hmn) h

/-- **The automaton accepts exactly if it reaches a configuration whose next move accepts.** -/
theorem exists_run_eq_true_iff {c : Config} :
    (∃ n, G.run T n c = some true) ↔ ∃ d, G.Reaches T c d ∧ G.step T d = .accept := by
  constructor
  · rintro ⟨n, h⟩
    induction n generalizing c with
    | zero => simp [run] at h
    | succ n ih =>
      rw [run] at h
      split at h
      · rename_i hs; exact ⟨c, .refl c, hs⟩
      · simp at h
      · rename_i hs
        obtain ⟨d, hr, hd⟩ := ih h
        exact ⟨d, .step hs hr, hd⟩
  · rintro ⟨d, hr, hd⟩
    induction hr with
    | refl c => exact ⟨1, by simp [run, hd]⟩
    | step first _ ih =>
      obtain ⟨n, hn⟩ := ih hd
      exact ⟨n + 1, by simp [run, first, hn]⟩

end IndexedGrammar

end BusinessHours

/-
Moves of the automaton, counted.

`run` counts its fuel down, so a statement about fuel has to know how many moves were made.
`ReachesIn` is `Reaches` with that number.  The automaton has one move for each
configuration: what leads on by so many moves costs so much fuel, and a run that ends at
all leaves no room for a sequence of moves without end.

The rest of the module says what a move does when the table is the table of the grammar: a
nonterminal on top is expanded by the one production that is predicted, and the input is
rejected if there is none.
-/
import BusinessHours.Proofs.LL1.Table

namespace BusinessHours

namespace IndexedGrammar

variable {σ : Type} {G : IndexedGrammar σ} {T : Table G.termCount G.nontermCount}

/-- The automaton gets from one configuration to another by exactly so many moves. -/
inductive ReachesIn (G : IndexedGrammar σ) (T : Table G.termCount G.nontermCount) :
    Nat → Config → Config → Prop
  | refl (c : Config) : ReachesIn G T 0 c c
  | step {n : Nat} {c d e : Config} (first : G.step T c = .goOn d) (rest : ReachesIn G T n d e) :
      ReachesIn G T (n + 1) c e

theorem ReachesIn.trans {m n : Nat} {c d e : Config} (h : G.ReachesIn T m c d)
    (k : G.ReachesIn T n d e) : G.ReachesIn T (m + n) c e := by
  induction h with
  | refl => rwa [Nat.zero_add]
  | step first _ ih =>
      rw [Nat.add_right_comm]
      exact .step first (ih k)

/-- Moves use up their number of fuel and nothing else. -/
theorem run_of_reachesIn {n : Nat} {c d : Config} (h : G.ReachesIn T n c d) (fuel : Nat) :
    G.run T (n + fuel) c = G.run T fuel d := by
  induction h with
  | refl => rw [Nat.zero_add]
  | step first _ ih =>
      rw [Nat.add_right_comm, run, first]
      exact ih

/-- A run that ends goes on to its end from every configuration on its way. -/
theorem exists_run_of_reaches {n : Nat} {c d : Config} {b : Bool} (h : G.Reaches T c d)
    (hrun : G.run T n c = some b) : ∃ m, G.run T m d = some b := by
  induction h generalizing n with
  | refl => exact ⟨n, hrun⟩
  | step first _ ih =>
      cases n with
      | zero => simp [run] at hrun
      | succ n =>
          rw [run, first] at hrun
          exact ih hrun

/-- **A run that ends leaves no room for moves without end.** -/
theorem not_exists_moves_of_run {n : Nat} {c : Config} {b : Bool} (h : G.run T n c = some b) :
    ¬ ∃ moves : Nat → Config, moves 0 = c ∧ ∀ k, G.step T (moves k) = .goOn (moves (k + 1)) := by
  intro h
  obtain ⟨moves, rfl, hmoves⟩ := h
  induction n generalizing moves with
  | zero => simp [run] at h
  | succ n ih =>
      rw [run, hmoves 0] at h
      exact ih (fun k => moves (k + 1)) (fun k => hmoves (k + 1)) h

/-! ### What a move does -/

/-- **The automaton goes on by reading a terminal other than the end mark, or by expanding.** -/
theorem step_eq_goOn {c d : Config} (h : G.step T c = .goOn d) :
    (∃ t stack input, t ≠ endId ∧ c = ⟨.term t :: stack, t :: input⟩ ∧ d = ⟨stack, input⟩) ∨
      ∃ a t stack input, ∃ p ∈ G.prods, c = ⟨.nonterm a :: stack, t :: input⟩ ∧
        d = ⟨p.rhs ++ stack, t :: input⟩ := by
  match c, h with
  | ⟨.term t :: stack, next :: input⟩, h =>
      rw [step] at h
      split at h
      · rename_i ht
        subst ht
        split at h
        · simp at h
        · rename_i hend
          exact .inl ⟨t, stack, input, hend, rfl, (Move.goOn.inj h).symm⟩
      · simp at h
  | ⟨.nonterm a :: stack, next :: input⟩, h =>
      rw [step] at h
      split at h
      · rename_i rhs hrhs
        obtain ⟨i, -, hi⟩ := Option.bind_eq_some_iff.mp hrhs
        obtain ⟨p, hp, rfl⟩ := Option.map_eq_some_iff.mp hi
        exact .inr ⟨a, next, stack, input, p, List.mem_of_getElem? hp, rfl,
          (Move.goOn.inj h).symm⟩
      · simp at h
  | ⟨[], _⟩, h | ⟨.term _ :: _, []⟩, h | ⟨.nonterm _ :: _, []⟩, h => exact nomatch h

/-- **The automaton accepts when an end mark has met an end mark.** -/
theorem step_eq_accept {c : Config} (h : G.step T c = .accept) :
    ∃ stack input, c = ⟨.term endId :: stack, endId :: input⟩ := by
  match c, h with
  | ⟨.term t :: stack, next :: input⟩, h =>
      rw [step] at h
      split at h
      · rename_i ht
        subst ht
        split at h
        · rename_i hend
          exact ⟨stack, input, by rw [hend]⟩
        · simp at h
      · simp at h
  | ⟨.nonterm a :: stack, next :: input⟩, h =>
      rw [step] at h
      split at h <;> simp at h
  | ⟨[], _⟩, h | ⟨.term _ :: _, []⟩, h | ⟨.nonterm _ :: _, []⟩, h => exact nomatch h

/-! ### Expansions -/

theorem getElem?_rhsAt {p : Production} {i : Nat} (hp : G.prods[i]? = some p) :
    G.rhsAt? i = some p.rhs := by
  simp [rhsAt?, hp]

/-- A production is used where it is predicted. -/
theorem step_of_predicted (wn : G.WellNumbered)
    (hT : G.table? G.first (G.follow G.first) = .ok T) {p : Production} (hp : p ∈ G.prods) {t : Nat}
    (ht : t ∈ p.predictedOn G.first (G.follow G.first)) (stack : List Node) (input : List Nat) :
    G.step T ⟨.nonterm p.lhs :: stack, t :: input⟩ = .goOn ⟨p.rhs ++ stack, t :: input⟩ := by
  obtain ⟨i, hi⟩ := List.mem_iff_getElem?.mp hp
  have hat : G.PredictedAt i p.lhs t := ⟨p, hi, rfl, ht⟩
  have hentry : T.entry? p.lhs t = some i :=
    (entry?_eq_some_iff wn hT (hat.lt_nontermCount wn) (hat.lt_termCount wn)).mpr hat
  simp [step, predicted?, hentry, getElem?_rhsAt hi]

/-- **A nonterminal on top is expanded by a production predicted there, or there is none.** -/
theorem step_nonterm (wn : G.WellNumbered) (hT : G.table? G.first (G.follow G.first) = .ok T)
    {a t : Nat} (ha : a < G.nontermCount) (ht : t < G.termCount) (stack : List Node)
    (input : List Nat) :
    (∃ p ∈ G.prods, p.lhs = a ∧ t ∈ p.predictedOn G.first (G.follow G.first)) ∨
      G.step T ⟨.nonterm a :: stack, t :: input⟩ = .reject := by
  cases hentry : T.entry? a t with
  | none => exact .inr (by simp [step, predicted?, hentry])
  | some i =>
      obtain ⟨p, hp, hl, hpred⟩ := (entry?_eq_some_iff wn hT ha ht).mp hentry
      exact .inl ⟨p, List.mem_of_getElem? hp, hl, hpred⟩

end IndexedGrammar

end BusinessHours

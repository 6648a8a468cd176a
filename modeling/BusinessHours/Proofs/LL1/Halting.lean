/-
The automaton halts.

An expansion reads nothing and makes the stack longer, and nothing forbids rules such as
`A -> A`.  What keeps the automaton from expanding for ever is the table.  Where it has an
entry for `A` on `t`, one of two things holds.

Either `t` can follow `A` and `A` can vanish.  Then the entry is a production whose nodes
vanish in fewer rounds than `A`, and `t` can follow each of them.  So `A` is gone after a
tree of expansions no deeper than the number of its round.

Or `A` leads to `t`.  Then the entry is a production that leads to `t` in fewer rounds,
over nodes that can vanish and that `t` can follow.  Once these are gone the next node is
`t` or leads to it, so after as many such expansions as there are rounds `t` is on top and
is read.

In both cases the entry is the production that the rounds speak of because a cell holds no
two.  `moveBound` adds up the moves: each node of the stack may vanish once, and each
terminal of the input may be led to once and leaves so many new nodes behind.
-/
import BusinessHours.Proofs.Grammar.Letters
import BusinessHours.Proofs.LL1.Moves
import Mathlib.Tactic.Linarith
import Mathlib.Tactic.Ring

namespace BusinessHours

namespace IndexedGrammar

variable {σ : Type} {G : IndexedGrammar σ} {T : Table G.termCount G.nontermCount}

theorem length_le_maxRhsLength {p : Production} (hp : p ∈ G.prods) :
    p.rhs.length ≤ G.maxRhsLength := by
  unfold maxRhsLength
  generalize G.prods = prods at hp ⊢
  induction prods with
  | nil => simp at hp
  | cons q rest ih =>
      rw [List.foldr_cons]
      rcases List.mem_cons.mp hp with rfl | hp'
      · exact Nat.le_max_left _ _
      · exact (ih hp').trans (Nat.le_max_right _ _)

/-! ### Nodes that vanish -/

/-- What follows a production follows those of its nodes behind which all can vanish. -/
theorem mem_follow_of_rest (wn : G.WellNumbered) {p : Production} (hp : p ∈ G.prods)
    (hall : ∀ x ∈ p.rhs, ∃ b ∈ G.vanishing, x = .nonterm b) {t : Nat}
    (ht : t ∈ (G.follow G.first).get p.lhs) {b : Nat} (hb : Node.nonterm b ∈ p.rhs) :
    t ∈ (G.follow G.first).get b := by
  obtain ⟨front, rest, hrhs⟩ := List.append_of_mem hb
  refine follow_closed wn hp hrhs (.inr ⟨?_, ht⟩)
  have hn : Node.term epsilonId ∉ rest := fun hc => wn.epsilon_notMem p hp (by simp [hrhs, hc])
  rw [Family.epsilon_mem_firstOf_iff wn.epsilonId_lt hn]
  intro x hx
  obtain ⟨c, hc, rfl⟩ := hall x (by simp [hrhs, hx])
  exact ⟨c, rfl, (epsilon_mem_first_iff wn).mpr hc⟩

/-- If each of some nodes is gone after so many moves, all are after as many for each. -/
theorem exists_moves_of_forall {t bound : Nat} {input : List Nat} {nodes : List Node}
    (h : ∀ x ∈ nodes, ∀ stack, ∃ n ≤ bound,
      G.ReachesIn T n ⟨x :: stack, t :: input⟩ ⟨stack, t :: input⟩) (stack : List Node) :
    ∃ n ≤ nodes.length * bound,
      G.ReachesIn T n ⟨nodes ++ stack, t :: input⟩ ⟨stack, t :: input⟩ := by
  induction nodes with
  | nil => exact ⟨0, Nat.zero_le _, .refl _⟩
  | cons x nodes ih =>
      obtain ⟨hx, hnodes⟩ := List.forall_mem_cons.mp h
      obtain ⟨m, hm, hfirst⟩ := hx (nodes ++ stack)
      obtain ⟨n, hn, hrest⟩ := ih hnodes
      refine ⟨m + n, ?_, hfirst.trans hrest⟩
      rw [List.length_cons, Nat.succ_mul]
      omega

/-- How many moves make a nonterminal vanish at most. -/
def vanishBound (G : IndexedGrammar σ) : Nat := (G.maxRhsLength + 1) ^ G.depth

/-- **A nonterminal that can vanish does so on a terminal that can follow it.** -/
theorem exists_moves_of_vanishing (wn : G.WellNumbered)
    (hT : G.table? G.first (G.follow G.first) = .ok T) {a t : Nat} (ha : a ∈ G.vanishing)
    (ht : t ∈ (G.follow G.first).get a) (stack : List Node) (input : List Nat) :
    ∃ n ≤ G.vanishBound,
      G.ReachesIn T n ⟨.nonterm a :: stack, t :: input⟩ ⟨stack, t :: input⟩ := by
  unfold vanishing at ha
  unfold vanishBound
  generalize G.depth = k at ha ⊢
  -- On the rounds: the nodes of the production that is used vanish in a round less.
  induction k generalizing a stack with
  | zero => exact absurd ha (Set.notMem_empty a)
  | succ k ih =>
      rw [Function.iterate_succ_apply'] at ha
      obtain ⟨p, hp, rfl, hround⟩ := ha
      have hall : ∀ x ∈ p.rhs, ∃ b ∈ G.vanishing, x = .nonterm b := fun x hx =>
        (hround x hx).imp fun b => And.imp_left (iterate_vanishRound_subset wn k ·)
      have hempty : epsilonId ∈ G.first.firstOf p.rhs := by
        rw [Family.epsilon_mem_firstOf_iff wn.epsilonId_lt (wn.epsilon_notMem p hp)]
        intro x hx
        obtain ⟨b, hb, rfl⟩ := hall x hx
        exact ⟨b, rfl, (epsilon_mem_first_iff wn).mpr hb⟩
      have hstep := step_of_predicted wn hT hp
        (Production.mem_predictedOn.mpr (.inr ⟨hempty, ht⟩)) stack input
      have hnodes : ∀ x ∈ p.rhs, ∀ stack, ∃ n ≤ (G.maxRhsLength + 1) ^ k,
          G.ReachesIn T n ⟨x :: stack, t :: input⟩ ⟨stack, t :: input⟩ := by
        intro x hx stack
        obtain ⟨b, hb, rfl⟩ := hround x hx
        exact ih (mem_follow_of_rest wn hp hall ht hx) stack hb
      obtain ⟨n, hn, hrest⟩ := exists_moves_of_forall hnodes stack
      refine ⟨n + 1, ?_, .step hstep hrest⟩
      have hlength := Nat.mul_le_mul_right ((G.maxRhsLength + 1) ^ k) (length_le_maxRhsLength hp)
      have hpos : 0 < (G.maxRhsLength + 1) ^ k := Nat.pow_pos (Nat.succ_pos _)
      rw [Nat.pow_succ, Nat.mul_comm, Nat.succ_mul]
      omega

/-! ### Nodes that lead to a terminal -/

/--
A production that leads to `t` is used on `t`, and the nodes in front of the one that leads
there are gone: `t` can follow each of them, since it begins what is behind.
-/
theorem exists_moves_of_front (wn : G.WellNumbered)
    (hT : G.table? G.first (G.follow G.first) = .ok T) {p : Production} (hp : p ∈ G.prods) {t : Nat}
    (hne : t ≠ epsilonId) {front tail : List Node} {x : Node} (hrhs : p.rhs = front ++ x :: tail)
    (hfront : ∀ y ∈ front, ∃ b ∈ G.vanishing, y = .nonterm b)
    (hx : t ∈ G.first.firstOf (x :: tail)) (stack : List Node) (input : List Nat) :
    ∃ n ≤ 1 + G.maxRhsLength * G.vanishBound,
      G.ReachesIn T n ⟨.nonterm p.lhs :: stack, t :: input⟩ ⟨x :: (tail ++ stack), t :: input⟩ := by
  have hvanish : ∀ y ∈ front, ∃ b, y = .nonterm b ∧ epsilonId ∈ G.first.get b := by
    intro y hy
    obtain ⟨b, hb, rfl⟩ := hfront y hy
    exact ⟨b, rfl, (epsilon_mem_first_iff wn).mpr hb⟩
  have hbegin : t ∈ G.first.firstOf p.rhs := by
    rw [hrhs]
    exact Family.mem_firstOf_of_front hvanish hx
  have hstep := step_of_predicted wn hT hp (Production.mem_predictedOn.mpr (.inl ⟨hne, hbegin⟩))
    stack input
  have hgone : ∀ y ∈ front, ∀ stack, ∃ n ≤ G.vanishBound,
      G.ReachesIn T n ⟨y :: stack, t :: input⟩ ⟨stack, t :: input⟩ := by
    intro y hy stack
    obtain ⟨b, hb, rfl⟩ := hfront y hy
    obtain ⟨before, after, rfl⟩ := List.append_of_mem hy
    have hsplit : p.rhs = before ++ .nonterm b :: (after ++ x :: tail) := by simp [hrhs]
    have hfollow : t ∈ G.first.firstOf (after ++ x :: tail) :=
      Family.mem_firstOf_of_front (fun z hz => hvanish z (by simp [hz])) hx
    exact exists_moves_of_vanishing wn hT hb
      (follow_closed wn hp hsplit (.inl ⟨hne, hfollow⟩)) stack input
  obtain ⟨n, hn, hrest⟩ := exists_moves_of_forall hgone (x :: (tail ++ stack))
  have hlength : front.length ≤ G.maxRhsLength := by
    have := length_le_maxRhsLength hp
    rw [hrhs, List.length_append] at this
    omega
  have hbound := Nat.mul_le_mul_right G.vanishBound hlength
  refine ⟨n + 1, by omega, .step hstep ?_⟩
  rwa [hrhs, List.append_assoc, List.cons_append]

/-- The nonterminals among some nodes are nonterminals of the grammar. -/
def InRange (G : IndexedGrammar σ) (nodes : List Node) : Prop :=
  ∀ b, Node.nonterm b ∈ nodes → b < G.nontermCount

theorem InRange.append {nodes rest : List Node} (h : G.InRange nodes) (k : G.InRange rest) :
    G.InRange (nodes ++ rest) := by
  intro b hb
  rcases List.mem_append.mp hb with hb | hb
  · exact h b hb
  · exact k b hb

/--
**A nonterminal that leads to a terminal brings it to the top.**  What is left behind on the
stack is no more than a right side for each round.
-/
theorem exists_moves_of_beginning (wn : G.WellNumbered)
    (hT : G.table? G.first (G.follow G.first) = .ok T) {a t : Nat} (hne : t ≠ epsilonId)
    (ha : a ∈ G.beginning t) (stack : List Node) (input : List Nat) :
    ∃ n ≤ G.depth * (1 + G.maxRhsLength * G.vanishBound), ∃ rest : List Node,
      rest.length ≤ G.depth * G.maxRhsLength ∧ G.InRange rest ∧
      G.ReachesIn T n ⟨.nonterm a :: stack, t :: input⟩
        ⟨.term t :: (rest ++ stack), t :: input⟩ := by
  suffices h : ∀ k a stack, a ∈ (G.beginRound t)^[k] ∅ →
      ∃ n ≤ k * (1 + G.maxRhsLength * G.vanishBound), ∃ rest : List Node,
        rest.length ≤ k * G.maxRhsLength ∧ G.InRange rest ∧
        G.ReachesIn T n ⟨.nonterm a :: stack, t :: input⟩
          ⟨.term t :: (rest ++ stack), t :: input⟩ from h G.depth a stack ha
  intro k
  induction k with
  | zero => intro a stack ha; exact absurd ha (Set.notMem_empty a)
  | succ k ih =>
      intro a stack ha
      rw [Function.iterate_succ_apply'] at ha
      obtain ⟨p, hp, rfl, front, x, tail, hrhs, hfront, hx⟩ := ha
      have htail : G.InRange tail := fun b hb => wn.nonterm_lt p hp b (by simp [hrhs, hb])
      have hlength : tail.length ≤ G.maxRhsLength := by
        have := length_le_maxRhsLength hp
        rw [hrhs, List.length_append, List.length_cons] at this
        omega
      rw [Nat.succ_mul, Nat.succ_mul]
      rcases hx with rfl | ⟨b, hb, rfl⟩
      · have hlead : t ∈ G.first.firstOf (.term t :: tail) :=
          (Family.mem_firstOf_term (wn.term_lt p hp t (by simp [hrhs]))).mpr rfl
        obtain ⟨n, hn, hmoves⟩ := exists_moves_of_front wn hT hp hne hrhs hfront hlead stack input
        exact ⟨n, by omega, tail, by omega, htail, hmoves⟩
      · have hlead : t ∈ G.first.firstOf (.nonterm b :: tail) :=
          Family.mem_firstOf_nonterm.mpr
            (.inl ⟨hne, (mem_first_iff wn hne).mpr (iterate_beginRound_subset wn t k hb)⟩)
        obtain ⟨n, hn, hmoves⟩ := exists_moves_of_front wn hT hp hne hrhs hfront hlead stack input
        obtain ⟨m, hm, rest, hrest, hrange, htop⟩ := ih b (tail ++ stack) hb
        refine ⟨n + m, by omega, rest ++ tail, ?_, hrange.append htail, ?_⟩
        · rw [List.length_append]
          omega
        · rw [List.append_assoc]
          exact hmoves.trans htop

/-! ### Enough moves -/

/--
A number of moves after which the automaton has halted: every node of the stack may have to
vanish, and every terminal of the input may be led to and leave further nodes behind.
-/
def moveBound (G : IndexedGrammar σ) (stackLength inputLength : Nat) : Nat :=
  stackLength * G.vanishBound +
    inputLength * (G.depth * (1 + G.maxRhsLength * G.vanishBound) + 1 +
      G.depth * G.maxRhsLength * G.vanishBound) + 1

/-- Reading a terminal pays for the moves that led to it and for what they left behind. -/
theorem moveBound_of_read {n restLength : Nat} (stackLength inputLength : Nat)
    (hn : n ≤ G.depth * (1 + G.maxRhsLength * G.vanishBound))
    (hrest : restLength ≤ G.depth * G.maxRhsLength) :
    n + 1 + G.moveBound (restLength + stackLength) inputLength
      ≤ G.moveBound (stackLength + 1) (inputLength + 1) := by
  have := Nat.mul_le_mul_right G.vanishBound hrest
  unfold moveBound
  rw [Nat.add_mul, Nat.succ_mul, Nat.succ_mul]
  omega

/-- A node that vanishes pays for its own moves. -/
theorem moveBound_of_vanish {n stackLength inputLength : Nat} (hn : n ≤ G.vanishBound) :
    n + G.moveBound stackLength inputLength ≤ G.moveBound (stackLength + 1) inputLength := by
  unfold moveBound
  rw [Nat.succ_mul]
  omega

/-- The fuel the automaton is started with is as much as it can need. -/
theorem moveBound_le_stepLimit (inputLength : Nat) :
    G.moveBound 2 inputLength ≤ G.stepLimit inputLength := by
  set W := (G.maxRhsLength + 2) ^ (G.nontermCount + 3) with hW
  have hvanish : G.vanishBound ≤ (G.maxRhsLength + 2) ^ (G.nontermCount + 1) :=
    Nat.pow_le_pow_left (Nat.le_succ _) _
  have hside : 2 * (G.maxRhsLength * G.vanishBound) ≤ W := by
    calc 2 * (G.maxRhsLength * G.vanishBound)
        = (2 * G.maxRhsLength) * G.vanishBound := by ring
      _ ≤ (G.maxRhsLength + 2) ^ 2 * (G.maxRhsLength + 2) ^ (G.nontermCount + 1) :=
          Nat.mul_le_mul (by nlinarith) hvanish
      _ = W := by rw [hW, ← Nat.pow_add, Nat.add_comm 2]
  have hsmall : G.vanishBound ≤ W :=
    hvanish.trans (Nat.pow_le_pow_right (by omega) (by omega))
  have hcount : G.nontermCount + 3 < W :=
    Nat.lt_pow_self (by omega)
  have hread : G.depth * (1 + G.maxRhsLength * G.vanishBound) + 1 +
      G.depth * G.maxRhsLength * G.vanishBound ≤ (G.nontermCount + 2) * W := by
    calc G.depth * (1 + G.maxRhsLength * G.vanishBound) + 1 +
          G.depth * G.maxRhsLength * G.vanishBound
        = G.depth + 1 + G.depth * (2 * (G.maxRhsLength * G.vanishBound)) := by ring
      _ ≤ W + (G.nontermCount + 1) * W := by
          refine Nat.add_le_add ?_ (Nat.mul_le_mul_left _ hside)
          unfold depth
          omega
      _ = (G.nontermCount + 2) * W := by ring
  have hstack : 2 * G.vanishBound + 1 ≤ 3 * ((G.nontermCount + 2) * W) := by nlinarith
  calc G.moveBound 2 inputLength
      ≤ 2 * G.vanishBound + inputLength * ((G.nontermCount + 2) * W) + 1 :=
        Nat.succ_le_succ (Nat.add_le_add_left (Nat.mul_le_mul_left _ hread) _)
    _ ≤ 3 * ((G.nontermCount + 2) * W) + inputLength * ((G.nontermCount + 2) * W) := by omega
    _ = G.stepLimit inputLength := by
        show _ = (inputLength + 3) * (G.nontermCount + 2) * W
        ring

/-- The next move reads a terminal that is on top and comes next, unless it is the end mark. -/
theorem reachesIn_of_read {t : Nat} (ht : t ≠ endId) (stack : List Node) (input : List Nat) :
    G.ReachesIn T 1 ⟨.term t :: stack, t :: input⟩ ⟨stack, input⟩ :=
  .step (by simp [step, ht]) (.refl _)

theorem run_of_accept {c : Config} (h : G.step T c = .accept) (fuel : Nat) :
    G.run T (fuel + 1) c = some true := by
  rw [run, h]

theorem run_of_reject {c : Config} (h : G.step T c = .reject) (fuel : Nat) :
    G.run T (fuel + 1) c = some false := by
  rw [run, h]

/-- Once a terminal was led to, the automaton halts if it does so on all shorter inputs. -/
theorem exists_run_of_led {t : Nat} {input : List Nat}
    (ih : ∀ {stack : List Node}, G.InRange stack →
      ∃ b, G.run T (G.moveBound stack.length input.length) ⟨stack, input⟩ = some b)
    {n : Nat} {rest stack : List Node} (hrange : G.InRange rest) (hstack : G.InRange stack)
    (hn : n ≤ G.depth * (1 + G.maxRhsLength * G.vanishBound))
    (hrest : rest.length ≤ G.depth * G.maxRhsLength) {c : Config}
    (hmoves : G.ReachesIn T n c ⟨.term t :: (rest ++ stack), t :: input⟩) :
    ∃ b, G.run T (G.moveBound (stack.length + 1) (input.length + 1)) c = some b := by
  have hfuel := moveBound_of_read stack.length input.length hn hrest
  by_cases hend : t = endId
  · have haccept : G.run T 1 ⟨.term t :: (rest ++ stack), t :: input⟩ = some true :=
      run_of_accept (by simp [step, hend]) 0
    exact ⟨true, run_mono (by omega) ((run_of_reachesIn hmoves _).trans haccept)⟩
  · obtain ⟨b, hb⟩ := ih (hrange.append hstack)
    rw [List.length_append] at hb
    have hall := hmoves.trans (reachesIn_of_read hend (rest ++ stack) input)
    exact ⟨b, run_mono hfuel ((run_of_reachesIn hall _).trans hb)⟩

/-- **The automaton halts** on every stack of nodes and every input of terminals of the grammar. -/
theorem exists_run_eq_some (wn : G.WellNumbered)
    (hT : G.table? G.first (G.follow G.first) = .ok T) {input : List Nat}
    (hinput : ∀ i ∈ input, i < G.termCount) {stack : List Node} (hstack : G.InRange stack) :
    ∃ b, G.run T (G.moveBound stack.length input.length) ⟨stack, input⟩ = some b := by
  -- On the input, and for one input on the stack: what is read makes room for new nodes.
  induction input generalizing stack with
  | nil =>
      refine ⟨false, run_of_reject ?_ _⟩
      cases stack with
      | nil => rfl
      | cons x stack => cases x <;> rfl
  | cons t input ihInput =>
      obtain ⟨ht, hinput'⟩ := List.forall_mem_cons.mp hinput
      induction stack with
      | nil => exact ⟨false, rfl⟩
      | cons x stack ihStack =>
          have hstack' : G.InRange stack := fun b hb => hstack b (List.mem_cons_of_mem x hb)
          cases x with
          | term u =>
              by_cases hut : u = t
              · subst hut
                have hnone : G.InRange [] := by
                  intro b hb
                  simp at hb
                exact exists_run_of_led (ihInput hinput') hnone hstack' (Nat.zero_le _)
                  (Nat.zero_le _) (.refl _)
              · exact ⟨false, run_of_reject (by simp [step, hut]) _⟩
          | nonterm a =>
              have ha : a < G.nontermCount := hstack a List.mem_cons_self
              rcases step_nonterm wn hT ha ht stack input with ⟨p, hp, rfl, hpred⟩ | hreject
              · rcases Production.mem_predictedOn.mp hpred with ⟨hne, hbegin⟩ | ⟨hempty, hfollow⟩
                · have hlead := (mem_first_iff wn hne).mp (first_closed wn hp hbegin)
                  obtain ⟨n, hn, rest, hrest, hrange, hmoves⟩ :=
                    exists_moves_of_beginning wn hT hne hlead stack input
                  exact exists_run_of_led (ihInput hinput') hrange hstack' hn hrest hmoves
                · have hgone := (epsilon_mem_first_iff wn).mp (first_closed wn hp hempty)
                  obtain ⟨n, hn, hmoves⟩ :=
                    exists_moves_of_vanishing wn hT hgone hfollow stack input
                  obtain ⟨b, hb⟩ := ihStack hstack'
                  exact ⟨b, run_mono (moveBound_of_vanish hn)
                    ((run_of_reachesIn hmoves _).trans hb)⟩
              · exact ⟨false, run_of_reject hreject _⟩

/-- **The fuel the automaton is started with suffices.** -/
theorem exists_run_stepLimit (wn : G.WellNumbered)
    (hT : G.table? G.first (G.follow G.first) = .ok T) {input : List Nat}
    (hinput : ∀ i ∈ input, i < G.termCount) :
    ∃ b, G.run T (G.stepLimit input.length) (G.startConfig input) = some b := by
  have hstack : G.InRange [.nonterm G.start, .term endId] := by
    intro b hb
    obtain rfl : b = G.start := by simpa using hb
    exact wn.start_lt
  obtain ⟨b, hb⟩ := exists_run_eq_some wn hT hinput hstack
  exact ⟨b, run_mono (moveBound_le_stepLimit _) hb⟩

/-- With enough fuel the automaton accepts what it accepts with some fuel. -/
theorem accepts_iff_exists_run (wn : G.WellNumbered)
    (hT : G.table? G.first (G.follow G.first) = .ok T) {input : List Nat}
    (hinput : ∀ i ∈ input, i < G.termCount) :
    G.accepts T input = true ↔ ∃ n, G.run T n (G.startConfig input) = some true := by
  obtain ⟨b, hb⟩ := exists_run_stepLimit wn hT hinput
  rw [accepts, hb, Option.getD_some]
  constructor
  · intro h
    subst h
    exact ⟨_, hb⟩
  · intro h
    obtain ⟨n, hn⟩ := h
    have hleft := run_mono (Nat.le_max_left _ n) hb
    rw [run_mono (Nat.le_max_right _ n) hn] at hleft
    exact (Option.some.inj hleft).symm

end IndexedGrammar

/-! ### Verdicts -/

namespace Recognizer

variable {σ : Type} [DecidableEq σ] {A : Alphabet σ} (r : Recognizer A)

theorem inputId?_eq_some_iff (hA : A.MarkersTerminal) {t : Token σ} {i : Nat} :
    r.inputId? t = some i ↔ t.symbol ∈ r.grammar.terms ∧ r.grammar.terms.idxOf t.symbol = i := by
  unfold inputId?
  split
  · rw [IndexedGrammar.termId?, r.indexed_eq]
    exact idxOf?_eq_some_iff_mem
  · rename_i ht
    constructor
    · exact fun h => nomatch h
    · exact fun h => absurd (Grammar.isTerminal_of_mem_terms hA h.1) ht

/-- **Tokens have numbers if the grammar has their symbols.** -/
theorem mapM_inputId?_eq_some_iff (hA : A.MarkersTerminal) {tokens : List (Token σ)}
    {ids : List Nat} : tokens.mapM r.inputId? = some ids ↔
      (∀ t ∈ tokens, t.symbol ∈ r.grammar.terms) ∧
        ids = tokens.map fun t => r.grammar.terms.idxOf t.symbol := by
  induction tokens generalizing ids with
  | nil => simp [eq_comm]
  | cons t tokens ih =>
      rw [List.mapM_cons]
      simp only [Option.bind_eq_bind, Option.bind_eq_some_iff, inputId?_eq_some_iff r hA, ih,
        List.forall_mem_cons, List.map_cons, Option.pure_def, Option.some.injEq]
      constructor
      · intro h
        obtain ⟨i, ⟨ht, rfl⟩, rest, ⟨hrest, rfl⟩, rfl⟩ := h
        exact ⟨⟨ht, hrest⟩, rfl⟩
      · intro h
        obtain ⟨⟨ht, hrest⟩, rfl⟩ := h
        exact ⟨_, ⟨ht, rfl⟩, _, ⟨hrest, rfl⟩, rfl⟩

/-- An input and the end mark behind it are terminals of the grammar. -/
theorem lt_of_mem_terminated (hA : A.MarkersTerminal) {tokens : List (Token σ)} {ids : List Nat}
    (hids : tokens.mapM r.inputId? = some ids) : ∀ i ∈ terminated ids, i < r.indexed.termCount := by
  obtain ⟨hall, rfl⟩ := (r.mapM_inputId?_eq_some_iff hA).mp hids
  have hlt : ∀ i ∈ tokens.map fun t => r.grammar.terms.idxOf t.symbol, i < r.indexed.termCount := by
    rw [r.indexed_eq]
    intro i hi
    obtain ⟨t, ht, rfl⟩ := List.mem_map.mp hi
    exact List.idxOf_lt_length_of_mem (hall t ht)
  intro i hi
  unfold terminated at hi
  split at hi
  · exact hlt i hi
  · rcases List.mem_append.mp hi with hi | hi
    · exact hlt i hi
    · rw [List.mem_singleton.mp hi, r.indexed_eq]
      exact (Grammar.indexed_wellNumbered hA).endId_lt

/-- **What a recogniser accepts**, as far as the automaton is not concerned. -/
theorem isAccepted_validate_iff (tokens : List (Token σ)) :
    (r.validate tokens).isAccepted = true ↔ tokens = [] ∨
      (∀ t ∈ tokens, A.isUnknown t.symbol = false) ∧
      ∃ ids, tokens.mapM r.inputId? = some ids ∧
        r.indexed.accepts r.table (terminated ids) = true := by
  cases tokens with
  | nil => simp [validate, Verdict.isAccepted]
  | cons t tokens =>
      unfold validate
      rw [if_neg (by simp)]
      split
      · rename_i u hu
        have hunknown := List.find?_some hu
        have hmem := List.mem_of_find?_eq_some hu
        simp only [Verdict.isAccepted, Bool.false_eq_true, false_iff, reduceCtorEq, false_or]
        intro h
        obtain ⟨hknown, -⟩ := h
        simp [hknown u hmem] at hunknown
      · rename_i hu
        have hknown : ∀ t' ∈ t :: tokens, A.isUnknown t'.symbol = false := fun t' ht' =>
          Bool.eq_false_iff.mpr (List.find?_eq_none.mp hu t' ht')
        split
        · rename_i hids
          simp [Verdict.isAccepted, hids]
        · rename_i ids hids
          have haccept : (if r.indexed.accepts r.table (terminated ids) = true then
              Verdict.accepted else .rejected none).isAccepted
                = r.indexed.accepts r.table (terminated ids) := by
            split
            · rename_i h; exact h.symm
            · rename_i h; exact (Bool.eq_false_iff.mpr h).symm
          simp only [haccept, hids, Option.some.injEq, exists_eq_left', reduceCtorEq, false_or]
          exact ⟨fun h => ⟨hknown, h⟩, And.right⟩

/-- **The first unknown token rejects a list**, and the explanation shows its text. -/
theorem validate_of_unknown {tokens : List (Token σ)} {t : Token σ}
    (h : tokens.find? (fun t => A.isUnknown t.symbol) = some t) :
    r.validate tokens = .rejected (some ("Unknown token '" ++ t.lexeme.getD "" ++ "'")) := by
  have hne : tokens ≠ [] := List.ne_nil_of_mem (List.mem_of_find?_eq_some h)
  unfold validate
  rw [if_neg (by simpa using hne), h]

/-- Without an unknown token there is nothing to explain. -/
theorem validate_of_known {tokens : List (Token σ)}
    (h : ∀ t ∈ tokens, A.isUnknown t.symbol = false) :
    r.validate tokens = .accepted ∨ r.validate tokens = .rejected none := by
  have hnone : tokens.find? (fun t => A.isUnknown t.symbol) = none :=
    List.find?_eq_none.mpr fun t ht => Bool.eq_false_iff.mp (h t ht)
  unfold validate
  split
  · exact .inl rfl
  · rw [hnone]
    dsimp only
    split
    · exact .inr rfl
    · split
      · exact .inl rfl
      · exact .inr rfl

/-- No token is unknown in a list that is accepted. -/
theorem isUnknown_eq_false_of_isAccepted {tokens : List (Token σ)}
    (h : (r.validate tokens).isAccepted = true) :
    ∀ t ∈ tokens, A.isUnknown t.symbol = false := by
  intro t ht
  rcases (r.isAccepted_validate_iff tokens).mp h with hnil | ⟨hknown, -⟩
  · rw [hnil] at ht
    exact absurd ht List.not_mem_nil
  · exact hknown t ht

/--
**A recogniser reaches a verdict on every list of tokens.**  The fuel it starts the automaton
with suffices, the answer of the automaton is the verdict, and no configuration on the way
leads to moves without end.
-/
theorem validate_halts (hA : A.MarkersTerminal) {g : Grammar A} {r : Recognizer A}
    (h : ofGrammar? g = .ok r) (tokens : List (Token σ)) (ids : List Nat)
    (hids : tokens.mapM r.inputId? = some ids) :
    (∃ b, r.indexed.run r.table (r.indexed.stepLimit (terminated ids).length)
        (r.indexed.startConfig (terminated ids)) = some b ∧
      (tokens ≠ [] → (∀ t ∈ tokens, A.isUnknown t.symbol = false) →
        (r.validate tokens).isAccepted = b)) ∧
    ∀ c, r.indexed.Reaches r.table (r.indexed.startConfig (terminated ids)) c →
      ¬ ∃ moves : Nat → Config, moves 0 = c ∧
        ∀ k, r.indexed.step r.table (moves k) = .goOn (moves (k + 1)) := by
  have hlt := r.lt_of_mem_terminated hA hids
  have hverdict := r.isAccepted_validate_iff tokens
  obtain ⟨T, hT, rfl⟩ := ofGrammar?_eq_ok h
  obtain ⟨b, hb⟩ := IndexedGrammar.exists_run_stepLimit (Grammar.indexed_wellNumbered hA) hT hlt
  refine ⟨⟨b, hb, ?_⟩, ?_⟩
  · intro hne hknown
    have haccepts : g.indexed.accepts T (terminated ids) = b := by
      rw [IndexedGrammar.accepts, hb, Option.getD_some]
    rw [Bool.eq_iff_iff, hverdict, ← haccepts]
    constructor
    · rintro (hnil | ⟨-, ids', hids', h⟩)
      · exact absurd hnil hne
      · rwa [Option.some.inj (hids.symm.trans hids')]
    · exact fun h => .inr ⟨hknown, ids, hids, h⟩
  · intro c hc
    obtain ⟨n, hn⟩ := IndexedGrammar.exists_run_of_reaches hc hb
    exact IndexedGrammar.not_exists_moves_of_run hn

/-- A grammar with a nonterminal that derives nothing but itself. -/
def cyclicGrammar : Grammar Alphabet.letters :=
  letterGrammar 'S' [('S', ['b', 'B']), ('S', ['a']), ('B', ['B'])]

/-- The run on `b`, on which the cycle is entered, ends as well. -/
theorem cyclicGrammar_halts : ∃ r, ofGrammar? cyclicGrammar = .ok r ∧
    [Token.synthetic 'b'].mapM r.inputId? = some [2] ∧
    (∃ b, r.indexed.run r.table (r.indexed.stepLimit 2) (r.indexed.startConfig [2, endId])
      = some b ∧ (r.validate [.synthetic 'b']).isAccepted = b) ∧
    ∀ c, r.indexed.Reaches r.table (r.indexed.startConfig [2, endId]) c →
      ¬ ∃ moves : Nat → Config, moves 0 = c ∧
        ∀ k, r.indexed.step r.table (moves k) = .goOn (moves (k + 1)) := by
  have hok : ((ofGrammar? cyclicGrammar).toOption.bind fun r =>
      [Token.synthetic 'b'].mapM r.inputId?) = some [2] := by decide +kernel
  cases h : ofGrammar? cyclicGrammar with
  | error c => simp [h, Except.toOption] at hok
  | ok r =>
      have hids : [Token.synthetic 'b'].mapM r.inputId? = some [2] := by
        rw [h] at hok
        exact hok
      obtain ⟨⟨b, hb, hverdict⟩, hend⟩ := validate_halts (by decide) h _ _ hids
      exact ⟨r, rfl, hids, ⟨b, hb, hverdict (by simp) (by decide)⟩, hend⟩

end Recognizer

end BusinessHours

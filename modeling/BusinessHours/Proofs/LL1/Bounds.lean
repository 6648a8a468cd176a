/-
The automaton stays inside its bounds.

A move looks up to four things: the top of the stack, the terminal that comes next, a cell of the
table, and the production that the cell names.  `step` rejects where one of them is missing, as it
does where nothing fits, so a verdict does not show which of the two it was.  `checkedStep` keeps
them apart.

What is shown here is that nothing is ever missing.  The end mark at the bottom can only be popped
by an end mark of the input, and there the automaton accepts, so the stack is never empty.  For
the same reason no end mark is read, and one stands at the end of every input, so the input is
never read to its end.  This much is in `Pending`.  The numbers on the stack come from productions,
which name symbols of the grammar only, so what remains is that a move brings in no others.
-/
import BusinessHours.Proofs.LL1.Acceptance

namespace BusinessHours

namespace IndexedGrammar

variable {σ : Type} (G : IndexedGrammar σ) (T : Table G.termCount G.nontermCount)

/--
One move of the automaton, or `none` if something it looks up is missing: the stack is empty, the
input is at its end, the cell lies outside the table, or there is no such production.
-/
def checkedStep : Config → Option Move
  | ⟨.term t :: stack, next :: input⟩ =>
    some <| if t = next then
        if t = endId then .accept else .goOn ⟨stack, input⟩
      else .reject
  | ⟨.nonterm a :: stack, next :: input⟩ =>
    match T.cells[Table.cellAt G.termCount a next]? with
    | none => none
    | some none => some .reject
    | some (some p) => (G.rhsAt? p).map fun rhs => .goOn ⟨rhs ++ stack, next :: input⟩
  | ⟨[], _⟩ | ⟨_, []⟩ => none

/-- Nothing that the automaton looks up is missing, now or by the next move. -/
structure InBounds (input : List Nat) (c : Config) : Prop where
  /-- The end mark that was put on the stack first is still below all else. -/
  bottom : ∃ above, c.stack = above ++ [.term endId]
  /-- The place in the input that is read next is a place of the input. -/
  position : ∃ pos, pos < input.length ∧ c.input = input.drop pos
  /-- A terminal on the stack is a terminal of the grammar. -/
  term_lt : ∀ t, Node.term t ∈ c.stack → t < G.termCount
  /-- A nonterminal on the stack is a nonterminal of the grammar. -/
  nonterm_lt : ∀ a, Node.nonterm a ∈ c.stack → a < G.nontermCount
  /-- The cell of a nonterminal on the stack and a terminal to come is a cell of the table. -/
  cell_lt : ∀ a, Node.nonterm a ∈ c.stack → ∀ t ∈ c.input,
    Table.cellAt G.termCount a t < T.cells.toArray.size
  /-- The next move finds all it looks up. -/
  answered : G.checkedStep T c = some (G.step T c)

variable {G T}

/-! ### Numbers on the stack -/

/-- Every node on the stack is one of the grammar. -/
def Stacked (G : IndexedGrammar σ) (stack : List Node) : Prop :=
  (∀ t, Node.term t ∈ stack → t < G.termCount) ∧ G.InRange stack

theorem stacked_startConfig (wn : G.WellNumbered) (input : List Nat) :
    G.Stacked (G.startConfig input).stack := by
  show G.Stacked [.nonterm G.start, .term endId]
  refine ⟨fun t ht => ?_, fun a ha => ?_⟩
  · obtain rfl : t = endId := by simpa using ht
    exact wn.endId_lt
  · obtain rfl : a = G.start := by simpa using ha
    exact wn.start_lt

theorem Stacked.tail {x : Node} {stack : List Node} (h : G.Stacked (x :: stack)) :
    G.Stacked stack :=
  ⟨fun t ht => h.1 t (List.mem_cons_of_mem x ht), fun a ha => h.2 a (List.mem_cons_of_mem x ha)⟩

/-- A move leaves nodes of the grammar on the stack. -/
theorem stacked_of_step (wn : G.WellNumbered) {c d : Config} (hc : G.Stacked c.stack)
    (h : G.step T c = .goOn d) : G.Stacked d.stack := by
  rcases step_eq_goOn h with ⟨t, stack, rest, -, rfl, rfl⟩ | ⟨a, t, stack, rest, p, hp, rfl, rfl⟩
  · exact hc.tail
  · refine ⟨fun s hs => ?_, InRange.append (wn.nonterm_lt p hp) hc.tail.2⟩
    rcases List.mem_append.mp hs with hs | hs
    · exact wn.term_lt p hp s hs
    · exact hc.tail.1 s hs

/-- **Whatever the automaton reaches has nodes of the grammar on its stack.** -/
theorem stacked_of_reaches (wn : G.WellNumbered) {c d : Config} (hc : G.Stacked c.stack)
    (h : G.Reaches T c d) : G.Stacked d.stack :=
  h.preserves (P := fun c => G.Stacked c.stack) (stacked_of_step wn) hc

/-! ### What a move looks up -/

/-- An input that ends with an end mark has not been read to its end while none has been read. -/
theorem Pending.position {input : List Nat} (hlast : input.getLast? = some endId) {c : Config}
    (hc : G.Pending input c) : ∃ pos, pos < input.length ∧ c.input = input.drop pos := by
  obtain ⟨front, hinput, hfront⟩ := hc.read
  have hrest : c.input ≠ [] := by
    intro hnil
    rw [hnil, List.append_nil] at hinput
    subst hinput
    exact hfront (List.mem_of_getLast? hlast)
  have hpos : 0 < c.input.length := List.length_pos_iff.mpr hrest
  refine ⟨front.length, ?_, ?_⟩
  · rw [hinput, List.length_append]
    omega
  · rw [hinput, List.drop_left]

/-- **With nodes of the grammar on top of the stack and of the input, nothing is missing.** -/
theorem checkedStep_eq_step (wn : G.WellNumbered)
    (hT : G.table? G.first (G.follow G.first) = .ok T) {x : Node} {stack : List Node} {t : Nat}
    {input : List Nat} (hstack : G.Stacked (x :: stack)) (ht : t < G.termCount) :
    G.checkedStep T ⟨x :: stack, t :: input⟩ = some (G.step T ⟨x :: stack, t :: input⟩) := by
  cases x with
  | term s => rfl
  | nonterm a =>
      have ha : a < G.nontermCount := hstack.2 a List.mem_cons_self
      have hcell : Table.cellAt G.termCount a t < G.nontermCount * G.termCount :=
        Table.cellAt_lt ha ht
      have hentry : T.cells[Table.cellAt G.termCount a t]? = some (T.entry? a t) := by
        rw [Table.entry?, Vector.getElem?_eq_getElem hcell]
        rfl
      rw [checkedStep, hentry, step, predicted?]
      cases hp : T.entry? a t with
      | none => rfl
      | some p =>
          -- A cell is only ever filled with the place of a production.
          obtain ⟨q, hq, -⟩ := (entry?_eq_some_iff wn hT ha ht).mp hp
          simp only [Option.bind_some, getElem?_rhsAt hq, Option.map_some]

/-- **The automaton is in bounds wherever it gets**, on every input that ends with an end mark. -/
theorem inBounds_of_reaches (wn : G.WellNumbered)
    (hT : G.table? G.first (G.follow G.first) = .ok T) {input : List Nat}
    (hinput : ∀ t ∈ input, t < G.termCount) (hlast : input.getLast? = some endId) {c : Config}
    (h : G.Reaches T (G.startConfig input) c) : G.InBounds T input c := by
  have hpending := pending_of_reaches (G.pending_startConfig input) h
  have hstacked := stacked_of_reaches wn (stacked_startConfig wn input) h
  obtain ⟨above, hstack, -⟩ := hpending.bottom
  obtain ⟨pos, hpos, hrest⟩ := hpending.position hlast
  have hlt : ∀ t ∈ c.input, t < G.termCount := fun t ht =>
    hinput t (List.mem_of_mem_drop (hrest ▸ ht))
  refine ⟨⟨above, hstack⟩, ⟨pos, hpos, hrest⟩, hstacked.1, hstacked.2, ?_, ?_⟩
  · intro a ha t ht
    rw [Vector.size_toArray]
    exact Table.cellAt_lt (hstacked.2 a ha) (hlt t ht)
  · obtain ⟨stack, rest⟩ := c
    cases stack with
    | nil => simp at hstack
    | cons x stack =>
        cases rest with
        | nil =>
            have hlength := congrArg List.length hrest
            rw [List.length_nil, List.length_drop] at hlength
            omega
        | cons t rest => exact checkedStep_eq_step wn hT hstacked (hlt t List.mem_cons_self)

end IndexedGrammar

namespace Recognizer

variable {σ : Type} [DecidableEq σ] {A : Alphabet σ} {g : Grammar A}

theorem getLast?_terminated (ids : List Nat) : (terminated ids).getLast? = some endId := by
  unfold terminated
  split
  · assumption
  · exact List.getLast?_concat

/--
**Nothing is missing while tokens are read.**  Wherever the automaton gets on some tokens, the
end mark it began with is at the bottom, the input goes on, and the cell and the production it
looks up next exist.  End marks may stand in right sides and anywhere in the input.
-/
theorem reached_inBounds (hA : A.MarkersTerminal) {r : Recognizer A} (h : ofGrammar? g = .ok r)
    {tokens : List (Token σ)} {ids : List Nat} (hids : tokens.mapM r.inputId? = some ids)
    {c : Config}
    (hreach : r.indexed.Reaches r.table (r.indexed.startConfig (terminated ids)) c) :
    r.indexed.InBounds r.table (terminated ids) c := by
  have hlt := r.lt_of_mem_terminated hA hids
  obtain ⟨T, hT, rfl⟩ := ofGrammar?_eq_ok h
  exact IndexedGrammar.inBounds_of_reaches (g.indexed_wellNumbered hA) hT hlt
    (getLast?_terminated ids) hreach

/-- An end mark is met on the stack while another token stands behind it in the input. -/
theorem markedGrammar_inBounds : ofGrammar? markedGrammar = .ok markedRecognizer ∧
    ("a$b".toList.map Token.synthetic).mapM markedRecognizer.inputId? = some [2, endId, 3] ∧
    markedRecognizer.indexed.InBounds markedRecognizer.table [2, endId, 3, endId]
      ⟨[.term endId, .nonterm 1, .term endId], [endId, 3, endId]⟩ := by
  have hr : ofGrammar? markedGrammar = .ok markedRecognizer :=
    ofGrammar?_eq_get markedGrammar_isLL1
  have hids : ("a$b".toList.map Token.synthetic).mapM markedRecognizer.inputId?
      = some [2, endId, 3] := by decide +kernel
  have hexpand : markedRecognizer.indexed.step markedRecognizer.table
      (markedRecognizer.indexed.startConfig [2, endId, 3, endId])
        = .goOn ⟨[.term 2, .term endId, .nonterm 1, .term endId], [2, endId, 3, endId]⟩ := by
    decide +kernel
  exact ⟨hr, hids, reached_inBounds (by decide) hr hids (.step hexpand (.step rfl (.refl _)))⟩

end Recognizer

end BusinessHours

/-
What has been read when an input is accepted.

The automaton reads its input from the front and accepts as soon as an end mark meets an end
mark.  Before that it reads no end mark, so the one it accepts on is the first of the input:
everything in front of it has been read, and nothing behind it has.  On the stack the end mark
it began with is still at the bottom, below whatever is left of the form.

So all of an input has been read if it holds no end mark but the one behind it, and all of the
form if no rule brings an end mark into it.  Neither is asked of inputs and grammars, and where
an end mark stands elsewhere the automaton accepts before it is done.
-/
import BusinessHours.Proofs.LL1.Recognition

namespace BusinessHours

namespace IndexedGrammar

variable {σ : Type} {G : IndexedGrammar σ} {T : Table G.termCount G.nontermCount}

/-- What every configuration has of the input that the automaton was started with. -/
structure Pending (G : IndexedGrammar σ) (input : List Nat) (c : Config) : Prop where
  /-- The rest of the input stands behind a front without end marks. -/
  read : ∃ front, input = front ++ c.input ∧ endId ∉ front
  /-- The end mark at the bottom is the only one, unless rules bring in others. -/
  bottom : ∃ form, c.stack = form ++ [.term endId] ∧
    ((∀ p ∈ G.prods, Node.term endId ∉ p.rhs) → Node.term endId ∉ form)

theorem pending_startConfig (G : IndexedGrammar σ) (input : List Nat) :
    G.Pending input (G.startConfig input) where
  read := ⟨[], rfl, List.not_mem_nil⟩
  bottom := ⟨[.nonterm G.start], rfl, by simp⟩

/-- What stands on top and is no end mark stands above the one at the bottom. -/
theorem exists_form_below {x : Node} {stack form : List Node} (hx : x ≠ .term endId)
    (h : x :: stack = form ++ [.term endId]) :
    ∃ below, form = x :: below ∧ stack = below ++ [.term endId] := by
  rcases List.cons_eq_append_iff.mp h with ⟨-, htop⟩ | hbelow
  · exact absurd (List.cons.inj htop).1.symm hx
  · exact hbelow

/-- A move keeps the end mark at the bottom, and reads no end mark. -/
theorem pending_of_step {input : List Nat} {c d : Config} (hc : G.Pending input c)
    (h : G.step T c = .goOn d) : G.Pending input d := by
  obtain ⟨⟨front, hinput, hfront⟩, form, hstack, hform⟩ := hc
  rcases step_eq_goOn h with ⟨t, stack, rest, ht, rfl, rfl⟩ | ⟨a, t, stack, rest, p, hp, rfl, rfl⟩
  · have htop : Node.term t ≠ .term endId := fun hc => ht (Node.term.inj hc)
    obtain ⟨below, rfl, hstack'⟩ := exists_form_below htop hstack
    refine ⟨⟨front ++ [t], by simpa using hinput, ?_⟩, below, hstack', fun hnone hmem => ?_⟩
    · rw [List.mem_append, List.mem_singleton, not_or]
      exact ⟨hfront, Ne.symm ht⟩
    · exact hform hnone (List.mem_cons_of_mem _ hmem)
  · have htop : Node.nonterm a ≠ .term endId := by simp
    obtain ⟨below, rfl, hstack'⟩ := exists_form_below htop hstack
    refine ⟨⟨front, hinput, hfront⟩, p.rhs ++ below, ?_, fun hnone hmem => ?_⟩
    · show p.rhs ++ stack = p.rhs ++ below ++ [.term endId]
      rw [hstack', List.append_assoc]
    · rcases List.mem_append.mp hmem with hmem | hmem
      · exact hnone p hp hmem
      · exact hform hnone (List.mem_cons_of_mem _ hmem)

/-- **Whatever the automaton reaches is still pending.** -/
theorem pending_of_reaches {input : List Nat} {c d : Config} (hc : G.Pending input c)
    (h : G.Reaches T c d) : G.Pending input d :=
  h.preserves pending_of_step hc

/-- **The automaton accepts on the first end mark of its input.** -/
theorem exists_accepting_of_accepts {input : List Nat} (h : G.accepts T input = true) :
    ∃ front stack rest, input = front ++ endId :: rest ∧ endId ∉ front ∧
      G.Reaches T (G.startConfig input) ⟨.term endId :: stack, endId :: rest⟩ ∧
      ((∀ p ∈ G.prods, Node.term endId ∉ p.rhs) → stack = []) := by
  have hrun : G.run T (G.stepLimit input.length) (G.startConfig input) = some true := by
    unfold accepts at h
    cases hrun : G.run T (G.stepLimit input.length) (G.startConfig input) with
    | none => simp [hrun] at h
    | some b => rw [hrun, Option.getD_some] at h; rw [h]
  obtain ⟨c, hreach, haccept⟩ := exists_run_eq_true_iff.mp ⟨_, hrun⟩
  obtain ⟨stack, rest, rfl⟩ := step_eq_accept haccept
  obtain ⟨⟨front, hinput, hfront⟩, form, hstack, hform⟩ :=
    pending_of_reaches (G.pending_startConfig input) hreach
  refine ⟨front, stack, rest, hinput, hfront, hreach, fun hnone => ?_⟩
  cases form with
  | nil => exact (List.cons.inj hstack).2
  | cons x form =>
      have htop : Node.term endId = x := (List.cons.inj hstack).1
      exact absurd (htop ▸ List.mem_cons_self) (hform hnone)

end IndexedGrammar

/-- A list that ends with `x` has nothing behind its first `x` if there is no other. -/
theorem eq_nil_of_append_cons_eq {α : Type} {x : α} {text front rest : List α} (hx : x ∉ text)
    (h : text ++ [x] = front ++ x :: rest) : rest = [] := by
  rcases List.eq_nil_or_concat' rest with rfl | ⟨rest, y, rfl⟩
  · rfl
  · rw [← List.cons_append, ← List.append_assoc] at h
    have htext := (List.append_inj' h rfl).1
    exact absurd (htext ▸ List.mem_append_right front List.mem_cons_self) hx

namespace Recognizer

variable {σ : Type} [DecidableEq σ] {A : Alphabet σ} {g : Grammar A}

theorem endMark_notMem_lessEnd_iff {text : List σ} :
    A.endMark ∉ A.lessEnd text ↔ A.endMark ∉ text.dropLast := by
  refine ⟨fun h hc => h ?_, endMark_notMem_lessEnd⟩
  unfold Alphabet.lessEnd
  split
  · exact hc
  · exact List.mem_of_mem_dropLast hc

/-- **A text ends with its first end mark if no other stands in it**, and only then. -/
theorem rest_eq_nil_iff {text : List σ} (htext : ∀ t ∈ text, t ∈ g.terms) {front rest : List Nat}
    (h : terminated (text.map g.terms.idxOf) = front ++ endId :: rest) (hfront : endId ∉ front) :
    rest = [] ↔ A.endMark ∉ text.dropLast := by
  rw [terminated_map htext, List.map_append, List.map_singleton, Grammar.idxOf_endMark] at h
  have hmark : A.endMark ∈ A.lessEnd text ↔ endId ∈ (A.lessEnd text).map g.terms.idxOf := by
    rw [List.mem_map]
    constructor
    · exact fun hm => ⟨A.endMark, hm, Grammar.idxOf_endMark⟩
    · intro hm
      obtain ⟨t, ht, hid⟩ := hm
      rw [← Grammar.idxOf_endMark (g := g)] at hid
      rwa [← (List.idxOf_inj (htext t (mem_of_mem_lessEnd ht))).mp hid]
  rw [← endMark_notMem_lessEnd_iff, hmark]
  constructor
  · intro hrest
    subst hrest
    rw [(List.append_inj' h rfl).1]
    exact hfront
  · exact fun hm => eq_nil_of_append_cons_eq hm h

/--
**What has been read when tokens are accepted.**  All tokens in front of the first end mark are,
and no other.  So every token has been read exactly if only the last one can be an end mark;
and if no right side has an end mark, nothing but the one at the bottom is left on the stack.
-/
theorem exists_accepting_config (hA : A.MarkersTerminal) {r : Recognizer A}
    (h : ofGrammar? g = .ok r) {tokens : List (Token σ)} (hne : tokens ≠ [])
    (haccept : (r.validate tokens).isAccepted = true) :
    ∃ ids front stack rest, tokens.mapM r.inputId? = some ids ∧
      terminated ids = front ++ endId :: rest ∧ endId ∉ front ∧
      r.indexed.Reaches r.table (r.indexed.startConfig (terminated ids))
        ⟨.term endId :: stack, endId :: rest⟩ ∧
      (rest = [] ↔ A.endMark ∉ (tokens.map Token.symbol).dropLast) ∧
      ((∀ q ∈ g.rules, A.endMark ∉ q.rhs) → stack = []) := by
  obtain ⟨-, ids, hids, haccepts⟩ := ((r.isAccepted_validate_iff tokens).mp haccept).resolve_left hne
  obtain ⟨hterms, hmap⟩ := (r.mapM_inputId?_eq_some_iff hA).mp hids
  obtain ⟨T, hT, rfl⟩ := ofGrammar?_eq_ok h
  obtain ⟨front, stack, rest, hsplit, hfront, hreach, hstack⟩ :=
    IndexedGrammar.exists_accepting_of_accepts haccepts
  refine ⟨ids, front, stack, rest, hids, hsplit, hfront, hreach, ?_, fun hrules => hstack ?_⟩
  · refine rest_eq_nil_iff (g := g) (fun s hs => ?_) ?_ hfront
    · obtain ⟨t, ht, rfl⟩ := List.mem_map.mp hs
      exact hterms t ht
    · rw [List.map_map]
      rw [hmap] at hsplit
      exact hsplit
  · intro p hp hmem
    obtain ⟨q, hq, rfl⟩ := Grammar.exists_rule_of_mem_prods hp
    obtain ⟨s, hs, hn⟩ := List.mem_map.mp hmem
    rw [← Grammar.node_endMark (g := g) hA, Grammar.node_of_mem_terms hA Grammar.endMark_mem_terms,
      Grammar.node_eq_term_iff hA Grammar.endMark_mem_terms] at hn
    exact hrules q hq (Rule.mem_rhs_of_mem_body (hn ▸ hs))

theorem nestedGrammar_accepting_config : ∃ r, ofGrammar? nestedGrammar = .ok r ∧
    (r.validate ("ab".toList.map .synthetic)).isAccepted = true ∧
    ∃ ids, ("ab".toList.map Token.synthetic).mapM r.inputId? = some ids ∧
      r.indexed.Reaches r.table (r.indexed.startConfig (terminated ids))
        ⟨[.term endId], [endId]⟩ := by
  have hr := ofGrammar?_eq_get nestedGrammar_isLL1
  have haccept : (((ofGrammar? nestedGrammar).toOption.get nestedGrammar_isLL1).validate
      ("ab".toList.map .synthetic)).isAccepted = true := by decide +kernel
  obtain ⟨ids, front, stack, rest, hids, -, -, hreach, hrest, hstack⟩ :=
    exists_accepting_config (by decide) hr (by decide) haccept
  obtain rfl := hrest.mpr (by decide)
  obtain rfl := hstack (by decide)
  exact ⟨_, hr, haccept, ids, hids, hreach⟩

/-- A grammar with an end mark inside a right side. -/
def markedGrammar : Grammar Alphabet.letters :=
  letterGrammar 'S' [('S', ['a', '$', 'T']), ('T', ['b'])]

theorem markedGrammar_isLL1 : (ofGrammar? markedGrammar).toOption.isSome = true := by
  decide +kernel

/-- The recogniser of that grammar. -/
def markedRecognizer : Recognizer Alphabet.letters :=
  (ofGrammar? markedGrammar).toOption.get markedGrammar_isLL1

/-- Behind an inner end mark neither the rest of the input nor the rest of the form is read. -/
theorem markedGrammar_accepts_unread : ofGrammar? markedGrammar = .ok markedRecognizer ∧
    (markedRecognizer.validate ("a$b".toList.map .synthetic)).isAccepted = true ∧
    ∃ ids, ("a$b".toList.map Token.synthetic).mapM markedRecognizer.inputId? = some ids ∧
      ∃ c, markedRecognizer.indexed.Reaches markedRecognizer.table
          (markedRecognizer.indexed.startConfig (terminated ids)) c ∧
        markedRecognizer.indexed.step markedRecognizer.table c = .accept ∧
        c.input ≠ [endId] ∧ c.stack ≠ [.term endId] := by
  have hexpand : markedRecognizer.indexed.step markedRecognizer.table
      ⟨[.nonterm 0, .term endId], [2, endId, 3, endId]⟩
        = .goOn ⟨[.term 2, .term endId, .nonterm 1, .term endId], [2, endId, 3, endId]⟩ := by
    decide +kernel
  exact ⟨ofGrammar?_eq_get markedGrammar_isLL1, by decide +kernel, [2, endId, 3],
    by decide +kernel, ⟨[.term endId, .nonterm 1, .term endId], [endId, 3, endId]⟩,
    .step hexpand (.step rfl (.refl _)), rfl, by decide, by decide⟩

end Recognizer

end BusinessHours

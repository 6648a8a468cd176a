/-
What a recogniser answers.

FIRST of a list of symbols is computed twice.  The table is filled from productions over
numbers, and whoever asks gets an answer over symbols, for any list: epsilon may stand
anywhere in it, and the grammar need not have its terminals or define its nonterminals.  Both
computations say what the list derives once epsilon is taken out of it, so a table entry can be
read off the answers to the two questions about sets.
-/
import BusinessHours.Proofs.LL1.Conflict
import BusinessHours.Proofs.LL1.Exactness
import BusinessHours.Proofs.LL1.Recognition

namespace BusinessHours

namespace Recognizer

variable {σ : Type} [DecidableEq σ] {A : Alphabet σ} {g : Grammar A} {r : Recognizer A}

/-! ### Sets of one symbol -/

/-- A nonterminal has the FIRST set that its grammar gives it. -/
theorem firstSet_of_nonterminal (h : ofGrammar? g = .ok r) {s : σ}
    (hs : A.isTerminal s = false) : r.firstSet s = g.firstSymbols s := by
  obtain ⟨T, hT, rfl⟩ := ofGrammar?_eq_ok h
  unfold firstSet
  rw [if_neg (by simp [hs])]
  dsimp only
  cases hid : g.indexed.nontermId? s with
  | some a =>
      obtain ⟨-, rfl⟩ := idxOf?_eq_some_iff_mem.mp hid
      rfl
  | none =>
      have hs' : s ∉ g.nonterms := List.idxOf?_eq_none_iff.mp hid
      refine (List.eq_nil_iff_forall_not_mem.mpr fun t ht => hs' ?_).symm
      exact Grammar.mem_nonterms_of_mem_get (Grammar.mem_firstSymbols_iff.mp ht).2

/-- A nonterminal that the grammar defines has the FOLLOW set that the grammar gives it. -/
theorem followSet?_eq_some_iff (h : ofGrammar? g = .ok r) {s : σ} {follow : List σ} :
    r.followSet? s = some follow ↔ s ∈ g.nonterms ∧ g.followSymbols s = follow := by
  obtain ⟨T, hT, rfl⟩ := ofGrammar?_eq_ok h
  unfold followSet?
  rw [Option.map_eq_some_iff]
  constructor
  · intro h
    obtain ⟨a, ha, rfl⟩ := h
    obtain ⟨hs, rfl⟩ := idxOf?_eq_some_iff_mem.mp ha
    exact ⟨hs, rfl⟩
  · intro h
    obtain ⟨hs, rfl⟩ := h
    exact ⟨_, idxOf?_eq_some_iff_mem.mpr ⟨hs, rfl⟩, rfl⟩

/-- **What the FIRST set of a symbol other than epsilon says of it.** -/
theorem mem_firstSet_iff (hA : A.MarkersTerminal) (h : ofGrammar? g = .ok r) {s t : σ}
    (hs : s ≠ A.epsilon) (ht : t ≠ A.epsilon) :
    t ∈ r.firstSet s ↔ A.isTerminal t = true ∧ ∃ v, g.Derives [s] (t :: v) := by
  cases hterm : A.isTerminal s with
  | false =>
      rw [firstSet_of_nonterminal h hterm]
      exact Grammar.mem_firstSymbols_iff_derives hA hterm ht
  | true =>
      rw [firstSet, if_pos hterm, List.mem_singleton]
      constructor
      · intro hts
        subst hts
        exact ⟨hterm, [], .refl _⟩
      · intro h
        obtain ⟨-, v, hv⟩ := h
        exact (List.cons.inj (hv.eq_of_terminals (by simpa using hterm))).1

/-- **A symbol is nullable if it is epsilon or derives the empty form.** -/
theorem isNullable_iff (hA : A.MarkersTerminal) (h : ofGrammar? g = .ok r) {s : σ} :
    r.isNullable s = true ↔ s = A.epsilon ∨ g.Derives [s] [] := by
  rw [isNullable, decide_eq_true_iff]
  cases hterm : A.isTerminal s with
  | false =>
      rw [firstSet_of_nonterminal h hterm, Grammar.epsilon_mem_firstSymbols_iff hA]
      refine ⟨.inr, fun hnull => hnull.resolve_left fun hs => ?_⟩
      rw [hs, hA.1] at hterm
      simp at hterm
  | true =>
      rw [firstSet, if_pos hterm, List.mem_singleton, eq_comm]
      refine ⟨.inl, fun hnull => hnull.resolve_right fun hd => ?_⟩
      have := hd.eq_of_terminals (by simpa using hterm)
      simp at this

/-! ### FIRST of a list of symbols -/

theorem epsilon_mem_firstOfSequence {symbols : List σ} :
    A.epsilon ∈ r.firstOfSequence symbols ↔ ∀ s ∈ symbols, r.isNullable s = true := by
  unfold firstOfSequence
  split
  · rename_i hall
    simpa using hall
  · rename_i hall
    simpa using hall

theorem mem_firstOfSequence {symbols : List σ} {t : σ} (ht : t ≠ A.epsilon) :
    t ∈ r.firstOfSequence symbols ↔ ∃ s ∈ r.leading symbols, t ∈ r.firstSet s := by
  unfold firstOfSequence
  split <;> simp [ht]

/-- What begins a list begins its first symbol, or the rest if the first symbol can vanish. -/
theorem mem_firstOfSequence_cons {s t : σ} {rest : List σ} (ht : t ≠ A.epsilon) :
    t ∈ r.firstOfSequence (s :: rest) ↔
      t ∈ r.firstSet s ∨ r.isNullable s = true ∧ t ∈ r.firstOfSequence rest := by
  rw [mem_firstOfSequence ht, mem_firstOfSequence ht, leading]
  split
  · rename_i hnull
    simp [hnull]
  · rename_i hnull
    simp [hnull]

/-- **Epsilon is in FIRST of a list exactly if the list without epsilon derives nothing.** -/
theorem epsilon_mem_firstOfSequence_iff (hA : A.MarkersTerminal) (h : ofGrammar? g = .ok r)
    {symbols : List σ} : A.epsilon ∈ r.firstOfSequence symbols ↔
      g.Derives (symbols.filter (· ≠ A.epsilon)) [] := by
  rw [epsilon_mem_firstOfSequence]
  induction symbols with
  | nil => simp [Grammar.Derives.refl]
  | cons s rest ih =>
      rw [List.forall_mem_cons, ih, isNullable_iff hA h]
      by_cases hs : s = A.epsilon
      · simp [hs]
      · rw [List.filter_cons_of_pos (by simpa using hs), or_iff_right hs]
        exact (Grammar.derives_append_nil_iff (u := [s])).symm

/-- **A terminal is in FIRST of a list exactly if the list without epsilon leads to it.** -/
theorem mem_firstOfSequence_iff (hA : A.MarkersTerminal) (h : ofGrammar? g = .ok r)
    {symbols : List σ} {t : σ} (ht : t ≠ A.epsilon) : t ∈ r.firstOfSequence symbols ↔
      A.isTerminal t = true ∧ ∃ v, g.Derives (symbols.filter (· ≠ A.epsilon)) (t :: v) := by
  induction symbols with
  | nil =>
      have hnone : ¬ ∃ v, g.Derives [] (t :: v) := by
        intro hd
        obtain ⟨v, hv⟩ := hd
        have := hv.eq_of_terminals (by simp)
        simp at this
      simpa [mem_firstOfSequence ht, leading] using fun _ => not_exists.mp hnone
  | cons s rest ih =>
      rw [mem_firstOfSequence_cons ht, ih, isNullable_iff hA h]
      by_cases hs : s = A.epsilon
      · have hfirst : t ∉ r.firstSet s := by
          rw [hs, firstSet, if_pos hA.1]
          simpa using ht
        simp [hs, hs ▸ hfirst]
      · rw [List.filter_cons_of_pos (by simpa using hs), mem_firstSet_iff hA h hs ht,
          or_iff_right hs]
        refine Iff.trans ?_
          (and_congr_right fun _ => (Grammar.exists_derives_cons_append_iff (u := [s])).symm)
        rw [and_or_left, and_left_comm]

/-! ### Entries of the table -/

/-- **An entry of the table is a rule of the nonterminal that is predicted on the terminal.** -/
theorem tableEntry?_eq_some_iff (hA : A.MarkersTerminal) (h : ofGrammar? g = .ok r) {a t : σ}
    {q : Rule A} :
    r.tableEntry? a t = some q ↔ q ∈ g.rules ∧ q.lhs = a ∧ g.Predicts q t := by
  have wn := g.indexed_wellNumbered hA
  obtain ⟨T, hT, rfl⟩ := ofGrammar?_eq_ok h
  have hentry : ∀ {p : Nat}, a ∈ g.nonterms → t ∈ g.terms →
      (T.entry? (g.nonterms.idxOf a) (g.terms.idxOf t) = some p ↔
        g.indexed.PredictedAt p (g.nonterms.idxOf a) (g.terms.idxOf t)) := fun ha ht =>
    IndexedGrammar.entry?_eq_some_iff wn hT (List.idxOf_lt_length_of_mem ha)
      (List.idxOf_lt_length_of_mem ht)
  unfold tableEntry?
  simp only [Option.bind_eq_bind, Option.bind_eq_some_iff]
  constructor
  · intro h
    obtain ⟨i, hi, j, hj, p, hp, hq⟩ := h
    obtain ⟨ha, rfl⟩ := idxOf?_eq_some_iff_mem.mp hi
    obtain ⟨ht, rfl⟩ := idxOf?_eq_some_iff_mem.mp hj
    obtain ⟨q', t', hq', hl, hpred, hid⟩ :=
      (Grammar.predictedAt_iff hA).mp ((hentry ha ht).mp hp)
    obtain rfl := Option.some.inj (hq.symm.trans hq')
    have hmem := List.mem_of_getElem? hq
    obtain rfl := (List.idxOf_inj ht).mp hid.symm
    exact ⟨hmem, (List.idxOf_inj (Grammar.lhs_mem_nonterms hmem)).mp hl, hpred⟩
  · intro h
    obtain ⟨hq, rfl, hpred⟩ := h
    obtain ⟨p, hp⟩ := List.mem_iff_getElem?.mp hq
    have ha := Grammar.lhs_mem_nonterms hq
    have ht := hpred.mem_terms hA hq
    refine ⟨_, idxOf?_eq_some_iff_mem.mpr ⟨ha, rfl⟩, _, idxOf?_eq_some_iff_mem.mpr ⟨ht, rfl⟩, p,
      (hentry ha ht).mpr ?_, hp⟩
    exact (Grammar.predictedAt_iff hA).mpr ⟨q, t, hp, rfl, hpred, rfl⟩

theorem begins_iff_mem_firstOfSequence (hA : A.MarkersTerminal) (h : ofGrammar? g = .ok r)
    {q : Rule A} {t : σ} :
    g.Begins q t ↔ t ≠ A.epsilon ∧ t ∈ r.firstOfSequence q.rhs := by
  unfold Grammar.Begins
  refine and_congr_right fun ht => ?_
  rw [mem_firstOfSequence_iff hA h ht, q.body_eq_filter]

theorem succeeds_iff_mem_followSet (hA : A.MarkersTerminal) (h : ofGrammar? g = .ok r)
    {q : Rule A} (hq : q ∈ g.rules) {t : σ} :
    g.Succeeds q t ↔ A.epsilon ∈ r.firstOfSequence q.rhs ∧
      ∃ follow, r.followSet? q.lhs = some follow ∧ t ∈ follow := by
  unfold Grammar.Succeeds
  rw [epsilon_mem_firstOfSequence_iff hA h, ← q.body_eq_filter,
    ← Grammar.mem_followSymbols_iff_follows hA q.lhs_nonterminal]
  simp [followSet?_eq_some_iff h, Grammar.lhs_mem_nonterms hq]

/--
**The table agrees with the questions about sets.**  A rule is the entry of its nonterminal on a
terminal exactly if the terminal is in FIRST of its right side, or its right side can vanish and
the terminal is in the FOLLOW set.  So there is no entry on epsilon, on a nonterminal, on a
terminal that no rule mentions and that is not the end mark, and for a nonterminal without rules.
-/
theorem table_agrees_with_sets (hA : A.MarkersTerminal) (h : ofGrammar? g = .ok r) (a t : σ) :
    (∀ q, r.tableEntry? a t = some q ↔ q ∈ g.rules ∧ q.lhs = a ∧
      (t ≠ A.epsilon ∧ t ∈ r.firstOfSequence q.rhs ∨
        A.epsilon ∈ r.firstOfSequence q.rhs ∧
          ∃ follow, r.followSet? a = some follow ∧ t ∈ follow)) ∧
    (t = A.epsilon ∨ A.isTerminal t = false ∨ (t ≠ A.endMark ∧ ∀ q ∈ g.rules, t ∉ q.rhs) ∨
      (∀ q ∈ g.rules, q.lhs ≠ a) → r.tableEntry? a t = none) := by
  constructor
  · intro q
    rw [tableEntry?_eq_some_iff hA h]
    refine and_congr_right fun hq => and_congr_right fun hl => ?_
    subst hl
    rw [Grammar.Predicts, begins_iff_mem_firstOfSequence hA h, succeeds_iff_mem_followSet hA h hq]
  · intro hnone
    rw [Option.eq_none_iff_forall_ne_some]
    intro q hentry
    obtain ⟨hq, hl, hpred⟩ := (tableEntry?_eq_some_iff hA h).mp hentry
    have ht := hpred.mem_terms hA hq
    rcases hnone with hne | hterm | ⟨hend, hrules⟩ | hlhs
    · exact hpred.ne_epsilon hA hne
    · rw [Grammar.isTerminal_of_mem_terms hA ht] at hterm
      simp at hterm
    · rcases Grammar.mem_terms_iff.mp ht with hne | he | ⟨q', hq', hbody, -⟩
      · exact hpred.ne_epsilon hA hne
      · exact hend he
      · exact hrules q' hq' (Rule.mem_rhs_of_mem_body hbody)
    · exact hlhs q hq hl

theorem nestedGrammar_table_agrees : ∃ r, ofGrammar? nestedGrammar = .ok r ∧
    r.tableEntry? 'S' 'b' = some (letterRule 'S' ['ε']) ∧
    (∃ follow, r.followSet? 'S' = some follow ∧ 'b' ∈ follow) ∧
    (¬ ∃ q, r.tableEntry? 'S' 'b' = some q ∧ 'b' ∈ r.firstOfSequence q.rhs) ∧
    r.tableEntry? 'S' 'ε' = none ∧ r.tableEntry? 'S' 'c' = none ∧ r.tableEntry? 'T' 'a' = none := by
  have hr := ofGrammar?_eq_get nestedGrammar_isLL1
  have hentry : tableEntry? ((ofGrammar? nestedGrammar).toOption.get nestedGrammar_isLL1) 'S' 'b'
      = some (letterRule 'S' ['ε']) := by decide +kernel
  have hfirst : 'b' ∉ firstOfSequence
      ((ofGrammar? nestedGrammar).toOption.get nestedGrammar_isLL1) ['ε'] := by decide +kernel
  have hagrees := table_agrees_with_sets (by decide) hr
  refine ⟨_, hr, hentry, ?_, ?_, (hagrees 'S' 'ε').2 (.inl rfl),
    (hagrees 'S' 'c').2 (.inr (.inr (.inl (by decide)))),
    (hagrees 'T' 'a').2 (.inr (.inr (.inr (by decide))))⟩
  · exact ((((hagrees 'S' 'b').1 _).mp hentry).2.2.resolve_left fun h => hfirst h.2).2
  · rintro ⟨q, hq, hb⟩
    obtain rfl := Option.some.inj (hentry.symm.trans hq)
    exact hfirst hb

end Recognizer

end BusinessHours

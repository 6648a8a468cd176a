/-
FIRST and FOLLOW sets as sets of symbols.

The sets are computed over numbers, and a number means something in one grammar only.  Read
back as symbols they are what a grammar says about its own derivations: a terminal is in the
FIRST set of a nonterminal if a form that begins with it is derived, and in the FOLLOW set if
it can stand directly behind.  This holds of every grammar, LL(1) or not, and of nonterminals
that no derivation from the start symbol leads to.

Both families come from rounds that are run until one changes nothing.  They end by
themselves; the limit on their number is never met.
-/
import BusinessHours.Proofs.Grammar.Letters
import BusinessHours.Proofs.LL1.FollowDerives

namespace BusinessHours

namespace Grammar

variable {σ : Type} [DecidableEq σ] {A : Alphabet σ}

/-- The FIRST set of a nonterminal as symbols. One the grammar does not define has none. -/
def firstSymbols (g : Grammar A) (a : σ) : List σ :=
  g.indexed.termsAt (g.indexed.first.get (g.nonterms.idxOf a)).toList

/-- The FOLLOW set of a nonterminal as symbols. One the grammar does not define has none. -/
def followSymbols (g : Grammar A) (a : σ) : List σ :=
  g.indexed.termsAt ((g.indexed.follow g.indexed.first).get (g.nonterms.idxOf a)).toList

variable {g : Grammar A}

/-! ### Numbers and symbols -/

/-- **The symbols of a set are the terminals whose numbers are in it.** -/
theorem mem_termsAt_toList_iff {n : Nat} {s : IdSet n} {t : σ} :
    t ∈ g.indexed.termsAt s.toList ↔ t ∈ g.terms ∧ g.terms.idxOf t ∈ s := by
  unfold IndexedGrammar.termsAt
  rw [List.mem_filterMap]
  constructor
  · intro h
    obtain ⟨i, hi, ht⟩ := h
    obtain ⟨hlt, rfl⟩ := List.getElem?_eq_some_iff.mp ht
    have hid : g.terms.idxOf (g.indexed.terms[i]) = i := g.terms_nodup.idxOf_getElem i hlt
    exact ⟨List.getElem_mem hlt, hid.symm ▸ IdSet.mem_toList.mp hi⟩
  · intro h
    exact ⟨_, IdSet.mem_toList.mpr h.2, List.getElem?_idxOf h.1⟩

theorem mem_firstSymbols_iff {a t : σ} : t ∈ g.firstSymbols a ↔
    t ∈ g.terms ∧ g.terms.idxOf t ∈ g.indexed.first.get (g.nonterms.idxOf a) :=
  mem_termsAt_toList_iff

theorem mem_followSymbols_iff {a t : σ} : t ∈ g.followSymbols a ↔
    t ∈ g.terms ∧ g.terms.idxOf t ∈
      (g.indexed.follow g.indexed.first).get (g.nonterms.idxOf a) :=
  mem_termsAt_toList_iff

/-- Only a nonterminal of the grammar has members in a family. -/
theorem mem_nonterms_of_mem_get {f : Family g.indexed.termCount g.indexed.nontermCount} {a : σ}
    {i : Nat} (h : i ∈ f.get (g.nonterms.idxOf a)) : a ∈ g.nonterms :=
  List.idxOf_lt_length_iff.mp (Family.lt_of_mem_get h)

/-- What a nonterminal derives other than itself begins with one of its rules. -/
theorem mem_nonterms_of_derives {a : σ} {w : List σ} (h : g.Derives [a] w) (hne : w ≠ [a]) :
    a ∈ g.nonterms := by
  obtain ⟨r, hr, rfl, -⟩ := h.exists_rule hne
  exact lhs_mem_nonterms hr

/-! ### FIRST sets -/

/-- FIRST of a list of one nonterminal is its FIRST set. -/
theorem mem_firstOf_singleton_iff (hA : A.MarkersTerminal) {a : σ} (ha : a ∈ g.nonterms)
    {i : Nat} : i ∈ g.indexed.first.firstOf ([a].map g.node) ↔
      i ∈ g.indexed.first.get (g.nonterms.idxOf a) := by
  have wn := g.indexed_wellNumbered hA
  rw [List.map_singleton, node_of_mem_nonterms ha, Family.mem_firstOf_nonterm,
    Family.mem_firstOf_nil wn.epsilonId_lt]
  constructor
  · rintro (⟨-, hi⟩ | ⟨hnull, rfl⟩)
    · exact hi
    · exact hnull
  · intro hi
    by_cases hie : i = epsilonId
    · exact .inr ⟨hie ▸ hi, hie⟩
    · exact .inl ⟨hie, hi⟩

/-- **A terminal is in a FIRST set exactly if a form that begins with it is derived.** -/
theorem mem_firstSymbols_iff_derives (hA : A.MarkersTerminal) {a t : σ}
    (ha : A.isTerminal a = false) (hne : t ≠ A.epsilon) :
    t ∈ g.firstSymbols a ↔ A.isTerminal t = true ∧ ∃ v, g.Derives [a] (t :: v) := by
  rw [mem_firstSymbols_iff]
  constructor
  · intro h
    obtain ⟨ht, hi⟩ := h
    have ha' := mem_nonterms_of_mem_get hi
    refine ⟨isTerminal_of_mem_terms hA ht, ?_⟩
    rw [exists_derives_cons_iff hA (form_nonterminal hA ha').epsilon_notMem ht hne]
    exact (mem_firstOf_singleton_iff hA ha').mpr hi
  · intro h
    obtain ⟨hterm, v, hv⟩ := h
    have ha' : a ∈ g.nonterms := by
      refine mem_nonterms_of_derives hv fun hsame => ?_
      rw [(List.cons.inj hsame).1, ha] at hterm
      simp at hterm
    have hform := form_nonterminal hA ha'
    have ht : t ∈ g.terms := (hform.of_derives hv).mem_terms List.mem_cons_self hterm
    refine ⟨ht, (mem_firstOf_singleton_iff hA ha').mp ?_⟩
    exact (exists_derives_cons_iff hA hform.epsilon_notMem ht hne).mp ⟨v, hv⟩

/-- **Epsilon is in a FIRST set exactly if the empty form is derived.** -/
theorem epsilon_mem_firstSymbols_iff (hA : A.MarkersTerminal) {a : σ} :
    A.epsilon ∈ g.firstSymbols a ↔ g.Derives [a] [] := by
  rw [mem_firstSymbols_iff, idxOf_epsilon, and_iff_right epsilon_mem_terms]
  constructor
  · intro hi
    have ha' := mem_nonterms_of_mem_get hi
    rw [derives_nil_iff hA (form_nonterminal hA ha').epsilon_notMem]
    exact (mem_firstOf_singleton_iff hA ha').mpr hi
  · intro h
    have ha' := mem_nonterms_of_derives h (by simp)
    refine (mem_firstOf_singleton_iff hA ha').mp ?_
    exact (derives_nil_iff hA (form_nonterminal hA ha').epsilon_notMem).mp h

/--
**FIRST sets are exact.**  Their rounds end, after at most one more than there are pairs of a
nonterminal and a terminal, and what they leave says what each nonterminal derives.
-/
theorem first_exact (hA : A.MarkersTerminal) (g : Grammar A) :
    (∃ n ≤ g.nonterms.length * g.terms.length + 1,
      Family.Settles g.indexed.firstRound n .empty g.indexed.first) ∧
    ∀ a, A.isTerminal a = false →
      (∀ t, A.isTerminal t = true → t ≠ A.epsilon →
        (t ∈ g.firstSymbols a ↔ ∃ v, g.Derives [a] (t :: v))) ∧
      (A.epsilon ∈ g.firstSymbols a ↔ g.Derives [a] []) := by
  refine ⟨?_, fun a ha => ⟨fun t ht hne => ?_, epsilon_mem_firstSymbols_iff hA⟩⟩
  · exact Family.exists_settles_saturate
      (IndexedGrammar.growing_firstRound (g.indexed_wellNumbered hA))
      fun a i h => absurd h (IndexedGrammar.not_mem_get_empty a i)
  · rw [mem_firstSymbols_iff_derives hA ha hne, and_iff_right ht]

theorem layeredGrammar_first_exact :
    (∃ n ≤ 3 * 5 + 1, Family.Settles Recognizer.layeredGrammar.indexed.firstRound n .empty
      Recognizer.layeredGrammar.indexed.first) ∧
    Recognizer.layeredGrammar.firstSymbols 'X' = ['ε', 'c', 'a'] ∧
    (∃ v, Recognizer.layeredGrammar.Derives ['X'] ('c' :: v)) ∧
    ¬ (∃ v, Recognizer.layeredGrammar.Derives ['X'] ('d' :: v)) ∧
    Recognizer.layeredGrammar.Derives ['X'] [] := by
  have hmembers : Recognizer.layeredGrammar.firstSymbols 'X' = ['ε', 'c', 'a'] := by
    decide +kernel
  obtain ⟨hrounds, hexact⟩ := first_exact (by decide) Recognizer.layeredGrammar
  obtain ⟨hbegins, hvanishes⟩ := hexact 'X' rfl
  rw [hmembers] at hbegins hvanishes
  exact ⟨hrounds, hmembers, (hbegins 'c' rfl (by decide)).mp (by decide),
    fun h => absurd ((hbegins 'd' rfl (by decide)).mpr h) (by decide),
    hvanishes.mp (by decide)⟩

/-! ### FOLLOW sets -/

/-- What follows a nonterminal is a terminal of the grammar, and that nonterminal is its own. -/
theorem Follows.mem (hA : A.MarkersTerminal) {a t : σ} (h : g.Follows a t)
    (ha : A.isTerminal a = false) (ht : A.isTerminal t = true) :
    a ∈ g.nonterms ∧ t ∈ g.terms := by
  rcases h with ⟨b, hb, u, v, h⟩ | ⟨rfl, u, h⟩
  · have hform := (form_nonterminal hA hb).of_derives h
    exact ⟨hform.mem_nonterms hA (by simp) ha, hform.mem_terms (by simp) ht⟩
  · have hform := (form_nonterminal hA start_mem_nonterms).of_derives h
    exact ⟨hform.mem_nonterms hA (by simp) ha, endMark_mem_terms⟩

/-- **A terminal is in a FOLLOW set exactly if it can follow.** -/
theorem mem_followSymbols_iff_follows (hA : A.MarkersTerminal) {a t : σ}
    (ha : A.isTerminal a = false) :
    t ∈ g.followSymbols a ↔ A.isTerminal t = true ∧ g.Follows a t := by
  rw [mem_followSymbols_iff]
  constructor
  · intro h
    obtain ⟨ht, hi⟩ := h
    exact ⟨isTerminal_of_mem_terms hA ht,
      (mem_follow_iff hA (mem_nonterms_of_mem_get hi) ht).mp hi⟩
  · intro h
    obtain ⟨hterm, hfollows⟩ := h
    obtain ⟨ha', ht⟩ := Follows.mem hA hfollows ha hterm
    exact ⟨ht, (mem_follow_iff hA ha' ht).mpr hfollows⟩

theorem epsilon_notMem_followSymbols (hA : A.MarkersTerminal) (a : σ) :
    A.epsilon ∉ g.followSymbols a := by
  rw [mem_followSymbols_iff, idxOf_epsilon]
  intro h
  exact IndexedGrammar.ne_epsilonId_of_mem_follow (g.indexed_wellNumbered hA) h.2 rfl

/--
**FOLLOW sets are exact.**  Their rounds end, and what they leave says what can stand behind
each nonterminal.  Epsilon never does.
-/
theorem follow_exact (hA : A.MarkersTerminal) (g : Grammar A) :
    (∃ n ≤ g.nonterms.length * g.terms.length + 1,
      Family.Settles (g.indexed.followRound g.indexed.first) n g.indexed.followSeed
        (g.indexed.follow g.indexed.first)) ∧
    (∀ a, A.epsilon ∉ g.followSymbols a) ∧
    ∀ a, A.isTerminal a = false → ∀ t, A.isTerminal t = true → t ≠ A.epsilon →
      (t ∈ g.followSymbols a ↔
        (∃ b ∈ g.nonterms, ∃ u v, g.Derives [b] (u ++ a :: t :: v)) ∨
          t = A.endMark ∧ ∃ u, g.Derives [g.start] (u ++ [a])) := by
  have wn := g.indexed_wellNumbered hA
  refine ⟨?_, epsilon_notMem_followSymbols hA, fun a ha t ht _ => ?_⟩
  · refine Family.exists_settles_saturate (IndexedGrammar.growing_followRound wn) fun a i h => ?_
    rw [((IndexedGrammar.mem_followSeed_iff wn).mp h).2]
    exact wn.endId_lt
  · exact (mem_followSymbols_iff_follows hA ha).trans (and_iff_right ht)

theorem layeredGrammar_follow_exact :
    (∃ n ≤ 3 * 5 + 1, Family.Settles
      (Recognizer.layeredGrammar.indexed.followRound Recognizer.layeredGrammar.indexed.first) n
      Recognizer.layeredGrammar.indexed.followSeed
      (Recognizer.layeredGrammar.indexed.follow Recognizer.layeredGrammar.indexed.first)) ∧
    Recognizer.layeredGrammar.followSymbols 'X' = ['d', 'c', 'a'] ∧
    (∃ b ∈ Recognizer.layeredGrammar.nonterms, ∃ u v,
      Recognizer.layeredGrammar.Derives [b] (u ++ 'X' :: 'a' :: v)) ∧
    ¬ ∃ u, Recognizer.layeredGrammar.Derives ['Z'] (u ++ ['X']) := by
  have hmembers : Recognizer.layeredGrammar.followSymbols 'X' = ['d', 'c', 'a'] := by
    decide +kernel
  obtain ⟨hrounds, -, hexact⟩ := follow_exact (by decide) Recognizer.layeredGrammar
  have hX := hexact 'X' rfl
  rw [hmembers] at hX
  refine ⟨hrounds, hmembers, ?_, fun h => ?_⟩
  · exact ((hX 'a' rfl (by decide)).mp (by decide)).resolve_right fun h => absurd h.1 (by decide)
  · exact absurd ((hX '$' rfl (by decide)).mpr (.inr ⟨rfl, h⟩)) (by decide)

end Grammar

end BusinessHours

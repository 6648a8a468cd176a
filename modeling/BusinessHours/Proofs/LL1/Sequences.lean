/-
FIRST of a list of symbols, as a set.

The answer for a list is a set that is written as a list: no symbol stands in it twice, and
epsilon, if it is a member, stands in front.  Its members are known from what the list derives
(`Proofs/LL1/Queries`).  What is added here is that a list may be asked for in parts.  Only the
leading symbols of a list count, those up to the first that cannot vanish, so a rear part counts
exactly if all of the front part can vanish, and the answer for the front says whether it can.
-/
import BusinessHours.Proofs.LL1.Queries

namespace BusinessHours

namespace Recognizer

variable {σ : Type} [DecidableEq σ] {A : Alphabet σ} {g : Grammar A} {r : Recognizer A}

/-! ### A set written as a list -/

/-- **FIRST of a list shows no symbol twice.** -/
theorem nodup_firstOfSequence (symbols : List σ) : (r.firstOfSequence symbols).Nodup := by
  have hfound := nodup_eraseDups
    (((r.leading symbols).flatMap r.firstSet).filter (· ≠ A.epsilon))
  unfold firstOfSequence
  split
  · refine List.nodup_cons.mpr ⟨?_, hfound⟩
    simp [List.mem_eraseDups]
  · exact hfound

/-- Epsilon stands in front of all other symbols. -/
theorem head?_firstOfSequence {symbols : List σ} (h : A.epsilon ∈ r.firstOfSequence symbols) :
    (r.firstOfSequence symbols).head? = some A.epsilon := by
  have hall : symbols.all r.isNullable = true :=
    List.all_eq_true.mpr (epsilon_mem_firstOfSequence.mp h)
  unfold firstOfSequence
  rw [if_pos hall]
  rfl

/-! ### A list in two parts -/

/-- A front part that can vanish is leading, and what leads the rest comes behind it. -/
theorem leading_append_of_vanish {front : List σ}
    (hfront : A.epsilon ∈ r.firstOfSequence front) (rest : List σ) :
    r.leading (front ++ rest) = front ++ r.leading rest := by
  rw [epsilon_mem_firstOfSequence] at hfront
  induction front with
  | nil => rfl
  | cons s front ih =>
      obtain ⟨hs, hfront'⟩ := List.forall_mem_cons.mp hfront
      rw [List.cons_append, leading, if_pos hs, ih hfront', List.cons_append]

/-- A front part that cannot vanish hides the rest. -/
theorem leading_append_of_stay {front : List σ}
    (hfront : A.epsilon ∉ r.firstOfSequence front) (rest : List σ) :
    r.leading (front ++ rest) = r.leading front := by
  rw [epsilon_mem_firstOfSequence] at hfront
  induction front with
  | nil => simp at hfront
  | cons s front ih =>
      rw [List.cons_append, leading, leading]
      by_cases hs : r.isNullable s = true
      · rw [if_pos hs, if_pos hs, ih fun hall => hfront (List.forall_mem_cons.mpr ⟨hs, hall⟩)]
      · rw [if_neg hs, if_neg hs]

/-- A list that can vanish is leading from its first symbol to its last. -/
theorem leading_eq_self {symbols : List σ} (h : A.epsilon ∈ r.firstOfSequence symbols) :
    r.leading symbols = symbols := by
  have happend := leading_append_of_vanish h []
  rwa [List.append_nil, leading, List.append_nil] at happend

/-- **What begins a list begins its front part**, or its rear part if the front can vanish. -/
theorem mem_firstOfSequence_append {front rest : List σ} {t : σ} :
    t ∈ r.firstOfSequence (front ++ rest) ↔
      if A.epsilon ∈ r.firstOfSequence front then
        t ≠ A.epsilon ∧ t ∈ r.firstOfSequence front ∨ t ∈ r.firstOfSequence rest
      else t ∈ r.firstOfSequence front := by
  by_cases ht : t = A.epsilon
  · subst ht
    rw [epsilon_mem_firstOfSequence, List.forall_mem_append, ← epsilon_mem_firstOfSequence,
      ← epsilon_mem_firstOfSequence]
    split
    · rename_i hfront
      simp [hfront]
    · rename_i hfront
      simp [hfront]
  · by_cases hfront : A.epsilon ∈ r.firstOfSequence front
    · rw [if_pos hfront, and_iff_right ht, mem_firstOfSequence ht, mem_firstOfSequence ht,
        mem_firstOfSequence ht, leading_append_of_vanish hfront, leading_eq_self hfront]
      simp only [List.mem_append, or_and_right, exists_or]
    · rw [if_neg hfront, mem_firstOfSequence ht, mem_firstOfSequence ht,
        leading_append_of_stay hfront]

/-! ### The whole answer -/

/--
**FIRST of a list is exact, for any list of symbols.**  Its members are what the list, once
epsilon is taken out of it, derives: epsilon if it derives nothing, and the terminals that begin
what it derives.  They are written once each with epsilon in front, and lists may be asked for in
parts.
-/
theorem firstOfSequence_exact (hA : A.MarkersTerminal) (h : ofGrammar? g = .ok r) :
    (∀ symbols : List σ,
      (r.firstOfSequence symbols).Nodup ∧
      (A.epsilon ∈ r.firstOfSequence symbols →
        (r.firstOfSequence symbols).head? = some A.epsilon) ∧
      (A.epsilon ∈ r.firstOfSequence symbols ↔
        g.Derives (symbols.filter (· ≠ A.epsilon)) []) ∧
      ∀ t, t ≠ A.epsilon → (t ∈ r.firstOfSequence symbols ↔
        A.isTerminal t = true ∧ ∃ v, g.Derives (symbols.filter (· ≠ A.epsilon)) (t :: v))) ∧
    ∀ (front rest : List σ) (t : σ), t ∈ r.firstOfSequence (front ++ rest) ↔
      if A.epsilon ∈ r.firstOfSequence front then
        t ≠ A.epsilon ∧ t ∈ r.firstOfSequence front ∨ t ∈ r.firstOfSequence rest
      else t ∈ r.firstOfSequence front := by
  refine ⟨fun symbols => ⟨nodup_firstOfSequence symbols, head?_firstOfSequence, ?_, ?_⟩, ?_⟩
  · exact epsilon_mem_firstOfSequence_iff hA h
  · intro t ht
    exact mem_firstOfSequence_iff hA h ht
  · intro front rest t
    exact mem_firstOfSequence_append

/-- Epsilon stands inside the list, `q` is in no rule, and `U` has none. -/
theorem nestedGrammar_firstOfSequence : ∃ r, ofGrammar? nestedGrammar = .ok r ∧
    r.firstOfSequence ['S', 'ε'] = ['ε', 'a'] ∧ nestedGrammar.Derives ['S'] [] ∧
    'q' ∈ r.firstOfSequence ['S', 'ε', 'q', 'U'] ∧
    (∃ v, nestedGrammar.Derives ['S', 'q', 'U'] ('q' :: v)) ∧
    ¬ nestedGrammar.Derives ['U'] [] ∧ ¬ ∃ v, nestedGrammar.Derives ['U'] ('a' :: v) := by
  have hr := ofGrammar?_eq_get nestedGrammar_isLL1
  have hfront : firstOfSequence ((ofGrammar? nestedGrammar).toOption.get nestedGrammar_isLL1)
      ['S', 'ε'] = ['ε', 'a'] := by decide +kernel
  have hrest : firstOfSequence ((ofGrammar? nestedGrammar).toOption.get nestedGrammar_isLL1)
      ['q', 'U'] = ['q'] := by decide +kernel
  have hnone : firstOfSequence ((ofGrammar? nestedGrammar).toOption.get nestedGrammar_isLL1)
      ['U'] = [] := by decide +kernel
  obtain ⟨hexact, happend⟩ := firstOfSequence_exact (by decide) hr
  obtain ⟨-, -, hnull, -⟩ := hexact ['S', 'ε']
  obtain ⟨-, -, -, hbegins⟩ := hexact ['S', 'ε', 'q', 'U']
  obtain ⟨-, -, hstay, hvoid⟩ := hexact ['U']
  have heps : Alphabet.letters.epsilon ∈ ['ε', 'a'] := List.mem_cons_self
  have hq := happend ['S', 'ε'] ['q', 'U'] 'q'
  rw [hfront, hrest, if_pos heps] at hq
  have hmem := hq.mpr (.inr List.mem_cons_self)
  rw [hfront] at hnull
  rw [hnone] at hstay hvoid
  refine ⟨_, hr, hfront, hnull.mp heps, hmem, ((hbegins 'q' (by decide)).mp hmem).2, ?_, ?_⟩
  · intro hd
    exact List.not_mem_nil (hstay.mpr hd)
  · intro hd
    exact List.not_mem_nil ((hvoid 'a' (by decide)).mpr ⟨by decide, hd⟩)

end Recognizer

end BusinessHours

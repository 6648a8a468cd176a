/-
FIRST sets through derivations.

A terminal is in the FIRST set of a form exactly if a form that begins with it can be
derived, and epsilon is in it exactly if the empty form can.

From a derivation to the set one goes backwards, a step at a time: folding a body back into
its left side takes nothing away from what the form begins with, because the FIRST sets are
closed.  From the set to a derivation one goes by the rounds that put a nonterminal into
`vanishing` or `beginning`, each of which is one rule.
-/
import BusinessHours.Proofs.Grammar.Derivation
import BusinessHours.Proofs.LL1.First

namespace BusinessHours

namespace Grammar

variable {σ : Type} [DecidableEq σ] {A : Alphabet σ} {g : Grammar A}

/-! ### From derivations to FIRST sets -/

/-- **A form begins with whatever a form derived from it begins with.** -/
theorem mem_firstOf_of_derives (hA : A.MarkersTerminal) {u w : List σ} (h : g.Derives u w)
    (hu : A.epsilon ∉ u) {i : Nat} (hi : i ∈ g.indexed.first.firstOf (w.map g.node)) :
    i ∈ g.indexed.first.firstOf (u.map g.node) := by
  induction h with
  | refl => exact hi
  | step first _ ih =>
      have hfolded := ih (first.epsilon_notMem hu) hi
      cases first with
      | @replace r hr before after =>
          rw [List.map_append, List.map_append] at hfolded
          rw [List.map_append, List.map_cons, node_of_nonterminal r.lhs_nonterminal]
          exact IndexedGrammar.mem_firstOf_unexpand (g.indexed_wellNumbered hA)
            (production_mem hr)
            (epsilon_notMem_map_node hA fun hc => hu (List.mem_append_left _ hc)) hfolded

/-! ### From FIRST sets to derivations -/

theorem derives_nil_of_forall {u : List σ} (h : ∀ s ∈ u, g.Derives [s] []) :
    g.Derives u [] := by
  induction u with
  | nil => exact .refl _
  | cons s u ih =>
      obtain ⟨hs, hu⟩ := List.forall_mem_cons.mp h
      exact hs.append (ih hu)

/-- A node with the number of a nonterminal is the node of that nonterminal. -/
theorem mem_nonterms_of_node_eq {s : σ} {b : Nat} (h : g.node s = .nonterm b)
    (hb : b < g.nonterms.length) : s ∈ g.nonterms ∧ g.nonterms.idxOf s = b := by
  cases hs : A.isTerminal s with
  | true => rw [node_of_terminal hs] at h; simp at h
  | false =>
      rw [node_of_nonterminal hs, Node.nonterm.injEq] at h
      exact ⟨List.idxOf_lt_length_iff.mp (h ▸ hb), h⟩

theorem derives_nil_of_mem_vanishing (hA : A.MarkersTerminal) {a : σ} (ha : a ∈ g.nonterms)
    (h : g.nonterms.idxOf a ∈ g.indexed.vanishing) : g.Derives [a] [] := by
  unfold IndexedGrammar.vanishing at h
  generalize g.indexed.depth = k at h
  -- The rounds are counted down; a member of one round has a rule whose body lies in the last.
  induction k generalizing a with
  | zero => exact absurd h (Set.notMem_empty _)
  | succ k ih =>
      rw [Function.iterate_succ_apply'] at h
      obtain ⟨p, hp, hl, hall⟩ := h
      obtain ⟨r, hr, rfl⟩ := exists_rule_of_mem_prods hp
      obtain rfl : r.lhs = a := (List.idxOf_inj (lhs_mem_nonterms hr)).mp hl
      refine (Derives.of_rule hr).trans (derives_nil_of_forall fun s hs => ?_)
      obtain ⟨b, hb, hn⟩ := hall (g.node s) (List.mem_map_of_mem hs)
      have hlt := (g.indexed_wellNumbered hA).nonterm_lt _ hp b
        (hn ▸ List.mem_map_of_mem hs)
      obtain ⟨hs', rfl⟩ := mem_nonterms_of_node_eq hn hlt
      exact ih hs' hb

/-- Nodes that can vanish belong to symbols that derive nothing. -/
theorem derives_nil_of_nodes (hA : A.MarkersTerminal) {u : List σ}
    (h : ∀ x ∈ u.map g.node, ∃ b ∈ g.indexed.vanishing, x = .nonterm b) : g.Derives u [] := by
  refine derives_nil_of_forall fun s hs => ?_
  obtain ⟨b, hb, hn⟩ := h _ (List.mem_map_of_mem hs)
  have he := (IndexedGrammar.epsilon_mem_first_iff (g.indexed_wellNumbered hA)).mpr hb
  obtain ⟨hs', rfl⟩ := mem_nonterms_of_node_eq hn (Family.lt_of_mem_get he)
  exact derives_nil_of_mem_vanishing hA hs' hb

theorem exists_derives_cons_of_mem_beginning (hA : A.MarkersTerminal) {t : σ}
    (ht : t ∈ g.terms) {a : σ} (ha : a ∈ g.nonterms)
    (h : g.nonterms.idxOf a ∈ g.indexed.beginning (g.terms.idxOf t)) :
    ∃ v, g.Derives [a] (t :: v) := by
  unfold IndexedGrammar.beginning at h
  generalize g.indexed.depth = k at h
  induction k generalizing a with
  | zero => exact absurd h (Set.notMem_empty _)
  | succ k ih =>
      rw [Function.iterate_succ_apply'] at h
      obtain ⟨p, hp, hl, front, x, rest, hrhs, hfront, hx⟩ := h
      obtain ⟨r, hr, rfl⟩ := exists_rule_of_mem_prods hp
      obtain rfl : r.lhs = a := (List.idxOf_inj (lhs_mem_nonterms hr)).mp hl
      obtain ⟨u, v, hbody, rfl, hv⟩ := List.map_eq_append_iff.mp hrhs
      obtain ⟨s, w, rfl, rfl, rfl⟩ := List.map_eq_cons_iff.mp hv
      have hs : ∃ v, g.Derives [s] (t :: v) := by
        rcases hx with hx | ⟨b, hb, hx⟩
        · obtain rfl := (node_eq_term_iff hA ht).mp hx
          exact ⟨[], .refl _⟩
        · have hlt := (g.indexed_wellNumbered hA).nonterm_lt _ hp b
            (by rw [hrhs, hx]; simp)
          obtain ⟨hs, rfl⟩ := mem_nonterms_of_node_eq hx hlt
          exact ih hs hb
      obtain ⟨z, hz⟩ := exists_derives_cons_of_split w
        (derives_nil_of_nodes hA hfront) hs
      exact ⟨z, (Derives.of_rule hr).trans (hbody ▸ hz)⟩

/-! ### The two together -/

/-- **A form derives nothing exactly if its FIRST set has epsilon.** -/
theorem derives_nil_iff (hA : A.MarkersTerminal) {u : List σ} (hu : A.epsilon ∉ u) :
    g.Derives u [] ↔ epsilonId ∈ g.indexed.first.firstOf (u.map g.node) := by
  have wn := g.indexed_wellNumbered hA
  constructor
  · intro h
    exact mem_firstOf_of_derives hA h hu ((Family.mem_firstOf_nil wn.epsilonId_lt).mpr rfl)
  · intro h
    rw [Family.epsilon_mem_firstOf_iff wn.epsilonId_lt (epsilon_notMem_map_node hA hu)] at h
    refine derives_nil_of_nodes hA fun x hx => ?_
    obtain ⟨b, rfl, hb⟩ := h x hx
    exact ⟨b, (IndexedGrammar.epsilon_mem_first_iff wn).mp hb, rfl⟩

/-- **A form derives one that begins with a terminal exactly if its FIRST set has it.** -/
theorem exists_derives_cons_iff (hA : A.MarkersTerminal) {u : List σ} (hu : A.epsilon ∉ u)
    {t : σ} (ht : t ∈ g.terms) (hne : t ≠ A.epsilon) :
    (∃ v, g.Derives u (t :: v)) ↔
      g.terms.idxOf t ∈ g.indexed.first.firstOf (u.map g.node) := by
  have wn := g.indexed_wellNumbered hA
  have hid := idxOf_ne_epsilonId ht hne
  constructor
  · intro h
    obtain ⟨v, h⟩ := h
    refine mem_firstOf_of_derives hA h hu ?_
    rw [List.map_cons, node_of_mem_terms hA ht]
    exact (Family.mem_firstOf_term (List.idxOf_lt_length_of_mem ht)).mpr rfl
  · intro h
    obtain ⟨front, x, rest, hmap, hfront, hx⟩ := Family.exists_of_mem_firstOf hid h
    obtain ⟨u', v', rfl, rfl, hv⟩ := List.map_eq_append_iff.mp hmap
    obtain ⟨s, w, rfl, rfl, rfl⟩ := List.map_eq_cons_iff.mp hv
    refine exists_derives_cons_of_split _ (derives_nil_of_nodes hA fun y hy => ?_) ?_
    · obtain ⟨b, rfl, hb⟩ := hfront y hy
      exact ⟨b, (IndexedGrammar.epsilon_mem_first_iff wn).mp hb, rfl⟩
    · rcases hx with hx | ⟨b, hx, hb⟩
      · obtain rfl := (node_eq_term_iff hA ht).mp hx
        exact ⟨[], .refl _⟩
      · obtain ⟨hs, rfl⟩ := mem_nonterms_of_node_eq hx (Family.lt_of_mem_get hb)
        exact exists_derives_cons_of_mem_beginning hA ht hs
          ((IndexedGrammar.mem_first_iff wn hid).mp hb)

end Grammar

end BusinessHours

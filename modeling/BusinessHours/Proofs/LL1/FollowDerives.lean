/-
FOLLOW sets through derivations.

A terminal follows a nonterminal if some nonterminal of the grammar derives a form in which
it stands directly behind.  That nonterminal need not be one the start symbol leads to.  The
end mark follows what a form can end with that the start symbol derives.

Both directions walk along the structure that is given.  A member of a FOLLOW set was put
there by an occurrence in a rule, and `follow_least` turns each of the three ways to get
there into a derivation.  A derivation leaves every form fitting that fitted before, and in
a form that fits whatever stands behind a nonterminal is in its FOLLOW set.
-/
import BusinessHours.Proofs.LL1.FirstDerives
import BusinessHours.Proofs.LL1.Follow

namespace BusinessHours

namespace Grammar

variable {σ : Type} [DecidableEq σ] {A : Alphabet σ} {g : Grammar A}

/-- `t` can stand directly behind `a`, or be the end mark behind a form that ends with `a`. -/
def Follows (g : Grammar A) (a t : σ) : Prop :=
  (∃ b ∈ g.nonterms, ∃ u v, g.Derives [b] (u ++ a :: t :: v)) ∨
    t = A.endMark ∧ ∃ u, g.Derives [g.start] (u ++ [a])

/-! ### From FOLLOW sets to derivations -/

/-- Behind an occurrence stands whatever the rest of its body begins with. -/
theorem Follows.of_rest {r : Rule A} (hr : r ∈ g.rules) {front rest : List σ} {a t : σ}
    (hbody : r.body = front ++ a :: rest) (h : ∃ v, g.Derives rest (t :: v)) :
    g.Follows a t := by
  obtain ⟨v, hv⟩ := h
  refine .inl ⟨r.lhs, lhs_mem_nonterms hr, front, v, (Derives.of_rule hr).trans ?_⟩
  rw [hbody]
  exact (Derives.refl front).append ((Derives.refl [a]).append hv)

/-- If the rest of its body can vanish, what follows the left side follows an occurrence. -/
theorem Follows.of_lhs {r : Rule A} (hr : r ∈ g.rules) {front rest : List σ} {a t : σ}
    (hbody : r.body = front ++ a :: rest) (hrest : g.Derives rest []) (h : g.Follows r.lhs t) :
    g.Follows a t := by
  have hends : g.Derives [r.lhs] (front ++ [a]) := by
    refine (Derives.of_rule hr).trans ?_
    rw [hbody]
    exact (Derives.refl front).append ((Derives.refl [a]).append hrest)
  rcases h with ⟨b, hb, u, v, hderives⟩ | ⟨ht, u, hderives⟩
  · refine .inl ⟨b, hb, u ++ front, v, hderives.trans ?_⟩
    have := hends.within u (t :: v)
    simpa using this
  · refine .inr ⟨ht, u ++ front, hderives.trans ?_⟩
    have := hends.within u []
    simpa using this

theorem follows_of_mem_follow (hA : A.MarkersTerminal) {a t : σ} (ha : a ∈ g.nonterms)
    (ht : t ∈ g.terms) (h : g.terms.idxOf t ∈
      (g.indexed.follow g.indexed.first).get (g.nonterms.idxOf a)) : g.Follows a t := by
  have wn := g.indexed_wellNumbered hA
  -- Numbers and symbols are matched once, so that each way to get into the set is one lemma.
  have hsplit : ∀ {p : Production}, p ∈ g.indexed.prods → ∀ {front : List Node} {b : Nat}
      {rest : List Node}, p.rhs = front ++ .nonterm b :: rest → ∃ r ∈ g.rules,
      g.nonterms.idxOf r.lhs = p.lhs ∧ ∃ (u w : List σ) (s : σ), r.body = u ++ s :: w ∧
        s ∈ g.nonterms ∧ g.nonterms.idxOf s = b ∧ w.map g.node = rest := by
    intro p hp front b rest hrhs
    obtain ⟨r, hr, rfl⟩ := exists_rule_of_mem_prods hp
    obtain ⟨u, v, hbody, -, hv⟩ := List.map_eq_append_iff.mp hrhs
    obtain ⟨s, w, rfl, hs, hw⟩ := List.map_eq_cons_iff.mp hv
    obtain ⟨hs', hid⟩ := mem_nonterms_of_node_eq hs (wn.lt_of_rhs_eq hp hrhs)
    exact ⟨r, hr, rfl, u, w, s, hbody, hs', hid, hw⟩
  refine IndexedGrammar.follow_least (P := fun b i => ∀ a t, a ∈ g.nonterms → t ∈ g.terms →
    g.nonterms.idxOf a = b → g.terms.idxOf t = i → g.Follows a t) wn ?_ ?_ ?_ h a t ha ht rfl rfl
  · intro a t ha ht hb hi
    obtain rfl : a = g.start := (List.idxOf_inj ha).mp hb
    rw [← idxOf_endMark (g := g)] at hi
    exact .inr ⟨(List.idxOf_inj ht).mp hi, [], .refl _⟩
  · intro p hp front b rest hrhs i hne hi a t ha ht hb hid
    obtain ⟨r, hr, -, u, w, s, hbody, hs, hsb, rfl⟩ := hsplit hp hrhs
    obtain rfl : a = s := (List.idxOf_inj ha).mp (hb.trans hsb.symm)
    have hw : A.epsilon ∉ w := fun hc => r.epsilon_notMem_body (by simp [hbody, hc])
    have hne' : t ≠ A.epsilon := by
      intro h
      subst h
      exact hne (hid ▸ idxOf_epsilon)
    rw [← hid] at hi
    exact .of_rest hr hbody ((exists_derives_cons_iff hA hw ht hne').mpr hi)
  · intro p hp front b rest hrhs he i hlhs a t ha ht hb hid
    obtain ⟨r, hr, hl, u, w, s, hbody, hs, hsb, rfl⟩ := hsplit hp hrhs
    obtain rfl : a = s := (List.idxOf_inj ha).mp (hb.trans hsb.symm)
    have hw : A.epsilon ∉ w := fun hc => r.epsilon_notMem_body (by simp [hbody, hc])
    exact .of_lhs hr hbody ((derives_nil_iff hA hw).mpr he)
      (hlhs r.lhs t (lhs_mem_nonterms hr) ht hl hid)

/-! ### From derivations to FOLLOW sets -/

/-- A body fits where its left side did. -/
theorem fits_replace (hA : A.MarkersTerminal) {r : Rule A} (hr : r ∈ g.rules)
    {before after : List σ} (hbefore : A.epsilon ∉ before)
    (h : g.indexed.Fits ((before ++ r.lhs :: after).map g.node) []) :
    g.indexed.Fits ((before ++ (r.body ++ after)).map g.node) [] := by
  rw [List.map_append, List.map_cons, node_of_nonterminal r.lhs_nonterminal] at h
  rw [List.map_append, List.map_append]
  exact IndexedGrammar.fits_expand (g.indexed_wellNumbered hA) (production_mem hr)
    (epsilon_notMem_map_node hA hbefore) h

/-- **A derivation leaves a form fitting.** -/
theorem fits_of_derives (hA : A.MarkersTerminal) {u v : List σ} (h : g.Derives u v)
    (hu : g.Form u) (hfits : g.indexed.Fits (u.map g.node) []) :
    g.indexed.Fits (v.map g.node) [] := by
  induction h with
  | refl => exact hfits
  | step first _ ih =>
      refine ih (Form.of_derives (.step first (.refl _)) hu) ?_
      cases first with
      | replace hr before after =>
          exact fits_replace hA hr (form_append.mp hu).1.epsilon_notMem hfits

/-- In a form that fits, a terminal behind a nonterminal is in its FOLLOW set. -/
theorem mem_follow_of_fits (hA : A.MarkersTerminal) {u v : List σ} {a t : σ}
    (ha : a ∈ g.nonterms) (ht : t ∈ g.terms) (hne : t ≠ A.epsilon)
    (h : g.indexed.Fits ((u ++ a :: t :: v).map g.node) []) :
    g.terms.idxOf t ∈ (g.indexed.follow g.indexed.first).get (g.nonterms.idxOf a) := by
  rw [List.map_append, List.map_cons, List.map_cons, node_of_mem_nonterms ha,
    node_of_mem_terms hA ht, IndexedGrammar.fits_append, IndexedGrammar.fits_nonterm] at h
  have hid : g.terms.idxOf t < g.terms.length := List.idxOf_lt_length_of_mem ht
  exact h.2.1 _ (idxOf_ne_epsilonId ht hne) ((Family.mem_firstOf_term hid).mpr rfl)

theorem fits_nonterminal (hA : A.MarkersTerminal) {b : σ} (hb : b ∈ g.nonterms) :
    g.indexed.Fits ([b].map g.node) [] := by
  rw [List.map_singleton, node_of_mem_nonterms hb, IndexedGrammar.fits_nonterm]
  refine ⟨fun i hne hi => ?_, IndexedGrammar.fits_nil _⟩
  exact absurd ((Family.mem_firstOf_nil (g.indexed_wellNumbered hA).epsilonId_lt).mp hi) hne

/-- The form an automaton begins with fits. -/
theorem fits_marked_start (hA : A.MarkersTerminal) :
    g.indexed.Fits ([g.start, A.endMark].map g.node) [] := by
  rw [List.map_cons, List.map_singleton, node_endMark hA,
    node_of_nonterminal g.start_nonterminal]
  exact IndexedGrammar.fits_start (g.indexed_wellNumbered hA)

/-- Epsilon stands in no form. -/
theorem Follows.ne_epsilon (hA : A.MarkersTerminal) {a t : σ} (h : g.Follows a t) :
    t ≠ A.epsilon := by
  rcases h with ⟨b, hb, u, v, h⟩ | ⟨rfl, -⟩
  · have hform := (form_nonterminal hA hb).of_derives h
    exact (hform t (by simp)).2
  · exact Ne.symm A.epsilon_ne_endMark

/-- **FOLLOW sets are exact.** -/
theorem mem_follow_iff (hA : A.MarkersTerminal) {a t : σ} (ha : a ∈ g.nonterms)
    (ht : t ∈ g.terms) :
    g.terms.idxOf t ∈ (g.indexed.follow g.indexed.first).get (g.nonterms.idxOf a) ↔
      g.Follows a t := by
  refine ⟨follows_of_mem_follow hA ha ht, fun h => ?_⟩
  have hne := h.ne_epsilon hA
  rcases h with ⟨b, hb, u, v, h⟩ | ⟨rfl, u, h⟩
  · exact mem_follow_of_fits hA ha ht hne
      (fits_of_derives hA h (form_nonterminal hA hb) (fits_nonterminal hA hb))
  · have hmarked : g.Derives [g.start, A.endMark] (u ++ [a, A.endMark]) := by
      have := h.within [] [A.endMark]
      simpa using this
    exact mem_follow_of_fits hA ha ht hne
      (fits_of_derives hA hmarked (form_nonterminal hA start_mem_nonterms).marked
        (fits_marked_start hA))

end Grammar

end BusinessHours

/-
Conflicts.

A grammar is LL(1) if no two rules of a nonterminal are predicted on one terminal.  Which
rule is predicted where is said here by derivations alone: on what its body can begin with,
and on what can follow its left side if its body can vanish.

The recogniser of a grammar fails to exist exactly if two rules clash.  The clash it reports
is the first that the filling of the table comes to, so the rule that is refused is the
first with an earlier rule to clash with, the terminal is the first in the order in which
the rule is tried, and the rule that was there is the only one.
-/
import BusinessHours.Proofs.Grammar.Derivation
import BusinessHours.Proofs.Grammar.Letters
import BusinessHours.Proofs.LL1.FollowDerives
import BusinessHours.Proofs.LL1.Table
import Mathlib.Data.List.Sort

namespace BusinessHours

namespace Grammar

variable {σ : Type} [DecidableEq σ] {A : Alphabet σ} {g : Grammar A}

/-- The body of the rule can begin with the terminal. -/
def Begins (g : Grammar A) (q : Rule A) (t : σ) : Prop :=
  t ≠ A.epsilon ∧ A.isTerminal t = true ∧ ∃ v, g.Derives q.body (t :: v)

/-- The body of the rule can vanish, and the terminal can follow its left side. -/
def Succeeds (g : Grammar A) (q : Rule A) (t : σ) : Prop :=
  g.Derives q.body [] ∧ A.isTerminal t = true ∧ g.Follows q.lhs t

/-- The rule is predicted on the terminal. -/
def Predicts (g : Grammar A) (q : Rule A) (t : σ) : Prop := g.Begins q t ∨ g.Succeeds q t

open scoped Classical in
/-- The terminals a rule is tried on: those it begins with, then those that succeed it. -/
noncomputable def tried (g : Grammar A) (q : Rule A) : List σ :=
  g.terms.filter (fun t => g.Begins q t) ++ g.terms.filter (fun t => g.Succeeds q t)

/-- The rules in the two places expand one nonterminal, and are both predicted on the terminal. -/
def ClashOn (g : Grammar A) (i j : Nat) (t : σ) : Prop :=
  ∃ p q, g.rules[i]? = some p ∧ g.rules[j]? = some q ∧ p.lhs = q.lhs ∧
    g.Predicts p t ∧ g.Predicts q t

/-! ### Prediction by derivations and by sets -/

theorem begins_iff (hA : A.MarkersTerminal) {q : Rule A} {t : σ} (ht : t ∈ g.terms) :
    g.Begins q t ↔ g.terms.idxOf t ∈
      (g.indexed.first.firstOf (g.production q).rhs).erase epsilonId := by
  rw [IdSet.mem_erase]
  constructor
  · intro h
    obtain ⟨hne, -, h⟩ := h
    exact ⟨idxOf_ne_epsilonId ht hne,
      (exists_derives_cons_iff hA q.epsilon_notMem_body ht hne).mp h⟩
  · intro h
    obtain ⟨hid, h⟩ := h
    have hne : t ≠ A.epsilon := by
      intro h
      subst h
      exact hid idxOf_epsilon
    exact ⟨hne, isTerminal_of_mem_terms hA ht,
      (exists_derives_cons_iff hA q.epsilon_notMem_body ht hne).mpr h⟩

theorem succeeds_iff (hA : A.MarkersTerminal) {q : Rule A} (hq : q ∈ g.rules) {t : σ}
    (ht : t ∈ g.terms) : g.Succeeds q t ↔
      epsilonId ∈ g.indexed.first.firstOf (g.production q).rhs ∧
        g.terms.idxOf t ∈ (g.indexed.follow g.indexed.first).get (g.production q).lhs := by
  have hfollow := mem_follow_iff hA (lhs_mem_nonterms hq) ht
  have hvanish := derives_nil_iff hA (g := g) q.epsilon_notMem_body
  constructor
  · intro h
    obtain ⟨hnil, -, h⟩ := h
    exact ⟨hvanish.mp hnil, hfollow.mpr h⟩
  · intro h
    obtain ⟨hnil, h⟩ := h
    exact ⟨hvanish.mpr hnil, isTerminal_of_mem_terms hA ht, hfollow.mp h⟩

/-- The terminals with a property, by number, are the set of their numbers in order. -/
theorem map_idxOf_filter {n : Nat} (s : IdSet n) (hs : ∀ i ∈ s, i < g.terms.length)
    {P : σ → Bool} (hP : ∀ t ∈ g.terms, P t = true ↔ g.terms.idxOf t ∈ s) :
    (g.terms.filter P).map g.terms.idxOf = s.toList := by
  have hrange : g.terms.map g.terms.idxOf = List.range g.terms.length := by
    refine List.ext_getElem (by simp) fun i hi _ => ?_
    rw [List.getElem_map, List.getElem_range, g.terms_nodup.idxOf_getElem]
  have hsub : ((g.terms.filter P).map g.terms.idxOf).Sublist (List.range g.terms.length) := by
    rw [← hrange]
    exact List.filter_sublist.map _
  refine List.Pairwise.eq_of_mem_iff (List.pairwise_lt_range.sublist hsub)
    s.toList_ascending fun i => ?_
  rw [IdSet.mem_toList, List.mem_map]
  constructor
  · intro h
    obtain ⟨t, ht, rfl⟩ := h
    obtain ⟨hmem, hp⟩ := List.mem_filter.mp ht
    exact (hP t hmem).mp hp
  · intro hi
    have hlt := hs i hi
    have hid := g.terms_nodup.idxOf_getElem i hlt
    exact ⟨_, List.mem_filter.mpr ⟨List.getElem_mem hlt, (hP _ (List.getElem_mem hlt)).mpr
      (hid.symm ▸ hi)⟩, hid⟩

open scoped Classical in
/-- **A rule is tried on the terminals its production is predicted on, in the same order.** -/
theorem map_idxOf_tried (hA : A.MarkersTerminal) {q : Rule A} (hq : q ∈ g.rules) :
    (g.tried q).map g.terms.idxOf = (g.production q).predictedOn g.indexed.first
      (g.indexed.follow g.indexed.first) := by
  have wn := g.indexed_wellNumbered hA
  unfold tried Production.predictedOn
  rw [List.map_append]
  refine congrArg₂ _ (map_idxOf_filter _ ?_ ?_) ?_
  · intro i hi
    exact Family.lt_of_mem_firstOf wn.epsilonId_lt (fun _ _ => IndexedGrammar.lt_of_mem_first wn)
      (wn.term_lt _ (production_mem hq)) (IdSet.mem_erase.mp hi).2
  · intro t ht
    exact decide_eq_true_iff.trans (begins_iff hA ht)
  · split
    · rename_i he
      refine map_idxOf_filter _ (fun i hi => IndexedGrammar.lt_of_mem_follow wn hi) ?_
      intro t ht
      exact decide_eq_true_iff.trans ((succeeds_iff hA hq ht).trans (and_iff_right he))
    · rename_i he
      rw [List.map_eq_nil_iff, List.filter_eq_nil_iff]
      intro t ht hs
      exact he ((succeeds_iff hA hq ht).mp (decide_eq_true_iff.mp hs)).1

theorem Predicts.mem_terms (hA : A.MarkersTerminal) {q : Rule A} (hq : q ∈ g.rules) {t : σ}
    (h : g.Predicts q t) : t ∈ g.terms := by
  rcases h with ⟨-, ht, v, h⟩ | ⟨-, ht, ⟨b, hb, u, v, h⟩ | ⟨rfl, -⟩⟩
  · exact ((form_body hq).of_derives h).mem_terms List.mem_cons_self ht
  · exact ((form_nonterminal hA hb).of_derives h).mem_terms (by simp) ht
  · exact endMark_mem_terms

theorem Predicts.ne_epsilon (hA : A.MarkersTerminal) {q : Rule A} {t : σ}
    (h : g.Predicts q t) : t ≠ A.epsilon := by
  rcases h with ⟨hne, -⟩ | ⟨-, -, h⟩
  · exact hne
  · exact h.ne_epsilon hA

theorem mem_tried_iff (hA : A.MarkersTerminal) {q : Rule A} (hq : q ∈ g.rules) {t : σ} :
    t ∈ g.tried q ↔ g.Predicts q t := by
  simp only [tried, List.mem_append, List.mem_filter, decide_eq_true_eq, ← and_or_left]
  exact ⟨And.right, fun h => ⟨h.mem_terms hA hq, h⟩⟩

/-- A rule is predicted where its production is. -/
theorem predictedAt_iff (hA : A.MarkersTerminal) {i a k : Nat} :
    g.indexed.PredictedAt i a k ↔ ∃ q t, g.rules[i]? = some q ∧ g.nonterms.idxOf q.lhs = a ∧
      g.Predicts q t ∧ g.terms.idxOf t = k := by
  unfold IndexedGrammar.PredictedAt
  simp only [getElem?_prods, Option.map_eq_some_iff]
  constructor
  · intro h
    obtain ⟨p, ⟨q, hi, rfl⟩, ha, hk⟩ := h
    have hq := List.mem_of_getElem? hi
    rw [← map_idxOf_tried hA hq, List.mem_map] at hk
    obtain ⟨t, ht, hid⟩ := hk
    exact ⟨q, t, hi, ha, (mem_tried_iff hA hq).mp ht, hid⟩
  · intro h
    obtain ⟨q, t, hi, ha, ht, hid⟩ := h
    have hq := List.mem_of_getElem? hi
    refine ⟨_, ⟨q, hi, rfl⟩, ha, ?_⟩
    rw [← map_idxOf_tried hA hq, List.mem_map]
    exact ⟨t, (mem_tried_iff hA hq).mpr ht, hid⟩

/-- A rule is predicted in the row of its left side only. -/
theorem idxOf_lhs_of_predictedAt {i a k : Nat} {q : Rule A} (hi : g.rules[i]? = some q)
    (h : g.indexed.PredictedAt i a k) : g.nonterms.idxOf q.lhs = a := by
  obtain ⟨p, hp, ha, -⟩ := h
  rw [getElem?_prods, hi, Option.map_some, Option.some.injEq] at hp
  rw [← ha, ← hp]
  rfl

/-- **Two rules clash on a terminal where their productions share a cell.** -/
theorem clashOn_iff (hA : A.MarkersTerminal) {i j : Nat} {t : σ} (ht : t ∈ g.terms) :
    g.ClashOn i j t ↔ ∃ a, g.indexed.PredictedAt i a (g.terms.idxOf t) ∧
      g.indexed.PredictedAt j a (g.terms.idxOf t) := by
  simp only [predictedAt_iff hA]
  constructor
  · intro h
    obtain ⟨p, q, hi, hj, hl, hp, hq⟩ := h
    exact ⟨g.nonterms.idxOf q.lhs, ⟨p, t, hi, by rw [hl], hp, rfl⟩, q, t, hj, rfl, hq, rfl⟩
  · intro h
    obtain ⟨a, ⟨p, u, hi, rfl, hp, hu⟩, q, v, hj, hl, hq, hv⟩ := h
    have hpm := List.mem_of_getElem? hi
    have hqm := List.mem_of_getElem? hj
    obtain rfl := (List.idxOf_inj (hp.mem_terms hA hpm)).mp hu
    obtain rfl := (List.idxOf_inj (hq.mem_terms hA hqm)).mp hv
    exact ⟨p, q, hi, hj, ((List.idxOf_inj (lhs_mem_nonterms hqm)).mp hl).symm, hp, hq⟩

theorem ClashOn.mem_terms (hA : A.MarkersTerminal) {i j : Nat} {t : σ} (h : g.ClashOn i j t) :
    t ∈ g.terms := by
  obtain ⟨p, q, hi, -, -, hp, -⟩ := h
  exact hp.mem_terms hA (List.mem_of_getElem? hi)

end Grammar

/-! ### What is placed before a placement -/

/-- A member of a list of lists put together is a member of one of them, at some place. -/
private theorem split_flatMap {α β : Type} {f : α → List β} {x : β} {after : List β} :
    ∀ {xs : List α} {before : List β}, xs.flatMap f = before ++ x :: after →
      ∃ front a rest ts us, xs = front ++ a :: rest ∧ f a = ts ++ x :: us ∧
        before = front.flatMap f ++ ts := by
  intro xs
  induction xs with
  | nil => intro before h; simp at h
  | cons a xs ih =>
      intro before h
      rw [List.flatMap_cons, List.append_eq_append_iff] at h
      rcases h with ⟨middle, rfl, h⟩ | ⟨middle, hfa, h⟩
      · obtain ⟨front, b, rest, ts, us, rfl, hb, rfl⟩ := ih h
        exact ⟨a :: front, b, rest, ts, us, rfl, hb, by rw [List.flatMap_cons, List.append_assoc]⟩
      · cases middle with
        | nil =>
            have hempty : xs.flatMap f = [] ++ x :: after := h.symm
            obtain ⟨front, b, rest, ts, us, rfl, hb, hnil⟩ := ih hempty
            refine ⟨a :: front, b, rest, ts, us, rfl, hb, ?_⟩
            rw [List.flatMap_cons, List.append_assoc, ← hnil, hfa, List.append_nil,
              List.append_nil]
        | cons y middle =>
            rw [List.cons_append, List.cons.injEq] at h
            obtain ⟨rfl, -⟩ := h
            exact ⟨[], a, xs, before, middle, rfl, hfa, rfl⟩

namespace IndexedGrammar

variable {σ : Type} {G : IndexedGrammar σ}

/--
**What is placed before a placement:** all that earlier productions are placed on, and what
the production itself is placed on before.
-/
theorem mem_before_iff {before after : List Placement} {x : Placement}
    (h : G.placements G.first (G.follow G.first) = before ++ x :: after) :
    ∃ p ts us, G.prods[x.prod]? = some p ∧ p.lhs = x.nonterm ∧
      p.predictedOn G.first (G.follow G.first) = ts ++ x.term :: us ∧
      ∀ y : Placement, y ∈ before ↔
        y.prod < x.prod ∧ G.PredictedAt y.prod y.nonterm y.term ∨
        y.prod = x.prod ∧ y.nonterm = x.nonterm ∧ y.term ∈ ts := by
  obtain ⟨front, ⟨p, i⟩, rest, ts, us, hzip, hx, rfl⟩ := split_flatMap h
  obtain ⟨terms, tail, hpred, rfl, htail⟩ := List.map_eq_append_iff.mp hx
  obtain ⟨t, others, rfl, rfl, -⟩ := List.map_eq_cons_iff.mp htail
  -- The productions in front of this one are those in earlier places.
  obtain ⟨earlier, later, hprods, rfl, hlater⟩ := List.zipIdx_eq_append_iff.mp hzip
  obtain ⟨q, later', rfl, hq, -⟩ := List.zipIdx_eq_cons_iff.mp hlater.symm
  obtain ⟨rfl, rfl⟩ := Prod.mk.inj hq
  have hget : ∀ n q, earlier[n]? = some q ↔ n < earlier.length ∧ G.prods[n]? = some q := by
    intro n q
    rw [hprods]
    by_cases hn : n < earlier.length
    · rw [List.getElem?_append_left hn, and_iff_right hn]
    · rw [List.getElem?_eq_none (Nat.not_lt.mp hn)]
      simp [hn]
  refine ⟨p, terms, others, by simp [hprods], rfl, hpred, fun y => ?_⟩
  rw [List.mem_append, List.mem_flatMap, List.mem_map, Nat.zero_add]
  refine or_congr ?_ ?_
  · constructor
    · intro h
      obtain ⟨⟨q, n⟩, hq, hy⟩ := h
      obtain ⟨t, ht, rfl⟩ := List.mem_map.mp hy
      obtain ⟨hn, hq⟩ := (hget n q).mp (List.mk_mem_zipIdx_iff_getElem?.mp hq)
      exact ⟨hn, q, hq, rfl, ht⟩
    · intro h
      obtain ⟨hn, q, hq, hl, ht⟩ := h
      refine ⟨(q, y.prod), List.mk_mem_zipIdx_iff_getElem?.mpr ((hget _ _).mpr ⟨hn, hq⟩), ?_⟩
      exact List.mem_map.mpr ⟨y.term, ht, by rw [hl]⟩
  · constructor
    · intro h
      obtain ⟨t, ht, rfl⟩ := h
      exact ⟨rfl, rfl, ht⟩
    · intro h
      obtain ⟨hprod, hnonterm, ht⟩ := h
      obtain ⟨a, u, n⟩ := y
      obtain rfl : n = earlier.length := hprod
      obtain rfl : a = p.lhs := hnonterm
      exact ⟨u, ht, rfl⟩

end IndexedGrammar

/--
**The rule of a placement,** with the terminals it is tried on up to this one.  In front are the
placements of earlier rules, and its own on the terminals before.
-/
theorem Grammar.exists_rule_of_placement {σ : Type} [DecidableEq σ] {A : Alphabet σ}
    {g : Grammar A} (hA : A.MarkersTerminal) {before after : List Placement} {x : Placement}
    (h : g.indexed.placements g.indexed.first (g.indexed.follow g.indexed.first)
      = before ++ x :: after) :
    ∃ q front t rest, g.rules[x.prod]? = some q ∧ g.nonterms.idxOf q.lhs = x.nonterm ∧
      g.tried q = front ++ t :: rest ∧ g.terms.idxOf t = x.term ∧
      ∀ y : Placement, y ∈ before ↔
        y.prod < x.prod ∧ g.indexed.PredictedAt y.prod y.nonterm y.term ∨
        y.prod = x.prod ∧ y.nonterm = x.nonterm ∧ y.term ∈ front.map g.terms.idxOf := by
  obtain ⟨p, ts, us, hprod, hlhs, hpred, hbefore⟩ := IndexedGrammar.mem_before_iff h
  rw [getElem?_prods, Option.map_eq_some_iff] at hprod
  obtain ⟨q, hj, rfl⟩ := hprod
  rw [← map_idxOf_tried hA (List.mem_of_getElem? hj)] at hpred
  obtain ⟨front, behind, htried, rfl, hbehind⟩ := List.map_eq_append_iff.mp hpred
  obtain ⟨t, rest, rfl, hterm, -⟩ := List.map_eq_cons_iff.mp hbehind
  exact ⟨q, front, t, rest, hj, hlhs, htried, hterm, hbefore⟩

namespace Recognizer

variable {σ : Type} [DecidableEq σ] {A : Alphabet σ} {g : Grammar A}

/--
What the clash of a grammar reports: the rule `p` that was there, the rule `q` that is refused
and the terminal `t` on which they clash.
-/
structure Reports (g : Grammar A) (c : Clash) (p q : Rule A) (t : σ) : Prop where
  existing : g.rules[c.existing]? = some p
  conflicting : g.rules[c.placement.prod]? = some q
  lookahead : g.terms[c.placement.term]? = some t
  nonterminal : g.nonterms[c.placement.nonterm]? = some q.lhs
  /-- Up to the rule that is refused, no rule clashes with an earlier one. -/
  least : ∀ j < c.placement.prod, ∀ i < j, ∀ u, ¬ g.ClashOn i j u
  /-- The terminals this rule is tried on before show no clash. -/
  first : ∃ before after, g.tried q = before ++ t :: after ∧
    ∀ u ∈ before, ∀ i < c.placement.prod, ¬ g.ClashOn i c.placement.prod u
  /-- There is one earlier rule to clash with, the one that was there. -/
  unique : ∀ i, i < c.placement.prod ∧ g.ClashOn i c.placement.prod t ↔ i = c.existing
  message : c.message g = "the given grammar is not LL(1): `" ++ p.text ++ "` and `" ++ q.text ++
    "` both expand " ++ A.name q.lhs ++ " on " ++ A.name t

theorem message_eq {c : Clash} {p q : Rule A} {a t : σ} (hi : g.rules[c.existing]? = some p)
    (hj : g.rules[c.placement.prod]? = some q) (ha : g.nonterms[c.placement.nonterm]? = some a)
    (ht : g.terms[c.placement.term]? = some t) :
    c.message g = "the given grammar is not LL(1): `" ++ p.text ++ "` and `" ++ q.text ++
      "` both expand " ++ A.name a ++ " on " ++ A.name t := by
  have hrule : ∀ {i : Nat} {r : Rule A}, g.rules[i]? = some r →
      g.rules[i]?.elim "" Rule.text = r.text := by
    intro i r h
    rw [h]
    rfl
  have hname : ∀ {symbols : List σ} {i : Nat} {s : σ}, symbols[i]? = some s →
      A.nameAt symbols i = A.name s := by
    intro symbols i s h
    rw [Alphabet.nameAt, h]
    rfl
  rw [← hrule hi, ← hrule hj, ← hname ha, ← hname ht]
  unfold Clash.message
  dsimp only

/-- Rules that clash place two productions in one cell. -/
theorem not_clashFree_of_clashOn (hA : A.MarkersTerminal) {xs : List Placement} {i j : Nat}
    (hij : i ≠ j) {t : σ} (h : g.ClashOn i j t)
    (hi : ∀ a, g.indexed.PredictedAt i a (g.terms.idxOf t) → ⟨a, g.terms.idxOf t, i⟩ ∈ xs)
    (hj : ∀ a, g.indexed.PredictedAt j a (g.terms.idxOf t) → ⟨a, g.terms.idxOf t, j⟩ ∈ xs) :
    ¬ ClashFree xs := by
  obtain ⟨a, hpi, hpj⟩ := (Grammar.clashOn_iff hA (h.mem_terms hA)).mp h
  exact fun hfree => hfree _ (hi a hpi) _ (hj a hpj) ⟨rfl, rfl, hij⟩

/-- **The first clash of the placements is a report on the rules.** -/
theorem exists_reports_of_firstClash (hA : A.MarkersTerminal) {c : Clash}
    (h : FirstClash (g.indexed.placements g.indexed.first (g.indexed.follow g.indexed.first)) c) :
    ∃ p q t, Reports g c p q t := by
  obtain ⟨before, after, hsplit, hfree, hmem, hne⟩ := h
  obtain ⟨q, front, t, rest, hj, hlhs, htried, hterm, hbefore⟩ :=
    Grammar.exists_rule_of_placement hA hsplit
  have hq := List.mem_of_getElem? hj
  have hqt : g.Predicts q t := (Grammar.mem_tried_iff hA hq).mp (by simp [htried])
  have ht : t ∈ g.terms := hqt.mem_terms hA hq
  -- The rule that was there.
  obtain ⟨hlt, hat⟩ : c.existing < c.placement.prod ∧ g.indexed.PredictedAt c.existing
      c.placement.nonterm c.placement.term := by
    rcases (hbefore _).mp hmem with h | ⟨h, -⟩
    · exact h
    · exact absurd h hne
  obtain ⟨p, t', hi, hpl, hpt, hterm'⟩ := (Grammar.predictedAt_iff hA).mp hat
  obtain rfl : t = t' := (List.idxOf_inj ht).mp (hterm.trans hterm'.symm)
  have hsame : p.lhs = q.lhs := (List.idxOf_inj
    (Grammar.lhs_mem_nonterms (List.mem_of_getElem? hi))).mp (hpl.trans hlhs.symm)
  have hearlier : ∀ i < c.placement.prod, ∀ u a, g.indexed.PredictedAt i a (g.terms.idxOf u) →
      ⟨a, g.terms.idxOf u, i⟩ ∈ before := fun i hi u a h => (hbefore _).mpr (.inl ⟨hi, h⟩)
  have hlook : g.terms[c.placement.term]? = some t := by
    rw [← hterm, List.getElem?_idxOf ht]
  have hnonterm : g.nonterms[c.placement.nonterm]? = some q.lhs := by
    rw [← hlhs, List.getElem?_idxOf (Grammar.lhs_mem_nonterms hq)]
  refine ⟨p, q, t, hi, hj, hlook, hnonterm, ?_, ⟨front, rest, htried, ?_⟩, ?_, ?_⟩
  · intro j hj i hij u hclash
    exact not_clashFree_of_clashOn hA (Nat.ne_of_lt hij) hclash
      (hearlier i (hij.trans hj) u) (hearlier j hj u) hfree
  · intro u hu i hi hclash
    refine not_clashFree_of_clashOn hA (Nat.ne_of_lt hi) hclash (hearlier i hi u) ?_ hfree
    intro a hpj
    have ha : a = c.placement.nonterm :=
      (Grammar.idxOf_lhs_of_predictedAt hj hpj).symm.trans hlhs
    exact (hbefore _).mpr (.inr ⟨rfl, ha, List.mem_map_of_mem hu⟩)
  · intro i
    constructor
    · intro h
      obtain ⟨hi, hclash⟩ := h
      obtain ⟨a, hpi, hpj⟩ := (Grammar.clashOn_iff hA ht).mp hclash
      have ha : a = c.placement.nonterm :=
        (Grammar.idxOf_lhs_of_predictedAt hj hpj).symm.trans hlhs
      by_contra hne'
      exact hfree _ (hearlier i hi t a hpi) _ hmem ⟨ha, hterm, hne'⟩
    · intro h
      subst h
      exact ⟨hlt, p, q, hi, hj, hsame, hpt, hqt⟩
  · exact message_eq hi hj hnonterm hlook

/--
**A recogniser is refused exactly if two rules clash**, and what is reported is the first
clash: of the first rule that has one, on the first terminal, with the only rule there.
-/
theorem refused_iff_exists_clash (hA : A.MarkersTerminal) (g : Grammar A) :
    ((∃ c, ofGrammar? g = .error c) ↔ ∃ i j, i < j ∧ ∃ t, g.ClashOn i j t) ∧
      ∀ c, ofGrammar? g = .error c → ∃ p q t, Reports g c p q t := by
  have wn := g.indexed_wellNumbered hA
  have hall : ∀ i a t, g.indexed.PredictedAt i a (g.terms.idxOf t) →
      ⟨a, g.terms.idxOf t, i⟩ ∈
        g.indexed.placements g.indexed.first (g.indexed.follow g.indexed.first) :=
    fun i a t h => IndexedGrammar.mem_placements_iff.mpr h
  have hreports : ∀ c, ofGrammar? g = .error c → ∃ p q t, Reports g c p q t := by
    intro c hc
    rw [ofGrammar?_eq_error_iff] at hc
    rcases IndexedGrammar.table?_spec wn with ⟨T, hok, -⟩ | ⟨c', herr, hfirst⟩
    · rw [hok] at hc
      simp at hc
    · rw [herr, Except.error.injEq] at hc
      exact exists_reports_of_firstClash hA (hc ▸ hfirst)
  refine ⟨⟨?_, ?_⟩, hreports⟩
  · intro h
    obtain ⟨c, hc⟩ := h
    obtain ⟨p, q, t, h⟩ := hreports c hc
    obtain ⟨hlt, hclash⟩ := (h.unique c.existing).mpr rfl
    exact ⟨_, _, hlt, t, hclash⟩
  · intro h
    obtain ⟨i, j, hij, t, hclash⟩ := h
    rcases IndexedGrammar.table?_spec wn with ⟨T, -, -, hfree⟩ | ⟨c, herr, -⟩
    · exact absurd hfree (not_clashFree_of_clashOn hA (Nat.ne_of_lt hij) hclash
        (fun a h => hall i a t h) fun a h => hall j a t h)
    · exact ⟨c, ofGrammar?_eq_error_iff.mpr herr⟩

/-- A grammar with two rules that begin alike. -/
def prefixGrammar : Grammar Alphabet.letters :=
  letterGrammar 'S' [('S', ['a', 'b']), ('S', ['a', 'c'])]

theorem prefixGrammar_refused : ∃ c p q t, ofGrammar? prefixGrammar = .error c ∧
    Reports prefixGrammar c p q t ∧ ∃ i j, i < j ∧ ∃ t, prefixGrammar.ClashOn i j t := by
  obtain ⟨hiff, hreports⟩ := refused_iff_exists_clash (by decide) prefixGrammar
  have hnone : (ofGrammar? prefixGrammar).toOption.isSome = false := by decide +kernel
  cases hc : ofGrammar? prefixGrammar with
  | ok r => simp [hc, Except.toOption] at hnone
  | error c =>
      obtain ⟨p, q, t, h⟩ := hreports c hc
      exact ⟨c, p, q, t, rfl, h, hiff.mp ⟨c, hc⟩⟩

end Recognizer

end BusinessHours

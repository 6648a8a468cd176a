/-
The numbering of a grammar.

The analyses see numbers only, so every statement about symbols rests on the numbering
telling symbols apart.  A number is a place in `terms` or `nonterms`, neither of which
shows a symbol twice, and a terminal never shares its node with a nonterminal.  A symbol
that the grammar does not have gets the number behind the last one, which no symbol of the
grammar has.

`WellNumbered` is what the analyses rely on: every number in a production belongs to a
symbol, and epsilon, which is notation only, is in none of them.
-/
import BusinessHours.Grammar.Derivation
import BusinessHours.Grammar.Indexed
import Mathlib.Data.List.Basic

namespace BusinessHours

/-- The numbers a grammar uses are numbers of its symbols. -/
structure IndexedGrammar.WellNumbered {σ : Type} (G : IndexedGrammar σ) : Prop where
  /-- Both markers are terminals of the grammar. -/
  endId_lt : endId < G.termCount
  start_lt : G.start < G.nontermCount
  lhs_lt : ∀ p ∈ G.prods, p.lhs < G.nontermCount
  term_lt : ∀ p ∈ G.prods, ∀ t, Node.term t ∈ p.rhs → t < G.termCount
  nonterm_lt : ∀ p ∈ G.prods, ∀ a, Node.nonterm a ∈ p.rhs → a < G.nontermCount
  /-- Epsilon takes no place in a right side. -/
  epsilon_notMem : ∀ p ∈ G.prods, Node.term epsilonId ∉ p.rhs

theorem IndexedGrammar.WellNumbered.epsilonId_lt {σ : Type} {G : IndexedGrammar σ}
    (wn : G.WellNumbered) : epsilonId < G.termCount :=
  Nat.lt_trans Nat.zero_lt_one wn.endId_lt

/-- Keeping only the first of equal elements leaves no two equal ones. -/
theorem nodup_eraseDups {α : Type} [DecidableEq α] (l : List α) : l.eraseDups.Nodup := by
  match l with
  | [] => simp
  | a :: rest =>
      rw [List.eraseDups_cons, List.nodup_cons]
      exact ⟨by simp, nodup_eraseDups _⟩
termination_by l.length
decreasing_by exact Nat.lt_succ_of_le (List.length_filter_le _ _)

/-- The place of an element is found if the list has it. -/
theorem idxOf?_eq_some_iff_mem {α : Type} [DecidableEq α] {l : List α} {a : α} {i : Nat} :
    l.idxOf? a = some i ↔ a ∈ l ∧ l.idxOf a = i := by
  rw [List.idxOf_eq_getD_idxOf?, ← List.isSome_idxOf?]
  cases l.idxOf? a <;> simp

namespace Grammar

variable {σ : Type} [DecidableEq σ] {A : Alphabet σ} (g : Grammar A)

/-! ### The two lists of symbols -/

theorem terms_nodup : g.terms.Nodup := nodup_eraseDups _

variable {g}

theorem mem_terms_iff {s : σ} : s ∈ g.terms ↔ s = A.epsilon ∨ s = A.endMark ∨
    ∃ r ∈ g.rules, s ∈ r.body ∧ A.isTerminal s = true := by
  simp [terms, List.mem_eraseDups]

theorem mem_nonterms_iff {s : σ} : s ∈ g.nonterms ↔ ∃ r ∈ g.rules, r.lhs = s := by
  simp [nonterms, List.mem_eraseDups]

theorem epsilon_mem_terms : A.epsilon ∈ g.terms := mem_terms_iff.mpr (.inl rfl)

theorem endMark_mem_terms : A.endMark ∈ g.terms := mem_terms_iff.mpr (.inr (.inl rfl))

theorem lhs_mem_nonterms {r : Rule A} (hr : r ∈ g.rules) : r.lhs ∈ g.nonterms :=
  mem_nonterms_iff.mpr ⟨r, hr, rfl⟩

theorem start_mem_nonterms : g.start ∈ g.nonterms := by
  obtain ⟨r, hr, hl⟩ := List.mem_map.mp g.start_mem_lhs
  exact mem_nonterms_iff.mpr ⟨r, hr, hl⟩

theorem isTerminal_of_mem_terms (hA : A.MarkersTerminal) {s : σ} (hs : s ∈ g.terms) :
    A.isTerminal s = true := by
  rcases mem_terms_iff.mp hs with rfl | rfl | ⟨_, _, _, ht⟩
  · exact hA.1
  · exact hA.2
  · exact ht

theorem isTerminal_of_mem_nonterms {s : σ} (hs : s ∈ g.nonterms) : A.isTerminal s = false := by
  obtain ⟨r, -, rfl⟩ := mem_nonterms_iff.mp hs
  exact r.lhs_nonterminal

/-- A nonterminal of a body is a nonterminal of the grammar, since a grammar is closed. -/
theorem mem_nonterms_of_mem_body {r : Rule A} (hr : r ∈ g.rules) {s : σ} (hs : s ∈ r.body)
    (ht : A.isTerminal s = false) : s ∈ g.nonterms := by
  have hm : s ∈ mentioned g.start g.rules :=
    List.mem_cons_of_mem _ (List.mem_flatMap.mpr ⟨r, hr, Rule.mem_rhs_of_mem_body hs⟩)
  obtain ⟨q, hq, hl⟩ := List.mem_map.mp (g.closed s hm ht)
  exact mem_nonterms_iff.mpr ⟨q, hq, hl⟩

/-- Each symbol of a body is a terminal or a nonterminal of the grammar. -/
theorem mem_of_mem_body {r : Rule A} (hr : r ∈ g.rules) {s : σ} (hs : s ∈ r.body) :
    s ∈ g.terms ∨ s ∈ g.nonterms := by
  cases ht : A.isTerminal s with
  | true => exact .inl (mem_terms_iff.mpr (.inr (.inr ⟨r, hr, hs, ht⟩)))
  | false => exact .inr (mem_nonterms_of_mem_body hr hs ht)

/-! ### The markers come first -/

theorem idxOf_epsilon : g.terms.idxOf A.epsilon = epsilonId := by
  unfold terms
  rw [List.eraseDups_cons]
  exact List.idxOf_cons_self

theorem idxOf_endMark : g.terms.idxOf A.endMark = endId := by
  have hne : (!A.endMark == A.epsilon) = true := by
    simpa using Ne.symm A.epsilon_ne_endMark
  unfold terms
  rw [List.eraseDups_cons, List.filter_cons, if_pos hne, List.eraseDups_cons,
    List.idxOf_cons_ne _ A.epsilon_ne_endMark, List.idxOf_cons_self]
  rfl

/-- Only epsilon has the number of epsilon. -/
theorem idxOf_ne_epsilonId {t : σ} (ht : t ∈ g.terms) (hne : t ≠ A.epsilon) :
    g.terms.idxOf t ≠ epsilonId := by
  intro h
  rw [← idxOf_epsilon (g := g)] at h
  exact hne ((List.idxOf_inj ht).mp h)

/-! ### Nodes -/

variable (g) in
/-- A symbol as a node of the grammar. -/
def node (s : σ) : Node := nodeOf A g.terms g.nonterms s

variable (g) in
/-- A rule as a production of the grammar. -/
def production (r : Rule A) : Production := ⟨g.nonterms.idxOf r.lhs, r.body.map g.node⟩

theorem node_of_terminal {s : σ} (hs : A.isTerminal s = true) :
    g.node s = .term (g.terms.idxOf s) := by
  simp [node, nodeOf, hs]

theorem node_of_nonterminal {s : σ} (hs : A.isTerminal s = false) :
    g.node s = .nonterm (g.nonterms.idxOf s) := by
  simp [node, nodeOf, hs]

theorem node_of_mem_terms (hA : A.MarkersTerminal) {t : σ} (ht : t ∈ g.terms) :
    g.node t = .term (g.terms.idxOf t) :=
  node_of_terminal (isTerminal_of_mem_terms hA ht)

theorem node_of_mem_nonterms {a : σ} (ha : a ∈ g.nonterms) :
    g.node a = .nonterm (g.nonterms.idxOf a) :=
  node_of_nonterminal (isTerminal_of_mem_nonterms ha)

/-- **Only a terminal of the grammar has the node of that terminal.** -/
theorem node_eq_term_iff (hA : A.MarkersTerminal) {s t : σ} (ht : t ∈ g.terms) :
    g.node s = .term (g.terms.idxOf t) ↔ s = t := by
  constructor
  · intro h
    cases hs : A.isTerminal s with
    | true =>
        rw [node_of_terminal hs, Node.term.injEq] at h
        exact ((List.idxOf_inj ht).mp h.symm).symm
    | false => rw [node_of_nonterminal hs] at h; simp at h
  · intro h
    subst h
    exact node_of_mem_terms hA ht

theorem node_eq_epsilon_iff (hA : A.MarkersTerminal) {s : σ} :
    g.node s = .term epsilonId ↔ s = A.epsilon := by
  rw [← idxOf_epsilon (g := g)]
  exact node_eq_term_iff hA epsilon_mem_terms

theorem node_endMark (hA : A.MarkersTerminal) : g.node A.endMark = .term endId := by
  rw [node_of_mem_terms hA endMark_mem_terms, idxOf_endMark]

/-- A form without epsilon has no node of epsilon. -/
theorem epsilon_notMem_map_node (hA : A.MarkersTerminal) {u : List σ} (hu : A.epsilon ∉ u) :
    Node.term epsilonId ∉ u.map g.node := by
  intro h
  obtain ⟨s, hs, hn⟩ := List.mem_map.mp h
  exact hu ((node_eq_epsilon_iff hA).mp hn ▸ hs)

/-! ### Productions -/

theorem indexed_prods : g.indexed.prods = g.rules.map g.production := rfl

theorem getElem?_prods (i : Nat) : g.indexed.prods[i]? = g.rules[i]?.map g.production := by
  rw [indexed_prods, List.getElem?_map]

theorem production_mem {r : Rule A} (hr : r ∈ g.rules) : g.production r ∈ g.indexed.prods :=
  List.mem_map_of_mem hr

theorem exists_rule_of_mem_prods {p : Production} (hp : p ∈ g.indexed.prods) :
    ∃ r ∈ g.rules, g.production r = p := List.mem_map.mp hp

/-- **The numbers of a grammar are in order.** -/
theorem indexed_wellNumbered (hA : A.MarkersTerminal) : g.indexed.WellNumbered where
  endId_lt := by
    rw [← idxOf_endMark (g := g)]
    exact List.idxOf_lt_length_of_mem endMark_mem_terms
  start_lt := List.idxOf_lt_length_of_mem start_mem_nonterms
  lhs_lt := by
    intro p hp
    obtain ⟨r, hr, rfl⟩ := exists_rule_of_mem_prods hp
    exact List.idxOf_lt_length_of_mem (lhs_mem_nonterms hr)
  term_lt := by
    intro p hp t ht
    obtain ⟨r, hr, rfl⟩ := exists_rule_of_mem_prods hp
    obtain ⟨s, hs, hn⟩ := List.mem_map.mp ht
    rcases mem_of_mem_body hr hs with hm | hm
    · rw [node_of_mem_terms hA hm, Node.term.injEq] at hn
      exact hn ▸ List.idxOf_lt_length_of_mem hm
    · rw [node_of_mem_nonterms hm] at hn; simp at hn
  nonterm_lt := by
    intro p hp a ha
    obtain ⟨r, hr, rfl⟩ := exists_rule_of_mem_prods hp
    obtain ⟨s, hs, hn⟩ := List.mem_map.mp ha
    rcases mem_of_mem_body hr hs with hm | hm
    · rw [node_of_mem_terms hA hm] at hn; simp at hn
    · rw [node_of_mem_nonterms hm, Node.nonterm.injEq] at hn
      exact hn ▸ List.idxOf_lt_length_of_mem hm
  epsilon_notMem := by
    intro p hp
    obtain ⟨r, -, rfl⟩ := exists_rule_of_mem_prods hp
    exact epsilon_notMem_map_node hA r.epsilon_notMem_body

/-! ### Forms -/

variable (g) in
/-- A sentential form: symbols of the grammar, epsilon not among them. -/
def Form (u : List σ) : Prop := ∀ s ∈ u, (s ∈ g.terms ∨ s ∈ g.nonterms) ∧ s ≠ A.epsilon

theorem form_cons {s : σ} {u : List σ} :
    g.Form (s :: u) ↔ ((s ∈ g.terms ∨ s ∈ g.nonterms) ∧ s ≠ A.epsilon) ∧ g.Form u :=
  List.forall_mem_cons

theorem form_append {u v : List σ} : g.Form (u ++ v) ↔ g.Form u ∧ g.Form v :=
  List.forall_mem_append

theorem Form.epsilon_notMem {u : List σ} (h : g.Form u) : A.epsilon ∉ u :=
  fun he => (h _ he).2 rfl

theorem form_body {r : Rule A} (hr : r ∈ g.rules) : g.Form r.body := by
  intro s hs
  refine ⟨mem_of_mem_body hr hs, ?_⟩
  intro h
  subst h
  exact r.epsilon_notMem_body hs

theorem form_nonterminal (hA : A.MarkersTerminal) {a : σ} (ha : a ∈ g.nonterms) :
    g.Form [a] := by
  intro s hs
  obtain rfl := List.mem_singleton.mp hs
  refine ⟨.inr ha, ?_⟩
  intro h
  subst h
  have := isTerminal_of_mem_nonterms ha
  rw [hA.1] at this
  simp at this

/-- An end mark may stand behind a form. -/
theorem Form.marked {u : List σ} (h : g.Form u) : g.Form (u ++ [A.endMark]) := by
  have hne : A.endMark ≠ A.epsilon := Ne.symm A.epsilon_ne_endMark
  refine form_append.mpr ⟨h, form_cons.mpr ⟨⟨.inl endMark_mem_terms, hne⟩, ?_⟩⟩
  intro s hs
  simp at hs

theorem Form.of_derives {u v : List σ} (h : g.Derives u v) (hu : g.Form u) : g.Form v := by
  induction h with
  | refl => exact hu
  | step first _ ih =>
      cases first with
      | replace hr before after =>
          rw [form_append, form_cons] at hu
          exact ih (form_append.mpr ⟨hu.1, form_append.mpr ⟨form_body hr, hu.2.2⟩⟩)

/-- The terminals of a form are terminals of the grammar. -/
theorem Form.mem_terms {u : List σ} (h : g.Form u) {t : σ} (ht : t ∈ u)
    (hterm : A.isTerminal t = true) : t ∈ g.terms := by
  rcases (h t ht).1 with hm | hm
  · exact hm
  · rw [isTerminal_of_mem_nonterms hm] at hterm
    simp at hterm

/-- The nonterminals of a form are nonterminals of the grammar. -/
theorem Form.mem_nonterms (hA : A.MarkersTerminal) {u : List σ} (h : g.Form u) {a : σ}
    (ha : a ∈ u) (hterm : A.isTerminal a = false) : a ∈ g.nonterms := by
  rcases (h a ha).1 with hm | hm
  · rw [isTerminal_of_mem_terms hA hm] at hterm
    simp at hterm
  · exact hm

end Grammar

end BusinessHours

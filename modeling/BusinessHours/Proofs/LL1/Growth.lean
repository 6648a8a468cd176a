/-
More rules, and rules in another order.

Every number of a grammar may change with its rules: those of the terminals and nonterminals,
of the productions, and so the order in which rounds and tables are filled.  What an answer
says in symbols is about derivations, and a derivation by some rules is one by more rules.
So sets grow with the rules, and so does what a rule is predicted on.

A table needs more than that, because with more rules two may clash.  Its rules have to be
apart in pairs, which is no matter of order, and fewer rules are apart where more are.  If both
grammars have a table, the smaller one has its entries in common with the larger one, and
a run of the automaton sees nothing of a table but its entries.

Rules are counted: a rule that is written twice is two rules, which may clash.
-/
import BusinessHours.Proofs.LL1.Queries
import Mathlib.Data.List.Perm.Subperm

namespace BusinessHours

namespace Grammar

variable {σ : Type} [DecidableEq σ] {A : Alphabet σ} {g g' : Grammar A}

/-- The grammars have one start symbol, and the rules of the first are rules of the second. -/
structure Within (g g' : Grammar A) : Prop where
  start_eq : g.start = g'.start
  rules_subset : g.rules ⊆ g'.rules

/-- No terminal makes the two rules expand one nonterminal. -/
def Apart (g : Grammar A) (p q : Rule A) : Prop :=
  p.lhs = q.lhs → ∀ t, ¬ (g.Predicts p t ∧ g.Predicts q t)

/-! ### What grows -/

namespace Within

variable (hw : g.Within g')
include hw

theorem mem_terms {t : σ} (ht : t ∈ g.terms) : t ∈ g'.terms := by
  rw [mem_terms_iff] at ht ⊢
  refine ht.imp_right (Or.imp_right fun h => ?_)
  obtain ⟨r, hr, hbody⟩ := h
  exact ⟨r, hw.rules_subset hr, hbody⟩

theorem mem_nonterms {a : σ} (ha : a ∈ g.nonterms) : a ∈ g'.nonterms := by
  rw [mem_nonterms_iff] at ha ⊢
  obtain ⟨r, hr, hl⟩ := ha
  exact ⟨r, hw.rules_subset hr, hl⟩

theorem follows {a t : σ} (h : g.Follows a t) : g'.Follows a t := by
  rcases h with ⟨b, hb, u, v, h⟩ | ⟨ht, u, h⟩
  · exact .inl ⟨b, hw.mem_nonterms hb, u, v, h.mono hw.rules_subset⟩
  · exact .inr ⟨ht, u, hw.start_eq ▸ h.mono hw.rules_subset⟩

/-- **A rule is predicted wherever it is with fewer rules.** -/
theorem predicts {q : Rule A} {t : σ} (h : g.Predicts q t) : g'.Predicts q t := by
  rcases h with ⟨hne, ht, v, h⟩ | ⟨hnil, ht, h⟩
  · exact .inl ⟨hne, ht, v, h.mono hw.rules_subset⟩
  · exact .inr ⟨hnil.mono hw.rules_subset, ht, hw.follows h⟩

/-- **FIRST sets grow with the rules.** -/
theorem firstSymbols_subset (hA : A.MarkersTerminal) (a : σ) :
    g.firstSymbols a ⊆ g'.firstSymbols a := by
  intro t ht
  have ha := isTerminal_of_mem_nonterms (mem_nonterms_of_mem_get (mem_firstSymbols_iff.mp ht).2)
  by_cases hne : t = A.epsilon
  · subst hne
    rw [epsilon_mem_firstSymbols_iff hA] at ht ⊢
    exact ht.mono hw.rules_subset
  · rw [mem_firstSymbols_iff_derives hA ha hne] at ht ⊢
    obtain ⟨hterm, v, h⟩ := ht
    exact ⟨hterm, v, h.mono hw.rules_subset⟩

/-- **FOLLOW sets grow with the rules.** -/
theorem followSymbols_subset (hA : A.MarkersTerminal) (a : σ) :
    g.followSymbols a ⊆ g'.followSymbols a := by
  intro t ht
  have ha := isTerminal_of_mem_nonterms (mem_nonterms_of_mem_get (mem_followSymbols_iff.mp ht).2)
  rw [mem_followSymbols_iff_follows hA ha] at ht ⊢
  exact ht.imp_right hw.follows

/-- Rules that are apart with more rules are apart with fewer. -/
theorem apart {p q : Rule A} (h : g'.Apart p q) : g.Apart p q :=
  fun hl t ht => h hl t (ht.imp hw.predicts hw.predicts)

end Within

/-! ### Rules that are apart -/

theorem Apart.symm {p q : Rule A} (h : g.Apart p q) : g.Apart q p :=
  fun hl t ht => h hl.symm t ht.symm

theorem pairwise_apart_iff :
    g.rules.Pairwise g.Apart ↔ ∀ i j, i < j → ∀ t, ¬ g.ClashOn i j t := by
  rw [List.pairwise_iff_getElem]
  constructor
  · intro h i j hij t hclash
    obtain ⟨p, q, hi, hj, hl, hp, hq⟩ := hclash
    obtain ⟨hilt, rfl⟩ := List.getElem?_eq_some_iff.mp hi
    obtain ⟨hjlt, rfl⟩ := List.getElem?_eq_some_iff.mp hj
    exact h i j hilt hjlt hij hl t ⟨hp, hq⟩
  · intro h i j hi hj hij hl t ht
    exact h i j hij t ⟨_, _, List.getElem?_eq_getElem hi, List.getElem?_eq_getElem hj, hl, ht⟩

/-- **Fewer rules are apart in pairs where more are**, in whatever order. -/
theorem pairwise_apart_of_subperm (hw : g.Within g') (hsub : g.rules.Subperm g'.rules)
    (h : g'.rules.Pairwise g'.Apart) : g.rules.Pairwise g.Apart := by
  obtain ⟨rules, hperm, hsublist⟩ := hsub
  have hrules : rules.Pairwise g'.Apart := h.sublist hsublist
  exact ((hperm.pairwise_iff fun h => h.symm).mp hrules).imp hw.apart

end Grammar

namespace Recognizer

variable {σ : Type} [DecidableEq σ] {A : Alphabet σ} {g g' : Grammar A} {r r' : Recognizer A}

/-! ### Recognisers that exist -/

/-- **A grammar has a recogniser exactly if its rules are apart in pairs.** -/
theorem exists_ofGrammar?_eq_ok_iff (hA : A.MarkersTerminal) :
    (∃ r, ofGrammar? g = .ok r) ↔ g.rules.Pairwise g.Apart := by
  have wn := g.indexed_wellNumbered hA
  rw [Grammar.pairwise_apart_iff]
  constructor
  · intro h i j hij t hclash
    obtain ⟨r, hr⟩ := h
    obtain ⟨T, hT, -⟩ := ofGrammar?_eq_ok hr
    rcases IndexedGrammar.table?_spec wn with ⟨-, -, -, hfree⟩ | ⟨c, herr, -⟩
    · exact not_clashFree_of_clashOn hA (Nat.ne_of_lt hij) hclash
        (fun a h => IndexedGrammar.mem_placements_iff.mpr h)
        (fun a h => IndexedGrammar.mem_placements_iff.mpr h) hfree
    · rw [hT] at herr
      simp at herr
  · intro hnone
    cases hresult : ofGrammar? g with
    | ok r => exact ⟨r, rfl⟩
    | error c =>
        rw [ofGrammar?_eq_error_iff] at hresult
        rcases IndexedGrammar.table?_spec wn with ⟨T, hok, -⟩ | ⟨c', -, hfirst⟩
        · rw [hok] at hresult
          simp at hresult
        · obtain ⟨p, q, t, hreports⟩ := exists_reports_of_firstClash hA hfirst
          obtain ⟨hlt, hclash⟩ := (hreports.unique c'.existing).mpr rfl
          exact absurd hclash (hnone _ _ hlt t)

/-! ### Entries and runs -/

/-- **An entry stays with more rules.** -/
theorem tableEntry?_of_within (hA : A.MarkersTerminal) (hw : g.Within g')
    (h : ofGrammar? g = .ok r) (h' : ofGrammar? g' = .ok r') {a t : σ} {q : Rule A}
    (hq : r.tableEntry? a t = some q) : r'.tableEntry? a t = some q := by
  rw [tableEntry?_eq_some_iff hA h] at hq
  exact (tableEntry?_eq_some_iff hA h').mpr
    ⟨hw.rules_subset hq.1, hq.2.1, hw.predicts hq.2.2⟩

/-- What the automaton predicts is the body of the rule in the table. -/
theorem predicted?_eq_map_body (h : ofGrammar? g = .ok r) {a t : σ} (ha : a ∈ g.nonterms)
    (ht : t ∈ g.terms) :
    r.indexed.predicted? r.table (g.nonterms.idxOf a) (g.terms.idxOf t) =
      ( r.tableEntry? a t).map fun q => q.body.map g.node := by
  obtain ⟨T, hT, rfl⟩ := ofGrammar?_eq_ok h
  have haid : g.indexed.nontermId? a = some (g.nonterms.idxOf a) :=
    idxOf?_eq_some_iff_mem.mpr ⟨ha, rfl⟩
  have htid : g.indexed.termId? t = some (g.terms.idxOf t) :=
    idxOf?_eq_some_iff_mem.mpr ⟨ht, rfl⟩
  have hrhs : g.indexed.rhsAt? = fun i => g.rules[i]?.map fun q => q.body.map g.node := by
    funext i
    rw [IndexedGrammar.rhsAt?, Grammar.getElem?_prods, Option.map_map]
    rfl
  unfold tableEntry?
  simp only [haid, htid, Option.bind_eq_bind, Option.bind_some, Option.map_bind]
  rw [IndexedGrammar.predicted?, hrhs]
  rfl

/-- **A nonterminal on top is replaced by the body of the rule in the table**, if there is one. -/
theorem step_nonterminal_eq (h : ofGrammar? g = .ok r) {a t : σ} (ha : a ∈ g.nonterms)
    (ht : t ∈ g.terms) (form text : List σ) :
    r.indexed.step r.table (g.toRead (a :: form) (t :: text)) =
      match r.tableEntry? a t with
      | some q => .goOn (g.toRead (q.body ++ form) (t :: text))
      | none => .reject := by
  rw [Grammar.toRead, List.map_cons, List.map_cons, Grammar.node_of_mem_nonterms ha,
    IndexedGrammar.step, predicted?_eq_map_body h ha ht]
  cases r.tableEntry? a t with
  | none => rfl
  | some q => simp only [Option.map_some, Grammar.toRead, List.map_append, List.map_cons]

/--
**A move is the same with more rules,** unless it rejects: what is on top is read, accepted, or
replaced by the same body.
-/
theorem step_of_within (hA : A.MarkersTerminal) (hw : g.Within g') (h : ofGrammar? g = .ok r)
    (h' : ofGrammar? g' = .ok r') {form text : List σ} (hform : g.Form form)
    (htext : ∀ t ∈ text, t ∈ g.terms) :
    r.indexed.step r.table (g.toRead form text) = .reject ∨
    r'.indexed.step r'.table (g'.toRead form text) = .accept ∨
    ∃ form' text', g.Form form' ∧ (∀ t ∈ text', t ∈ g.terms) ∧
      r.indexed.step r.table (g.toRead form text) = .goOn (g.toRead form' text') ∧
      r'.indexed.step r'.table (g'.toRead form text) = .goOn (g'.toRead form' text') := by
  match form, text with
  | [], _ => exact .inl rfl
  | s :: form, [] =>
      refine .inl ?_
      rw [Grammar.toRead, List.map_cons]
      cases g.node s <;> rfl
  | s :: form, t :: text =>
      obtain ⟨⟨hs, -⟩, hrest⟩ := Grammar.form_cons.mp hform
      obtain ⟨ht, htext'⟩ := List.forall_mem_cons.mp htext
      rcases hs with hs | hs
      · obtain ⟨T, hT, rfl⟩ := ofGrammar?_eq_ok h
        obtain ⟨T', hT', rfl⟩ := ofGrammar?_eq_ok h'
        rw [Grammar.step_terminal hA hs, Grammar.step_terminal hA (hw.mem_terms hs)]
        by_cases hst : s = t
        · rw [if_pos hst, if_pos hst]
          by_cases hend : s = A.endMark
          · exact .inr (.inl (if_pos hend))
          · exact .inr (.inr ⟨form, text, hrest, htext', if_neg hend, if_neg hend⟩)
        · exact .inl (if_neg hst)
      · rw [step_nonterminal_eq h hs ht,
          step_nonterminal_eq h' (hw.mem_nonterms hs) (hw.mem_terms ht)]
        cases hentry : r.tableEntry? s t with
        | none => exact .inl rfl
        | some q =>
            have hq := ((tableEntry?_eq_some_iff hA h).mp hentry).1
            have hbody := Grammar.form_append.mpr ⟨Grammar.form_body hq, hrest⟩
            rw [tableEntry?_of_within hA hw h h' hentry]
            exact .inr (.inr ⟨q.body ++ form, t :: text, hbody, htext, rfl, rfl⟩)

/-- **A run that accepts does so with more rules.** -/
theorem run_of_within (hA : A.MarkersTerminal) (hw : g.Within g') (h : ofGrammar? g = .ok r)
    (h' : ofGrammar? g' = .ok r') {n : Nat} {form text : List σ} (hform : g.Form form)
    (htext : ∀ t ∈ text, t ∈ g.terms)
    (hrun : r.indexed.run r.table n (g.toRead form text) = some true) :
    r'.indexed.run r'.table n (g'.toRead form text) = some true := by
  -- On the fuel: what is left behind a move is a form and a text of the smaller grammar again.
  induction n generalizing form text with
  | zero => simp [IndexedGrammar.run] at hrun
  | succ n ih =>
      rw [IndexedGrammar.run] at hrun ⊢
      rcases step_of_within hA hw h h' hform htext with
        hreject | haccept | ⟨form', text', hform', htext', hstep, hstep'⟩
      · rw [hreject] at hrun
        simp at hrun
      · rw [haccept]
      · rw [hstep] at hrun
        rw [hstep']
        exact ih hform' htext' hrun

/-! ### Verdicts -/

/-- Two recognisers that both accept or both reject explain it in the same way. -/
theorem validate_eq_of_isAccepted_iff {tokens : List (Token σ)}
    (h : (r.validate tokens).isAccepted = true ↔ (r'.validate tokens).isAccepted = true) :
    r.validate tokens = r'.validate tokens := by
  cases hfind : tokens.find? (fun t => A.isUnknown t.symbol) with
  | some t => rw [r.validate_of_unknown hfind, r'.validate_of_unknown hfind]
  | none =>
      have hknown : ∀ t ∈ tokens, A.isUnknown t.symbol = false := fun t ht =>
        Bool.eq_false_iff.mpr (List.find?_eq_none.mp hfind t ht)
      rcases r.validate_of_known hknown with hr | hr <;>
        rcases r'.validate_of_known hknown with hr' | hr' <;>
        rw [hr, hr'] at h ⊢ <;> simp [Verdict.isAccepted] at h

/-- **Tokens that are accepted are accepted with more rules.** -/
theorem isAccepted_of_within (hA : A.MarkersTerminal) (hw : g.Within g')
    (h : ofGrammar? g = .ok r) (h' : ofGrammar? g' = .ok r') {tokens : List (Token σ)}
    (haccept : (r.validate tokens).isAccepted = true) :
    (r'.validate tokens).isAccepted = true := by
  rw [isAccepted_validate_iff, exists_accepts_iff_exists_run hA h] at haccept
  rw [isAccepted_validate_iff, exists_accepts_iff_exists_run hA h']
  refine haccept.imp_right (And.imp_right fun hread => ?_)
  obtain ⟨hterms, n, hn⟩ := hread
  refine ⟨fun s hs => hw.mem_terms (hterms s hs), n, ?_⟩
  have hform : g.Form ([g.start] ++ [A.endMark]) :=
    (Grammar.form_nonterminal hA Grammar.start_mem_nonterms).marked
  have htext : ∀ t ∈ A.lessEnd (tokens.map Token.symbol) ++ [A.endMark], t ∈ g.terms := by
    intro s hs
    rcases List.mem_append.mp hs with hs | hs
    · exact hterms s (mem_of_mem_lessEnd hs)
    · rw [List.mem_singleton.mp hs]
      exact Grammar.endMark_mem_terms
  rw [← hw.start_eq]
  exact run_of_within hA hw h h' hform htext hn

/-! ### Two grammars -/

variable (g g') in
/--
**Answers grow with the rules, and their order counts for nothing.**  With more rules sets have
more members.  If the recogniser with more rules exists, so does the one with fewer, and it shares
its entries and the tokens it accepts with the other.  For the same rules in another order all
answers are the same, explanations included.
-/
theorem answers_grow (hA : A.MarkersTerminal) (hstart : g.start = g'.start)
    (hsub : g.rules.Subperm g'.rules) :
    (∀ a, g.firstSymbols a ⊆ g'.firstSymbols a ∧ g.followSymbols a ⊆ g'.followSymbols a) ∧
    (∀ r', ofGrammar? g' = .ok r' → ∃ r, ofGrammar? g = .ok r ∧
      (∀ a t q, r.tableEntry? a t = some q → r'.tableEntry? a t = some q) ∧
      ∀ tokens, (r.validate tokens).isAccepted = true → (r'.validate tokens).isAccepted = true) ∧
    (g.rules.Perm g'.rules →
      (∀ a t, (t ∈ g.firstSymbols a ↔ t ∈ g'.firstSymbols a) ∧
        (t ∈ g.followSymbols a ↔ t ∈ g'.followSymbols a)) ∧
      ((∃ r, ofGrammar? g = .ok r) ↔ ∃ r', ofGrammar? g' = .ok r') ∧
      ∀ r r', ofGrammar? g = .ok r → ofGrammar? g' = .ok r' →
        (∀ a t, r.tableEntry? a t = r'.tableEntry? a t) ∧
        ∀ tokens, r.validate tokens = r'.validate tokens) := by
  have hw : g.Within g' := ⟨hstart, hsub.subset⟩
  refine ⟨fun a => ⟨hw.firstSymbols_subset hA a, hw.followSymbols_subset hA a⟩, ?_, ?_⟩
  · intro r' h'
    have hapart := (exists_ofGrammar?_eq_ok_iff hA).mp ⟨r', h'⟩
    obtain ⟨r, h⟩ := (exists_ofGrammar?_eq_ok_iff hA).mpr
      (Grammar.pairwise_apart_of_subperm hw hsub hapart)
    exact ⟨r, h, fun _ _ _ => tableEntry?_of_within hA hw h h',
      fun _ => isAccepted_of_within hA hw h h'⟩
  · intro hperm
    have hw' : g'.Within g := ⟨hstart.symm, hperm.symm.subset⟩
    refine ⟨fun a t => ⟨⟨fun h => ?_, fun h => ?_⟩, fun h => ?_, fun h => ?_⟩, ?_, ?_⟩
    · exact hw.firstSymbols_subset hA a h
    · exact hw'.firstSymbols_subset hA a h
    · exact hw.followSymbols_subset hA a h
    · exact hw'.followSymbols_subset hA a h
    · rw [exists_ofGrammar?_eq_ok_iff hA, exists_ofGrammar?_eq_ok_iff hA]
      exact ⟨Grammar.pairwise_apart_of_subperm hw' hperm.symm.subperm,
        Grammar.pairwise_apart_of_subperm hw hsub⟩
    · intro r r' h h'
      refine ⟨fun a t => Option.ext fun q => ?_, fun tokens => ?_⟩
      · exact ⟨tableEntry?_of_within hA hw h h', tableEntry?_of_within hA hw' h' h⟩
      · exact validate_eq_of_isAccepted_iff
          ⟨isAccepted_of_within hA hw h h', isAccepted_of_within hA hw' h' h⟩

/-- The rules of nested pairs the other way round. -/
def flippedGrammar : Grammar Alphabet.letters :=
  letterGrammar 'S' [('S', ['ε']), ('S', ['a', 'S', 'b'])]

/-- The same with a further rule in front, so that all numbers are others. -/
def widenedGrammar : Grammar Alphabet.letters :=
  letterGrammar 'S' [('T', ['c']), ('S', ['ε']), ('S', ['a', 'S', 'b'])]

theorem nestedGrammar_answers_grow :
    'b' ∈ widenedGrammar.followSymbols 'S' ∧
    (∃ r', ofGrammar? widenedGrammar = .ok r' ∧
      r'.tableEntry? 'S' 'b' = some (letterRule 'S' ['ε']) ∧
      (r'.validate ("aabb".toList.map .synthetic)).isAccepted = true) ∧
    ∃ r', ofGrammar? flippedGrammar = .ok r' ∧
      ∀ tokens, r'.validate tokens =
        ((ofGrammar? nestedGrammar).toOption.get nestedGrammar_isLL1).validate tokens := by
  have hr := ofGrammar?_eq_get nestedGrammar_isLL1
  have hwide : (ofGrammar? widenedGrammar).toOption.isSome = true := by decide +kernel
  obtain ⟨hsets, hrecognisers, -⟩ :=
    answers_grow nestedGrammar widenedGrammar (by decide) rfl (by decide)
  obtain ⟨-, -, hsame⟩ :=
    answers_grow nestedGrammar flippedGrammar (by decide) rfl (by decide)
  obtain ⟨-, hexists, hequal⟩ := hsame (by decide)
  refine ⟨(hsets 'S').2 (by decide +kernel), ?_, ?_⟩
  · obtain ⟨r, h, hentries, haccepts⟩ := hrecognisers _ (ofGrammar?_eq_get hwide)
    obtain rfl := Except.ok.inj (hr.symm.trans h)
    exact ⟨_, ofGrammar?_eq_get hwide, hentries _ _ _ (by decide +kernel),
      haccepts _ (by decide +kernel)⟩
  · obtain ⟨r', h'⟩ := hexists.mp ⟨_, hr⟩
    exact ⟨r', h', fun tokens => ((hequal _ _ hr h').2 tokens).symm⟩

end Recognizer

end BusinessHours

/-
What a recogniser accepts.

The stack of the automaton is a form that is still to be read, above an end mark.  A
terminal on top is read off the form, and an expansion replaces the front of the form by the
body of a rule, which are the two ways in which `Grammar.Reads` goes on.  So a run that
accepts is a reading of the input.

For the converse the automaton has to use the rule that the reading uses.  The rest of the
input begins with a terminal that the whole form can begin with.  If the body of the rule
can begin with it the rule is predicted there.  If not, the body can vanish and the terminal
comes from behind it, and then it follows the left side, because the stack `Fits`.

Both directions ask that no right side has an end mark.  An end mark inside an input would
be met by the one inside a form, and accepted there.
-/
import BusinessHours.Proofs.LL1.FollowDerives
import BusinessHours.Proofs.LL1.Halting

namespace BusinessHours

namespace Grammar

variable {σ : Type} [DecidableEq σ] {A : Alphabet σ} {g : Grammar A}
  {T : Table g.indexed.termCount g.indexed.nontermCount}

variable (g) in
/-- The configuration in which a text is still to be read off a form. -/
def toRead (form text : List σ) : Config := ⟨form.map g.node, text.map g.terms.idxOf⟩

theorem startConfig_eq (hA : A.MarkersTerminal) (text : List σ) :
    g.indexed.startConfig (text.map g.terms.idxOf) = g.toRead [g.start, A.endMark] text := by
  rw [toRead, List.map_cons, List.map_singleton, node_endMark hA,
    node_of_nonterminal g.start_nonterminal]
  rfl

/-- What comes next is a symbol of the text, or the end mark behind it. -/
theorem exists_next {σ : Type} (A : Alphabet σ) (text : List σ) :
    ∃ t rest, text ++ [A.endMark] = t :: rest ∧ (t ∈ text ∨ t = A.endMark) := by
  cases text with
  | nil => exact ⟨A.endMark, [], rfl, .inr rfl⟩
  | cons t text => exact ⟨t, text ++ [A.endMark], rfl, .inl List.mem_cons_self⟩

/-! ### Moves on a form -/

/-- A terminal is read exactly if it comes next. -/
theorem step_terminal (hA : A.MarkersTerminal) {s : σ} (hs : s ∈ g.terms) (form : List σ) (t : σ)
    (text : List σ) : g.indexed.step T (g.toRead (s :: form) (t :: text)) =
      if s = t then
        if s = A.endMark then .accept else .goOn (g.toRead form text)
      else .reject := by
  have hend : g.terms.idxOf s = endId ↔ s = A.endMark := by
    rw [← idxOf_endMark (g := g)]
    exact List.idxOf_inj hs
  simp only [toRead, List.map_cons, node_of_mem_terms hA hs, IndexedGrammar.step,
    List.idxOf_inj hs, hend]

/-- A rule is used where its production is predicted. -/
theorem step_rule (hA : A.MarkersTerminal)
    (hT : g.indexed.table? g.indexed.first (g.indexed.follow g.indexed.first) = .ok T)
    {r : Rule A} (hr : r ∈ g.rules) (form : List σ) {t : σ} (hpred : g.terms.idxOf t ∈
      (g.production r).predictedOn g.indexed.first (g.indexed.follow g.indexed.first))
    (text : List σ) : g.indexed.step T (g.toRead (r.lhs :: form) (t :: text))
      = .goOn (g.toRead (r.body ++ form) (t :: text)) := by
  have hstep := IndexedGrammar.step_of_predicted (g.indexed_wellNumbered hA) hT
    (production_mem hr) hpred (form.map g.node) (text.map g.terms.idxOf)
  rw [toRead, List.map_cons, List.map_cons, node_of_nonterminal r.lhs_nonterminal, toRead,
    List.map_append, List.map_cons]
  exact hstep

/-- **A nonterminal on top is replaced by a body of its own, or the text is rejected.** -/
theorem step_nonterminal (hA : A.MarkersTerminal)
    (hT : g.indexed.table? g.indexed.first (g.indexed.follow g.indexed.first) = .ok T) {a : σ}
    (ha : a ∈ g.nonterms) (form : List σ) {t : σ} (ht : t ∈ g.terms) (text : List σ) :
    (∃ (i : Nat) (r : Rule A), g.rules[i]? = some r ∧ r.lhs = a ∧
        g.indexed.step T (g.toRead (a :: form) (t :: text))
          = .goOn (g.toRead (r.body ++ form) (t :: text))) ∨
      g.indexed.step T (g.toRead (a :: form) (t :: text)) = .reject := by
  rcases IndexedGrammar.step_nonterm (g.indexed_wellNumbered hA) hT
      (List.idxOf_lt_length_of_mem ha) (List.idxOf_lt_length_of_mem ht) (form.map g.node)
      (text.map g.terms.idxOf) with ⟨p, hp, hl, hpred⟩ | hreject
  · obtain ⟨r, hr, rfl⟩ := exists_rule_of_mem_prods hp
    obtain rfl : r.lhs = a := (List.idxOf_inj (lhs_mem_nonterms hr)).mp hl
    obtain ⟨i, hi⟩ := List.mem_iff_getElem?.mp hr
    exact .inl ⟨i, r, hi, rfl, step_rule hA hT hr form hpred text⟩
  · refine .inr ?_
    rw [toRead, List.map_cons, List.map_cons, node_of_mem_nonterms ha]
    exact hreject

/-! ### Runs that accept are readings -/

/-- **A move of a run that accepts is a step of reading:** what is on top is read or expanded. -/
theorem read_or_expand_of_run (hA : A.MarkersTerminal)
    (hT : g.indexed.table? g.indexed.first (g.indexed.follow g.indexed.first) = .ok T) {n : Nat}
    {s t : σ} {form text : List σ} (hs : s ∈ g.terms ∨ s ∈ g.nonterms) (hne : s ≠ A.endMark)
    (ht : t ∈ g.terms)
    (hrun : g.indexed.run T (n + 1) (g.toRead (s :: form) (t :: text)) = some true) :
    s = t ∧ s ∈ g.terms ∧ g.indexed.run T n (g.toRead form text) = some true ∨
      ∃ (i : Nat) (r : Rule A), g.rules[i]? = some r ∧ r.lhs = s ∧
        g.indexed.run T n (g.toRead (r.body ++ form) (t :: text)) = some true := by
  rw [IndexedGrammar.run] at hrun
  rcases hs with hs | hs
  · rw [step_terminal hA hs] at hrun
    by_cases hst : s = t
    · rw [if_pos hst, if_neg hne] at hrun
      exact .inl ⟨hst, hs, hrun⟩
    · rw [if_neg hst] at hrun
      simp at hrun
  · rcases step_nonterminal hA hT hs form ht text with ⟨i, r, hi, hl, hstep⟩ | hreject
    · rw [hstep] at hrun
      exact .inr ⟨i, r, hi, hl, hrun⟩
    · rw [hreject] at hrun
      simp at hrun

/-- With the end mark alone on the stack, only the end of the text is accepted. -/
theorem eq_nil_of_run (hA : A.MarkersTerminal) {n : Nat} {text : List σ}
    (hend : A.endMark ∉ text)
    (hrun : g.indexed.run T n (g.toRead [A.endMark] (text ++ [A.endMark])) = some true) :
    text = [] := by
  cases n with
  | zero => simp [IndexedGrammar.run] at hrun
  | succ n =>
      cases text with
      | nil => rfl
      | cons t text =>
          have hne : A.endMark ≠ t := fun h => hend (h ▸ List.mem_cons_self)
          rw [List.cons_append, IndexedGrammar.run, step_terminal hA endMark_mem_terms,
            if_neg hne] at hrun
          simp at hrun

/-- **What the automaton accepts can be read off the form on its stack.** -/
theorem exists_reads_of_run (hA : A.MarkersTerminal)
    (hT : g.indexed.table? g.indexed.first (g.indexed.follow g.indexed.first) = .ok T)
    (hrules : ∀ r ∈ g.rules, A.endMark ∉ r.body) {n : Nat} {form text : List σ}
    (hform : g.Form form) (hend : A.endMark ∉ form) (htext : ∀ t ∈ text, t ∈ g.terms)
    (hend' : A.endMark ∉ text)
    (hrun : g.indexed.run T n (g.toRead (form ++ [A.endMark]) (text ++ [A.endMark])) = some true) :
    ∃ places, g.Reads places form text := by
  -- On the fuel: one move is one step of reading, and the end marks meet last.
  induction n generalizing form text with
  | zero => simp [IndexedGrammar.run] at hrun
  | succ n ih =>
      cases form with
      | nil =>
          obtain rfl := eq_nil_of_run hA hend' hrun
          exact ⟨[], .done⟩
      | cons s form =>
          obtain ⟨⟨hs, -⟩, hform'⟩ := form_cons.mp hform
          rw [List.mem_cons, not_or] at hend
          obtain ⟨t, rest, hnext, ht⟩ := exists_next A text
          have hterm : t ∈ g.terms := by
            rcases ht with ht | ht
            · exact htext t ht
            · rw [ht]
              exact endMark_mem_terms
          rw [hnext, List.cons_append] at hrun
          rcases read_or_expand_of_run hA hT hs (Ne.symm hend.1) hterm hrun with
            ⟨rfl, hs, hrun'⟩ | ⟨i, r, hi, rfl, hrun'⟩
          · cases text with
            | nil => exact absurd (List.cons.inj hnext).1 hend.1
            | cons u text =>
                obtain ⟨rfl, rfl⟩ := List.cons.inj hnext
                rw [List.mem_cons, not_or] at hend'
                obtain ⟨places, h⟩ := ih hform' hend.2
                  (fun v hv => htext v (List.mem_cons_of_mem u hv)) hend'.2 hrun'
                exact ⟨places, .terminal (isTerminal_of_mem_terms hA hs) h⟩
          · have hr := List.mem_of_getElem? hi
            rw [← hnext, ← List.append_assoc] at hrun'
            obtain ⟨places, h⟩ := ih (form_append.mpr ⟨form_body hr, hform'⟩)
              (by simp [hrules r hr, hend.2]) htext hend' hrun'
            exact ⟨i :: places, .rule hi h⟩

/-! ### Readings are runs that accept -/

/-- A rule that reads a text is predicted on the first terminal of it. -/
theorem mem_predictedOn_of_derives (hA : A.MarkersTerminal) {r : Rule A} {form : List σ}
    {t : σ} (ht : t ∈ g.terms) (hne : t ≠ A.epsilon) {rest : List σ}
    (hform : g.Form (r.body ++ form)) (hfits : g.indexed.Fits ((r.lhs :: form).map g.node) [])
    (h : g.Derives (r.body ++ form) (t :: rest)) :
    g.terms.idxOf t ∈ (g.production r).predictedOn g.indexed.first
      (g.indexed.follow g.indexed.first) := by
  have wn := g.indexed_wellNumbered hA
  have hid := idxOf_ne_epsilonId ht hne
  have hbegin : g.terms.idxOf t ∈ g.indexed.first.firstOf ((r.body ++ form).map g.node) :=
    (exists_derives_cons_iff hA hform.epsilon_notMem ht hne).mp ⟨rest, h⟩
  rw [List.map_append, Family.mem_firstOf_append wn.epsilonId_lt
    (epsilon_notMem_map_node hA r.epsilon_notMem_body)] at hbegin
  rw [List.map_cons, node_of_nonterminal r.lhs_nonterminal, IndexedGrammar.fits_nonterm,
    List.append_nil] at hfits
  rw [Production.mem_predictedOn]
  exact hbegin.imp_right (And.imp_right (hfits.1 _ hid))

/-- **A rule that a reading uses is predicted on what comes next**, the end mark at the latest. -/
theorem exists_predictedOn_of_reads (hA : A.MarkersTerminal) {r : Rule A} {places : List Nat}
    {form text : List σ} (h : g.Reads places (r.body ++ form) text)
    (hform : g.Form (r.body ++ form))
    (hfits : g.indexed.Fits ((r.lhs :: (form ++ [A.endMark])).map g.node) []) :
    ∃ t rest, text ++ [A.endMark] = t :: rest ∧ g.terms.idxOf t ∈
      (g.production r).predictedOn g.indexed.first (g.indexed.follow g.indexed.first) := by
  have hmarked : g.Form (r.body ++ (form ++ [A.endMark])) := by
    rw [← List.append_assoc]
    exact hform.marked
  have hderives : g.Derives (r.body ++ (form ++ [A.endMark])) (text ++ [A.endMark]) := by
    rw [← List.append_assoc]
    exact h.derives.append (.refl _)
  obtain ⟨t, rest, hnext, ht⟩ := exists_next A text
  have hterm : A.isTerminal t = true := by
    rcases ht with ht | ht
    · exact h.isTerminal_of_mem t ht
    · rw [ht]
      exact hA.2
  rw [hnext] at hderives
  have htext : g.Form (t :: rest) := Form.of_derives hderives hmarked
  exact ⟨t, rest, hnext, mem_predictedOn_of_derives hA
    (htext.mem_terms List.mem_cons_self hterm) (htext t List.mem_cons_self).2 hmarked hfits
    hderives⟩

/-- **The rule that a reading uses is the one in the table.** -/
theorem step_of_reads (hA : A.MarkersTerminal)
    (hT : g.indexed.table? g.indexed.first (g.indexed.follow g.indexed.first) = .ok T) {r : Rule A}
    (hr : r ∈ g.rules) {places : List Nat} {form text : List σ}
    (h : g.Reads places (r.body ++ form) text) (hform : g.Form (r.body ++ form))
    (hfits : g.indexed.Fits ((r.lhs :: (form ++ [A.endMark])).map g.node) []) :
    g.indexed.step T (g.toRead (r.lhs :: (form ++ [A.endMark])) (text ++ [A.endMark]))
      = .goOn (g.toRead (r.body ++ (form ++ [A.endMark])) (text ++ [A.endMark])) := by
  obtain ⟨t, rest, hnext, hpred⟩ := exists_predictedOn_of_reads hA h hform hfits
  rw [hnext]
  exact step_rule hA hT hr _ hpred rest

/-- **What can be read off the form on the stack is accepted.** -/
theorem exists_run_of_reads (hA : A.MarkersTerminal)
    (hT : g.indexed.table? g.indexed.first (g.indexed.follow g.indexed.first) = .ok T)
    {places : List Nat} {form text : List σ} (h : g.Reads places form text) (hform : g.Form form)
    (hfits : g.indexed.Fits ((form ++ [A.endMark]).map g.node) []) :
    ∃ n, g.indexed.run T n (g.toRead (form ++ [A.endMark]) (text ++ [A.endMark]))
      = some true := by
  induction h with
  | done =>
      refine ⟨1, IndexedGrammar.run_of_accept ?_ 0⟩
      rw [List.nil_append, step_terminal hA endMark_mem_terms, if_pos rfl, if_pos rfl]
  | @terminal places t form text ht rest ih =>
      have hterm : t ∈ g.terms := hform.mem_terms List.mem_cons_self ht
      obtain ⟨n, hn⟩ := ih (form_cons.mp hform).2 hfits.2
      by_cases hend : t = A.endMark
      · refine ⟨1, IndexedGrammar.run_of_accept ?_ 0⟩
        rw [List.cons_append, List.cons_append, step_terminal hA hterm, if_pos rfl, if_pos hend]
      · refine ⟨n + 1, ?_⟩
        rw [List.cons_append, List.cons_append, IndexedGrammar.run, step_terminal hA hterm,
          if_pos rfl, if_neg hend]
        exact hn
  | @rule i places r form text hi rest ih =>
      have hr := List.mem_of_getElem? hi
      rw [List.cons_append] at hfits
      have hbody : g.Form (r.body ++ form) :=
        form_append.mpr ⟨form_body hr, (form_cons.mp hform).2⟩
      have hfront : A.epsilon ∉ ([] : List σ) := List.not_mem_nil
      have hexpand := fits_replace hA hr hfront hfits
      rw [List.nil_append, ← List.append_assoc] at hexpand
      obtain ⟨n, hn⟩ := ih hbody hexpand
      refine ⟨n + 1, ?_⟩
      rw [List.cons_append, IndexedGrammar.run, step_of_reads hA hT hr rest hbody hfits,
        ← List.append_assoc]
      exact hn

end Grammar

/-! ### The end mark behind an input -/

/-- A text less the end mark behind it, if there is one. -/
def Alphabet.lessEnd {σ : Type} [DecidableEq σ] (A : Alphabet σ) (text : List σ) : List σ :=
  if text.getLast? = some A.endMark then text.dropLast else text

namespace Recognizer

variable {σ : Type} [DecidableEq σ] {A : Alphabet σ} {g : Grammar A}

theorem mem_of_mem_lessEnd {text : List σ} {t : σ} (ht : t ∈ A.lessEnd text) : t ∈ text := by
  unfold Alphabet.lessEnd at ht
  split at ht
  · exact List.mem_of_mem_dropLast ht
  · exact ht

/-- Only the end mark behind a text is left out. -/
theorem mem_lessEnd_or {text : List σ} {t : σ} (ht : t ∈ text) :
    t ∈ A.lessEnd text ∨ t = A.endMark := by
  unfold Alphabet.lessEnd
  split
  · rename_i hlast
    obtain ⟨front, rfl⟩ := List.getLast?_eq_some_iff.mp hlast
    rw [List.dropLast_concat]
    simpa using ht
  · exact .inl ht

theorem lessEnd_eq_self {text : List σ} (h : A.endMark ∉ text) : A.lessEnd text = text := by
  unfold Alphabet.lessEnd
  rw [if_neg fun hlast => h (List.mem_of_getLast? hlast)]

theorem endMark_notMem_lessEnd {text : List σ} (h : A.endMark ∉ text.dropLast) :
    A.endMark ∉ A.lessEnd text := by
  unfold Alphabet.lessEnd
  split
  · exact h
  · rename_i hlast
    intro hmem
    rcases List.eq_nil_or_concat' text with rfl | ⟨front, t, rfl⟩
    · simp at hmem
    · rw [List.dropLast_concat] at h
      rw [List.getLast?_concat, Option.some.injEq] at hlast
      rw [List.mem_append, List.mem_singleton] at hmem
      rcases hmem with hmem | hmem
      · exact h hmem
      · exact hlast hmem.symm

/-- The numbers of a text with an end mark behind it. -/
theorem terminated_map {text : List σ} (h : ∀ t ∈ text, t ∈ g.terms) :
    terminated (text.map g.terms.idxOf) = (A.lessEnd text ++ [A.endMark]).map g.terms.idxOf := by
  have hlast : (text.map g.terms.idxOf).getLast? = some endId ↔
      text.getLast? = some A.endMark := by
    rw [List.getLast?_map, Option.map_eq_some_iff]
    constructor
    · intro h
      obtain ⟨t, ht, hid⟩ := h
      rw [← Grammar.idxOf_endMark (g := g)] at hid
      rw [ht, (List.idxOf_inj (h t (List.mem_of_getLast? ht))).mp hid]
    · intro ht
      exact ⟨A.endMark, ht, Grammar.idxOf_endMark⟩
  unfold terminated Alphabet.lessEnd
  split
  · rename_i hmark
    rw [if_pos (hlast.mp hmark)]
    obtain ⟨front, rfl⟩ := List.getLast?_eq_some_iff.mp (hlast.mp hmark)
    rw [List.dropLast_concat]
  · rename_i hmark
    rw [if_neg fun hc => hmark (hlast.mpr hc), List.map_append, List.map_singleton,
      Grammar.idxOf_endMark]

/-! ### The language of a recogniser -/

/-- **A run accepts exactly the texts the start symbol derives.** -/
theorem exists_run_iff_derives (hA : A.MarkersTerminal)
    {T : Table g.indexed.termCount g.indexed.nontermCount}
    (hT : g.indexed.table? g.indexed.first (g.indexed.follow g.indexed.first) = .ok T)
    (hrules : ∀ r ∈ g.rules, A.endMark ∉ r.rhs) {text : List σ} (htext : ∀ t ∈ text, t ∈ g.terms)
    (hend : A.endMark ∉ text) :
    (∃ n, g.indexed.run T n (g.toRead [g.start, A.endMark] (text ++ [A.endMark])) = some true) ↔
      g.Derives [g.start] text := by
  have hbodies : ∀ r ∈ g.rules, A.endMark ∉ r.body := fun r hr hc =>
    hrules r hr (Rule.mem_rhs_of_mem_body hc)
  have hform : g.Form [g.start] := Grammar.form_nonterminal hA Grammar.start_mem_nonterms
  have hstart : A.endMark ∉ [g.start] := by
    intro hc
    have := g.start_nonterminal
    rw [← List.mem_singleton.mp hc, hA.2] at this
    simp at this
  rw [Grammar.derives_iff_exists_reads fun t ht => Grammar.isTerminal_of_mem_terms hA (htext t ht)]
  constructor
  · intro h
    obtain ⟨n, hn⟩ := h
    exact Grammar.exists_reads_of_run hA hT hbodies hform hstart htext hend hn
  · intro h
    obtain ⟨places, h⟩ := h
    exact Grammar.exists_run_of_reads hA hT h hform (Grammar.fits_marked_start hA)

/--
**Tokens are read to their end by a run on their text**, if the grammar has their symbols.  An end
mark behind the text is there once, whether the tokens show it or not.
-/
theorem exists_accepts_iff_exists_run (hA : A.MarkersTerminal) {r : Recognizer A}
    (h : ofGrammar? g = .ok r) {tokens : List (Token σ)} :
    (∃ ids, tokens.mapM r.inputId? = some ids ∧
        r.indexed.accepts r.table (terminated ids) = true) ↔
      (∀ s ∈ tokens.map Token.symbol, s ∈ g.terms) ∧
        ∃ n, r.indexed.run r.table n (g.toRead [g.start, A.endMark]
          (A.lessEnd (tokens.map Token.symbol) ++ [A.endMark])) = some true := by
  have hrun : ∀ ids, tokens.mapM r.inputId? = some ids →
      (∀ s ∈ tokens.map Token.symbol, s ∈ g.terms) ∧
      (r.indexed.accepts r.table (terminated ids) = true ↔
        ∃ n, r.indexed.run r.table n (g.toRead [g.start, A.endMark]
          (A.lessEnd (tokens.map Token.symbol) ++ [A.endMark])) = some true) := by
    intro ids hids
    have hlt := r.lt_of_mem_terminated hA hids
    obtain ⟨hterms, rfl⟩ := (r.mapM_inputId?_eq_some_iff hA).mp hids
    obtain ⟨T, hT, rfl⟩ := ofGrammar?_eq_ok h
    have hsymbols : ∀ s ∈ tokens.map Token.symbol, s ∈ g.terms := List.forall_mem_map.mpr hterms
    rw [IndexedGrammar.accepts_iff_exists_run (g.indexed_wellNumbered hA) hT hlt,
      ← Grammar.startConfig_eq hA, ← terminated_map hsymbols, List.map_map]
    exact ⟨hsymbols, Iff.rfl⟩
  constructor
  · intro h
    obtain ⟨ids, hids, haccepts⟩ := h
    exact ⟨(hrun ids hids).1, (hrun ids hids).2.mp haccepts⟩
  · intro hread
    obtain ⟨hterms, hread⟩ := hread
    have hgrammar : r.grammar = g := by
      obtain ⟨T, hT, rfl⟩ := ofGrammar?_eq_ok h
      rfl
    have hids := (r.mapM_inputId?_eq_some_iff hA).mpr
      ⟨hgrammar ▸ List.forall_mem_map.mp hterms, rfl⟩
    exact ⟨_, hids, (hrun _ hids).2.mpr hread⟩

/-- **Tokens are read to their end exactly if they are terminals and their text is derived.** -/
theorem exists_accepts_iff_derives (hA : A.MarkersTerminal) {r : Recognizer A}
    (h : ofGrammar? g = .ok r) (hrules : ∀ q ∈ g.rules, A.endMark ∉ q.rhs)
    {tokens : List (Token σ)} (hend : A.endMark ∉ (tokens.map Token.symbol).dropLast) :
    (∃ ids, tokens.mapM r.inputId? = some ids ∧
        r.indexed.accepts r.table (terminated ids) = true) ↔
      (∀ t ∈ tokens, A.isTerminal t.symbol = true) ∧
        g.Derives [g.start] (A.lessEnd (tokens.map Token.symbol)) := by
  rw [exists_accepts_iff_exists_run hA h]
  obtain ⟨T, hT, rfl⟩ := ofGrammar?_eq_ok h
  have hmark := endMark_notMem_lessEnd hend
  constructor
  · intro h
    obtain ⟨hterms, hrun⟩ := h
    refine ⟨fun t ht => Grammar.isTerminal_of_mem_terms hA (hterms _ (List.mem_map_of_mem ht)), ?_⟩
    exact (exists_run_iff_derives hA hT hrules (fun s hs => hterms s (mem_of_mem_lessEnd hs))
      hmark).mp hrun
  · intro h
    obtain ⟨hterminal, hderives⟩ := h
    have hform : g.Form [g.start] := Grammar.form_nonterminal hA Grammar.start_mem_nonterms
    have hterms : ∀ s ∈ tokens.map Token.symbol, s ∈ g.terms := by
      intro s hs
      rcases mem_lessEnd_or (A := A) hs with hs' | hs'
      · obtain ⟨t, ht, rfl⟩ := List.mem_map.mp hs
        exact (hform.of_derives hderives).mem_terms hs' (hterminal t ht)
      · rw [hs']
        exact Grammar.endMark_mem_terms
    exact ⟨hterms, (exists_run_iff_derives hA hT hrules
      (fun s hs => hterms s (mem_of_mem_lessEnd hs)) hmark).mpr hderives⟩

/--
**A recogniser accepts exactly the language of its grammar**, and the empty list.  Tokens are
terminals, none of them unknown; an end mark may stand behind them and counts for nothing.
-/
theorem validate_iff_derives (hA : A.MarkersTerminal) {r : Recognizer A}
    (h : ofGrammar? g = .ok r) (hrules : ∀ q ∈ g.rules, A.endMark ∉ q.rhs)
    (tokens : List (Token σ)) (hend : A.endMark ∉ (tokens.map Token.symbol).dropLast) :
    (r.validate tokens).isAccepted = true ↔ tokens = [] ∨
      (∀ t ∈ tokens, A.isUnknown t.symbol = false) ∧
      (∀ t ∈ tokens, A.isTerminal t.symbol = true) ∧
      g.Derives [g.start] (A.lessEnd (tokens.map Token.symbol)) := by
  rw [r.isAccepted_validate_iff]
  refine or_congr_right (and_congr_right ?_)
  intro _
  exact exists_accepts_iff_derives hA h hrules hend

theorem nestedGrammar_isLL1 : (ofGrammar? nestedGrammar).toOption.isSome = true := by
  decide +kernel

theorem nestedGrammar_accepts_iff : ∃ r, ofGrammar? nestedGrammar = .ok r ∧
    ((r.validate ("ab$".toList.map .synthetic)).isAccepted = true ↔
      nestedGrammar.Derives ['S'] ['a', 'b']) := by
  have hr := ofGrammar?_eq_get nestedGrammar_isLL1
  have h := validate_iff_derives (by decide) hr (by decide) ("ab$".toList.map .synthetic)
    (by decide)
  have hknown : ∀ t ∈ "ab$".toList.map Token.synthetic,
      Alphabet.letters.isUnknown t.symbol = false := by decide
  have hterminal : ∀ t ∈ "ab$".toList.map Token.synthetic,
      Alphabet.letters.isTerminal t.symbol = true := by decide
  exact ⟨_, hr, h.trans ⟨fun h' => (h'.resolve_left (by decide)).2.2,
    fun h' => .inr ⟨hknown, hterminal, h'⟩⟩⟩

/-- A nonterminal is derived from itself in no step, but it has no place in an input. -/
theorem nestedGrammar_rejects_start : ∃ r, ofGrammar? nestedGrammar = .ok r ∧
    (∀ q ∈ nestedGrammar.rules, Alphabet.letters.endMark ∉ q.rhs) ∧
    Alphabet.letters.endMark ∉ ([Token.synthetic 'S'].map Token.symbol).dropLast ∧
    ¬ ((r.validate [.synthetic 'S']).isAccepted = true ↔ [Token.synthetic 'S'] = [] ∨
      (∀ t ∈ [Token.synthetic 'S'], Alphabet.letters.isUnknown t.symbol = false) ∧
      nestedGrammar.Derives [nestedGrammar.start]
        (Alphabet.letters.lessEnd ([Token.synthetic 'S'].map Token.symbol))) := by
  have hr := ofGrammar?_eq_get nestedGrammar_isLL1
  refine ⟨_, hr, by decide, by decide, fun h => ?_⟩
  have hderives : nestedGrammar.Derives ['S'] ['S'] := .refl _
  have haccept := h.mpr (.inr ⟨by decide, hderives⟩)
  rw [isAccepted_validate_iff] at haccept
  obtain ⟨-, ids, hids, -⟩ := haccept.resolve_left (by decide)
  have hmarkers : Alphabet.letters.MarkersTerminal := by decide
  obtain ⟨hall, -⟩ := (mapM_inputId?_eq_some_iff _ hmarkers).mp hids
  have hterminal := Grammar.isTerminal_of_mem_terms hmarkers (hall _ List.mem_cons_self)
  exact absurd hterminal (by decide)

end Recognizer

end BusinessHours

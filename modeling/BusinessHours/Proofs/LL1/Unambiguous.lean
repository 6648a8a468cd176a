/-
Unambiguous grammars.

A grammar that has a recogniser derives each of its texts in one way, if the first nonterminal
is always the one that is replaced.  Where two leftmost derivations of a text part, two rules
of one nonterminal read the same rest of it.  Both are predicted on the terminal that comes
next, on the end mark if there is none, and the table holds one production there.

Rules are told apart by their places.  Two rules that read alike are no clash as long as no
terminal predicts them, but then no derivation of a text uses them either.
-/
import BusinessHours.Proofs.LL1.Recognition

namespace BusinessHours

namespace Grammar

variable {σ : Type} [DecidableEq σ] {A : Alphabet σ} {g : Grammar A}
  {T : Table g.indexed.termCount g.indexed.nontermCount}

/-- **Rules of one nonterminal that are predicted on one terminal stand in one place.** -/
theorem place_eq_of_predictedOn (hA : A.MarkersTerminal)
    (hT : g.indexed.table? g.indexed.first (g.indexed.follow g.indexed.first) = .ok T)
    {i j : Nat} {p q : Rule A} (hi : g.rules[i]? = some p) (hj : g.rules[j]? = some q)
    (hl : p.lhs = q.lhs) {k : Nat}
    (hp : k ∈ (g.production p).predictedOn g.indexed.first (g.indexed.follow g.indexed.first))
    (hq : k ∈ (g.production q).predictedOn g.indexed.first (g.indexed.follow g.indexed.first)) :
    i = j := by
  have wn := g.indexed_wellNumbered hA
  have hat : ∀ {i : Nat} {r : Rule A}, g.rules[i]? = some r → r.lhs = q.lhs →
      k ∈ (g.production r).predictedOn g.indexed.first (g.indexed.follow g.indexed.first) →
      g.indexed.PredictedAt i (g.nonterms.idxOf q.lhs) k := by
    intro i r hr hlhs hk
    refine ⟨g.production r, by rw [getElem?_prods, hr, Option.map_some], ?_, hk⟩
    rw [production, hlhs]
  have hentry : ∀ {i : Nat}, g.indexed.PredictedAt i (g.nonterms.idxOf q.lhs) k →
      T.entry? (g.nonterms.idxOf q.lhs) k = some i := fun h =>
    (IndexedGrammar.entry?_eq_some_iff wn hT (h.lt_nontermCount wn) (h.lt_termCount wn)).mpr h
  exact Option.some.inj ((hentry (hat hi hl hp)).symm.trans (hentry (hat hj rfl hq)))

/-- **A text is read off a form in one way**, if the form fits. -/
theorem Reads.places_unique (hA : A.MarkersTerminal)
    (hT : g.indexed.table? g.indexed.first (g.indexed.follow g.indexed.first) = .ok T)
    {places places' : List Nat} {form text : List σ} (h : g.Reads places form text)
    (h' : g.Reads places' form text) (hform : g.Form form)
    (hfits : g.indexed.Fits ((form ++ [A.endMark]).map g.node) []) : places = places' := by
  -- Along the first reading: the second one has to begin in the same way.
  induction h generalizing places' with
  | done =>
      cases h' with
      | done => rfl
  | @terminal places t form text ht rest ih =>
      rcases h'.cons_cases with ⟨-, rest', htext, h''⟩ | ⟨_, r, _, -, hl, -⟩
      · obtain rfl := (List.cons.inj htext).2
        exact ih h'' (form_cons.mp hform).2 hfits.2
      · rw [← hl, r.lhs_nonterminal] at ht
        simp at ht
  | @rule i places r form text hi rest ih =>
      rcases h'.cons_cases with ⟨ht, -⟩ | ⟨j, q, later, hj, hl, rfl, h''⟩
      · rw [r.lhs_nonterminal] at ht
        simp at ht
      · have hbody : ∀ {r' : Rule A}, r' ∈ g.rules → g.Form (r'.body ++ form) := fun hr' =>
          form_append.mpr ⟨form_body hr', (form_cons.mp hform).2⟩
        have hr := List.mem_of_getElem? hi
        rw [List.cons_append] at hfits
        have hfits' := hfits
        rw [← hl] at hfits'
        obtain ⟨t, _, hnext, hp⟩ := exists_predictedOn_of_reads hA rest (hbody hr) hfits
        obtain ⟨t', _, hnext', hq⟩ :=
          exists_predictedOn_of_reads hA h'' (hbody (List.mem_of_getElem? hj)) hfits'
        obtain rfl := (List.cons.inj (hnext.symm.trans hnext')).1
        obtain rfl := place_eq_of_predictedOn hA hT hi hj hl.symm hp hq
        obtain rfl := Option.some.inj (hi.symm.trans hj)
        have hexpand := fits_replace hA hr (List.not_mem_nil : A.epsilon ∉ ([] : List σ)) hfits
        rw [List.nil_append, ← List.append_assoc] at hexpand
        rw [ih h'' (hbody hr) hexpand]

end Grammar

namespace Recognizer

variable {σ : Type} [DecidableEq σ] {A : Alphabet σ} {g : Grammar A}

/--
**A grammar with a recogniser is unambiguous.**  Two leftmost derivations of one text use the
same rules in the same order, where rules count as the same only if they stand in one place.
-/
theorem leftmost_places_unique (hA : A.MarkersTerminal) {r : Recognizer A}
    (h : ofGrammar? g = .ok r) {text : List σ} (htext : ∀ t ∈ text, A.isTerminal t = true)
    {places places' : List Nat} (hleft : g.Leftmost places [g.start] text)
    (hleft' : g.Leftmost places' [g.start] text) : places = places' := by
  obtain ⟨T, hT, -⟩ := ofGrammar?_eq_ok h
  exact (hleft.reads htext).places_unique hA hT (hleft'.reads htext)
    (Grammar.form_nonterminal hA Grammar.start_mem_nonterms) (Grammar.fits_marked_start hA)

/-- A grammar with two rules that read alike, of a nonterminal that derives no text. -/
def twinGrammar : Grammar Alphabet.letters :=
  letterGrammar 'S' [('S', ['a', 'S', 'b']), ('S', ['ε']), ('S', ['c', 'T']), ('T', ['T']),
    ('T', ['T'])]

theorem twinGrammar_isLL1 : (ofGrammar? twinGrammar).toOption.isSome = true := by
  decide +kernel

theorem twinGrammar_leftmost_ab : twinGrammar.Leftmost [0, 1] [twinGrammar.start] ['a', 'b'] ∧
    ∀ places, twinGrammar.Leftmost places [twinGrammar.start] ['a', 'b'] → places = [0, 1] := by
  have hterminal : ∀ t ∈ ['a', 'b'], Alphabet.letters.isTerminal t = true :=
    List.all_eq_true.mp rfl
  have hinner : twinGrammar.Leftmost [1] (['a'] ++ 'S' :: ['b']) ['a', 'b'] :=
    .step (r := letterRule 'S' ['ε']) rfl (List.all_eq_true.mp rfl) (.refl _)
  have houter : twinGrammar.Leftmost [0, 1] ([] ++ 'S' :: []) ['a', 'b'] :=
    .step (r := letterRule 'S' ['a', 'S', 'b']) rfl (List.all_eq_true.mp rfl) hinner
  exact ⟨houter, fun places h => leftmost_places_unique (by decide)
    (ofGrammar?_eq_get twinGrammar_isLL1) hterminal h houter⟩

end Recognizer

end BusinessHours

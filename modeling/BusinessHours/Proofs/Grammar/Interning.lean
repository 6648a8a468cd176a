/-
Numbering in one pass, and back.

`Grammar.interned` numbers terminals while the rules are read and gives a nonterminal without a
number whatever number it is told.  `Grammar.indexed` looks every symbol up in a list that is made
beforehand.

The two numberings agree, and they do so for every such number, so it is never asked for: a grammar
is closed, and every nonterminal it mentions is a left side.  That a number given early stays right
rests on the list of terminals only ever growing at its end.

A number can be read back as the symbol in its place.  Nothing is lost on the way: the productions,
read back one by one, are the two sides of the rules.
-/
import BusinessHours.Proofs.Grammar.Letters
import BusinessHours.Proofs.Grammar.Numbering

namespace BusinessHours

/-- A right side is the body as it is written: an empty one as epsilon. -/
theorem Rule.rhs_eq {σ : Type} [DecidableEq σ] {A : Alphabet σ} (r : Rule A) :
    r.rhs = if r.body.isEmpty then [A.epsilon] else r.body := by
  by_cases h : r.rhs = [A.epsilon]
  · have hbody : r.body = [] := by simp [body, isEpsilon, h]
    simp [hbody, h]
  · have hbody : r.body = r.rhs := by simp [body, isEpsilon, h]
    simp [hbody, r.rhs_ne_nil]

namespace Grammar

variable {σ : Type} [DecidableEq σ] {A : Alphabet σ} {g : Grammar A}

/-! ### The two numberings agree -/

theorem numberOr_eq_idxOf {missing : Nat} {nonterms : List σ} {a : σ} (ha : a ∈ nonterms) :
    numberOr missing nonterms a = nonterms.idxOf a := by
  rw [numberOr, idxOf?_eq_some_iff_mem.mpr ⟨ha, rfl⟩, Option.getD_some]

/-- What has been seen keeps its place when more is seen. -/
theorem eraseDups_isPrefix (seen more : List σ) : seen.eraseDups <+: (seen ++ more).eraseDups := by
  rw [List.eraseDups_append]
  exact List.prefix_append _ _

theorem eraseDups_markers : [A.epsilon, A.endMark].eraseDups = [A.epsilon, A.endMark] := by
  have hne : (!A.endMark == A.epsilon) = true := by simpa using Ne.symm A.epsilon_ne_endMark
  simp [List.eraseDups_cons, hne]

/-- A terminal gets the place it has once it has been seen. -/
theorem run_internTerm (s : σ) (seen : List σ) : (internTerm s).run seen.eraseDups =
    pure ((seen ++ [s]).eraseDups.idxOf s, (seen ++ [s]).eraseDups) := by
  rw [List.eraseDups_append]
  by_cases hs : s ∈ seen
  · have hid : seen.eraseDups.idxOf? s = some (seen.eraseDups.idxOf s) :=
      idxOf?_eq_some_iff_mem.mpr ⟨List.mem_eraseDups.mpr hs, rfl⟩
    simp [internTerm, hid, List.removeAll, hs]
  · have hid : seen.eraseDups.idxOf? s = none :=
      List.idxOf?_eq_none_iff.mpr fun h => hs (List.mem_eraseDups.mp h)
    simp [internTerm, hid, List.removeAll, hs, List.idxOf_append, List.eraseDups_cons]

/--
Reading a list item by item sees what the items show, one after the other.  What comes out of an
item may rest on a list that the seen terminals are still growing into.
-/
theorem run_mapM_eraseDups {α β : Type} (f : α → StateM (List σ) β) (shown : α → List σ)
    (out : α → β) {all : List σ} {items : List α}
    (hf : ∀ x ∈ items, ∀ seen, (seen ++ shown x).eraseDups <+: all →
      (f x).run seen.eraseDups = pure (out x, (seen ++ shown x).eraseDups))
    {seen : List σ} (hall : (seen ++ items.flatMap shown).eraseDups <+: all) :
    (items.mapM f).run seen.eraseDups
      = pure (items.map out, (seen ++ items.flatMap shown).eraseDups) := by
  induction items generalizing seen with
  | nil => simp
  | cons x items ih =>
      obtain ⟨hx, hitems⟩ := List.forall_mem_cons.mp hf
      rw [List.flatMap_cons, ← List.append_assoc] at hall ⊢
      have hfirst := hx seen ((eraseDups_isPrefix _ _).trans hall)
      have hrest := ih hitems hall
      rw [List.mapM_cons]
      simp [hfirst, hrest]

theorem run_internNode {missing : Nat} {all nonterms : List σ} {s : σ}
    (hs : A.isTerminal s = false → s ∈ nonterms) {seen : List σ}
    (hall : (seen ++ [s].filter A.isTerminal).eraseDups <+: all) :
    (internNode A missing nonterms s).run seen.eraseDups
      = pure (nodeOf A all nonterms s, (seen ++ [s].filter A.isTerminal).eraseDups) := by
  cases ht : A.isTerminal s with
  | true =>
      have hshown : [s].filter A.isTerminal = [s] := by simp [ht]
      rw [hshown] at hall ⊢
      obtain ⟨more, rfl⟩ := hall
      have hmem : s ∈ (seen ++ [s]).eraseDups := by simp
      simp [internNode, nodeOf, ht, run_internTerm, List.idxOf_append_of_mem hmem]
  | false => simp [internNode, nodeOf, ht, numberOr_eq_idxOf (hs ht)]

theorem run_internRule {missing : Nat} {all : List σ} {r : Rule A} (hr : r ∈ g.rules)
    {seen : List σ} (hall : (seen ++ r.body.filter A.isTerminal).eraseDups <+: all) :
    (internRule missing g.nonterms r).run seen.eraseDups
      = pure (⟨g.nonterms.idxOf r.lhs, r.body.map (nodeOf A all g.nonterms)⟩,
          (seen ++ r.body.filter A.isTerminal).eraseDups) := by
  have hflat : ∀ u : List σ, u.flatMap (fun s => [s].filter A.isTerminal)
      = u.filter A.isTerminal := by
    intro u
    induction u with
    | nil => rfl
    | cons s u ih => rw [List.flatMap_cons, ih, ← List.filter_append, List.singleton_append]
  rw [← hflat] at hall
  have hnodes := run_mapM_eraseDups (internNode A missing g.nonterms)
    (fun s => [s].filter A.isTerminal) (nodeOf A all g.nonterms)
    (fun s hs _ hseen => run_internNode (mem_nonterms_of_mem_body hr hs) hseen) hall
  rw [hflat] at hnodes
  simp [internRule, hnodes, numberOr_eq_idxOf (lhs_mem_nonterms hr)]

/--
**Numbering while reading gives the same numbers**, whatever number a nonterminal without one would
be given.
-/
theorem interned_eq_indexed (missing : Nat) : g.interned missing = g.indexed := by
  have hall : ([A.epsilon, A.endMark] ++ g.rules.flatMap fun r => r.body.filter A.isTerminal
      ).eraseDups <+: g.terms := List.prefix_refl _
  have hrun := run_mapM_eraseDups (internRule missing g.nonterms)
    (fun r => r.body.filter A.isTerminal) g.production
    (fun r hr _ hseen => run_internRule hr hseen) hall
  rw [eraseDups_markers] at hrun
  unfold interned
  dsimp only
  rw [hrun, numberOr_eq_idxOf start_mem_nonterms]
  rfl

/-! ### Reading numbers back -/

/-- **The node of a symbol stands for that symbol.** -/
theorem symbolAt?_node (hA : A.MarkersTerminal) {s : σ} (hs : s ∈ g.terms ∨ s ∈ g.nonterms) :
    g.indexed.symbolAt? (g.node s) = some s := by
  rcases hs with hs | hs
  · rw [node_of_mem_terms hA hs]
    exact List.getElem?_idxOf hs
  · rw [node_of_mem_nonterms hs]
    exact List.getElem?_idxOf hs

theorem mapM_symbolAt?_node (hA : A.MarkersTerminal) {u : List σ}
    (hu : ∀ s ∈ u, s ∈ g.terms ∨ s ∈ g.nonterms) :
    (u.map g.node).mapM g.indexed.symbolAt? = some u := by
  induction u with
  | nil => rfl
  | cons s u ih =>
      obtain ⟨hs, hu'⟩ := List.forall_mem_cons.mp hu
      rw [List.map_cons, List.mapM_cons, symbolAt?_node hA hs, ih hu']
      rfl

/-- **A production stands for the two sides of its rule.** -/
theorem sides?_production (hA : A.MarkersTerminal) {r : Rule A} (hr : r ∈ g.rules) :
    g.indexed.sides? A (g.production r) = some (r.lhs, r.rhs) := by
  have hlhs : g.indexed.nonterms[(g.production r).lhs]? = some r.lhs :=
    List.getElem?_idxOf (lhs_mem_nonterms hr)
  have hbody : (g.production r).rhs.mapM g.indexed.symbolAt? = some r.body :=
    mapM_symbolAt?_node hA fun s hs => mem_of_mem_body hr hs
  have hempty : (g.production r).rhs.isEmpty = r.body.isEmpty := List.isEmpty_map
  rw [IndexedGrammar.sides?, hlhs, hbody, hempty]
  show some (r.lhs, if r.body.isEmpty then [A.epsilon] else r.body) = some (r.lhs, r.rhs)
  rw [← r.rhs_eq]

/--
**Numbering loses nothing.**  Numbering while reading gives the same as numbering afterwards, and
asks for no number in place of a missing one.  No symbol has two numbers and no number is without a
symbol; the markers come first, and epsilon is in no production.  Read back, the productions are the
rules, in their order, and the number of the start symbol is the start symbol.
-/
theorem indexed_lossless (hA : A.MarkersTerminal) (g : Grammar A) :
    (∀ missing, g.interned missing = g.indexed) ∧
    (g.indexed.terms.Nodup ∧ g.indexed.nonterms.Nodup ∧
      g.indexed.terms.Disjoint g.indexed.nonterms) ∧
    [A.epsilon, A.endMark] <+: g.indexed.terms ∧
    g.indexed.WellNumbered ∧
    g.indexed.nonterms[g.indexed.start]? = some g.start ∧
    g.indexed.prods.map (g.indexed.sides? A) = g.rules.map fun r => some (r.lhs, r.rhs) := by
  refine ⟨interned_eq_indexed, ⟨g.terms_nodup, nodup_eraseDups _, ?_⟩, ?_,
    g.indexed_wellNumbered hA, List.getElem?_idxOf start_mem_nonterms, ?_⟩
  · intro s hterm hnonterm
    have := isTerminal_of_mem_nonterms hnonterm
    rw [isTerminal_of_mem_terms hA hterm] at this
    simp at this
  · rw [← eraseDups_markers]
    exact eraseDups_isPrefix [A.epsilon, A.endMark] _
  · rw [indexed_prods, List.map_map]
    exact List.map_congr_left fun r hr => sides?_production hA hr

theorem layeredGrammar_lossless :
    Recognizer.layeredGrammar.interned 7 = Recognizer.layeredGrammar.indexed ∧
    Recognizer.layeredGrammar.indexed.terms = ['ε', '$', 'd', 'c', 'a'] ∧
    Recognizer.layeredGrammar.indexed.nonterms = ['Z', 'Y', 'X'] ∧
    Recognizer.layeredGrammar.indexed.prods[1]? =
      some ⟨0, [.nonterm 2, .nonterm 1, .nonterm 0]⟩ ∧
    Recognizer.layeredGrammar.indexed.prods.map
        (Recognizer.layeredGrammar.indexed.sides? Alphabet.letters) =
      [some ('Z', ['d']), some ('Z', ['X', 'Y', 'Z']), some ('Y', ['ε']), some ('Y', ['c']),
        some ('X', ['Y']), some ('X', ['a'])] := by
  obtain ⟨hinterned, -, -, -, -, hsides⟩ := indexed_lossless (by decide) Recognizer.layeredGrammar
  exact ⟨hinterned 7, by decide +kernel, by decide +kernel, by decide +kernel, hsides⟩

end Grammar

end BusinessHours

/-
Left recursion.

Nothing looks for left recursion when a table is filled.  A nonterminal that begins with itself
and with some terminal as well is refused all the same, and the reason is a chain of corners.

Suppose there is a table.  A rule is predicted on each terminal that its corners lead to, so on
one terminal all rules that lead there are the same rule.  Two things follow.

First, a nonterminal that can vanish is never followed by a terminal that it can begin with.
The rule that leads there and the one that vanishes would be one rule, whose corner on the way
can vanish in its turn and be followed by the terminal.  At the end of the chain it would be the
terminal that vanishes.

Second, only one corner of a nonterminal leads to a terminal.  Of two in one body the former could
vanish, and the terminal could follow it.  So a chain that has started towards a terminal cannot
take any other way, and it does not come back to where it was.
-/
import BusinessHours.Proofs.Grammar.Corner
import BusinessHours.Proofs.LL1.Queries

namespace BusinessHours

namespace Recognizer

open Relation

variable {σ : Type} [DecidableEq σ] {A : Alphabet σ} {g : Grammar A} {r : Recognizer A}

/-- A rule begins with each terminal that one of its corners leads to. -/
theorem begins_of_chain {q : Rule A} {front rest : List σ} {b t : σ}
    (hbody : q.body = front ++ b :: rest) (hfront : g.Derives front [])
    (hchain : ReflTransGen g.Corner b t) (ht : A.isTerminal t = true) (hne : t ≠ A.epsilon) :
    g.Begins q t := by
  have hbegins := Grammar.exists_derives_cons_of_split rest hfront
    (Grammar.chain_iff_exists_derives.mp hchain)
  rw [← hbody] at hbegins
  exact ⟨hne, ht, hbegins⟩

section Predicted

variable (hA : A.MarkersTerminal) (h : ofGrammar? g = .ok r)
include hA h

/-- **Rules of one nonterminal that are predicted on one terminal are the same rule.** -/
theorem rule_eq_of_predicts {p q : Rule A} (hp : p ∈ g.rules) (hq : q ∈ g.rules)
    (hl : p.lhs = q.lhs) {t : σ} (hpt : g.Predicts p t) (hqt : g.Predicts q t) : p = q := by
  have hentry := (tableEntry?_eq_some_iff hA h).mpr ⟨hp, hl, hpt⟩
  have hentry' := (tableEntry?_eq_some_iff hA h).mpr ⟨hq, rfl, hqt⟩
  exact Option.some.inj (hentry.symm.trans hentry')

/-! ### Behind what can vanish -/

/-- **What can vanish is not followed by a terminal that it leads to.** -/
theorem not_follows_of_chain {a t : σ} (hchain : ReflTransGen g.Corner a t)
    (ht : A.isTerminal t = true) (hne : t ≠ A.epsilon) (hnull : g.Derives [a] []) :
    ¬ g.Follows a t := by
  -- Along the chain: each symbol on it can vanish, down to the terminal.
  induction hchain using ReflTransGen.head_induction_on with
  | refl =>
      have hsame := hnull.eq_of_terminals (by simpa using ht)
      simp at hsame
  | head hcorner hchain ih =>
      obtain ⟨hq, hbody, hfront⟩ := hcorner
      intro hfollows
      obtain ⟨p, hp, hl, hvanish⟩ := hnull.exists_rule (by simp)
      have hpt : g.Predicts p t := .inr ⟨hvanish, ht, hl.symm ▸ hfollows⟩
      have hqt : g.Predicts _ t := .inl (begins_of_chain hbody hfront hchain ht hne)
      obtain rfl := rule_eq_of_predicts hA h hp hq hl hpt hqt
      rw [hbody] at hvanish
      obtain ⟨-, hrear⟩ := Grammar.derives_append_nil_iff.mp hvanish
      obtain ⟨hcornerNull, hrest⟩ := Grammar.derives_append_nil_iff (u := [_]) |>.mp hrear
      exact ih hcornerNull (hfollows.of_lhs hq hbody hrest)

/--
In one body, nothing behind a corner leads to a terminal that the corner leads to, if the corner and
all between can vanish.
-/
theorem not_chain_behind {q : Rule A} (hq : q ∈ g.rules) {front middle rest : List σ} {b c t : σ}
    (hbody : q.body = front ++ b :: (middle ++ c :: rest)) (hvanish : g.Derives (b :: middle) [])
    (hb : ReflTransGen g.Corner b t) (ht : A.isTerminal t = true) (hne : t ≠ A.epsilon) :
    ¬ ReflTransGen g.Corner c t := by
  intro hc
  obtain ⟨hnull, hmiddle⟩ := (Grammar.derives_append_nil_iff (u := [b])).mp hvanish
  have hrest := Grammar.exists_derives_cons_of_split rest hmiddle
    (Grammar.chain_iff_exists_derives.mp hc)
  exact not_follows_of_chain hA h hb ht hne hnull (.of_rest hq hbody hrest)

/-! ### One way to a terminal -/

/-- **Only one corner of a nonterminal leads to a terminal.** -/
theorem corner_unique {a b c t : σ} (hab : g.Corner a b) (hac : g.Corner a c)
    (hb : ReflTransGen g.Corner b t) (hc : ReflTransGen g.Corner c t)
    (ht : A.isTerminal t = true) (hne : t ≠ A.epsilon) : b = c := by
  obtain @⟨p, hp, front, rest, b, hbody, hfront⟩ := hab
  generalize hl : p.lhs = a at hac
  obtain @⟨q, hq, front', rest', c, hbody', hfront'⟩ := hac
  have hpt : g.Predicts p t := .inl (begins_of_chain hbody hfront hb ht hne)
  have hqt : g.Predicts q t := .inl (begins_of_chain hbody' hfront' hc ht hne)
  obtain rfl := rule_eq_of_predicts hA h hp hq hl hpt hqt
  -- Two places of one body: of two different ones the former is that of a corner in between.
  rw [hbody] at hbody'
  rcases List.append_eq_append_iff.mp hbody' with ⟨middle, rfl, hrear⟩ | ⟨middle, rfl, hrear⟩
  · cases middle with
    | nil => exact (List.cons.inj hrear).1
    | cons s middle =>
        obtain ⟨rfl, rfl⟩ := List.cons.inj hrear
        have hvanish := (Grammar.derives_append_nil_iff.mp hfront').2
        exact absurd hc (not_chain_behind hA h hp hbody hvanish hb ht hne)
  · cases middle with
    | nil => exact (List.cons.inj hrear).1.symm
    | cons s middle =>
        obtain ⟨rfl, rfl⟩ := List.cons.inj hrear
        rw [List.append_assoc, List.cons_append] at hbody
        have hvanish := (Grammar.derives_append_nil_iff.mp hfront).2
        exact absurd hb (not_chain_behind hA h hp hbody hvanish hc ht hne)

/-- **What leads to a terminal does not lead back to itself.** -/
theorem not_recursive_of_chain {a t : σ} (hchain : ReflTransGen g.Corner a t)
    (ht : A.isTerminal t = true) (hne : t ≠ A.epsilon) : ¬ TransGen g.Corner a a := by
  -- Along the chain: a cycle through one symbol goes through the next, and at last the terminal.
  induction hchain using ReflTransGen.head_induction_on with
  | refl =>
      intro hcycle
      obtain ⟨c, hcorner, -⟩ := TransGen.head'_iff.mp hcycle
      rw [hcorner.isTerminal_eq_false] at ht
      simp at ht
  | head hcorner hchain ih =>
      intro hcycle
      obtain ⟨c, hcorner', hback⟩ := TransGen.head'_iff.mp hcycle
      have hc : ReflTransGen g.Corner c t := hback.trans (.head hcorner hchain)
      obtain rfl := corner_unique hA h hcorner hcorner' hchain hc ht hne
      exact ih (TransGen.tail' hback hcorner)

end Predicted

/-! ### Sets and refusal -/

/--
**FIRST and FOLLOW of a nonterminal that can vanish have nothing in common.**  One rule may be
placed in a cell twice, because it begins with a terminal and because it can vanish in front of
it; where that happens two other rules clash.
-/
theorem first_follow_disjoint (hA : A.MarkersTerminal) (h : ofGrammar? g = .ok r) {a : σ}
    (ha : A.isTerminal a = false) (hnull : A.epsilon ∈ r.firstSet a) :
    ∃ follow, r.followSet? a = some follow ∧ List.Disjoint (r.firstSet a) follow := by
  rw [firstSet_of_nonterminal h ha] at hnull ⊢
  have hvanish := (Grammar.epsilon_mem_firstSymbols_iff hA).mp hnull
  have ha' := Grammar.mem_nonterms_of_derives hvanish (by simp)
  refine ⟨g.followSymbols a, (followSet?_eq_some_iff h).mpr ⟨ha', rfl⟩, fun t hfirst hfollow => ?_⟩
  obtain ⟨ht, hfollows⟩ := (Grammar.mem_followSymbols_iff_follows hA ha).mp hfollow
  have hne := hfollows.ne_epsilon hA
  obtain ⟨-, hbegins⟩ := (Grammar.mem_firstSymbols_iff_derives hA ha hne).mp hfirst
  have hchain := Grammar.chain_iff_exists_derives.mpr hbegins
  exact not_follows_of_chain hA h hchain ht hne hvanish hfollows

/-- A grammar in which two nonterminals can vanish, the first by way of the second. -/
def chainGrammar : Grammar Alphabet.letters :=
  letterGrammar 'S' [('S', ['X', 'c']), ('X', ['Y']), ('Y', ['b']), ('Y', ['ε'])]

theorem chainGrammar_first_follow_disjoint : ∃ r, ofGrammar? chainGrammar = .ok r ∧
    r.firstSet 'X' = ['ε', 'b'] ∧
    ∃ follow, r.followSet? 'X' = some follow ∧ List.Disjoint (r.firstSet 'X') follow := by
  have hok : (ofGrammar? chainGrammar).toOption.map (·.firstSet 'X') = some ['ε', 'b'] := by
    decide +kernel
  cases h : ofGrammar? chainGrammar with
  | error c => simp [h, Except.toOption] at hok
  | ok r =>
      have hfirst : r.firstSet 'X' = ['ε', 'b'] := by
        rw [h] at hok
        exact Option.some.inj hok
      have hnull : 'ε' ∈ r.firstSet 'X' := by
        rw [hfirst]
        exact List.mem_cons_self
      exact ⟨r, rfl, hfirst, first_follow_disjoint (by decide) h rfl hnull⟩

/--
**A nonterminal that begins with itself and with a terminal has no recogniser.**  It may come back
through other nonterminals, and behind what can vanish.
-/
theorem left_recursion_refused (hA : A.MarkersTerminal) {a t : σ} {w v : List σ}
    (hstep : g.Step [a] w) (hback : g.Derives w (a :: v)) (hfirst : t ∈ g.firstSymbols a)
    (hne : t ≠ A.epsilon) : ∃ c, ofGrammar? g = .error c := by
  cases h : ofGrammar? g with
  | error c => exact ⟨c, rfl⟩
  | ok r =>
      exfalso
      have hcycle := Grammar.transGen_corner_of_step hstep hback
      obtain ⟨c, hcorner, -⟩ := TransGen.head'_iff.mp hcycle
      obtain ⟨ht, hbegins⟩ :=
        (Grammar.mem_firstSymbols_iff_derives hA hcorner.isTerminal_eq_false hne).mp hfirst
      have hchain := Grammar.chain_iff_exists_derives.mpr hbegins
      exact not_recursive_of_chain hA h hchain ht hne hcycle

/-- A grammar whose start symbol begins with itself, behind what can vanish. -/
def hiddenGrammar : Grammar Alphabet.letters :=
  letterGrammar 'S' [('S', ['N', 'T', 'b']), ('S', ['a']), ('N', ['ε']), ('T', ['S', 'c'])]

/-- The recursion is hidden behind a nonterminal that vanishes, and takes two rules to come back. -/
theorem hiddenGrammar_refused : hiddenGrammar.Step ['S'] ['N', 'T', 'b'] ∧
    hiddenGrammar.Derives ['N', 'T', 'b'] ['S', 'c', 'b'] ∧
    'a' ∈ hiddenGrammar.firstSymbols 'S' ∧ ∃ c, ofGrammar? hiddenGrammar = .error c := by
  have hstep : hiddenGrammar.Step ([] ++ 'S' :: []) ([] ++ (['N', 'T', 'b'] ++ [])) :=
    .replace (r := letterRule 'S' ['N', 'T', 'b']) (by decide) [] []
  have hvanish : hiddenGrammar.Step ([] ++ 'N' :: ['T', 'b']) ([] ++ ([] ++ ['T', 'b'])) :=
    .replace (r := letterRule 'N' ['ε']) (by decide) [] ['T', 'b']
  have hreturn : hiddenGrammar.Step ([] ++ 'T' :: ['b']) ([] ++ (['S', 'c'] ++ ['b'])) :=
    .replace (r := letterRule 'T' ['S', 'c']) (by decide) [] ['b']
  have hback := Grammar.Derives.step hvanish (.step hreturn (.refl _))
  have hfirst : 'a' ∈ hiddenGrammar.firstSymbols 'S' := by decide +kernel
  exact ⟨hstep, hback, hfirst, left_recursion_refused (by decide) hstep hback hfirst (by decide)⟩

end Recognizer

end BusinessHours

/-
Derivations.

A sentential form is a list of symbols.  One step of a derivation replaces one occurrence of
a nonterminal, anywhere in the form, by the body of one of its rules; an epsilon rule leaves
nothing there.  The texts of a grammar are the forms without nonterminals that its start
symbol derives.

Where it matters in which order nonterminals are replaced, a *leftmost* derivation always
replaces the first one.  It is given by the rules it uses, each by its place, so two rules
that read alike are two different choices.

Derivations are what FIRST, FOLLOW, tables and recognisers are about.  They are defined here
without any of these.
-/
import BusinessHours.Grammar.Basic

namespace BusinessHours

namespace Grammar

variable {σ : Type} [DecidableEq σ] {A : Alphabet σ}

/-- One occurrence of a left side is replaced by the body of its rule. -/
inductive Step (g : Grammar A) : List σ → List σ → Prop
  | replace {r : Rule A} (hr : r ∈ g.rules) (before after : List σ) :
      Step g (before ++ r.lhs :: after) (before ++ (r.body ++ after))

/-- One form derives another by any number of steps, none included. -/
inductive Derives (g : Grammar A) : List σ → List σ → Prop
  | refl (u : List σ) : Derives g u u
  | step {u v w : List σ} (first : g.Step u v) (rest : Derives g v w) : Derives g u w

/--
The rules in the given places, used in this order and each on the first nonterminal of the
form, lead from one form to another.
-/
inductive Leftmost (g : Grammar A) : List Nat → List σ → List σ → Prop
  | refl (u : List σ) : Leftmost g [] u u
  | step {i : Nat} {places : List Nat} {r : Rule A} {before after w : List σ}
      (hr : g.rules[i]? = some r) (hb : ∀ s ∈ before, A.isTerminal s = true)
      (rest : Leftmost g places (before ++ (r.body ++ after)) w) :
      Leftmost g (i :: places) (before ++ r.lhs :: after) w

namespace Step

variable {g : Grammar A} {u v : List σ}

/-- A step can be taken inside a longer form. -/
theorem within (h : g.Step u v) (x y : List σ) : g.Step (x ++ u ++ y) (x ++ v ++ y) := by
  cases h with
  | replace hr before after =>
      have := Step.replace hr (x ++ before) (after ++ y)
      simpa [List.append_assoc] using this

end Step

namespace Derives

variable {g : Grammar A} {u v w : List σ}

/-- A rule derives its body from its left side. -/
theorem of_rule {r : Rule A} (hr : r ∈ g.rules) : g.Derives [r.lhs] r.body := by
  have h := Step.replace hr [] []
  simp only [List.nil_append, List.append_nil] at h
  exact .step h (.refl _)

/-- Derivations can be joined. -/
theorem trans (h : g.Derives u v) (k : g.Derives v w) : g.Derives u w := by
  induction h with
  | refl => exact k
  | step first _ ih => exact .step first (ih k)

/-- A derivation can be carried out inside a longer form. -/
theorem within (h : g.Derives u v) (x y : List σ) :
    g.Derives (x ++ u ++ y) (x ++ v ++ y) := by
  induction h with
  | refl => exact .refl _
  | step first _ ih => exact .step (first.within x y) ih

/-- **Parts of a form derive independently of each other.** -/
theorem append {u' v' : List σ} (h : g.Derives u v) (k : g.Derives u' v') :
    g.Derives (u ++ u') (v ++ v') := by
  have h' := h.within [] u'
  have k' := k.within v []
  simp only [List.nil_append, List.append_nil] at h' k'
  exact h'.trans k'

end Derives

/-- A leftmost derivation is a derivation. -/
theorem Leftmost.derives {g : Grammar A} {places : List Nat} {u w : List σ}
    (h : g.Leftmost places u w) : g.Derives u w := by
  induction h with
  | refl => exact .refl _
  | step hr _ _ ih => exact .step (.replace (List.mem_of_getElem? hr) _ _) ih

end Grammar

end BusinessHours

/-
Corners.

A rule brings each symbol of its body to the front behind which it can: all that stands before
the symbol only has to vanish.  These symbols are the *corners* of its left side.

A derivation uses many rules, and not only at the front.  But what a form can begin with is
settled by the corners alone.  It begins with a symbol exactly if a chain of corners leads there
from one of its own symbols, behind others that can vanish.  So a terminal is in a FIRST set
because of a chain that ends with it, and a nonterminal is left recursive because of a chain that
comes back to it: through other nonterminals, and behind what can vanish, as the case may be.
-/
import BusinessHours.Proofs.Grammar.Derivation
import Mathlib.Logic.Relation

namespace BusinessHours

namespace Grammar

open Relation

variable {σ : Type} [DecidableEq σ] {A : Alphabet σ} {g : Grammar A}

/-- A rule has `b` in its body, behind symbols that can vanish. -/
inductive Corner (g : Grammar A) : σ → σ → Prop
  | ofRule {r : Rule A} (hr : r ∈ g.rules) {front rest : List σ} {b : σ}
      (hbody : r.body = front ++ b :: rest) (hfront : g.Derives front []) : Corner g r.lhs b

/-- A chain of corners leads to `b` from a symbol of the form, behind symbols that can vanish. -/
def LeadsTo (g : Grammar A) (u : List σ) (b : σ) : Prop :=
  ∃ front s rest, u = front ++ s :: rest ∧ g.Derives front [] ∧ ReflTransGen g.Corner s b

/-- Only nonterminals have corners. -/
theorem Corner.isTerminal_eq_false {a b : σ} (h : g.Corner a b) : A.isTerminal a = false := by
  obtain ⟨-, -, -⟩ := h
  exact Rule.lhs_nonterminal _

/-! ### Where a form leads -/

theorem leadsTo_singleton_iff {a b : σ} :
    g.LeadsTo [a] b ↔ ReflTransGen g.Corner a b := by
  constructor
  · intro h
    obtain ⟨front, s, rest, hform, -, hchain⟩ := h
    obtain ⟨rfl, rfl, rfl⟩ : front = [] ∧ a = s ∧ rest = [] := by
      cases front <;> simp_all
    exact hchain
  · intro h
    exact ⟨[], a, [], rfl, .refl _, h⟩

/-- A form leads where its front part does, or its rear part if the front can vanish. -/
theorem leadsTo_append_iff {u v : List σ} {b : σ} :
    g.LeadsTo (u ++ v) b ↔ g.LeadsTo u b ∨ g.Derives u [] ∧ g.LeadsTo v b := by
  constructor
  · intro h
    obtain ⟨front, s, rest, hform, hfront, hchain⟩ := h
    rcases List.append_eq_append_iff.mp hform with ⟨middle, rfl, rfl⟩ | ⟨middle, rfl, hrear⟩
    · obtain ⟨hu, hmiddle⟩ := derives_append_nil_iff.mp hfront
      exact .inr ⟨hu, middle, s, rest, rfl, hmiddle, hchain⟩
    · rcases List.cons_eq_append_iff.mp hrear with ⟨rfl, rfl⟩ | ⟨inner, rfl, rfl⟩
      · rw [List.append_nil]
        exact .inr ⟨hfront, [], s, rest, rfl, .refl _, hchain⟩
      · exact .inl ⟨front, s, inner, rfl, hfront, hchain⟩
  · rintro (⟨front, s, rest, rfl, hfront, hchain⟩ | ⟨hu, front, s, rest, rfl, hfront, hchain⟩)
    · exact ⟨front, s, rest ++ v, by simp, hfront, hchain⟩
    · exact ⟨u ++ front, s, rest, by simp, derives_append_nil_iff.mpr ⟨hu, hfront⟩, hchain⟩

/-- A left side leads where its body does. -/
theorem LeadsTo.of_body {r : Rule A} (hr : r ∈ g.rules) {b : σ} (h : g.LeadsTo r.body b) :
    g.LeadsTo [r.lhs] b := by
  obtain ⟨front, s, rest, hbody, hfront, hchain⟩ := h
  apply leadsTo_singleton_iff.mpr
  exact .head (.ofRule hr hbody hfront) hchain

/-- **A step leads nowhere new.** -/
theorem Step.leadsTo {u v : List σ} (h : g.Step u v) {b : σ} (hv : g.LeadsTo v b) :
    g.LeadsTo u b := by
  cases h with
  | @replace r hr before after =>
      show g.LeadsTo (before ++ ([r.lhs] ++ after)) b
      rw [leadsTo_append_iff, leadsTo_append_iff] at hv ⊢
      refine hv.imp_right (And.imp_right fun hrear => ?_)
      exact hrear.imp (LeadsTo.of_body hr) (And.imp_left (Derives.of_rule hr).trans)

/-! ### Chains and derivations -/

/-- A form that a chain starts in derives one that begins where the chain ends. -/
theorem exists_derives_of_chain {a b : σ} (h : ReflTransGen g.Corner a b) :
    ∃ v, g.Derives [a] (b :: v) := by
  induction h using ReflTransGen.head_induction_on with
  | refl => exact ⟨[], .refl _⟩
  | head hcorner _ ih =>
      obtain ⟨hr, hbody, hfront⟩ := hcorner
      obtain ⟨v, hv⟩ := exists_derives_cons_of_split _ hfront ih
      exact ⟨v, (Derives.of_rule hr).trans (hbody ▸ hv)⟩

/-- **A form leads to what it can begin with.** -/
theorem leadsTo_iff_exists_derives {u : List σ} {b : σ} :
    g.LeadsTo u b ↔ ∃ v, g.Derives u (b :: v) := by
  constructor
  · intro h
    obtain ⟨front, s, rest, rfl, hfront, hchain⟩ := h
    exact exists_derives_cons_of_split rest hfront (exists_derives_of_chain hchain)
  · intro h
    obtain ⟨v, h⟩ := h
    generalize hform : b :: v = form at h
    -- From the last form back to the first: it begins with `b`, and no step leads anywhere new.
    induction h with
    | refl =>
        subst hform
        exact ⟨[], b, v, rfl, .refl _, .refl⟩
    | step first _ ih => exact first.leadsTo (ih hform)

/-- **A nonterminal can begin with what its corners lead to.** -/
theorem chain_iff_exists_derives {a b : σ} :
    ReflTransGen g.Corner a b ↔ ∃ v, g.Derives [a] (b :: v) :=
  leadsTo_singleton_iff.symm.trans leadsTo_iff_exists_derives

/-- What a nonterminal begins with after a step or more, its corners lead to by a link or more. -/
theorem transGen_corner_of_step {a b : σ} {w v : List σ} (hstep : g.Step [a] w)
    (hrest : g.Derives w (b :: v)) : TransGen g.Corner a b := by
  obtain ⟨r, hr, rfl, rfl⟩ := hstep.exists_rule
  obtain ⟨front, s, rest, hbody, hfront, hchain⟩ := leadsTo_iff_exists_derives.mpr ⟨v, hrest⟩
  exact .head' (.ofRule hr hbody hfront) hchain

end Grammar

end BusinessHours

/-
Grammars.

A grammar is a list of rules and a start symbol.  Order and repetition of the rules are
kept, because a rule is named by its place.  A grammar is closed: the start symbol is a
nonterminal, and each nonterminal that it or a right side mentions has a rule.  So every
nonterminal that a derivation can meet can be expanded, and a grammar has at least one
rule.  Nothing asks that a nonterminal be reachable or that it derive a text.
-/
import BusinessHours.Grammar.Rule

namespace BusinessHours

/-- What keeps a start symbol and some rules from forming a grammar. -/
inductive GrammarError (σ : Type) where
  /-- There are no rules. -/
  | noRules
  /-- The start symbol is a terminal. -/
  | startIsTerminal (start : σ)
  /-- A nonterminal is mentioned but has no rule. -/
  | undefinedNonterminal (symbol : σ)
deriving DecidableEq

/-- The message of a grammar error. -/
def GrammarError.message {σ : Type} (A : Alphabet σ) : GrammarError σ → String
  | noRules => "grammar has no rules"
  | startIsTerminal start => "start symbol " ++ A.name start ++ " is a terminal"
  | undefinedNonterminal symbol => "nonterminal " ++ A.name symbol ++ " has no production"

/-- The symbols a start symbol and rules mention: the start, then the right sides in order. -/
def mentioned {σ : Type} {A : Alphabet σ} (start : σ) (rules : List (Rule A)) : List σ :=
  start :: rules.flatMap Rule.rhs

/-- Rules and a start symbol, in which every nonterminal that is mentioned is defined. -/
structure Grammar {σ : Type} (A : Alphabet σ) where
  /-- The symbol every derivation begins with. -/
  start : σ
  /-- The rules, each named by its place. -/
  rules : List (Rule A)
  /-- The start symbol can be expanded. -/
  start_nonterminal : A.isTerminal start = false
  /-- A nonterminal that is mentioned is the left side of some rule. -/
  closed : ∀ s ∈ mentioned start rules, A.isTerminal s = false → s ∈ rules.map Rule.lhs

namespace Grammar

variable {σ : Type} {A : Alphabet σ}

/-- The first nonterminal that is mentioned without being defined. -/
def undefined? [DecidableEq σ] (start : σ) (rules : List (Rule A)) : Option σ :=
  let defined := rules.map Rule.lhs
  (mentioned start rules).find? fun s => !A.isTerminal s && !defined.contains s

private theorem closed_of_undefined?_eq_none [DecidableEq σ] {start : σ} {rules : List (Rule A)}
    (h : undefined? start rules = none) :
    ∀ s ∈ mentioned start rules, A.isTerminal s = false → s ∈ rules.map Rule.lhs := by
  intro s hs ht
  have := List.find?_eq_none.mp h s hs
  simpa [ht] using this

/--
The grammar of the given rules, or the first thing wrong with them: no rules, then a
terminal as start symbol, then the first nonterminal without a rule.
-/
def ofRules? [DecidableEq σ] (start : σ) (rules : List (Rule A)) :
    Except (GrammarError σ) (Grammar A) :=
  if rules = [] then .error .noRules
  else if hs : A.isTerminal start = true then .error (.startIsTerminal start)
  else match h : undefined? start rules with
    | some s => .error (.undefinedNonterminal s)
    | none => .ok
        { start, rules
          start_nonterminal := Alphabet.isTerminal_eq_false hs
          closed := closed_of_undefined?_eq_none h }

/-- The start symbol has a rule. -/
theorem start_mem_lhs (g : Grammar A) : g.start ∈ g.rules.map Rule.lhs :=
  g.closed g.start List.mem_cons_self g.start_nonterminal

/-- A grammar has a rule. -/
theorem rules_ne_nil (g : Grammar A) : g.rules ≠ [] := by
  intro h
  simpa [h] using g.start_mem_lhs

end Grammar

end BusinessHours

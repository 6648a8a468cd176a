/-
Rules of a grammar.

A rule replaces a nonterminal, its left side, by a list of symbols.  The empty list has a
notation of its own, the epsilon symbol alone, so a right side is never written empty and
epsilon never stands beside another symbol.  These three conditions are part of the type:
a `Rule` that exists is well formed, and `Rule.ofSides?` is the only place that has to
say what is wrong with one that is not.
-/
import BusinessHours.Grammar.Alphabet

namespace BusinessHours

/-- What keeps two sides from forming a rule. Each case names the left side. -/
inductive RuleError (σ : Type) where
  /-- The left side is a terminal. -/
  | terminalOnLeft (lhs : σ)
  /-- The right side is written as nothing at all. -/
  | emptyRightSide (lhs : σ)
  /-- Epsilon stands among other symbols. -/
  | misplacedEpsilon (lhs : σ)
deriving DecidableEq

/-- The message of a rule error. -/
def RuleError.message {σ : Type} (A : Alphabet σ) : RuleError σ → String
  | terminalOnLeft lhs =>
      "terminal symbol " ++ A.name lhs ++ " cannot appear at the left hand side of a rule"
  | emptyRightSide lhs => "rule for " ++ A.name lhs ++ " has an empty right hand side"
  | misplacedEpsilon lhs =>
      "epsilon must be the only symbol of a right hand side in rule for " ++ A.name lhs

/-- A nonterminal and what it may be replaced by. -/
structure Rule {σ : Type} (A : Alphabet σ) where
  /-- The symbol that is replaced. -/
  lhs : σ
  /-- The symbols it is replaced by, as written. -/
  rhs : List σ
  /-- Only nonterminals are replaced. -/
  lhs_nonterminal : A.isTerminal lhs = false
  /-- A right side is written with at least one symbol. -/
  rhs_ne_nil : rhs ≠ []
  /-- Epsilon stands alone or not at all. -/
  epsilon_alone : A.epsilon ∈ rhs → rhs = [A.epsilon]

namespace Rule

variable {σ : Type} {A : Alphabet σ}

/-- A rule is its two sides; the conditions on them are proofs and hold no data. -/
@[ext] theorem ext {r s : Rule A} (hl : r.lhs = s.lhs) (hr : r.rhs = s.rhs) : r = s := by
  cases r; cases s; cases hl; cases hr; rfl

instance [DecidableEq σ] : DecidableEq (Rule A) := fun r s =>
  decidable_of_iff (r.lhs = s.lhs ∧ r.rhs = s.rhs)
    ⟨fun h => Rule.ext h.1 h.2, fun h => h ▸ ⟨rfl, rfl⟩⟩

instance [Hashable σ] : Hashable (Rule A) where
  hash r := mixHash (hash r.lhs) (hash r.rhs)

private theorem epsilon_alone_of_short {e : σ} {rhs : List σ}
    (h : ¬ (1 < rhs.length ∧ e ∈ rhs)) (he : e ∈ rhs) : rhs = [e] := by
  match rhs with
  | [] => simp at he
  | [x] => simp at he; simp [he]
  | _ :: _ :: _ => exact absurd ⟨by simp, he⟩ h

section Making

variable [DecidableEq σ]

/--
The rule with the given sides, or the first thing wrong with them: a terminal on the left,
then nothing on the right, then epsilon among other symbols.
-/
def ofSides? (A : Alphabet σ) (lhs : σ) (rhs : List σ) : Except (RuleError σ) (Rule A) :=
  if hl : A.isTerminal lhs = true then .error (.terminalOnLeft lhs)
  else if hr : rhs = [] then .error (.emptyRightSide lhs)
  else if he : 1 < rhs.length ∧ A.epsilon ∈ rhs then .error (.misplacedEpsilon lhs)
  else .ok
    { lhs, rhs
      lhs_nonterminal := Alphabet.isTerminal_eq_false hl
      rhs_ne_nil := hr
      epsilon_alone := epsilon_alone_of_short he }

/-- Whether the rule replaces its left side by nothing. -/
def isEpsilon (r : Rule A) : Bool :=
  decide (r.rhs = [A.epsilon])

/-- The symbols that take the place of the left side: none for an epsilon rule. -/
def body (r : Rule A) : List σ :=
  if r.isEpsilon then [] else r.rhs

/-- What takes the place of a left side is written on the right. -/
theorem mem_rhs_of_mem_body {r : Rule A} {s : σ} (h : s ∈ r.body) : s ∈ r.rhs := by
  unfold body at h
  split at h
  · exact absurd h List.not_mem_nil
  · exact h

/-- Epsilon is notation only: it never takes the place of a left side. -/
theorem epsilon_notMem_body (r : Rule A) : A.epsilon ∉ r.body := by
  unfold body isEpsilon
  split
  · simp
  · rename_i h
    exact fun he => h (decide_eq_true (r.epsilon_alone he))

end Making

/-- A rule as it is written: the left side, an arrow, and the right side symbol by symbol. -/
def text (r : Rule A) : String :=
  A.name r.lhs ++ " ->" ++ String.join (r.rhs.map fun s => " " ++ A.name s)

end Rule

end BusinessHours

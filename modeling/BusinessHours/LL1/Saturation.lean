/-
Least closed families of sets.

FIRST and FOLLOW are both given by rules of one shape: if these members are there, so is
that one.  What they define is the least family, one set for each nonterminal, that the
rules cannot enlarge.  It is reached from below.  A *round* applies every rule once, each
to the family the previous one left, and rounds are run until one of them changes nothing.

Families are never compared.  A rule reports whether the set it enlarged lacked a member, and
a round hands these reports on: `Progress` is a family together with whether the round has
changed it so far.

Rounds only add members, and there is room for `nonterms * terms` of them, so a round that
changes nothing comes after at most that many that do.  `saturate` is given one round more
than that.
-/
import BusinessHours.IdSet.Basic

namespace BusinessHours

/-- One set of terminals for each nonterminal, both by number. -/
structure Family (terms nonterms : Nat) where
  /-- The sets, in the order of the nonterminals. -/
  sets : Vector (IdSet terms) nonterms

namespace Family

variable {terms nonterms : Nat}

/-- The family of empty sets. -/
def empty : Family terms nonterms := ⟨Vector.replicate _ .empty⟩

/-- The set of nonterminal `a`; a number that is none has the empty set. -/
def get (f : Family terms nonterms) (a : Nat) : IdSet terms :=
  f.sets[a]?.getD .empty

/-- The family in which the set of `a` has the members of `s` as well. -/
def enlarge (f : Family terms nonterms) (a : Nat) (s : IdSet terms) : Family terms nonterms :=
  ⟨f.sets.setIfInBounds a ((f.get a).union s)⟩

/-! ### Rounds -/

/-- A family on its way through a round. -/
structure Progress (terms nonterms : Nat) where
  /-- The family as it is by now. -/
  family : Family terms nonterms
  /-- Whether the round has changed it. -/
  changed : Bool

/-- The beginning of a round. -/
def Progress.start (f : Family terms nonterms) : Progress terms nonterms := ⟨f, false⟩

/-- Goes on with one more step of the round. -/
def Progress.andThen (done : Progress terms nonterms)
    (step : Family terms nonterms → Progress terms nonterms) : Progress terms nonterms :=
  let next := step done.family
  ⟨next.family, done.changed || next.changed⟩

/-- Puts another set in the place of that of `a`, with a report of whether it differs. -/
def replace (f : Family terms nonterms) (a : Nat) (own : IdSet terms × Bool) :
    Progress terms nonterms :=
  ⟨⟨f.sets.setIfInBounds a own.1⟩, own.2⟩

/-- Adds the members of `s` to the set of `a`, and reports whether one was missing. -/
def enlargeReporting (f : Family terms nonterms) (a : Nat) (s : IdSet terms) :
    Progress terms nonterms :=
  f.replace a ((f.get a).unionReporting s)

/-- Adds the members of `s` but `i` to the set of `a`, and reports whether one was missing. -/
def enlargeExceptReporting (f : Family terms nonterms) (a : Nat) (s : IdSet terms) (i : Nat) :
    Progress terms nonterms :=
  f.replace a ((f.get a).unionExceptReporting s i)

/-- Runs rounds until one reports no change, but at most `fuel` of them. -/
def saturate (round : Family terms nonterms → Progress terms nonterms) :
    Nat → Family terms nonterms → Family terms nonterms
  | 0, f => f
  | fuel + 1, f =>
    let done := round f
    if done.changed then saturate round fuel done.family else done.family

/-- A number of rounds after which none can change anything. -/
def enoughRounds (terms nonterms : Nat) : Nat := nonterms * terms + 1

/-! ### What each operation does to the sets -/

@[simp] theorem get_empty (a : Nat) : (empty : Family terms nonterms).get a = .empty := by
  by_cases h : a < nonterms <;> simp [get, empty, h]

@[simp] theorem Progress.family_andThen (done : Progress terms nonterms)
    (step : Family terms nonterms → Progress terms nonterms) :
    (done.andThen step).family = (step done.family).family := rfl

/-- Only the set of the nonterminal named is enlarged. -/
theorem get_enlarge (f : Family terms nonterms) {a : Nat} (ha : a < nonterms) (s : IdSet terms)
    (b : Nat) : (f.enlarge a s).get b = if a = b then (f.get a).union s else f.get b := by
  unfold enlarge
  rw [get, Vector.getElem?_setIfInBounds]
  by_cases h : a = b
  · subst h; simp [ha]
  · simp [h, get]

end Family

end BusinessHours

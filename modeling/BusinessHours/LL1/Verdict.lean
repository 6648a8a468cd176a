/-
Verdicts.

A recogniser accepts an input or rejects it, and when it rejects it may say why.  The
explanation is for people: two verdicts count as equal when they agree on acceptance, and
they hash alike then.
-/
namespace BusinessHours

/-- The answer of a recogniser. -/
inductive Verdict where
  | accepted
  | rejected (explanation : Option String)
deriving Repr

namespace Verdict

/-- Whether the input was accepted. -/
def isAccepted : Verdict → Bool
  | accepted => true
  | rejected _ => false

/-- Why the input was rejected, if there is something to say. -/
def explanation? : Verdict → Option String
  | accepted => none
  | rejected explanation => explanation

instance : BEq Verdict where
  beq v w := v.isAccepted == w.isAccepted

instance : Hashable Verdict where
  hash v := hash v.isAccepted

/-- Equality of verdicts is agreement on acceptance. -/
theorem beq_iff {v w : Verdict} : (v == w) = true ↔ v.isAccepted = w.isAccepted := by
  change (v.isAccepted == w.isAccepted) = true ↔ _
  exact beq_iff_eq

/-- Equal verdicts have equal hashes. -/
instance : LawfulHashable Verdict where
  hash_eq _ _ h := congrArg (fun b : Bool => hash b) (beq_iff.mp h)

end Verdict

end BusinessHours

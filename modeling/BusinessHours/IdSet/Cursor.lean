/-
Walking through a set.

A cursor is a place between the members of a set: a word, and the first bit of it that has not been
looked at.  `next` masks the bits that have been, and takes the lowest of the others.  If there is
none the walk goes on with the next word, and behind the last word it is over: whoever asks again
gets the same answer.
-/
import BusinessHours.IdSet.Basic

namespace BusinessHours

namespace IdSet

variable {size : Nat}

/-- How far a walk through a set has come. -/
structure Cursor where
  /-- The word that is looked at. -/
  index : Nat
  /-- The first of its bits that has not been looked at; sixty-four if all have been. -/
  bit : Nat
deriving DecidableEq, Repr

/-- The cursor in front of all members. -/
def Cursor.start : Cursor := ⟨0, 0⟩

/-- The word that is looked at, without the bits that have been. -/
def unseen (s : IdSet size) (c : Cursor) : UInt64 :=
  s.word c.index &&& ~~~ (Word.bit c.bit - 1)

/-- The next member, if there is one, and the cursor behind it. -/
def next (s : IdSet size) (c : Cursor) : Option Nat × Cursor :=
  if c.index < wordCount size then
    let found := Word.trailingZeros (s.unseen c)
    if c.bit < 64 ∧ found < 64 then (some (64 * c.index + found), ⟨c.index, found + 1⟩)
    else s.next ⟨c.index + 1, 0⟩
  else (none, c)
termination_by wordCount size - c.index

/-- What one gets by asking for the next member `n` times. -/
def walk (s : IdSet size) : Nat → Cursor → List (Option Nat)
  | 0, _ => []
  | n + 1, c => (s.next c).1 :: s.walk n (s.next c).2

end IdSet

end BusinessHours

/-
Sets of numbers below a bound, one bit each.

The analyses of a grammar keep one set of terminals for each nonterminal and enlarge these
sets over and over, so a set is stored as words of sixty-four bits: number `i` is bit
`i % 64` of word `i / 64`.  A union is then a union of words, and two sets are equal
exactly when their words are.

The view of a set is membership.  Everything else is read through it: `toList` gives the
members in ascending order, and some operations also report whether the members have changed.
-/
import BusinessHours.IdSet.Word

namespace BusinessHours

/-- How many words hold `size` bits. -/
def wordCount (size : Nat) : Nat := (size + 63) / 64

/-- A set of numbers below `size`. -/
structure IdSet (size : Nat) where
  /-- Sixty-four members to a word, lowest first. -/
  words : Vector UInt64 (wordCount size)

namespace IdSet

variable {size : Nat}

/-- A set is its words. -/
theorem eq_iff_words {s t : IdSet size} : s = t ↔ s.words.toList = t.words.toList :=
  ⟨fun h => h ▸ rfl, fun h => by cases s; cases t; exact congrArg mk (Vector.toList_inj.mp h)⟩

instance : DecidableEq (IdSet size) := fun _ _ => decidable_of_iff _ eq_iff_words.symm

/-- Word `k` of a set; past the last one there is nothing. -/
def word (s : IdSet size) (k : Nat) : UInt64 := s.words[k]?.getD 0

/-- Whether `i` is a member. -/
def contains (s : IdSet size) (i : Nat) : Bool := Word.hasBit (s.word (i / 64)) i

instance : Membership Nat (IdSet size) where
  mem s i := s.contains i = true

instance (s : IdSet size) (i : Nat) : Decidable (i ∈ s) :=
  inferInstanceAs (Decidable (s.contains i = true))

/-- The set without members. -/
def empty : IdSet size := ⟨Vector.replicate _ 0⟩

/-- Whether a set has no member. -/
def isEmpty (s : IdSet size) : Bool := s.words.all (· == 0)

/-- The set with `i` as a further member. -/
def insert (s : IdSet size) (i : Nat) : IdSet size :=
  ⟨s.words.setIfInBounds (i / 64) (s.word (i / 64) ||| Word.bit i)⟩

/-- The set without `i`. -/
def erase (s : IdSet size) (i : Nat) : IdSet size :=
  ⟨s.words.setIfInBounds (i / 64) (s.word (i / 64) &&& ~~~ Word.bit i)⟩

/-- The set whose only member is `i`. -/
def single (i : Nat) : IdSet size := empty.insert i

/-- The members of either set. -/
def union (s t : IdSet size) : IdSet size :=
  ⟨s.words.zipWith (· ||| ·) t.words⟩

/-- The members of `s`, and those of `t` other than `i`. -/
def unionExcept (s t : IdSet size) (i : Nat) : IdSet size :=
  s.union (t.erase i)

/-- The members in ascending order. -/
def toList (s : IdSet size) : List Nat :=
  (List.range (wordCount size)).flatMap fun k => Word.members (64 * k) (s.word k)

/-! ### Operations that report a change

A report is put together from the words that were written, so nothing is compared that was not
touched.
-/

/-- The set with another word in place `k`. -/
def setWord (s : IdSet size) (k : Nat) (w : UInt64) : IdSet size :=
  ⟨s.words.setIfInBounds k w⟩

/-- The set with `i` as a further member, and whether it was not one before. -/
def insertReporting (s : IdSet size) (i : Nat) : IdSet size × Bool :=
  let old := s.word (i / 64)
  let new := old ||| Word.bit i
  (s.setWord (i / 64) new, old != new)

/-- Revises one word, and adds to the report whether it has changed. -/
def reviseWord (revised : Nat → UInt64 → UInt64) (done : IdSet size × Bool) (k : Nat) :
    IdSet size × Bool :=
  let old := done.1.word k
  let new := revised k old
  (done.1.setWord k new, done.2 || old != new)

/-- Revises the words of a set from the first to the last. -/
def reviseReporting (s : IdSet size) (revised : Nat → UInt64 → UInt64) : IdSet size × Bool :=
  (List.range (wordCount size)).foldl (reviseWord revised) (s, false)

/-- The members of either set, and whether `s` lacked one of them. -/
def unionReporting (s t : IdSet size) : IdSet size × Bool :=
  s.reviseReporting fun k old => old ||| t.word k

/-- The members of `s` and those of `t` other than `i`, and whether `s` lacked one of them. -/
def unionExceptReporting (s t : IdSet size) (i : Nat) : IdSet size × Bool :=
  s.reviseReporting fun k old =>
    old ||| if k = i / 64 then t.word k &&& ~~~ Word.bit i else t.word k

/-- The members between braces. -/
def text (s : IdSet size) : String :=
  "\x7b" ++ ", ".intercalate (s.toList.map Nat.repr) ++ "\x7d"

end IdSet

end BusinessHours

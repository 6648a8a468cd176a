/-
Times of day.

A time of day is an hour, a minute and a second on a twenty-four hour clock; a leap second
is none.  A clock shows hours and minutes, each with two digits, and only the full form
shows the seconds.
-/
namespace BusinessHours

/-- A time on a twenty-four hour clock. -/
structure TimeOfDay where
  hour : Fin 24
  minute : Fin 60
  second : Fin 60
deriving DecidableEq, Repr, Hashable

namespace TimeOfDay

/-- The time with the given parts, if the clock has it. -/
def ofParts? (hour minute second : Nat) : Option TimeOfDay :=
  if h : hour < 24 ∧ minute < 60 ∧ second < 60 then
    some ⟨⟨hour, h.1⟩, ⟨minute, h.2.1⟩, ⟨second, h.2.2⟩⟩
  else none

/-- The two digits of a number below a hundred. -/
def twoDigits (n : Nat) : List Char :=
  [Nat.digitChar (n / 10), Nat.digitChar (n % 10)]

/-- Hours and minutes, as a clock shows them. -/
def clockText (t : TimeOfDay) : String :=
  String.ofList (twoDigits t.hour ++ ':' :: twoDigits t.minute)

/-- Hours, minutes and seconds. -/
def fullText (t : TimeOfDay) : String :=
  t.clockText ++ String.ofList (':' :: twoDigits t.second)

end TimeOfDay

end BusinessHours

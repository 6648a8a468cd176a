/-
Times as they are written.

A time is read more freely than it is shown.  Hours and minutes are one or two ASCII digits
each, blanks may stand in front of either, and the colon stands directly behind the hours.
Nothing may stand behind the minutes.  A number never takes more than two digits, so a third
one is a fault in the text and not a longer number.
-/
import BusinessHours.Calendar.TimeOfDay
import BusinessHours.Text.Blank

namespace BusinessHours

/-- The value of an ASCII digit. -/
def digitValue? (c : Char) : Option Nat :=
  if '0' ≤ c ∧ c ≤ '9' then some (c.toNat - '0'.toNat) else none

/-- Reads one or two digits, as many as there are, and gives the rest of the text. -/
def readTwoDigits? : List Char → Option (Nat × List Char)
  | [] => none
  | c :: rest =>
    match digitValue? c with
    | none => none
    | some m =>
      match rest with
      | [] => some (m, [])
      | d :: rest' =>
        match digitValue? d with
        | none => some (m, rest)
        | some n => some (10 * m + n, rest')

/-- Reads a number behind any blanks. -/
def readClockNumber? (cs : List Char) : Option (Nat × List Char) :=
  readTwoDigits? (cs.dropWhile isBlank)

namespace TimeOfDay

/-- Reads hours, a colon and minutes. -/
def ofChars? (cs : List Char) : Option TimeOfDay :=
  match readClockNumber? cs with
  | some (hour, ':' :: rest) =>
    match readClockNumber? rest with
    | some (minute, []) => ofParts? hour minute 0
    | _ => none
  | _ => none

/-- The time a text shows, if it shows one. -/
def ofText? (s : String) : Option TimeOfDay := ofChars? s.toList

end TimeOfDay

end BusinessHours

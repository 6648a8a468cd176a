/-
The opening hours of one day.

A day is closed, or open from one time until another.  Nothing asks that the second time be
the later one: a place may close after midnight.
-/
import BusinessHours.Calendar.TimeOfDay

namespace BusinessHours

/-- When a place is open on one day. -/
inductive DayHours where
  | closed
  | between (opening closing : TimeOfDay)
deriving DecidableEq, Repr, Hashable

namespace DayHours

/-- Whether the place is closed all day. -/
def isClosed : DayHours → Bool
  | closed => true
  | between _ _ => false

/-- When the place opens. -/
def opening? : DayHours → Option TimeOfDay
  | closed => none
  | between opening _ => some opening

/-- When the place closes. -/
def closing? : DayHours → Option TimeOfDay
  | closed => none
  | between _ closing => some closing

/-- The hours as they are shown, without seconds. -/
def text : DayHours → String
  | closed => "Closed"
  | between opening closing => "Open " ++ opening.clockText ++ "-" ++ closing.clockText

end DayHours

end BusinessHours

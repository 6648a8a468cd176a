/-
The opening hours of a week.

A week gives each day its hours.  It starts closed and is filled by ranges of days, each of
which replaces whatever its days had before.  The days of a range are those whose number
lies between the numbers of its ends, so a range whose first day comes after its last has no
days.
-/
import BusinessHours.Calendar.DayHours
import BusinessHours.Calendar.Weekly

namespace BusinessHours

/-- The hours of each day. -/
abbrev Week := Weekly DayHours

/-- Whether a day lies in the range from `first` to `last`, both included. -/
def Weekday.isWithin (first last d : Weekday) : Bool :=
  first.ordinal ≤ d.ordinal && d.ordinal ≤ last.ordinal

namespace Week

/-- The week in which no day is open. -/
def closed : Week := Weekly.always .closed

/-- The days of a range, in order. -/
def daysFrom (first last : Weekday) : List Weekday :=
  Weekday.all.filter (Weekday.isWithin first last)

/-- Gives every day of a range the same hours. -/
def cover (w : Week) (first last : Weekday) (hours : DayHours) : Week :=
  (daysFrom first last).foldl (fun w d => w.set d hours) w

private theorem get_foldl_set (hours : DayHours) (e : Weekday) :
    ∀ (days : List Weekday) (w : Week),
      (days.foldl (fun w d => w.set d hours) w).get e = if e ∈ days then hours else w.get e
  | [], w => by simp
  | d :: days, w => by
    rw [List.foldl_cons, get_foldl_set hours e days, Weekly.get_set]
    by_cases h : d = e
    · simp [h]
    · simp [h, Ne.symm h]

/-- A range gives its hours to its own days and leaves the others alone. -/
theorem get_cover (w : Week) (first last : Weekday) (hours : DayHours) (d : Weekday) :
    (w.cover first last hours).get d =
      if first.isWithin last d then hours else w.get d := by
  unfold cover daysFrom
  rw [get_foldl_set]
  simp

end Week

end BusinessHours

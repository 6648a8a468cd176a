/-
Weekdays.

The seven days come in the order of ISO 8601: Monday is the first and Sunday the seventh.
A range of days is a range of these numbers, so it never runs over the end of a week.
-/
namespace BusinessHours

/-- A day of the week. -/
inductive Weekday where
  | monday
  | tuesday
  | wednesday
  | thursday
  | friday
  | saturday
  | sunday
deriving DecidableEq, Repr, Hashable

namespace Weekday

/-- The days in order. -/
def all : List Weekday :=
  [monday, tuesday, wednesday, thursday, friday, saturday, sunday]

/-- How many days after Monday a day comes. -/
def index : Weekday → Fin 7
  | monday => 0
  | tuesday => 1
  | wednesday => 2
  | thursday => 3
  | friday => 4
  | saturday => 5
  | sunday => 6

/-- The number of a day, from one for Monday to seven for Sunday. -/
def ordinal (d : Weekday) : Nat := d.index + 1

/-- The day with the given number. -/
def ofOrdinal? : Nat → Option Weekday
  | 1 => some monday
  | 2 => some tuesday
  | 3 => some wednesday
  | 4 => some thursday
  | 5 => some friday
  | 6 => some saturday
  | 7 => some sunday
  | _ => none

/-- The English name of a day. -/
def englishName : Weekday → String
  | monday => "Monday"
  | tuesday => "Tuesday"
  | wednesday => "Wednesday"
  | thursday => "Thursday"
  | friday => "Friday"
  | saturday => "Saturday"
  | sunday => "Sunday"

/-- No day is missing from the list of days. -/
@[simp] theorem mem_all (d : Weekday) : d ∈ all := by
  cases d <;> decide

/-- The place of a day in the list of days. -/
@[simp] theorem getElem?_all_index (d : Weekday) : all[(d.index : Nat)]? = some d := by
  cases d <;> rfl

/-- Days are told apart by their place. -/
theorem index_injective {d e : Weekday} (h : d.index = e.index) : d = e := by
  have hd := getElem?_all_index d
  rw [h, getElem?_all_index e] at hd
  exact (Option.some.inj hd).symm

/-- Reading the number of a day gives the day back, and no other number gives it. -/
theorem ofOrdinal?_eq_some_iff {n : Nat} {d : Weekday} :
    ofOrdinal? n = some d ↔ n = d.ordinal := by
  constructor
  · intro h
    unfold ofOrdinal? at h
    split at h <;> simp at h <;> subst h <;> rfl
  · rintro rfl
    cases d <;> rfl

end Weekday

end BusinessHours

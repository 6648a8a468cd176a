/-
The symbols of the opening hours language.

A text of the language is made of weekdays, times, dashes and commas; blanks between them
are symbols too, although no rule has a place for them.  The remaining terminals are the two
markers and the one that stands for text nobody could read.  The nonterminals are named for
the parts of a text that they describe.
-/
import BusinessHours.Calendar.Weekday
import BusinessHours.Grammar.Alphabet

namespace BusinessHours

/-- A symbol of the opening hours language. -/
inductive Symbol where
  /-- The name of a weekday. -/
  | day (d : Weekday)
  | time
  /-- The dash between the ends of a range, of days or of times. -/
  | rangeIndicator
  /-- The comma between two schedules. -/
  | scheduleSeparator
  | whiteSpace
  | endOfInput
  | epsilon
  /-- Text that is no other terminal. -/
  | unknown
  | openingHours
  | schedule
  | moreSchedules
  | weekdayExpression
  | weekday
  | weekdayRange
  | timeRange
deriving DecidableEq, Repr, Hashable

namespace Symbol

/-- The name of a symbol. -/
def name : Symbol → String
  | day d => d.englishName
  | time => "Time"
  | rangeIndicator => "RangeIndicator"
  | scheduleSeparator => "ScheduleSeparator"
  | whiteSpace => "WhiteSpace"
  | endOfInput => "EndOfInput"
  | epsilon => "Epsilon"
  | unknown => "Unknown"
  | openingHours => "OpeningHours"
  | schedule => "Schedule"
  | moreSchedules => "MoreSchedules"
  | weekdayExpression => "WeekdayExpression"
  | weekday => "Weekday"
  | weekdayRange => "WeekdayRange"
  | timeRange => "TimeRange"

/-- Every symbol once, the terminals first. -/
def all : List Symbol :=
  Weekday.all.map day ++
    [time, rangeIndicator, scheduleSeparator, whiteSpace, endOfInput, epsilon, unknown,
      openingHours, schedule, moreSchedules, weekdayExpression, weekday, weekdayRange, timeRange]

/-- No symbol is missing from the list of symbols. -/
theorem mem_all (s : Symbol) : s ∈ all := by
  cases s with
  | day d => cases d <;> decide
  | _ => decide

/-- The symbol with the given name. -/
def ofName? (name : String) : Option Symbol :=
  all.find? fun s => s.name = name

/-- Whether a symbol can stand in a text. -/
def isTerminal : Symbol → Bool
  | day _ | time | rangeIndicator | scheduleSeparator | whiteSpace | endOfInput | epsilon
  | unknown => true
  | openingHours | schedule | moreSchedules | weekdayExpression | weekday | weekdayRange
  | timeRange => false

/-- The weekday a symbol names. -/
def weekday? : Symbol → Option Weekday
  | day d => some d
  | _ => none

/-- Whether a symbol names a weekday. -/
def isWeekday (s : Symbol) : Bool := s.weekday?.isSome

end Symbol

/-- The alphabet of the opening hours language. -/
def hoursAlphabet : Alphabet Symbol where
  epsilon := .epsilon
  endMark := .endOfInput
  isTerminal := Symbol.isTerminal
  isUnknown s := s = .unknown
  name := Symbol.name
  epsilon_ne_endMark := by decide

end BusinessHours

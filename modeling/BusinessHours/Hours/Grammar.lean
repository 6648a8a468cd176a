/-
The grammar of the opening hours language.

A text is a list of schedules between commas.  A schedule is a weekday, or a range of
weekdays, and a range of times:

    OpeningHours      -> Schedule
    Schedule          -> WeekdayExpression TimeRange MoreSchedules
    MoreSchedules     -> ScheduleSeparator Schedule  |  nothing
    WeekdayExpression -> Weekday WeekdayRange
    Weekday           -> Monday  |  Tuesday  |  ...  |  Sunday
    WeekdayRange      -> RangeIndicator Weekday  |  nothing
    TimeRange         -> Time RangeIndicator Time

The grammar is LL(1): what follows a weekday tells whether a range begins, and what follows
a range of times tells whether another schedule does.  That is checked once, here, so its
recogniser is a constant.
-/
import BusinessHours.Hours.Symbol
import BusinessHours.LL1.Recognizer

namespace BusinessHours

/-- A rule of the opening hours language, whose two sides can be checked by evaluation. -/
def hoursRule (lhs : Symbol) (rhs : List Symbol)
    (lhs_nonterminal : lhs.isTerminal = false := by decide)
    (rhs_ne_nil : rhs ≠ [] := by decide)
    (epsilon_alone : Symbol.epsilon ∈ rhs → rhs = [.epsilon] := by decide) :
    Rule hoursAlphabet :=
  ⟨lhs, rhs, lhs_nonterminal, rhs_ne_nil, epsilon_alone⟩

/-- The rule that names a weekday. -/
def weekdayRule (d : Weekday) : Rule hoursAlphabet :=
  hoursRule .weekday [.day d] (by decide) (by simp) (by simp)

/-- The rules, in the order in which they are numbered. -/
def hoursRules : List (Rule hoursAlphabet) :=
  [ hoursRule .openingHours [.schedule],
    hoursRule .schedule [.weekdayExpression, .timeRange, .moreSchedules],
    hoursRule .moreSchedules [.scheduleSeparator, .schedule],
    hoursRule .moreSchedules [.epsilon],
    hoursRule .weekdayExpression [.weekday, .weekdayRange] ] ++
  Weekday.all.map weekdayRule ++
  [ hoursRule .weekdayRange [.rangeIndicator, .weekday],
    hoursRule .weekdayRange [.epsilon],
    hoursRule .timeRange [.time, .rangeIndicator, .time] ]

/-- The grammar of the opening hours language. -/
def hoursGrammar : Grammar hoursAlphabet where
  start := .openingHours
  rules := hoursRules
  start_nonterminal := rfl
  closed := by decide

/-- One terminal of lookahead decides between the rules. -/
theorem hoursGrammar_isLL1 :
    (Recognizer.ofGrammar? hoursGrammar).toOption.isSome = true := by
  decide +kernel

/-- The recogniser of the opening hours language. -/
def hoursRecognizer : Recognizer hoursAlphabet :=
  (Recognizer.ofGrammar? hoursGrammar).toOption.get hoursGrammar_isLL1

end BusinessHours

/-
From tokens to a week.

The week is drafted token by token.  Between the clauses of a text only two things have to
be remembered: the first and the last weekday named so far, and the time at which opening
hours begin once it has been read.  A second time completes the clause.  Its days get their
hours, whatever an earlier clause gave them, and nothing is left to remember.

Only weekdays and times matter here.  Tokens that a recogniser has accepted are never short
of a weekday or a time, but the draft does not rely on that: it takes any tokens, and says
which of the two is missing.
-/
import BusinessHours.Calendar.ClockText
import BusinessHours.Calendar.Week
import BusinessHours.Hours.Symbol
import BusinessHours.Token

namespace BusinessHours

/-- What keeps tokens from describing a week. -/
inductive ClauseError where
  /-- The text of a time token shows no time. -/
  | invalidTime (lexeme : String)
  /-- A time token was not read from any text. -/
  | missingLexeme
  /-- Two times belong to no weekday. -/
  | missingWeekday (opening closing : TimeOfDay)
  /-- The tokens end behind a weekday or between two times. -/
  | incompleteClause
deriving DecidableEq

/-- The message of a clause error. -/
def ClauseError.message : ClauseError → String
  | invalidTime lexeme => "`" ++ lexeme ++ "` is not a valid time of day"
  | missingLexeme => "time token has no text"
  | missingWeekday opening closing =>
      "time range " ++ opening.clockText ++ "-" ++ closing.clockText ++
        " has no preceding weekday"
  | incompleteClause => "input ends in the middle of a schedule"

/-- A week that is being read. -/
structure Draft where
  /-- The hours of all clauses that are complete. -/
  week : Week
  /-- The first and the last weekday of the clause that is not. -/
  days : Option (Weekday × Weekday)
  /-- The time at which its hours begin. -/
  opening : Option TimeOfDay
deriving DecidableEq

namespace Draft

/-- The draft before the first token. -/
def blank : Draft := ⟨.closed, none, none⟩

/-- The time a token shows. -/
def timeOf? (t : Token Symbol) : Except ClauseError TimeOfDay :=
  match t.lexeme with
  | none => .error .missingLexeme
  | some lexeme =>
    match TimeOfDay.ofText? lexeme with
    | none => .error (.invalidTime lexeme)
    | some time => .ok time

/-- A weekday is the last one of its clause, and the first if none came before it. -/
def addDay (D : Draft) (d : Weekday) : Draft :=
  { D with days := some ((D.days.map Prod.fst).getD d, d) }

/-- A time begins the hours of a clause, or ends them and with them the clause. -/
def addTime (D : Draft) (time : TimeOfDay) : Except ClauseError Draft :=
  match D.opening with
  | none => .ok { D with opening := some time }
  | some opening =>
    match D.days with
    | none => .error (.missingWeekday opening time)
    | some (first, last) => .ok ⟨D.week.cover first last (.between opening time), none, none⟩

/-- Takes one token into account. -/
def add (D : Draft) (t : Token Symbol) : Except ClauseError Draft :=
  match t.symbol with
  | .day d => .ok (D.addDay d)
  | .time => timeOf? t >>= D.addTime
  | _ => .ok D

/-- The week, unless a clause was left incomplete. -/
def finish (D : Draft) : Except ClauseError Week :=
  if D.days.isSome || D.opening.isSome then .error .incompleteClause else .ok D.week

end Draft

/-- The week that tokens describe, or the first thing that keeps them from describing one. -/
def weekOfTokens (tokens : List (Token Symbol)) : Except ClauseError Week :=
  tokens.foldlM Draft.add Draft.blank >>= Draft.finish

end BusinessHours

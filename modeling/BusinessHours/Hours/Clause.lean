/-
Clauses: what a text of the opening hours language says.

A clause names a weekday or a range of weekdays and a range of times.  A list of clauses
says when a place is open: a day has the hours of the last clause whose range it lies in,
and is closed if there is none.

A clause is written as a weekday name, a dash and a second name if it has one, a time, a
dash and a time.  Commas stand between clauses, and blanks may stand anywhere but inside
these pieces.  So a list of clauses has many written forms, all of which differ in their
blanks only.
-/
import BusinessHours.Calendar.Week
import BusinessHours.Hours.Lexicon

namespace BusinessHours

/-- A range of weekdays and the hours of each of them. -/
structure Clause where
  /-- The day the range begins with. -/
  first : Weekday
  /-- The day it ends with, if that is written; otherwise the day it begins with. -/
  last : Option Weekday
  opening : TimeOfDay
  closing : TimeOfDay
  /-- A clock shows no seconds, so a clause cannot begin between two minutes. -/
  opening_onMinute : opening.second = 0
  /-- Nor can it end between two minutes. -/
  closing_onMinute : closing.second = 0

namespace Clause

/-- Whether a day lies in the range of a clause. -/
def covers (c : Clause) (d : Weekday) : Bool :=
  c.first.isWithin (c.last.getD c.first) d

/-- The hours a clause gives to its days. -/
def hours (c : Clause) : DayHours := .between c.opening c.closing

/-- The hours of a day: those of the last clause that covers it. -/
def hoursOn (cs : List Clause) (d : Weekday) : DayHours :=
  ((cs.filter (covers · d)).getLast?.map hours).getD .closed

/-- The week that a list of clauses describes. -/
def week (cs : List Clause) : Week := .ofFn (hoursOn cs)

/-- The symbols of a clause. -/
def symbols (c : Clause) : List Symbol :=
  .day c.first :: (c.last.elim [] fun d => [.rangeIndicator, .day d]) ++
    [.time, .rangeIndicator, .time]

/-- The symbols of a list of clauses, a comma between each two. -/
def listSymbols (cs : List Clause) : List Symbol :=
  [Symbol.scheduleSeparator].intercalate (cs.map symbols)

/-- The pieces in which a clause is written. -/
def pieces (L : Lexicon) (c : Clause) : List (List Char) :=
  (L.names.get c.first).toList ::
    (c.last.elim [] fun d => [['-'], (L.names.get d).toList]) ++
    [c.opening.clockText.toList, ['-'], c.closing.clockText.toList]

/-- The pieces in which a list of clauses is written. -/
def listPieces (L : Lexicon) (cs : List Clause) : List (List Char) :=
  [[',']].intercalate (cs.map (pieces L))

end Clause

/-- A text that is blank all over. -/
def AllBlank (cs : List Char) : Prop := ∀ c ∈ cs, isBlank c = true

instance (cs : List Char) : Decidable (AllBlank cs) :=
  List.decidableBAll (isBlank · = true) cs

/-- A text shows the given pieces in order, with nothing but blanks around them. -/
inductive Spaced : List (List Char) → List Char → Prop
  | nil {gap : List Char} (hg : AllBlank gap) : Spaced [] gap
  | cons {gap piece rest : List Char} {pieces : List (List Char)} (hg : AllBlank gap)
      (hr : Spaced pieces rest) : Spaced (piece :: pieces) (gap ++ (piece ++ rest))

/-- A text is a written form of a list of clauses. -/
def Lexicon.Writes (L : Lexicon) (cs : List Clause) (text : String) : Prop :=
  Spaced (Clause.listPieces L cs) text.toList

end BusinessHours

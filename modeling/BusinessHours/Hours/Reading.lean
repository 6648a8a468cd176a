/-
Reading opening hours.

A text is cut into tokens, the tokens have to be a text of the language, and then they are
read as a week.  A text that is no text of the language is invalid; if it holds something
that is no token, the explanation shows it.  A text of the language can only fail where it
shows a time that no clock shows.
-/
import BusinessHours.Hours.Draft
import BusinessHours.Hours.Grammar
import BusinessHours.Hours.Segmentation

namespace BusinessHours

/-- What keeps a text from being read. -/
inductive ReadingError where
  /-- The text is not one of the language. -/
  | invalid (explanation : Option String)
  /-- The text does not describe a week. -/
  | clause (error : ClauseError)
deriving DecidableEq

/-- The message of a reading error. -/
def ReadingError.message : ReadingError → String
  | invalid none => "invalid opening hours"
  | invalid (some explanation) => "invalid opening hours: " ++ explanation
  | clause error => error.message

namespace Lexicon

/-- The week that a text describes in the language of the lexicon. -/
def readWeek (L : Lexicon) (text : String) : Except ReadingError Week :=
  let tokens := L.tokenize text
  match hoursRecognizer.validate tokens with
  | .rejected explanation => .error (.invalid explanation)
  | .accepted => (weekOfTokens tokens).mapError .clause

end Lexicon

end BusinessHours

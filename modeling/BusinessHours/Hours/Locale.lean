/-
Languages with known weekday names.

A language tag begins with the language and goes on with a country or a script behind a
hyphen or an underscore.  Only the language decides about the names, and its case does not
matter.
-/
import BusinessHours.Hours.Lexicon

namespace BusinessHours

namespace Lexicon

/-- The English names. -/
def english : Lexicon where
  names := .ofSeven "Mon" "Tue" "Wed" "Thu" "Fri" "Sat" "Sun"
  faultless := by decide +kernel

/-- The Finnish names. -/
def finnish : Lexicon where
  names := .ofSeven "ma" "ti" "ke" "to" "pe" "la" "su"
  faultless := by decide +kernel

/-- The Swedish names. -/
def swedish : Lexicon where
  names := .ofSeven "mån" "tis" "ons" "tors" "fre" "lör" "sön"
  faultless := by decide +kernel

/-- The German names. -/
def german : Lexicon where
  names := .ofSeven "Mo." "Di." "Mi." "Do." "Fr." "Sa." "So."
  faultless := by decide +kernel

/-- The languages with known names, by the first part of their tags. -/
def known : List (String × Lexicon) :=
  [("en", english), ("fi", finnish), ("sv", swedish), ("de", german)]

/-- The language of a tag: what stands before the first hyphen or underscore, in lower case. -/
def languageOf (tag : String) : String :=
  String.ofList ((tag.toList.takeWhile fun c => c ≠ '-' ∧ c ≠ '_').map Char.toLower)

/-- The lexicon for a language tag. -/
def ofTag? (tag : String) : Except LexiconError Lexicon :=
  match known.lookup (languageOf tag) with
  | some L => .ok L
  | none => .error (.unsupported tag)

end Lexicon

end BusinessHours

/-
Lexicons.

A lexicon is the set of token patterns of one language: the names of its seven weekdays,
then the patterns that all languages share.  Not every seven names make one.  A name may not
be empty, two patterns may not have the same source, and no name may be matched by the
pattern of something else.  Under these conditions a candidate matches at most one pattern,
so it does not matter in which order the patterns are tried.

`fault?` looks for what is wrong with seven names, and a `Lexicon` is seven names in which
it finds nothing.
-/
import BusinessHours.Calendar.Weekly
import BusinessHours.Hours.Pattern
import BusinessHours.Token

namespace BusinessHours

/-- What keeps a lexicon from being built. -/
inductive LexiconError where
  /-- No names are known for the language of a tag. -/
  | unsupported (tag : String)
  /-- The weekday in this place, counted from one, has the empty name. -/
  | emptyWeekdayName (position : Nat)
  /-- The text is a token of more than one pattern. -/
  | duplicatePattern (text : String)
deriving DecidableEq

/-- The message of a lexicon error. -/
def LexiconError.message : LexiconError → String
  | unsupported tag => "no weekday names available for locale `" ++ tag ++ "`"
  | emptyWeekdayName position => "weekday name #" ++ position.repr ++ " is empty"
  | duplicatePattern text => "`" ++ text ++ "` is matched by more than one token pattern"

/-- The patterns of seven weekday names and those of every language, in the order of trial. -/
def lexiconEntries (names : Weekly String) : List (Pattern × Symbol) :=
  names.entries.map (fun (d, name) => (.literal name.toList, .day d)) ++ Pattern.shared

/--
The first pattern that cannot join the ones before it: a name that is empty, or a pattern
whose source is taken. Names come first, so the place of a name is its number.
-/
def joiningFault? (taken : List (List Char)) : List Pattern → Option LexiconError
  | [] => none
  | p :: rest =>
    if p = .literal [] then some (.emptyWeekdayName (taken.length + 1))
    else if p.source ∈ taken then some (.duplicatePattern p.label)
    else joiningFault? (taken ++ [p.source]) rest

/-- The first name that is matched by the pattern of something else. -/
def overlapFault? (names : Weekly String) : Option LexiconError :=
  let entries := lexiconEntries names
  (names.entries.find? fun (d, name) =>
    entries.any fun (p, s) => s != .day d && p.accepts name.toList).map
      fun (_, name) => .duplicatePattern name

/-- What is wrong with seven names: a pattern that cannot join, or else an overlap. -/
def fault? (names : Weekly String) : Option LexiconError :=
  joiningFault? [] ((lexiconEntries names).map Prod.fst) <|> overlapFault? names

/-- Seven weekday names that can be told apart from each other and from all other tokens. -/
structure Lexicon where
  /-- The name of each day. -/
  names : Weekly String
  /-- Nothing is wrong with the names. -/
  faultless : fault? names = none

namespace Lexicon

/-- The lexicon of seven names, or what is wrong with them. -/
def ofNames? (names : Weekly String) : Except LexiconError Lexicon :=
  match h : fault? names with
  | some e => .error e
  | none => .ok ⟨names, h⟩

/-- The patterns with their symbols, in the order of trial. -/
def entries (L : Lexicon) : List (Pattern × Symbol) := lexiconEntries L.names

/-- The symbol of which a candidate, taken whole, is a token. -/
def classify? (L : Lexicon) (candidate : List Char) : Option Symbol :=
  (L.entries.find? fun (p, _) => p.accepts candidate).map Prod.snd

/-- The token that a candidate is, taken whole. -/
def token? (L : Lexicon) (candidate : List Char) : Option (Token Symbol) :=
  (L.classify? candidate).map fun s => .ofLexeme s (String.ofList candidate)

end Lexicon

end BusinessHours

import BusinessHours.Grammar.Alphabet
import BusinessHours.Grammar.Rule
import BusinessHours.Grammar.Basic
import BusinessHours.Grammar.Indexed
import BusinessHours.Grammar.Derivation
import BusinessHours.IdSet.Word
import BusinessHours.IdSet.Basic
import BusinessHours.IdSet.Lemmas
import BusinessHours.IdSet.Cursor
import BusinessHours.Token
import BusinessHours.LL1.Saturation
import BusinessHours.LL1.First
import BusinessHours.LL1.Follow
import BusinessHours.LL1.Table
import BusinessHours.LL1.Automaton
import BusinessHours.LL1.Verdict
import BusinessHours.LL1.Recognizer
import BusinessHours.Text.Blank
import BusinessHours.Text.Escape
import BusinessHours.Text.Expression
import BusinessHours.Calendar.Weekday
import BusinessHours.Calendar.Weekly
import BusinessHours.Calendar.TimeOfDay
import BusinessHours.Calendar.ClockText
import BusinessHours.Calendar.DayHours
import BusinessHours.Calendar.Week
import BusinessHours.Hours.Symbol
import BusinessHours.Hours.Grammar
import BusinessHours.Hours.Pattern
import BusinessHours.Hours.Lexicon
import BusinessHours.Hours.Locale
import BusinessHours.Hours.Clause
import BusinessHours.Hours.Segmentation
import BusinessHours.Hours.Draft
import BusinessHours.Hours.Reading
import BusinessHours.Proofs.Grammar.Derivation
import BusinessHours.Proofs.Grammar.Letters
import BusinessHours.Proofs.Grammar.Corner
import BusinessHours.Proofs.Grammar.Numbering
import BusinessHours.Proofs.LL1.First
import BusinessHours.Proofs.LL1.FirstDerives
import BusinessHours.Proofs.LL1.Follow
import BusinessHours.Proofs.LL1.Table
import BusinessHours.Proofs.LL1.Moves
import BusinessHours.Proofs.LL1.Halting
import BusinessHours.Proofs.LL1.Recognition
import BusinessHours.Proofs.LL1.Conflict
import BusinessHours.Proofs.Calendar.ClockText
import BusinessHours.Proofs.Hours.Lexicon
import BusinessHours.Proofs.Hours.ShortestTokens
import BusinessHours.Proofs.Hours.Segmentation
import BusinessHours.Proofs.Hours.Respacing
import BusinessHours.Proofs.Hours.Language
import BusinessHours.Proofs.Hours.Reading
import BusinessHours.Proofs.LL1.Unambiguous
import BusinessHours.Proofs.LL1.Acceptance
import BusinessHours.Proofs.Hours.Agreement
import BusinessHours.Proofs.Hours.Classification
import BusinessHours.Proofs.LL1.Exactness
import BusinessHours.Proofs.LL1.Queries
import BusinessHours.Proofs.LL1.Growth
import BusinessHours.Proofs.LL1.LeftRecursion
import BusinessHours.Proofs.Hours.Pairs
import BusinessHours.Proofs.Hours.Drafting
import BusinessHours.Proofs.Hours.Overlay
import BusinessHours.Proofs.Hours.Sources
import BusinessHours.Proofs.Hours.Faults
import BusinessHours.Proofs.Hours.Names
import BusinessHours.Proofs.LL1.Sequences
import BusinessHours.Proofs.Grammar.Interning
import BusinessHours.Proofs.LL1.Bounds
import BusinessHours.Proofs.IdSet.Cursor
import BusinessHours.Proofs.IdSet.Calls

/-
What is accepted describes a week.

The recogniser works from a grammar, the draft from the two things that it remembers, and
neither knows of the other: the draft passes over dashes and commas, and the recogniser does not
look at what a time token shows.  They agree all the same.  Accepted tokens have the symbols of
clauses, so the draft is never left with a time that belongs to no weekday or with a clause that
is not complete.  All that can still be wrong with them is a time that cannot be read, and the
first such time is the one that is refused.

An end mark may stand behind the tokens.  The recogniser takes it for its own and the draft
passes over it, so it makes no difference to either.
-/
import BusinessHours.Proofs.Hours.Clauses
import BusinessHours.Proofs.Hours.Language

namespace BusinessHours

variable {tokens : List (Token Symbol)}

/-! ### The end mark behind tokens -/

theorem weekOfTokens_concat_mark (front : List (Token Symbol)) {t : Token Symbol}
    (ht : t.symbol = .endOfInput) : weekOfTokens (front ++ [t]) = weekOfTokens front := by
  rw [weekOfTokens, weekOfTokens, List.foldlM_append]
  cases front.foldlM Draft.add Draft.blank with
  | error e => rfl
  | ok D =>
      show ([t].foldlM Draft.add D >>= Draft.finish) = D.finish
      rw [List.foldlM_cons, D.add_mark (by simp [ht])]
      rfl

/-- **Without the end mark behind them, tokens say the same.** -/
theorem exists_lessEnd (tokens : List (Token Symbol)) : ∃ front : List (Token Symbol),
    front.map Token.symbol = hoursAlphabet.lessEnd (tokens.map Token.symbol) ∧
    timesOf front = timesOf tokens ∧
    front.find? Token.isUnusable = tokens.find? Token.isUnusable ∧
    weekOfTokens front = weekOfTokens tokens := by
  unfold Alphabet.lessEnd
  split
  · rename_i hlast
    rw [List.getLast?_map] at hlast
    obtain ⟨t, ht, hmark⟩ := Option.map_eq_some_iff.mp hlast
    obtain ⟨front, rfl⟩ := List.getLast?_eq_some_iff.mp ht
    have hsymbol : t.symbol = .endOfInput := hmark
    have husable : [t].find? Token.isUnusable = none := by simp [Token.isUnusable, hsymbol]
    refine ⟨front, ?_, ?_, ?_, (weekOfTokens_concat_mark front hsymbol).symm⟩
    · rw [List.map_append, List.map_singleton, List.dropLast_concat]
    · rw [timesOf_append, timesOf_cons_of_ne (by simp [hsymbol]), timesOf_nil, List.append_nil]
    · rw [List.find?_append, husable, Option.or_none]
  · exact ⟨tokens, rfl, rfl, rfl, rfl⟩

/-! ### Accepted tokens -/

theorem exists_clauses_of_isAccepted
    (hend : Symbol.endOfInput ∉ (tokens.map Token.symbol).dropLast)
    (h : (hoursRecognizer.validate tokens).isAccepted = true) :
    ∃ cs, hoursAlphabet.lessEnd (tokens.map Token.symbol) = Clause.listSymbols cs := by
  rcases (Clause.isAccepted_iff_exists_clauses hend).mp h with rfl | ⟨c, cs, hlist⟩
  · exact ⟨[], rfl⟩
  · exact ⟨c :: cs, hlist⟩

/-- **The first time that cannot be read is what accepted tokens are refused for.** -/
theorem weekOfTokens_of_find?_eq_some
    (hend : Symbol.endOfInput ∉ (tokens.map Token.symbol).dropLast)
    (h : (hoursRecognizer.validate tokens).isAccepted = true) {t : Token Symbol}
    (ht : tokens.find? Token.isUnusable = some t) :
    weekOfTokens tokens = .error (t.lexeme.elim .missingLexeme .invalidTime) := by
  obtain ⟨cs, hlist⟩ := exists_clauses_of_isAccepted hend h
  obtain ⟨front, hsymbols, -, hfind, hweek⟩ := exists_lessEnd tokens
  rw [← hweek]
  exact weekOfTokens_of_unusable (hsymbols.trans hlist) (hfind.trans ht)

/-- **Accepted tokens whose times can be read describe the week of the clauses they say.** -/
theorem exists_week_of_find?_eq_none
    (hend : Symbol.endOfInput ∉ (tokens.map Token.symbol).dropLast)
    (h : (hoursRecognizer.validate tokens).isAccepted = true)
    (hnone : tokens.find? Token.isUnusable = none) :
    ∃ cs, hoursAlphabet.lessEnd (tokens.map Token.symbol) = Clause.listSymbols cs ∧
      timesOf tokens = (Clause.listTimes cs).map some ∧
      weekOfTokens tokens = .ok (Clause.week cs) := by
  obtain ⟨cs, hlist⟩ := exists_clauses_of_isAccepted hend h
  obtain ⟨front, hsymbols, htimes, hfind, hweek⟩ := exists_lessEnd tokens
  obtain ⟨cs', hcs', hshown⟩ :=
    Clause.exists_clauses_of_usable (hsymbols.trans hlist) (hfind.trans hnone)
  refine ⟨cs', hlist.trans hcs'.symm, htimes.symm.trans hshown, ?_⟩
  rw [← hweek]
  exact Clause.weekOfTokens_of_clauses ((hsymbols.trans hlist).trans hcs'.symm) hshown

/-- Accepted tokens are refused for nothing but a time. -/
theorem exists_unusable_of_weekOfTokens
    (hend : Symbol.endOfInput ∉ (tokens.map Token.symbol).dropLast)
    (h : (hoursRecognizer.validate tokens).isAccepted = true) {e : ClauseError}
    (he : weekOfTokens tokens = .error e) :
    ∃ t, tokens.find? Token.isUnusable = some t ∧
      e = t.lexeme.elim .missingLexeme .invalidTime := by
  cases hfind : tokens.find? Token.isUnusable with
  | some t =>
      rw [weekOfTokens_of_find?_eq_some hend h hfind] at he
      exact ⟨t, rfl, (Except.error.inj he).symm⟩
  | none =>
      obtain ⟨cs, -, -, hweek⟩ := exists_week_of_find?_eq_none hend h hfind
      rw [hweek] at he
      simp at he

/--
**The recogniser and the draft agree.**  Tokens are accepted if there are none or if they have
the symbols of clauses.  The draft never misses a weekday in them or finds them incomplete: it
refuses their first time that cannot be read, for the lack of a text or for the text it has, and
if there is no such time it reads the week of the clauses they say.
-/
theorem validate_weekOfTokens_agree (tokens : List (Token Symbol))
    (hend : Symbol.endOfInput ∉ (tokens.map Token.symbol).dropLast) :
    ((hoursRecognizer.validate tokens).isAccepted = true ↔ tokens = [] ∨
      ∃ c cs, hoursAlphabet.lessEnd (tokens.map Token.symbol) = Clause.listSymbols (c :: cs)) ∧
    ((hoursRecognizer.validate tokens).isAccepted = true →
      (∀ e, weekOfTokens tokens = .error e →
        e ≠ .incompleteClause ∧ ∀ opening closing, e ≠ .missingWeekday opening closing) ∧
      (∀ t, tokens.find? Token.isUnusable = some t → t.lexeme = none →
        weekOfTokens tokens = .error .missingLexeme) ∧
      (∀ t lexeme, tokens.find? Token.isUnusable = some t → t.lexeme = some lexeme →
        TimeOfDay.ofText? lexeme = none ∧ weekOfTokens tokens = .error (.invalidTime lexeme)) ∧
      (tokens.find? Token.isUnusable = none →
        ∃ cs, hoursAlphabet.lessEnd (tokens.map Token.symbol) = Clause.listSymbols cs ∧
          timesOf tokens = (Clause.listTimes cs).map some ∧
          weekOfTokens tokens = .ok (Clause.week cs))) := by
  refine ⟨Clause.isAccepted_iff_exists_clauses hend, fun h => ⟨?_, ?_, ?_, ?_⟩⟩
  · intro e he
    obtain ⟨t, -, rfl⟩ := exists_unusable_of_weekOfTokens hend h he
    cases t.lexeme <;> simp
  · intro t ht hlexeme
    rw [weekOfTokens_of_find?_eq_some hend h ht, hlexeme]
    rfl
  · intro t lexeme ht hlexeme
    rw [weekOfTokens_of_find?_eq_some hend h ht, hlexeme]
    refine ⟨?_, rfl⟩
    have hunusable : t.isUnusable = true := List.find?_some ht
    rw [Token.isUnusable, Bool.and_eq_true, Option.isNone_iff_eq_none] at hunusable
    have hshown := hunusable.2
    rwa [Token.shownTime?, hlexeme] at hshown
  · exact exists_week_of_find?_eq_none hend h

/-- Sunday from nine, until a time that was not read from any text. -/
def openSunday : List (Token Symbol) :=
  [.synthetic (.day .sunday), .ofLexeme .time "9:00", .synthetic .rangeIndicator,
    .synthetic .time, .synthetic .endOfInput]

theorem openSunday_missingLexeme :
    Symbol.endOfInput ∉ (openSunday.map Token.symbol).dropLast ∧
    (hoursRecognizer.validate openSunday).isAccepted = true ∧
    weekOfTokens openSunday = .error .missingLexeme := by
  have hend : Symbol.endOfInput ∉ (openSunday.map Token.symbol).dropLast := by decide
  have hagree := validate_weekOfTokens_agree openSunday hend
  have haccept : (hoursRecognizer.validate openSunday).isAccepted = true :=
    hagree.1.mpr (.inr ⟨Clause.ofDays .sunday none, [], by decide⟩)
  exact ⟨hend, haccept, (hagree.2 haccept).2.1 (.synthetic .time) (by decide +kernel) rfl⟩

end BusinessHours

/-
What any tokens say.

Tokens need not come in clauses.  A time token can be refused for itself, because it shows no
time, or for its place, because it completes a pair to which no weekday belongs.  The first token
that is refused decides.  If none is, the tokens can still end too early: between the times of a
pair, or with weekdays that belong to a pair that is not there.

The draft knows nothing of pairs.  It is shown along the tokens, one at a time, that its two
memories are what the numbers say: the ends of the weekdays that belong to the next pair, and the
first time of that pair if it has been read.
-/
import BusinessHours.Proofs.Hours.Pairs
import Mathlib.Data.List.Induction

namespace BusinessHours

/-! ### What tokens are refused for -/

/-- Whether a token is a weekday or a time. -/
def Token.matters (t : Token Symbol) : Bool := t.symbol.isWeekday || t.symbol = .time

/-- What a token is refused for, given the tokens in front of it. -/
inductive Refusal (before : List (Token Symbol)) (t : Token Symbol) : ClauseError → Prop
  /-- It is a time token without a text. -/
  | missingLexeme (ht : t.symbol = .time) (h : t.lexeme = none) : Refusal before t .missingLexeme
  /-- It is a time token whose text shows no time. -/
  | invalidTime {lexeme : String} (ht : t.symbol = .time) (h : t.lexeme = some lexeme)
      (hread : TimeOfDay.ofText? lexeme = none) : Refusal before t (.invalidTime lexeme)
  /-- It is the second time of a pair to which no weekday belongs. -/
  | missingWeekday {opening closing : TimeOfDay} (ht : t.symbol = .time)
      (hsecond : timeCount before % 2 = 1)
      (hopening : (timesOf before).getLast? = some (some opening))
      (hclosing : t.shownTime? = some closing)
      (hdays : daysOfPair before (timeCount before / 2) = []) :
      Refusal before t (.missingWeekday opening closing)

/-- No token is refused. -/
def Unrefused (ts : List (Token Symbol)) : Prop :=
  ∀ before t after, ts = before ++ t :: after → ∀ e, ¬ Refusal before t e

/-- What the first token that is refused is refused for. -/
def FirstRefusal (ts : List (Token Symbol)) (e : ClauseError) : Prop :=
  ∃ before t after, ts = before ++ t :: after ∧ Unrefused before ∧ Refusal before t e

/-- The tokens end between the times of a pair, or with weekdays that belong to none. -/
def Incomplete (ts : List (Token Symbol)) : Prop :=
  timeCount ts % 2 = 1 ∨ daysOfPair ts (timeCount ts / 2) ≠ []

/-! ### What the draft remembers -/

theorem Symbol.weekday?_eq_some_iff {s : Symbol} {d : Weekday} :
    s.weekday? = some d ↔ s = .day d := by
  cases s <;> simp [weekday?]

/-- **The draft remembers what the numbers say.** -/
structure Drafted (ts : List (Token Symbol)) (D : Draft) : Prop where
  week : ∀ d, D.week.get d = hoursOn ts d
  days : D.days = ends (daysOfPair ts (timeCount ts / 2))
  /-- A time is remembered between the times of a pair. -/
  opening : (timeCount ts % 2 = 0 ∧ D.opening = none) ∨
    (timeCount ts % 2 = 1 ∧ ∃ opening, D.opening = some opening ∧
      (timesOf ts).getLast? = some (some opening))

theorem drafted_blank : Drafted [] Draft.blank where
  week := fun d => Weekly.get_always DayHours.closed d
  days := rfl
  opening := .inl ⟨rfl, rfl⟩

/-- A token of any other symbol changes nothing. -/
theorem Draft.add_other (D : Draft) {t : Token Symbol} (hday : t.symbol.weekday? = none)
    (htime : t.symbol ≠ .time) : D.add t = .ok D := by
  unfold Draft.add
  cases hs : t.symbol with
  | day d => simp [hs, Symbol.weekday?] at hday
  | time => exact absurd hs htime
  | _ => rfl

theorem Refusal.symbol_eq {before : List (Token Symbol)} {t : Token Symbol} {e : ClauseError}
    (h : Refusal before t e) : t.symbol = .time := by
  cases h <;> assumption

/-- **A token is refused for one thing at most.** -/
theorem Refusal.unique {before : List (Token Symbol)} {t : Token Symbol} {e e' : ClauseError}
    (h : Refusal before t e) (h' : Refusal before t e') : e = e' := by
  cases h with
  | missingLexeme ht h =>
      cases h' with
      | missingLexeme => rfl
      | invalidTime _ h' => simp [h] at h'
      | missingWeekday _ _ _ hclosing => simp [Token.shownTime?, h] at hclosing
  | invalidTime ht h hread =>
      cases h' with
      | missingLexeme _ h' => simp [h] at h'
      | invalidTime _ h' =>
          rw [h] at h'
          rw [Option.some.inj h']
      | missingWeekday _ _ _ hclosing => simp [Token.shownTime?, h, hread] at hclosing
  | missingWeekday ht hsecond hopening hclosing =>
      cases h' with
      | missingLexeme _ h' => simp [Token.shownTime?, h'] at hclosing
      | invalidTime _ h' hread => simp [Token.shownTime?, h', hread] at hclosing
      | missingWeekday _ _ hopening' hclosing' =>
          rw [hopening] at hopening'
          rw [hclosing] at hclosing'
          rw [Option.some.inj (Option.some.inj hopening'), Option.some.inj hclosing']

/-- A token that shows a time can only be refused for its place. -/
theorem Refusal.place {before : List (Token Symbol)} {t : Token Symbol} {e : ClauseError}
    (h : Refusal before t e) {time : TimeOfDay} (hshown : t.shownTime? = some time) :
    timeCount before % 2 = 1 ∧ daysOfPair before (timeCount before / 2) = [] := by
  cases h with
  | missingLexeme _ h => simp [Token.shownTime?, h] at hshown
  | invalidTime _ h hread => simp [Token.shownTime?, h, hread] at hshown
  | missingWeekday _ hsecond _ _ hdays => exact ⟨hsecond, hdays⟩

/-- A token that is no time keeps the pairs as they are. -/
theorem Drafted.concat_of_ne {ts : List (Token Symbol)} {D D' : Draft} (h : Drafted ts D)
    {t : Token Symbol} (ht : t.symbol ≠ .time) (hweek : D'.week = D.week)
    (hopening : D'.opening = D.opening)
    (hdays : D'.days = ends (daysOfPair ts (timeCount ts / 2) ++ t.symbol.weekday?.toList)) :
    Drafted (ts ++ [t]) D' := by
  have hcount : timeCount (ts ++ [t]) = timeCount ts := by
    rw [timeCount_append, timeCount_singleton_of_ne ht, Nat.add_zero]
  refine ⟨fun d => ?_, ?_, ?_⟩
  · rw [hweek, h.week, hoursOn_concat_of_eq (by rw [hcount])]
  · rw [hdays, hcount, daysOfPair_concat, if_pos rfl]
  · rw [hopening, hcount, timesOf_append, timesOf_singleton_of_ne ht, List.append_nil]
    exact h.opening

/-- **The first time of a pair is remembered.** -/
theorem Drafted.concat_opening {ts : List (Token Symbol)} {D : Draft} (h : Drafted ts D)
    {t : Token Symbol} (ht : t.symbol = .time) {time : TimeOfDay}
    (hshown : t.shownTime? = some time) (hfirst : timeCount ts % 2 = 0) :
    Drafted (ts ++ [t]) { D with opening := some time } := by
  have hcount : timeCount (ts ++ [t]) = timeCount ts + 1 := by
    rw [timeCount_append, timeCount_singleton_of_time ht]
  have hday : t.symbol.weekday? = none := by
    rw [ht]
    rfl
  refine ⟨fun d => ?_, ?_, .inr ⟨by omega, time, rfl, ?_⟩⟩
  · rw [hoursOn_concat_of_eq (by omega)]
    exact h.week d
  · rw [show timeCount (ts ++ [t]) / 2 = timeCount ts / 2 by omega, daysOfPair_concat, hday,
      Option.toList_none, ite_self, List.append_nil]
    exact h.days
  · rw [timesOf_append, timesOf_singleton_of_time ht, List.getLast?_concat, hshown]

/-- **The second time completes the pair, and nothing is left to remember.** -/
theorem Drafted.concat_closing {ts : List (Token Symbol)} {D : Draft} (h : Drafted ts D)
    {t : Token Symbol} (ht : t.symbol = .time) {opening closing : TimeOfDay}
    (hsecond : timeCount ts % 2 = 1) (hopening : (timesOf ts).getLast? = some (some opening))
    (hclosing : t.shownTime? = some closing) {first last : Weekday}
    (hdays : D.days = some (first, last)) :
    Drafted (ts ++ [t]) ⟨D.week.cover first last (.between opening closing), none, none⟩ := by
  have hcount : timeCount (ts ++ [t]) = timeCount ts + 1 := by
    rw [timeCount_append, timeCount_singleton_of_time ht]
  have hpair := pairHours?_of_completed ht hsecond hopening hclosing (h.days.symm.trans hdays)
  refine ⟨fun d => ?_, ?_, .inl ⟨by omega, rfl⟩⟩
  · rw [hoursOn_concat_of_succ (by omega), hpair, Week.get_cover, h.week]
    split <;> rfl
  -- no weekday belongs to the pair behind the one that is complete now
  · rw [show timeCount (ts ++ [t]) / 2 = timeCount ts / 2 + 1 by omega, daysOfPair_concat,
      daysOfPair_eq_nil (by omega), if_neg (by omega)]
    rfl

theorem Drafted.step_of_ne {ts : List (Token Symbol)} {D : Draft} (h : Drafted ts D)
    {t : Token Symbol} (ht : t.symbol ≠ .time) :
    ∃ D', D.add t = .ok D' ∧ Drafted (ts ++ [t]) D' := by
  cases hday : t.symbol.weekday? with
  | none =>
      refine ⟨D, D.add_other hday ht, h.concat_of_ne ht rfl rfl ?_⟩
      rw [hday, Option.toList_none, List.append_nil]
      exact h.days
  | some d =>
      refine ⟨D.addDay d, D.add_day (Symbol.weekday?_eq_some_iff.mp hday), ?_⟩
      refine h.concat_of_ne ht rfl rfl ?_
      rw [hday, Option.toList_some, ends_concat, ← h.days]
      rfl

theorem Drafted.step_of_shown {ts : List (Token Symbol)} {D : Draft} (h : Drafted ts D)
    {t : Token Symbol} (ht : t.symbol = .time) {time : TimeOfDay}
    (hshown : t.shownTime? = some time) :
    (∃ e, Refusal ts t e ∧ D.add t = .error e) ∨
      (∀ e, ¬ Refusal ts t e) ∧ ∃ D', D.add t = .ok D' ∧ Drafted (ts ++ [t]) D' := by
  rw [D.add_time ht hshown, Draft.addTime]
  rcases h.opening with ⟨hfirst, hnone⟩ | ⟨hsecond, opening, hopening, hlast⟩
  · rw [hnone]
    refine .inr ⟨fun e he => ?_, _, rfl, h.concat_opening ht hshown hfirst⟩
    have hsecond := (he.place hshown).1
    omega
  · rw [hopening]
    cases hdays : D.days with
    | none =>
        refine .inl ⟨_, .missingWeekday ht hsecond hlast hshown ?_, rfl⟩
        exact ends_eq_none_iff.mp (h.days.symm.trans hdays)
    | some days =>
        obtain ⟨first, last⟩ := days
        refine .inr ⟨fun e he => ?_, _, rfl, h.concat_closing ht hsecond hlast hshown hdays⟩
        -- refused for its place, but the draft remembers days for it
        rw [h.days, (he.place hshown).2] at hdays
        simp [ends] at hdays

theorem refusal_of_unusable (before : List (Token Symbol)) {t : Token Symbol}
    (ht : t.symbol = .time) (hshown : t.shownTime? = none) :
    Refusal before t (t.lexeme.elim .missingLexeme .invalidTime) := by
  cases hlexeme : t.lexeme with
  | none => exact .missingLexeme ht hlexeme
  | some lexeme =>
      rw [Token.shownTime?, hlexeme] at hshown
      exact .invalidTime ht hlexeme hshown

/-- **One token: it is refused by the draft for what it is refused for, or not at all.** -/
theorem Drafted.step {ts : List (Token Symbol)} {D : Draft} (h : Drafted ts D)
    (t : Token Symbol) :
    (∃ e, Refusal ts t e ∧ D.add t = .error e) ∨
      (∀ e, ¬ Refusal ts t e) ∧ ∃ D', D.add t = .ok D' ∧ Drafted (ts ++ [t]) D' := by
  by_cases ht : t.symbol = .time
  · cases hshown : t.shownTime? with
    | none =>
        have hunusable : t.isUnusable = true := by simp [Token.isUnusable, ht, hshown]
        exact .inl ⟨_, refusal_of_unusable ts ht hshown, D.add_unusable hunusable⟩
    | some time => exact h.step_of_shown ht hshown
  · exact .inr ⟨fun e he => ht he.symbol_eq, h.step_of_ne ht⟩

/-! ### All tokens -/

theorem unrefused_concat_iff {ts : List (Token Symbol)} {t : Token Symbol} :
    Unrefused (ts ++ [t]) ↔ Unrefused ts ∧ ∀ e, ¬ Refusal ts t e := by
  constructor
  · intro h
    refine ⟨fun before u after hts => h before u (after ++ [t]) (by simp [hts]), ?_⟩
    exact h ts t [] rfl
  · intro h before u after hts
    rcases List.eq_nil_or_concat after with rfl | ⟨after, u', rfl⟩
    · obtain ⟨rfl, hu⟩ := List.append_inj' hts rfl
      obtain ⟨rfl, -⟩ := List.cons.inj hu
      exact h.2
    · rw [List.concat_eq_append, ← List.cons_append, ← List.append_assoc] at hts
      obtain ⟨hts, -⟩ := List.append_inj' hts rfl
      exact h.1 before u after hts

/-- **All tokens: the first that is refused decides, or the draft has read them all.** -/
theorem foldlM_drafted (ts : List (Token Symbol)) :
    (∃ e, FirstRefusal ts e ∧ ts.foldlM Draft.add Draft.blank = .error e) ∨
      Unrefused ts ∧ ∃ D, ts.foldlM Draft.add Draft.blank = .ok D ∧ Drafted ts D := by
  -- from the end, since what a token is refused for depends on all tokens in front of it
  induction ts using List.reverseRecOn with
  | nil =>
      refine .inr ⟨fun before t after hts => ?_, Draft.blank, rfl, drafted_blank⟩
      simp at hts
  | append_singleton ts t ih =>
      rw [List.foldlM_append]
      rcases ih with ⟨e, hfirst, hfold⟩ | ⟨hunrefused, D, hfold, hD⟩
      · obtain ⟨before, u, after, rfl, hbefore, hrefusal⟩ := hfirst
        refine .inl ⟨e, ⟨before, u, after ++ [t], by simp, hbefore, hrefusal⟩, ?_⟩
        rw [hfold]
        rfl
      · rw [hfold]
        show (∃ e, FirstRefusal (ts ++ [t]) e ∧ [t].foldlM Draft.add D = .error e) ∨
          Unrefused (ts ++ [t]) ∧ ∃ D', [t].foldlM Draft.add D = .ok D' ∧ Drafted (ts ++ [t]) D'
        rw [List.foldlM_cons]
        rcases hD.step t with ⟨e, hrefusal, hadd⟩ | ⟨hnone, D', hadd, hD'⟩
        · refine .inl ⟨e, ⟨ts, t, [], rfl, hunrefused, hrefusal⟩, ?_⟩
          rw [hadd]
          rfl
        · refine .inr ⟨unrefused_concat_iff.mpr ⟨hunrefused, hnone⟩, D', ?_, hD'⟩
          rw [hadd]
          rfl

/-- Where a token is refused, there is a first one that is. -/
theorem exists_firstRefusal {ts : List (Token Symbol)} (h : ¬ Unrefused ts) :
    ∃ e, FirstRefusal ts e := by
  rcases foldlM_drafted ts with ⟨e, hfirst, -⟩ | ⟨hts, -⟩
  · exact ⟨e, hfirst⟩
  · exact absurd hts h

theorem FirstRefusal.not_unrefused {ts : List (Token Symbol)} {e : ClauseError}
    (h : FirstRefusal ts e) : ¬ Unrefused ts := by
  intro hts
  obtain ⟨before, t, after, rfl, -, hrefusal⟩ := h
  exact hts before t after rfl e hrefusal

/-- **What the first token that is refused is refused for is one thing.** -/
theorem FirstRefusal.unique {ts : List (Token Symbol)} {e e' : ClauseError} (h : FirstRefusal ts e)
    (h' : FirstRefusal ts e') : e = e' := by
  obtain ⟨before, t, after, rfl, hbefore, hrefusal⟩ := h
  obtain ⟨before', t', after', hts, hbefore', hrefusal'⟩ := h'
  have hnone : ∀ {us : List (Token Symbol)}, Unrefused us → ∀ front u back,
      us = front ++ u :: back → ¬ ∃ e, Refusal front u e := fun hus front u back heq hu =>
    hu.elim (hus front u back heq)
  obtain ⟨rfl, rfl⟩ := eq_of_first_entries (P := fun front u => ∃ e, Refusal front u e) hts
    ⟨e, hrefusal⟩ ⟨e', hrefusal'⟩ (hnone hbefore) (hnone hbefore')
  exact hrefusal.unique hrefusal'

/-- A draft is left over if the tokens end too early. -/
theorem Drafted.finish {ts : List (Token Symbol)} {D : Draft} (h : Drafted ts D) :
    (Incomplete ts ∧ D.finish = .error .incompleteClause) ∨
      ¬ Incomplete ts ∧ D.finish = .ok D.week := by
  have hdays : D.days = none ↔ daysOfPair ts (timeCount ts / 2) = [] := by
    rw [h.days, ends_eq_none_iff]
  unfold Incomplete Draft.finish
  rcases h.opening with ⟨heven, hnone⟩ | ⟨hodd, opening, hopening, -⟩
  · rw [hnone]
    cases hD : D.days with
    | none =>
        refine .inr ⟨?_, rfl⟩
        rintro (hodd | hne)
        · omega
        · exact hne (hdays.mp hD)
    | some days =>
        refine .inl ⟨.inr fun hnil => ?_, rfl⟩
        rw [hdays.mpr hnil] at hD
        simp at hD
  · refine .inl ⟨.inl hodd, ?_⟩
    rw [hopening, if_pos (by simp)]

/-! ### The week of tokens -/

theorem weekOfTokens_of_firstRefusal {ts : List (Token Symbol)} {e : ClauseError}
    (h : FirstRefusal ts e) : weekOfTokens ts = .error e := by
  rcases foldlM_drafted ts with ⟨e', hfirst, hfold⟩ | ⟨hunrefused, -⟩
  · rw [weekOfTokens, hfold, h.unique hfirst]
    rfl
  · exact absurd hunrefused h.not_unrefused

/-- **Tokens of which none is refused describe a week, unless they end too early.** -/
theorem weekOfTokens_of_unrefused {ts : List (Token Symbol)} (h : Unrefused ts) :
    (Incomplete ts ∧ weekOfTokens ts = .error .incompleteClause) ∨
      ¬ Incomplete ts ∧ weekOfTokens ts = .ok (.ofFn (hoursOn ts)) := by
  rcases foldlM_drafted ts with ⟨e, hfirst, -⟩ | ⟨-, D, hfold, hD⟩
  · exact absurd h hfirst.not_unrefused
  · have hweek : D.week = .ofFn (hoursOn ts) :=
      Weekly.ext_get fun d => (hD.week d).trans (Weekly.get_ofFn _ d).symm
    rw [weekOfTokens, hfold, ← hweek]
    exact hD.finish

theorem weekOfTokens_eq_error_iff {ts : List (Token Symbol)} {e : ClauseError} :
    weekOfTokens ts = .error e ↔
      FirstRefusal ts e ∨ Unrefused ts ∧ Incomplete ts ∧ e = .incompleteClause := by
  constructor
  · intro h
    by_cases hts : Unrefused ts
    · rcases weekOfTokens_of_unrefused hts with ⟨hend, hweek⟩ | ⟨-, hweek⟩
      · rw [hweek] at h
        exact .inr ⟨hts, hend, (Except.error.inj h).symm⟩
      · rw [hweek] at h
        simp at h
    · obtain ⟨e', hfirst⟩ := exists_firstRefusal hts
      rw [weekOfTokens_of_firstRefusal hfirst] at h
      rw [← Except.error.inj h]
      exact .inl hfirst
  · intro h
    rcases h with hfirst | ⟨hts, hend, rfl⟩
    · exact weekOfTokens_of_firstRefusal hfirst
    · exact (weekOfTokens_of_unrefused hts).elim And.right fun h => absurd hend h.1

theorem weekOfTokens_eq_week_iff {ts : List (Token Symbol)} {w : Week} :
    weekOfTokens ts = .ok w ↔
      Unrefused ts ∧ ¬ Incomplete ts ∧ ∀ d, w.get d = hoursOn ts d := by
  constructor
  · intro h
    have hts : Unrefused ts := by
      by_contra hts
      obtain ⟨e, hfirst⟩ := exists_firstRefusal hts
      rw [weekOfTokens_of_firstRefusal hfirst] at h
      simp at h
    rcases weekOfTokens_of_unrefused hts with ⟨-, hweek⟩ | ⟨hend, hweek⟩
    · rw [hweek] at h
      simp at h
    · rw [hweek] at h
      refine ⟨hts, hend, fun d => ?_⟩
      rw [← Except.ok.inj h, Weekly.get_ofFn]
  · intro h
    obtain ⟨hts, hend, hdays⟩ := h
    rcases weekOfTokens_of_unrefused hts with ⟨hend', -⟩ | ⟨-, hweek⟩
    · exact absurd hend' hend
    · rw [hweek]
      refine congrArg Except.ok (Weekly.ext_get fun d => ?_)
      rw [hdays, Weekly.get_ofFn]

/-- **Tokens that are neither weekdays nor times can be left out.** -/
theorem weekOfTokens_filter (ts : List (Token Symbol)) :
    weekOfTokens (ts.filter Token.matters) = weekOfTokens ts := by
  have hfold : ∀ D : Draft,
      (ts.filter Token.matters).foldlM Draft.add D = ts.foldlM Draft.add D := by
    induction ts with
    | nil => exact fun D => rfl
    | cons t ts ih =>
        intro D
        by_cases ht : t.matters = true
        · rw [List.filter_cons_of_pos ht, List.foldlM_cons, List.foldlM_cons]
          exact congrArg (D.add t >>= ·) (funext ih)
        · rw [List.filter_cons_of_neg ht, ih, List.foldlM_cons]
          rw [Token.matters, Bool.or_eq_true, not_or, Bool.not_eq_true, decide_eq_true_iff] at ht
          have hday : t.symbol.weekday? = none := by simpa [Symbol.isWeekday] using ht.1
          rw [D.add_other hday ht.2]
          rfl
  rw [weekOfTokens, hfold, weekOfTokens]

/-- Two times with a dash between them, as a message shows them. -/
theorem message_missingWeekday (opening closing : TimeOfDay) : ∃ range : String,
    range.toList = TimeOfDay.twoDigits opening.hour ++ ':' :: TimeOfDay.twoDigits opening.minute ++
      '-' :: (TimeOfDay.twoDigits closing.hour ++ ':' :: TimeOfDay.twoDigits closing.minute) ∧
    (ClauseError.missingWeekday opening closing).message
      = "time range " ++ range ++ " has no preceding weekday" := by
  refine ⟨opening.clockText ++ "-" ++ closing.clockText, ?_, ?_⟩
  · rw [String.toList_append, String.toList_append, TimeOfDay.clockText, TimeOfDay.clockText,
      String.toList_ofList, String.toList_ofList]
    simp
  · simp only [ClauseError.message, String.append_assoc]

/--
**What tokens say.**  Only weekdays and times matter.  The first token that is refused decides
what the tokens are refused for, and if they are refused although no token is, they end too early.
Otherwise each day has the hours that the last pair of times that covers it gives it.
-/
theorem weekOfTokens_exact (ts : List (Token Symbol)) :
    weekOfTokens (ts.filter Token.matters) = weekOfTokens ts ∧
    (∀ e, weekOfTokens ts = .error e ↔
      FirstRefusal ts e ∨ Unrefused ts ∧ Incomplete ts ∧ e = .incompleteClause) ∧
    (∀ w, weekOfTokens ts = .ok w ↔
      Unrefused ts ∧ ¬ Incomplete ts ∧ ∀ d, w.get d = hoursOn ts d) ∧
    ∀ opening closing, ∃ range : String,
      range.toList =
        TimeOfDay.twoDigits opening.hour ++ ':' :: TimeOfDay.twoDigits opening.minute ++
          '-' :: (TimeOfDay.twoDigits closing.hour ++ ':' :: TimeOfDay.twoDigits closing.minute) ∧
      (ClauseError.missingWeekday opening closing).message
        = "time range " ++ range ++ " has no preceding weekday" := by
  refine ⟨weekOfTokens_filter ts, fun e => ?_, fun w => ?_, message_missingWeekday⟩
  · exact weekOfTokens_eq_error_iff
  · exact weekOfTokens_eq_week_iff

example : (weekOfTokens [.synthetic (.day .monday), .ofLexeme .time "8:00",
    .synthetic (.day .wednesday), .ofLexeme .time "10:00"]).toOption.map (Weekly.get · .tuesday)
    = some (.between ⟨8, 0, 0⟩ ⟨10, 0, 0⟩) := by
  decide +kernel

end BusinessHours

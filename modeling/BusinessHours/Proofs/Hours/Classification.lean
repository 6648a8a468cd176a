/-
Why a text is not read.

Three stages can turn a text down: it is cut, its tokens are recognised, and they are read as a
week.  What a user is told depends on the tokens alone, and the stages rank the answers.  A rest
that is no token comes first, because no text of the language has one.  Then the symbols of the
tokens have to be those of clauses.  Then a time can still be off the clock, and the first one
that is gets named.

Nothing else can happen.  A token that is shown by its lexeme has a text, so no time is refused
for the lack of one; and the texts of time tokens have the shape that a clock shows, so all that
can be wrong with one is an hour above 23 or a minute above 59.
-/
import BusinessHours.Proofs.Hours.Agreement
import BusinessHours.Proofs.Hours.Reading

namespace BusinessHours

/-! ### What tokens can be refused for -/

/-- Unknown text stands behind all other tokens. -/
def EndsUnknown (ts : List (Token Symbol)) (text : String) : Prop :=
  ts.getLast? = some (.ofLexeme .unknown text)

/-- The tokens have the symbols of clauses. -/
def IsSchedule (ts : List (Token Symbol)) : Prop :=
  ∃ c cs, ts.map Token.symbol = Clause.listSymbols (c :: cs)

/-- An hour above 23 or a minute above 59, two digits each. -/
def OffClock (text : String) : Prop :=
  ∃ hour < 100, ∃ minute < 100,
    text.toList = TimeOfDay.twoDigits hour ++ ':' :: TimeOfDay.twoDigits minute ∧
      (23 < hour ∨ 59 < minute)

/-- The first time that is off the clock. -/
def FirstOffClock (ts : List (Token Symbol)) (text : String) : Prop :=
  ∃ before after, ts = before ++ .ofLexeme .time text :: after ∧ OffClock text ∧
    ∀ text', .ofLexeme .time text' ∈ before → ¬ OffClock text'

theorem EndsUnknown.unique {ts : List (Token Symbol)} {s s' : String} (h : EndsUnknown ts s)
    (h' : EndsUnknown ts s') : s = s' := by
  have htoken := Option.some.inj (Eq.trans (Eq.symm h) h')
  exact Option.some.inj (congrArg Token.lexeme htoken)

theorem FirstOffClock.unique {ts : List (Token Symbol)} {s s' : String} (h : FirstOffClock ts s)
    (h' : FirstOffClock ts s') : s = s' := by
  obtain ⟨before, after, rfl, hoff, hbefore⟩ := h
  obtain ⟨before', after', hts, hoff', hbefore'⟩ := h'
  have hnone : ∀ {ts : List (Token Symbol)},
      (∀ text, .ofLexeme .time text ∈ ts → ¬ OffClock text) → ∀ front t back,
        ts = front ++ t :: back → ¬ ∃ text, t = .ofLexeme .time text ∧ OffClock text := by
    rintro ts hts front t back rfl ⟨text, rfl, htext⟩
    exact hts text (by simp) htext
  obtain ⟨-, htoken⟩ := eq_of_first_entries (P := fun _ t => ∃ text, t = .ofLexeme .time text ∧
    OffClock text) hts ⟨s, rfl, hoff⟩ ⟨s', rfl, hoff'⟩ (hnone hbefore) (hnone hbefore')
  exact Option.some.inj (congrArg Token.lexeme htoken)

/-! ### Times off the clock -/

theorem ofText?_of_offClock {s : String} (h : OffClock s) : TimeOfDay.ofText? s = none := by
  obtain ⟨hour, hh, minute, hm, hs, hoff⟩ := h
  rw [TimeOfDay.ofText?, hs, TimeOfDay.ofChars?_digits hh hm, TimeOfDay.ofParts?,
    dif_neg (by omega)]

/-- **What has the shape of a time and is none is off the clock.** -/
theorem offClock_of_ofText? {s : String} (hs : Pattern.clock.accepts s.toList = true)
    (h : TimeOfDay.ofText? s = none) : OffClock s := by
  obtain ⟨hour, hh, minute, hm, hs⟩ := Pattern.clock_accepts_iff.mp hs
  refine ⟨hour, hh, minute, hm, hs, ?_⟩
  by_contra hclock
  rw [TimeOfDay.ofText?, hs, TimeOfDay.ofChars?_digits hh hm, TimeOfDay.ofParts?,
    dif_pos (by omega)] at h
  simp at h

theorem isUnusable_of_offClock {s : String} (h : OffClock s) :
    (Token.ofLexeme Symbol.time s).isUnusable = true := by
  have hshown : (Token.ofLexeme Symbol.time s).shownTime? = none := ofText?_of_offClock h
  rw [Token.isUnusable, hshown]
  rfl

namespace Lexicon

variable {L : Lexicon}

/-- A token that is shown by its lexeme can only be unusable as a time that is off the clock. -/
theorem Faithful.offClock_of_isUnusable {t : Token Symbol} (ht : L.Faithful t)
    (h : t.isUnusable = true) : ∃ s, t = .ofLexeme .time s ∧ OffClock s := by
  rw [Token.isUnusable, Bool.and_eq_true, decide_eq_true_iff, Option.isNone_iff_eq_none] at h
  obtain ⟨hsymbol, hshown⟩ := h
  have hshows := ht.shows_chars
  rw [hsymbol] at hshows
  refine ⟨String.ofList t.chars, ?_, offClock_of_ofText? ?_ ?_⟩
  · rw [← hsymbol]
    exact ht.eq_ofLexeme
  · rw [String.toList_ofList]
    exact hshows
  · rw [TimeOfDay.ofText?, String.toList_ofList, ← ht.shownTime?_eq]
    exact hshown

/-- **The first unusable token is the first time off the clock.** -/
theorem firstOffClock_iff {ts : List (Token Symbol)} (hts : ∀ t ∈ ts, L.Faithful t) {s : String} :
    FirstOffClock ts s ↔ ts.find? Token.isUnusable = some (.ofLexeme .time s) := by
  rw [List.find?_eq_some_iff_append]
  constructor
  · intro h
    obtain ⟨before, after, rfl, hoff, hbefore⟩ := h
    refine ⟨isUnusable_of_offClock hoff, before, after, rfl, fun t ht => ?_⟩
    rw [Bool.not_eq_true', Bool.eq_false_iff]
    intro hunusable
    obtain ⟨s', rfl, hoff'⟩ :=
      (hts t (List.mem_append_left _ ht)).offClock_of_isUnusable hunusable
    exact hbefore s' ht hoff'
  · intro h
    obtain ⟨hunusable, before, after, rfl, hbefore⟩ := h
    obtain ⟨s', hs', hoff⟩ := (hts (.ofLexeme .time s) (by simp)).offClock_of_isUnusable hunusable
    obtain rfl : s = s' := Option.some.inj (congrArg Token.lexeme hs')
    refine ⟨before, after, rfl, hoff, fun s' hs' hoff' => ?_⟩
    have husable := hbefore _ hs'
    rw [isUnusable_of_offClock hoff'] at husable
    simp at husable

/-! ### The answer to a text -/

theorem Faithful.isUnknown_eq_false {t : Token Symbol} (h : L.Faithful t) :
    hoursAlphabet.isUnknown t.symbol = false := decide_eq_false h.symbol_ne.2

theorem readWeek_of_rejected {text : String} {explanation : Option String}
    (h : hoursRecognizer.validate (L.tokenize text) = .rejected explanation) :
    L.readWeek text = .error (.invalid explanation) := by
  rw [readWeek, h]

theorem readWeek_of_accepted {text : String}
    (h : hoursRecognizer.validate (L.tokenize text) = .accepted) :
    L.readWeek text = (weekOfTokens (L.tokenize text)).mapError .clause := by
  rw [readWeek, h]

/-- What can be answered to a text with the given tokens, the first fault that applies. -/
inductive Answer (ts : List (Token Symbol)) : Except ReadingError Week → Prop
  | unknown {s : String} (h : EndsUnknown ts s) :
      Answer ts (.error (.invalid (some ("Unknown token '" ++ s ++ "'"))))
  | invalid (hknown : ∀ s, ¬ EndsUnknown ts s) (hne : ts ≠ []) (h : ¬ IsSchedule ts) :
      Answer ts (.error (.invalid none))
  | offClock {s : String} (hknown : ∀ s, ¬ EndsUnknown ts s) (hs : ts = [] ∨ IsSchedule ts)
      (h : FirstOffClock ts s) : Answer ts (.error (.clause (.invalidTime s)))
  | week {w : Week} (hknown : ∀ s, ¬ EndsUnknown ts s) (hs : ts = [] ∨ IsSchedule ts)
      (h : ∀ s, ¬ FirstOffClock ts s) : Answer ts (.ok w)

/-- **A text with a rest that is no token is answered with that rest.** -/
theorem answer_of_unknown {text : String} {front : List (Token Symbol)} {s : String}
    (hall : ∀ t ∈ front, L.Faithful t) (h : L.tokenize text = front ++ [.ofLexeme .unknown s]) :
    Answer (L.tokenize text) (L.readWeek text) := by
  have hfind : (L.tokenize text).find? (fun t => hoursAlphabet.isUnknown t.symbol)
      = some (.ofLexeme .unknown s) := by
    rw [List.find?_eq_some_iff_append]
    refine ⟨rfl, front, [], h, fun t ht => ?_⟩
    rw [(hall t ht).isUnknown_eq_false]
    rfl
  rw [readWeek_of_rejected (hoursRecognizer.validate_of_unknown hfind)]
  refine .unknown ?_
  rw [EndsUnknown, h, List.getLast?_concat]
  rfl

/-- **Without such a rest the symbols decide, and then the times.** -/
theorem answer_of_faithful {text : String} (hall : ∀ t ∈ L.tokenize text, L.Faithful t) :
    Answer (L.tokenize text) (L.readWeek text) := by
  have hlast : ∀ s, ¬ EndsUnknown (L.tokenize text) s := fun s hs =>
    (hall _ (List.mem_of_getLast? hs)).symbol_ne.2 rfl
  have hend : Symbol.endOfInput ∉ ((L.tokenize text).map Token.symbol).dropLast := fun hs =>
    endOfInput_notMem hall (List.mem_of_mem_dropLast hs)
  have hiff := isAccepted_iff_of_faithful hall
  rcases hoursRecognizer.validate_of_known fun t ht => (hall t ht).isUnknown_eq_false with
    haccept | hreject
  · have hvalid : (hoursRecognizer.validate (L.tokenize text)).isAccepted = true := by
      rw [haccept]
      rfl
    rw [readWeek_of_accepted haccept]
    cases hfind : (L.tokenize text).find? Token.isUnusable with
    | none =>
        obtain ⟨cs, -, -, hweek⟩ := exists_week_of_find?_eq_none hend hvalid hfind
        rw [hweek]
        refine .week hlast (hiff.mp hvalid) fun s hs => ?_
        rw [firstOffClock_iff hall, hfind] at hs
        simp at hs
    | some t =>
        have hmem := List.mem_of_find?_eq_some hfind
        obtain ⟨s, rfl, -⟩ := (hall t hmem).offClock_of_isUnusable (List.find?_some hfind)
        rw [weekOfTokens_of_find?_eq_some hend hvalid hfind]
        exact .offClock hlast (hiff.mp hvalid) ((firstOffClock_iff hall).mpr hfind)
  · have hinvalid : ¬ (L.tokenize text = [] ∨ IsSchedule (L.tokenize text)) := by
      intro hs
      have hvalid := hiff.mpr hs
      rw [hreject] at hvalid
      simp [Verdict.isAccepted] at hvalid
    rw [readWeek_of_rejected hreject]
    exact .invalid hlast (fun hs => hinvalid (.inl hs)) (fun hs => hinvalid (.inr hs))

theorem answer_readWeek (L : Lexicon) (text : String) :
    Answer (L.tokenize text) (L.readWeek text) := by
  obtain ⟨front, left, hall, htokens, -⟩ := L.exists_tokenize text
  by_cases hleft : left = []
  · subst hleft
    refine answer_of_faithful fun t ht => ?_
    rw [htokens] at ht
    exact (hall t (List.append_nil front ▸ ht)).1
  · rw [cut_nil_of_ne_nil hleft] at htokens
    exact answer_of_unknown (fun t ht => (hall t ht).1) htokens

/--
**What a text is answered.**  If its tokens end with unknown text, the answer shows this text.
If they do not, but there are some and their symbols are not those of clauses, the answer is
that the text is invalid.  If they do and the symbols are, the first time off the clock is
refused, and if there is none the text is read.  There are no other answers.
-/
theorem readWeek_classified (L : Lexicon) (text : String) :
    (∀ s, L.readWeek text = .error (.invalid (some ("Unknown token '" ++ s ++ "'"))) ↔
      EndsUnknown (L.tokenize text) s) ∧
    (L.readWeek text = .error (.invalid none) ↔ (∀ s, ¬ EndsUnknown (L.tokenize text) s) ∧
      L.tokenize text ≠ [] ∧ ¬ IsSchedule (L.tokenize text)) ∧
    (∀ s, L.readWeek text = .error (.clause (.invalidTime s)) ↔
      (∀ s', ¬ EndsUnknown (L.tokenize text) s') ∧
      (L.tokenize text = [] ∨ IsSchedule (L.tokenize text)) ∧
      FirstOffClock (L.tokenize text) s) ∧
    ((∃ w, L.readWeek text = .ok w) ↔ (∀ s, ¬ EndsUnknown (L.tokenize text) s) ∧
      (L.tokenize text = [] ∨ IsSchedule (L.tokenize text)) ∧
      ∀ s, ¬ FirstOffClock (L.tokenize text) s) ∧
    (∀ e, L.readWeek text = .error e →
      (∃ s, e = .invalid (some ("Unknown token '" ++ s ++ "'"))) ∨ e = .invalid none ∨
        ∃ s, e = .clause (.invalidTime s)) := by
  have hanswer := L.answer_readWeek text
  generalize L.readWeek text = answer at hanswer ⊢
  generalize L.tokenize text = ts at hanswer ⊢
  cases hanswer with
  | @unknown s h =>
      have hlast : ∀ s', EndsUnknown ts s' ↔ s = s' := fun s' => ⟨h.unique, fun hs => hs ▸ h⟩
      simp [hlast]
  | invalid hknown hne h => simp [hknown, hne, h]
  | @offClock s hknown hs h =>
      have hfirst : ∀ s', FirstOffClock ts s' ↔ s = s' := fun s' => ⟨h.unique, fun hs => hs ▸ h⟩
      have hvalid : ts ≠ [] → IsSchedule ts := hs.resolve_left
      simpa [hknown, hs, hfirst] using hvalid
  | week hknown hs h =>
      have hvalid : ts ≠ [] → IsSchedule ts := hs.resolve_left
      simpa [hknown, hs, h] using hvalid

example : english.readWeek "Mon 10:00-25:00, Tue 61:00-62:00"
    = .error (.clause (.invalidTime "25:00")) := by
  decide +kernel

end Lexicon

end BusinessHours

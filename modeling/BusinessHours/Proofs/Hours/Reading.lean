/-
Texts and the weeks they describe.

A text that is read is either blank, and then the week is closed, or a written form of some
clauses, and then the week is theirs.  Conversely a written form of clauses is read as their
week, provided that no token of the lexicon begins another one.  Without this a lexicon in
which one name begins another could cut the longer name short.
-/
import BusinessHours.Hours.Locale
import BusinessHours.Hours.Reading
import BusinessHours.Proofs.Hours.Language
import BusinessHours.Proofs.Hours.Written

namespace BusinessHours

namespace Lexicon

variable {L : Lexicon}

theorem readWeek_eq_ok_iff {text : String} {w : Week} : L.readWeek text = .ok w ↔
    (hoursRecognizer.validate (L.tokenize text)).isAccepted = true ∧
      weekOfTokens (L.tokenize text) = .ok w := by
  unfold readWeek
  dsimp only
  cases hoursRecognizer.validate (L.tokenize text) with
  | rejected explanation => simp [Verdict.isAccepted]
  | accepted =>
      cases weekOfTokens (L.tokenize text) with
      | error e => simp [Verdict.isAccepted, Except.mapError]
      | ok v => simp [Verdict.isAccepted, Except.mapError]

/-- No end mark stands among tokens that are shown by their lexemes. -/
theorem endOfInput_notMem {ts : List (Token Symbol)} (h : ∀ t ∈ ts, L.Faithful t) :
    Symbol.endOfInput ∉ ts.map Token.symbol := by
  intro hs
  obtain ⟨t, ht, hs⟩ := List.mem_map.mp hs
  exact (h t ht).symbol_ne.1 hs

/-- **Tokens that are shown by their lexemes are accepted if they have the symbols of clauses.** -/
theorem isAccepted_iff_of_faithful {ts : List (Token Symbol)} (h : ∀ t ∈ ts, L.Faithful t) :
    (hoursRecognizer.validate ts).isAccepted = true ↔
      ts = [] ∨ ∃ c cs, ts.map Token.symbol = Clause.listSymbols (c :: cs) := by
  have hmark := endOfInput_notMem h
  rw [Clause.isAccepted_iff_exists_clauses fun hs => hmark (List.mem_of_mem_dropLast hs),
    Recognizer.lessEnd_eq_self hmark]

/-- **A text that is read is blank or a written form of clauses.** -/
theorem allBlank_or_exists_clauses {text : String} {w : Week} (h : L.readWeek text = .ok w) :
    AllBlank text.toList ∧ w = .closed ∨
      ∃ cs, cs ≠ [] ∧ L.Writes cs text ∧ w = Clause.week cs := by
  obtain ⟨haccept, hweek⟩ := readWeek_eq_ok_iff.mp h
  have hknown : ∀ t ∈ L.tokenize text, t.symbol ≠ .unknown := fun t ht =>
    of_decide_eq_false (hoursRecognizer.isUnknown_eq_false_of_isAccepted haccept t ht)
  obtain ⟨hspaced, hfaithful⟩ := spaced_of_tokenize hknown
  rcases (isAccepted_iff_of_faithful fun t ht => (hfaithful t ht).1).mp haccept with
    hnil | ⟨c, cs, hlist⟩
  · refine .inl ⟨?_, ?_⟩
    · rw [hnil] at hspaced
      cases hspaced with
      | nil hg => exact hg
    · rw [hnil] at hweek
      exact (Except.ok.inj hweek).symm
  · have hnone : (L.tokenize text).find? Token.isUnusable = none := by
      cases hfind : (L.tokenize text).find? Token.isUnusable with
      | none => rfl
      | some t =>
          rw [weekOfTokens_of_unusable hlist hfind] at hweek
          simp at hweek
    obtain ⟨cs', htokens⟩ := exists_listTokens hlist hfaithful hnone
    have hne : cs' ≠ [] := by
      rintro rfl
      rw [htokens] at hlist
      exact Clause.listSymbols_cons_ne_nil c cs hlist.symm
    refine .inr ⟨cs', hne, ?_, ?_⟩
    · rw [htokens, Clause.map_chars_listTokens] at hspaced
      exact hspaced
    · rw [htokens, Clause.weekOfTokens_listTokens] at hweek
      exact (Except.ok.inj hweek).symm

theorem isAccepted_nil : (hoursRecognizer.validate []).isAccepted = true := rfl

/-- **A blank text is read as a closed week.** -/
theorem readWeek_of_allBlank {text : String} (h : AllBlank text.toList) :
    L.readWeek text = .ok .closed := by
  rw [readWeek_eq_ok_iff, tokenize_of_allBlank h]
  exact ⟨isAccepted_nil, rfl⟩

/-- **A written form of clauses is read as their week**, if no token begins another one. -/
theorem readWeek_of_writes (hp : L.PrefixFree) {cs : List Clause} (hcs : cs ≠ []) {text : String}
    (h : L.Writes cs text) : L.readWeek text = .ok (Clause.week cs) := by
  have htokens : L.tokenize text = Clause.listTokens L cs := by
    refine tokenize_of_spaced hp (fun t ht => Clause.faithful_of_mem_listTokens ht) ?_
    rw [Clause.map_chars_listTokens]
    exact h
  rw [readWeek_eq_ok_iff, htokens]
  refine ⟨?_, Clause.weekOfTokens_listTokens cs⟩
  obtain ⟨c, cs, rfl⟩ := List.exists_cons_of_ne_nil hcs
  exact (isAccepted_iff_of_faithful fun t ht => (Clause.faithful_of_mem_listTokens ht).1).mpr
    (.inr ⟨c, cs, Clause.map_symbol_listTokens _⟩)

/--
**What is read and what is written agree.**  Any text that is read is blank and closed, or a
written form of clauses whose week it is.  A prefix free lexicon reads every written form of
clauses, and every lexicon reads blank texts.
-/
theorem readWeek_exact (L : Lexicon) (text : String) :
    (∀ w, L.readWeek text = .ok w → AllBlank text.toList ∧ w = .closed ∨
      ∃ cs, cs ≠ [] ∧ L.Writes cs text ∧ w = Clause.week cs) ∧
    (L.PrefixFree → ∀ cs, cs ≠ [] → L.Writes cs text →
      L.readWeek text = .ok (Clause.week cs)) ∧
    (AllBlank text.toList → L.readWeek text = .ok .closed) :=
  ⟨fun _ => allBlank_or_exists_clauses, fun hp _ hcs => readWeek_of_writes hp hcs,
    readWeek_of_allBlank⟩

theorem english_prefixFree : english.PrefixFree := by
  have hplain : ∀ d, (english.names.get d).toList.head?.all isPlain = true := by
    intro d
    cases d <;> rfl
  have hnames : ∀ d ∈ Weekday.all, ∀ e ∈ Weekday.all,
      (english.names.get d).toList <+: (english.names.get e).toList → d = e := by
    decide +kernel
  exact prefixFree_of_names hplain fun d e => hnames d (Weekday.mem_all d) e (Weekday.mem_all e)

/-- Working days, in English. -/
def workingDays : Clause :=
  ⟨.monday, some .friday, ⟨9, 0, 0⟩, ⟨17, 0, 0⟩, rfl, rfl⟩

theorem english_readWeek_workingDays : english.Writes [workingDays] "Mon-Fri 09:00 - 17:00" ∧
    english.readWeek "Mon-Fri 09:00 - 17:00" = .ok (Clause.week [workingDays]) := by
  have hwrites : english.Writes [workingDays] "Mon-Fri 09:00 - 17:00" := by
    have hnone : AllBlank [] := fun c hc => by simp at hc
    have hspace : AllBlank [' '] := by
      intro c hc
      rw [List.mem_singleton.mp hc]
      rfl
    exact (.cons hnone (.cons hnone (.cons hnone (.cons hspace (.cons hspace (.cons hspace
      (.nil hnone)))))) : Spaced (Clause.listPieces english [workingDays])
        ([] ++ (_ ++ ([] ++ (_ ++ ([] ++ (_ ++ ([' '] ++ (_ ++ ([' '] ++ (_ ++ ([' '] ++
          (_ ++ [])))))))))))))
  exact ⟨hwrites, (readWeek_exact english _).2.1 english_prefixFree _ (by simp) hwrites⟩

end Lexicon

end BusinessHours

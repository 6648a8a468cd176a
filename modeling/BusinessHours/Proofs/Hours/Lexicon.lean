/-
What a candidate is.

The patterns of a lexicon are tried in order, and the first that matches decides.  The
conditions on the names of a lexicon make the order irrelevant: no candidate matches
patterns of two symbols.  So what a candidate is can be said for each symbol by itself,
which is what `Shows` does.

A lexicon is prefix free if no token begins another one.  Then a token that has been read
completely cannot be cut short and cannot go on.
-/
import BusinessHours.Hours.Lexicon
import BusinessHours.Proofs.Calendar.ClockText

namespace BusinessHours

theorem isAsciiDigit_iff {c : Char} :
    isAsciiDigit c = true ↔ ∃ n < 10, c = Nat.digitChar n := by
  unfold isAsciiDigit
  rw [Bool.and_eq_true, decide_eq_true_iff, decide_eq_true_iff]
  constructor
  · intro h
    have hvalue : digitValue? c = some (c.toNat - '0'.toNat) := if_pos h
    exact ⟨_, digitValue?_eq_some_iff.mp hvalue⟩
  · intro h
    obtain ⟨n, hn⟩ := h
    have hvalue := digitValue?_eq_some_iff.mpr hn
    unfold digitValue? at hvalue
    split at hvalue
    · assumption
    · simp at hvalue

/-- The clock pattern matches two digits, a colon and two digits. -/
theorem Pattern.clock_accepts_iff_digits {cs : List Char} : Pattern.clock.accepts cs = true ↔
    ∃ a b c d, cs = [a, b, ':', c, d] ∧ isAsciiDigit a = true ∧ isAsciiDigit b = true ∧
      isAsciiDigit c = true ∧ isAsciiDigit d = true := by
  constructor
  · intro h
    match cs, h with
    | [a, b, c, d, e], h =>
        simp only [accepts, Bool.and_eq_true, beq_iff_eq] at h
        obtain ⟨⟨⟨⟨ha, hb⟩, rfl⟩, hd⟩, he⟩ := h
        exact ⟨a, b, d, e, rfl, ha, hb, hd, he⟩
    | [], h | [_], h | [_, _], h | [_, _, _], h | [_, _, _, _], h => nomatch h
    | _ :: _ :: _ :: _ :: _ :: _ :: _, h => nomatch h
  · intro h
    obtain ⟨a, b, c, d, rfl, ha, hb, hc, hd⟩ := h
    simp [accepts, ha, hb, hc, hd]

/-- **The clock pattern matches two numbers of two digits each.** -/
theorem Pattern.clock_accepts_iff {cs : List Char} : Pattern.clock.accepts cs = true ↔
    ∃ h < 100, ∃ m < 100, cs = TimeOfDay.twoDigits h ++ ':' :: TimeOfDay.twoDigits m := by
  rw [clock_accepts_iff_digits]
  simp only [isAsciiDigit_iff]
  constructor
  · intro h
    obtain ⟨_, _, _, _, rfl, ⟨i, hi, rfl⟩, ⟨j, hj, rfl⟩, ⟨k, hk, rfl⟩, l, hl, rfl⟩ := h
    refine ⟨10 * i + j, by omega, 10 * k + l, by omega, ?_⟩
    rw [TimeOfDay.twoDigits_of_digits hj, TimeOfDay.twoDigits_of_digits hl]
    rfl
  · intro h
    obtain ⟨h, hh, m, hm, rfl⟩ := h
    exact ⟨_, _, _, _, rfl, ⟨_, by omega, rfl⟩, ⟨_, Nat.mod_lt _ (by omega), rfl⟩,
      ⟨_, by omega, rfl⟩, _, Nat.mod_lt _ (by omega), rfl⟩

/-! ### What keeps a name out of a lexicon -/

/-- **Patterns join if none is the empty name and their sources are new and different.** -/
theorem joiningFault?_eq_none_iff {taken : List (List Char)} {ps : List Pattern} :
    joiningFault? taken ps = none ↔ (∀ p ∈ ps, p ≠ .literal []) ∧ (∀ p ∈ ps, p.source ∉ taken) ∧
      (ps.map Pattern.source).Nodup := by
  induction ps generalizing taken with
  | nil => simp [joiningFault?]
  | cons p ps ih =>
      have hnew : (∀ q ∈ ps, q.source ∉ taken ++ [p.source]) ↔
          (∀ q ∈ ps, q.source ∉ taken) ∧ p.source ∉ ps.map Pattern.source := by
        simp only [List.mem_append, List.mem_singleton, not_or, forall_and, List.mem_map,
          not_exists, not_and]
      rw [joiningFault?, List.forall_mem_cons, List.forall_mem_cons, List.map_cons,
        List.nodup_cons]
      by_cases hp : p = .literal []
      · simp [hp]
      · by_cases htaken : p.source ∈ taken
        · simp [hp, htaken]
        · rw [if_neg hp, if_neg htaken, ih, hnew]
          simp only [hp, htaken, ne_eq, not_false_eq_true, true_and, and_assoc]

/-- A name is looked at again only if all patterns join. -/
theorem fault?_eq (names : Weekly String) : fault? names
    = (joiningFault? [] ((lexiconEntries names).map Prod.fst)).or (overlapFault? names) := by
  rw [fault?]
  cases joiningFault? [] ((lexiconEntries names).map Prod.fst) <;> rfl

namespace Lexicon

variable {L : Lexicon}

/-! ### The names of a lexicon -/

theorem mem_lexiconEntries_iff {names : Weekly String} {p : Pattern} {s : Symbol} :
    (p, s) ∈ lexiconEntries names ↔
      (∃ d, p = .literal (names.get d).toList ∧ s = .day d) ∨ (p, s) ∈ Pattern.shared := by
  unfold lexiconEntries Weekly.entries
  rw [List.map_map, List.mem_append, List.mem_map]
  refine or_congr_left ?_
  constructor
  · intro h
    obtain ⟨d, -, h⟩ := h
    obtain ⟨rfl, rfl⟩ := Prod.mk.inj h
    exact ⟨d, rfl, rfl⟩
  · intro h
    obtain ⟨d, rfl, rfl⟩ := h
    exact ⟨d, Weekday.mem_all d, rfl⟩

theorem mem_entries_iff {p : Pattern} {s : Symbol} : (p, s) ∈ L.entries ↔
    (∃ d, p = .literal (L.names.get d).toList ∧ s = .day d) ∨ (p, s) ∈ Pattern.shared :=
  mem_lexiconEntries_iff

theorem faults_eq_none (L : Lexicon) :
    joiningFault? [] ((lexiconEntries L.names).map Prod.fst) = none ∧
      overlapFault? L.names = none := by
  have h := L.faultless
  rwa [fault?_eq, Option.or_eq_none_iff] at h

/-- **No name is empty.** -/
theorem name_ne_nil (L : Lexicon) (d : Weekday) : (L.names.get d).toList ≠ [] := by
  intro h
  refine (joiningFault?_eq_none_iff.mp L.faults_eq_none.1).1 (.literal (L.names.get d).toList) ?_
    (congrArg Pattern.literal h)
  exact List.mem_map.mpr ⟨(_, .day d), mem_entries_iff.mpr (.inl ⟨d, rfl, rfl⟩), rfl⟩

/-- **No name is matched by the pattern of something else.** -/
theorem eq_day_of_accepts {p : Pattern} {s : Symbol} (hp : (p, s) ∈ L.entries) {d : Weekday}
    (h : p.accepts (L.names.get d).toList = true) : s = .day d := by
  have hnone := Option.map_eq_none_iff.mp L.faults_eq_none.2
  have hd : (d, L.names.get d) ∈ L.names.entries := List.mem_map.mpr ⟨d, Weekday.mem_all d, rfl⟩
  by_cases hs : s = .day d
  · exact hs
  · exfalso
    refine List.find?_eq_none.mp hnone _ hd (List.any_eq_true.mpr ⟨(p, s), hp, ?_⟩)
    simp [hs, h]

/-! ### Candidates of each symbol -/

/-- A candidate, taken whole, is a token of the symbol. -/
def Shows (L : Lexicon) : Symbol → List Char → Prop
  | .day d, cs => cs = (L.names.get d).toList
  | .time, cs => Pattern.clock.accepts cs = true
  | .rangeIndicator, cs => cs = ['-']
  | .whiteSpace, cs => ∃ c, cs = [c] ∧ isBlank c = true
  | .scheduleSeparator, cs => cs = [',']
  | _, _ => False

theorem blank_accepts_iff {cs : List Char} :
    Pattern.blank.accepts cs = true ↔ ∃ c, cs = [c] ∧ isBlank c = true := by
  match cs with
  | [c] => simp [Pattern.accepts]
  | [] | _ :: _ :: _ => simp [Pattern.accepts]

/-- A token of a symbol is a match of one of its patterns. -/
theorem shows_iff_exists_accepts {s : Symbol} {cs : List Char} :
    L.Shows s cs ↔ ∃ p, (p, s) ∈ L.entries ∧ p.accepts cs = true := by
  simp only [mem_entries_iff]
  constructor
  · intro h
    cases s with
    | day d => exact ⟨_, .inl ⟨d, rfl, rfl⟩, beq_iff_eq.mpr (Eq.symm h)⟩
    | time => exact ⟨.clock, .inr (by simp [Pattern.shared]), h⟩
    | rangeIndicator => exact ⟨.dash, .inr (by simp [Pattern.shared]), beq_iff_eq.mpr h⟩
    | whiteSpace => exact ⟨.blank, .inr (by simp [Pattern.shared]), blank_accepts_iff.mpr h⟩
    | scheduleSeparator => exact ⟨.comma, .inr (by simp [Pattern.shared]), beq_iff_eq.mpr h⟩
    | _ => exact h.elim
  · intro h
    obtain ⟨p, ⟨d, rfl, rfl⟩ | hp, h⟩ := h
    · exact (beq_iff_eq.mp h).symm
    · simp only [Pattern.shared, List.mem_cons, Prod.mk.injEq, List.not_mem_nil, or_false] at hp
      rcases hp with ⟨rfl, rfl⟩ | ⟨rfl, rfl⟩ | ⟨rfl, rfl⟩ | ⟨rfl, rfl⟩
      · exact beq_iff_eq.mp h
      · exact h
      · exact blank_accepts_iff.mp h
      · exact beq_iff_eq.mp h

/-- The symbol of a candidate that one of the shared patterns matches. -/
def sharedSymbol? (cs : List Char) : Option Symbol :=
  (Pattern.shared.find? fun (p, _) => p.accepts cs).map Prod.snd

/-- The shared patterns match different candidates. -/
theorem Shows.day_or_shared {s : Symbol} {cs : List Char} (h : L.Shows s cs) :
    (∃ d, s = .day d) ∨ sharedSymbol? cs = some s := by
  cases s with
  | day d => exact .inl ⟨d, rfl⟩
  | time =>
      have hclock : Pattern.clock.accepts cs = true := h
      have hdash : Pattern.dash.accepts cs = false := by
        obtain ⟨hour, -, minute, -, rfl⟩ := Pattern.clock_accepts_iff.mp h
        simp [Pattern.accepts, TimeOfDay.twoDigits]
      exact .inr (by simp [sharedSymbol?, Pattern.shared, hdash, hclock])
  | rangeIndicator =>
      obtain rfl : cs = ['-'] := h
      exact .inr rfl
  | whiteSpace =>
      obtain ⟨c, rfl, hc⟩ := h
      have hblank : Pattern.blank.accepts [c] = true := hc
      have hclock : Pattern.clock.accepts [c] = false := rfl
      have hdash : Pattern.dash.accepts [c] = false := by
        by_cases hd : c = '-'
        · subst hd
          exact absurd hc (by decide)
        · simp [Pattern.accepts, hd]
      exact .inr (by simp [sharedSymbol?, Pattern.shared, hdash, hclock, hblank])
  | scheduleSeparator =>
      obtain rfl : cs = [','] := h
      exact .inr rfl
  | _ => exact h.elim

/-- **No candidate is a token of two symbols.** -/
theorem Shows.unique {s s' : Symbol} {cs : List Char} (h : L.Shows s cs) (h' : L.Shows s' cs) :
    s = s' := by
  have hday : ∀ {d s}, L.Shows (.day d) cs → L.Shows s cs → s = .day d := by
    intro d s hd hs
    obtain rfl : cs = (L.names.get d).toList := hd
    obtain ⟨p, hp, haccepts⟩ := shows_iff_exists_accepts.mp hs
    exact eq_day_of_accepts hp haccepts
  rcases h.day_or_shared with ⟨d, rfl⟩ | hs
  · exact (hday h h').symm
  · rcases h'.day_or_shared with ⟨d, rfl⟩ | hs'
    · exact hday h' h
    · exact Option.some.inj (hs.symm.trans hs')

/-- **A candidate is classified as what it shows.** -/
theorem classify?_eq_some_iff {s : Symbol} {cs : List Char} :
    L.classify? cs = some s ↔ L.Shows s cs := by
  have hshows : ∀ {s}, L.classify? cs = some s → L.Shows s cs := by
    intro s h
    obtain ⟨⟨p, s'⟩, hfind, rfl⟩ := Option.map_eq_some_iff.mp h
    have haccepts := List.find?_some hfind
    exact shows_iff_exists_accepts.mpr ⟨p, List.mem_of_find?_eq_some hfind, haccepts⟩
  refine ⟨hshows, fun h => ?_⟩
  obtain ⟨p, hp, haccepts⟩ := shows_iff_exists_accepts.mp h
  cases hclass : L.classify? cs with
  | none =>
      have hnone := List.find?_eq_none.mp (Option.map_eq_none_iff.mp hclass) _ hp
      exact absurd haccepts hnone
  | some s' => rw [h.unique (hshows hclass)]

end Lexicon

end BusinessHours

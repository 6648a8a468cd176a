/-
What patterns stand for.

A pattern is told apart from the others by its source, and it accepts what the source matches
when it is read as a regular expression.  The source of a name is the escaped name, so a name is
matched by its own text alone, whatever characters it has.  And no escaped text is written as the
dash, the time or the blank is; only the comma is its own escape.
-/
import BusinessHours.Proofs.Hours.Lexicon
import BusinessHours.Text.Expression

namespace BusinessHours

/-! ### Sources as regular expressions -/

theorem Pattern.clock_source : clock.source = ['[', '0', '-', '9', ']', '[', '0', '-', '9', ']',
    ':', '[', '0', '-', '9', ']', '[', '0', '-', '9', ']'] := by
  decide +kernel

/-- **A pattern accepts what its source matches.** -/
theorem Pattern.accepts_iff_matches (p : Pattern) (cs : List Char) :
    p.accepts cs = true ↔ Matches p.source cs := by
  have hsign : ∀ c, c ∉ operatorCharacters → (Matches [c] cs ↔ cs = [c]) := by
    intro c hc
    simp only [matches_plain_iff hc, matches_nil_iff, exists_eq_right]
  cases p with
  | literal chars =>
      show (chars == cs) = true ↔ Matches (escape chars) cs
      rw [matches_escape_iff, beq_iff_eq, eq_comm]
  | dash =>
      show (cs == ['-']) = true ↔ Matches ['-'] cs
      rw [hsign '-' (by decide), beq_iff_eq]
  | clock =>
      rw [clock_accepts_iff_digits, clock_source]
      simp only [matches_range_iff, matches_plain_iff (c := ':') (by decide), matches_nil_iff,
        isAsciiDigit, Bool.and_eq_true, decide_eq_true_iff]
      constructor
      · rintro ⟨a, b, c, d, rfl, ha, hb, hc, hd⟩
        exact ⟨a, _, rfl, ha, b, _, rfl, hb, _, rfl, c, _, rfl, hc, d, _, rfl, hd, rfl⟩
      · rintro ⟨a, _, rfl, ha, b, _, rfl, hb, _, rfl, c, _, rfl, hc, d, _, rfl, hd, rfl⟩
        exact ⟨a, b, c, d, rfl, ha, hb, hc, hd⟩
  | blank =>
      show blank.accepts cs = true ↔ Matches ['\\', 's'] cs
      rw [Lexicon.blank_accepts_iff, matches_blank_iff]
      simp only [matches_nil_iff]
      constructor
      · rintro ⟨c, rfl, hc⟩
        exact ⟨c, [], rfl, hc, rfl⟩
      · rintro ⟨c, _, rfl, hc, rfl⟩
        exact ⟨c, rfl, hc⟩
  | comma =>
      show (cs == [',']) = true ↔ Matches [','] cs
      rw [hsign ',' (by decide), beq_iff_eq]

/-! ### Tokens of every language -/

/-- A text that is a token in every language. -/
inductive Reserved : List Char → Prop
  | dash : Reserved ['-']
  | comma : Reserved [',']
  | blank {c : Char} (hc : isBlank c = true) : Reserved [c]
  | clock {a b c d : Char} (ha : isAsciiDigit a = true) (hb : isAsciiDigit b = true)
      (hc : isAsciiDigit c = true) (hd : isAsciiDigit d = true) : Reserved [a, b, ':', c, d]

/-- **Reserved is what a pattern of every language accepts.** -/
theorem reserved_iff_exists_shared {cs : List Char} :
    Reserved cs ↔ ∃ q ∈ Pattern.shared, q.1.accepts cs = true := by
  simp only [Pattern.shared, List.mem_cons, List.not_mem_nil, or_false, exists_eq_or_imp,
    exists_eq_left, Pattern.clock_accepts_iff_digits, Lexicon.blank_accepts_iff]
  constructor
  · intro h
    cases h with
    | dash => exact .inl rfl
    | comma => exact .inr (.inr (.inr rfl))
    | blank hc => exact .inr (.inr (.inl ⟨_, rfl, hc⟩))
    | clock ha hb hc hd => exact .inr (.inl ⟨_, _, _, _, rfl, ha, hb, hc, hd⟩)
  · intro h
    rcases h with h | ⟨a, b, c, d, rfl, ha, hb, hc, hd⟩ | ⟨c, rfl, hc⟩ | h
    · obtain rfl : cs = ['-'] := beq_iff_eq.mp h
      exact .dash
    · exact .clock ha hb hc hd
    · exact .blank hc
    · obtain rfl : cs = [','] := beq_iff_eq.mp h
      exact .comma

/-! ### Sources that are no names -/

/-- The patterns of every language that no escaped text is written as. -/
def unescapedPatterns : List Pattern := [.dash, .clock, .blank]

/-- An escaped text begins with a character that means itself, or a backslash before another. -/
theorem escape_eq_cons {cs expr : List Char} {c : Char} (h : escape cs = c :: expr) :
    c ∉ metaCharacters ∨ c = '\\' ∧ ∃ d ∈ metaCharacters, expr.head? = some d := by
  cases cs with
  | nil => simp at h
  | cons d cs =>
      rw [escape_cons] at h
      by_cases hd : d ∈ metaCharacters
      · rw [if_pos hd] at h
        obtain ⟨rfl, rfl⟩ := List.cons.inj h
        exact .inr ⟨rfl, d, hd, rfl⟩
      · rw [if_neg hd] at h
        obtain ⟨rfl, -⟩ := List.cons.inj h
        exact .inl hd

theorem escape_ne_source {p : Pattern} (hp : p ∈ unescapedPatterns) (cs : List Char) :
    escape cs ≠ p.source := by
  intro h
  simp only [unescapedPatterns, List.mem_cons, List.not_mem_nil, or_false] at hp
  rcases hp with rfl | rfl | rfl
  · rcases escape_eq_cons h with hc | ⟨hc, -⟩
    · exact hc (by decide)
    · exact absurd hc (by decide)
  · rw [Pattern.clock_source] at h
    rcases escape_eq_cons h with hc | ⟨hc, -⟩
    · exact hc (by decide)
    · exact absurd hc (by decide)
  · rcases escape_eq_cons h with hc | ⟨-, d, hd, hhead⟩
    · exact hc (by decide)
    · obtain rfl : 's' = d := Option.some.inj hhead
      exact absurd hd (by decide)

end BusinessHours

/-
Regular expressions.

Of all that regular expressions can say, little is needed here: characters that stand for
themselves, characters that do so behind a backslash, ranges of characters between brackets, and
the class of the blanks.  Each of these matches one character, and they stand one behind the
other.  An expression is always asked about a whole text.
-/
import BusinessHours.Text.Blank
import BusinessHours.Text.Escape

namespace BusinessHours

/-- The characters that never stand for themselves where a part of an expression begins. -/
def operatorCharacters : List Char :=
  ['\\', '.', '+', '*', '?', '(', ')', '|', '[', ']', '{', '}', '^', '$']

/-- A regular expression matches a whole text. -/
inductive Matches : List Char → List Char → Prop
  | nil : Matches [] []
  | plain {c : Char} {expr cs : List Char} (hc : c ∉ operatorCharacters) (hr : Matches expr cs) :
      Matches (c :: expr) (c :: cs)
  | escaped {c : Char} {expr cs : List Char} (hc : c ∈ metaCharacters) (hr : Matches expr cs) :
      Matches ('\\' :: c :: expr) (c :: cs)
  | blank {c : Char} {expr cs : List Char} (hc : isBlank c = true) (hr : Matches expr cs) :
      Matches ('\\' :: 's' :: expr) (c :: cs)
  | range {first last c : Char} {expr cs : List Char} (hc : first ≤ c ∧ c ≤ last)
      (hr : Matches expr cs) : Matches ('[' :: first :: '-' :: last :: ']' :: expr) (c :: cs)

theorem matches_nil_iff {cs : List Char} : Matches [] cs ↔ cs = [] := by
  constructor
  · intro h
    cases h
    rfl
  · rintro rfl
    exact .nil

theorem matches_plain_iff {c : Char} (hc : c ∉ operatorCharacters) {expr cs : List Char} :
    Matches (c :: expr) cs ↔ ∃ rest, cs = c :: rest ∧ Matches expr rest := by
  constructor
  · intro h
    cases h with
    | plain _ hr => exact ⟨_, rfl, hr⟩
    | escaped | blank | range => exact absurd (by decide) hc
  · rintro ⟨rest, rfl, h⟩
    exact .plain hc h

theorem matches_escaped_iff {c : Char} (hc : c ∈ metaCharacters) {expr cs : List Char} :
    Matches ('\\' :: c :: expr) cs ↔ ∃ rest, cs = c :: rest ∧ Matches expr rest := by
  constructor
  · intro h
    cases h with
    | plain hp => exact absurd (by decide) hp
    | escaped _ hr => exact ⟨_, rfl, hr⟩
    | blank => exact absurd hc (by decide)
  · rintro ⟨rest, rfl, h⟩
    exact .escaped hc h

theorem matches_blank_iff {expr cs : List Char} :
    Matches ('\\' :: 's' :: expr) cs ↔
      ∃ c rest, cs = c :: rest ∧ isBlank c = true ∧ Matches expr rest := by
  constructor
  · intro h
    cases h with
    | plain hp => exact absurd (by decide) hp
    | escaped hc => exact absurd hc (by decide)
    | blank hc hr => exact ⟨_, _, rfl, hc, hr⟩
  · rintro ⟨c, rest, rfl, hc, h⟩
    exact .blank hc h

theorem matches_range_iff {first last : Char} {expr cs : List Char} :
    Matches ('[' :: first :: '-' :: last :: ']' :: expr) cs ↔
      ∃ c rest, cs = c :: rest ∧ (first ≤ c ∧ c ≤ last) ∧ Matches expr rest := by
  constructor
  · intro h
    cases h with
    | plain hp => exact absurd (by decide) hp
    | range hc hr => exact ⟨_, _, rfl, hc, hr⟩
  · rintro ⟨c, rest, rfl, hc, h⟩
    exact .range hc h

/-- **An escaped text matches itself and nothing else.** -/
theorem matches_escape_iff {cs ds : List Char} : Matches (escape cs) ds ↔ ds = cs := by
  have hplain : ∀ c, c ∉ metaCharacters → c ∉ operatorCharacters := by
    intro c hc hop
    have hall : operatorCharacters.all (fun d => d ∈ metaCharacters) = true := rfl
    exact hc (of_decide_eq_true (List.all_eq_true.mp hall c hop))
  induction cs generalizing ds with
  | nil => exact matches_nil_iff
  | cons c cs ih =>
      rw [escape_cons]
      by_cases hc : c ∈ metaCharacters
      · rw [if_pos hc]
        simp only [List.cons_append, List.nil_append, matches_escaped_iff hc, ih, exists_eq_right]
      · rw [if_neg hc]
        simp only [List.cons_append, List.nil_append, matches_plain_iff (hplain c hc), ih,
          exists_eq_right]

end BusinessHours

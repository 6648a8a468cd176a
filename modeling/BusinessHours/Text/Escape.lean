/-
Escaped text.

Inside a regular expression some characters have a meaning of their own.  A backslash in
front of such a character takes the meaning away, so the escaped form of a text is a
regular expression that matches the text and nothing else.

Escaping loses nothing: two texts with the same escaped form are equal.
-/
namespace BusinessHours

/-- The characters that can have a meaning of their own in a regular expression. -/
def metaCharacters : List Char :=
  ['\\', '.', '+', '*', '?', '(', ')', '|', '[', ']', '{', '}', '^', '$', '#', '&', '-', '~']

/-- The text with a backslash in front of every character that could have another meaning. -/
def escape (cs : List Char) : List Char :=
  cs.flatMap fun c => if c ∈ metaCharacters then ['\\', c] else [c]

@[simp] theorem escape_nil : escape [] = [] := rfl

theorem escape_cons (c : Char) (cs : List Char) :
    escape (c :: cs) = (if c ∈ metaCharacters then ['\\', c] else [c]) ++ escape cs :=
  List.flatMap_cons

/-- Texts with the same escaped form are equal. -/
theorem escape_injective {cs ds : List Char} (h : escape cs = escape ds) : cs = ds := by
  have hb : '\\' ∈ metaCharacters := by decide
  induction cs generalizing ds with
  | nil =>
    cases ds with
    | nil => rfl
    | cons d ds => rw [escape_cons] at h; split at h <;> simp at h
  | cons c cs ih =>
    cases ds with
    | nil => rw [escape_cons] at h; split at h <;> simp at h
    | cons d ds =>
      rw [escape_cons, escape_cons] at h
      split at h <;> split at h <;> simp at h
      · rw [h.1, ih h.2]
      · rename_i hd; exact absurd (h.1 ▸ hb) hd
      · rename_i hc _; exact absurd (h.1.symm ▸ hb) hc
      · rw [h.1, ih h.2]

end BusinessHours

/-
Times are read back as they are shown.

A clock shows two digits for the hour and two for the minute, and a time is read from one or
two.  On texts of the shape that a clock shows the two agree: what a time shows is read as
that time, and a text of four digits that is read as a time is what that time shows.  The
seconds are not shown, so only times on a full minute come back.
-/
import BusinessHours.Calendar.ClockText

namespace BusinessHours

/-! ### Digits -/

theorem digitValue?_eq_some_iff {c : Char} {n : Nat} :
    digitValue? c = some n ↔ n < 10 ∧ c = Nat.digitChar n := by
  unfold digitValue?
  constructor
  · intro h
    split at h
    · rename_i hc
      change 48 ≤ c.toNat ∧ c.toNat ≤ 57 at hc
      obtain rfl : c.toNat - 48 = n := Option.some.inj h
      have hn : c.toNat - 48 < 10 := by omega
      refine ⟨hn, Char.toNat_inj.mp ?_⟩
      rw [Nat.toNat_digitChar_of_lt_ten hn]
      omega
    · simp at h
  · intro h
    obtain ⟨hn, rfl⟩ := h
    have hc := Nat.toNat_digitChar_of_lt_ten hn
    have hdigit : '0' ≤ Nat.digitChar n ∧ Nat.digitChar n ≤ '9' := by
      show 48 ≤ (Nat.digitChar n).toNat ∧ (Nat.digitChar n).toNat ≤ 57
      omega
    rw [if_pos hdigit, hc]
    exact congrArg some (Nat.add_sub_cancel_left 48 n)

theorem isBlank_digitChar {n : Nat} (h : n < 10) : isBlank (Nat.digitChar n) = false := by
  have hall : ∀ m : Fin 10, isBlank (Nat.digitChar m) = false := by decide
  exact hall ⟨n, h⟩

namespace TimeOfDay

theorem twoDigits_of_digits {i j : Nat} (hj : j < 10) :
    twoDigits (10 * i + j) = [Nat.digitChar i, Nat.digitChar j] := by
  unfold twoDigits
  rw [show (10 * i + j) / 10 = i by omega, show (10 * i + j) % 10 = j by omega]

/-- Two digits are read as the number that has them. -/
theorem readClockNumber?_twoDigits {n : Nat} (h : n < 100) (rest : List Char) :
    readClockNumber? (twoDigits n ++ rest) = some (n, rest) := by
  have htens : n / 10 < 10 := by omega
  have hones : n % 10 < 10 := Nat.mod_lt n (by omega)
  have hleft : digitValue? (Nat.digitChar (n / 10)) = some (n / 10) :=
    digitValue?_eq_some_iff.mpr ⟨htens, rfl⟩
  have hright : digitValue? (Nat.digitChar (n % 10)) = some (n % 10) :=
    digitValue?_eq_some_iff.mpr ⟨hones, rfl⟩
  unfold readClockNumber? twoDigits
  rw [List.cons_append, List.dropWhile_cons, if_neg (by simp [isBlank_digitChar htens])]
  simp only [readTwoDigits?, List.cons_append, List.nil_append, hleft, hright]
  rw [show 10 * (n / 10) + n % 10 = n by omega]

/-- A text of four digits shows a time if a clock has it. -/
theorem ofChars?_digits {h m : Nat} (hh : h < 100) (hm : m < 100) :
    ofChars? (twoDigits h ++ ':' :: twoDigits m) = ofParts? h m 0 := by
  have hminute := readClockNumber?_twoDigits hm []
  rw [List.append_nil] at hminute
  simp only [ofChars?, readClockNumber?_twoDigits hh, hminute]

/-- **What a time shows is read as that time.** -/
theorem ofText?_clockText {t : TimeOfDay} (h : t.second = 0) :
    ofText? t.clockText = some t := by
  obtain ⟨hour, minute, second⟩ := t
  obtain rfl : second = 0 := h
  have hhour := hour.isLt
  have hminute := minute.isLt
  rw [ofText?, clockText, String.toList_ofList, ofChars?_digits (by omega) (by omega), ofParts?,
    dif_pos ⟨hhour, hminute, by omega⟩]
  rfl

/-- **A text of four digits is what the time it shows shows.** -/
theorem clockText_of_ofChars? {h m : Nat} (hh : h < 100) (hm : m < 100) {t : TimeOfDay}
    (ht : ofChars? (twoDigits h ++ ':' :: twoDigits m) = some t) :
    t.second = 0 ∧ t.clockText.toList = twoDigits h ++ ':' :: twoDigits m := by
  rw [ofChars?_digits hh hm, ofParts?] at ht
  split at ht
  · obtain rfl := Option.some.inj ht
    exact ⟨rfl, String.toList_ofList⟩
  · simp at ht

end TimeOfDay

end BusinessHours

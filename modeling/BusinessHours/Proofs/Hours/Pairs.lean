/-
Pairs of times.

What tokens say can be told by counting.  The time tokens of a list belong together in pairs, and
each weekday belongs to the pair that is completed next behind it.  A pair covers the days from
the first to the last weekday that belongs to it, whatever else stands between them, and a day
has the hours of the last pair that covers it.

With one more token the numbers change in one place only.  What a complete pair gives to a day is
settled; a weekday is added to the pair behind all those that are complete; and the second time of
a pair adds what this pair gives to each day.
-/
import BusinessHours.Proofs.Hours.Clauses
import Mathlib.Data.List.Basic

namespace BusinessHours

/-! ### Counting times -/

/-- How many time tokens there are. -/
def timeCount (ts : List (Token Symbol)) : Nat := (timesOf ts).length

theorem timeCount_append (ts us : List (Token Symbol)) :
    timeCount (ts ++ us) = timeCount ts + timeCount us := by
  rw [timeCount, timesOf_append, List.length_append]
  rfl

theorem timesOf_singleton_of_time {t : Token Symbol} (h : t.symbol = .time) :
    timesOf [t] = [t.shownTime?] := timesOf_cons_of_time h []

theorem timesOf_singleton_of_ne {t : Token Symbol} (h : t.symbol ≠ .time) : timesOf [t] = [] :=
  timesOf_cons_of_ne h []

theorem timeCount_singleton_of_time {t : Token Symbol} (h : t.symbol = .time) :
    timeCount [t] = 1 := by
  rw [timeCount, timesOf_singleton_of_time h]
  rfl

theorem timeCount_singleton_of_ne {t : Token Symbol} (h : t.symbol ≠ .time) :
    timeCount [t] = 0 := by
  rw [timeCount, timesOf_singleton_of_ne h]
  rfl

/-! ### What belongs to a pair -/

/-- The weekdays of tokens behind `n` times, each with how many pairs are complete before it. -/
def pairedDays (n : Nat) : List (Token Symbol) → List (Nat × Weekday)
  | [] => []
  | t :: ts =>
    (t.symbol.weekday?.toList.map fun d => (n / 2, d)) ++ pairedDays (n + timeCount [t]) ts

/-- The weekdays that belong to pair `k`: those between the pair before it and its second time. -/
def daysOfPair (ts : List (Token Symbol)) (k : Nat) : List Weekday :=
  ((pairedDays 0 ts).filter fun p => p.1 = k).map Prod.snd

/-- The first and the last of some weekdays. -/
def ends : List Weekday → Option (Weekday × Weekday)
  | [] => none
  | d :: ds => some (d, ds.getLast?.getD d)

/-- The hours that pair `k` gives to a day, if it covers it. -/
def pairHours? (ts : List (Token Symbol)) (d : Weekday) (k : Nat) : Option DayHours := do
  let (first, last) ← ends (daysOfPair ts k)
  let opening ← (timesOf ts)[2 * k]?.join
  let closing ← (timesOf ts)[2 * k + 1]?.join
  if first.isWithin last d then some (.between opening closing) else none

/-- The hours of a day: those that the last pair that covers it gives it. -/
def hoursOn (ts : List (Token Symbol)) (d : Weekday) : DayHours :=
  ((List.range (timeCount ts / 2)).filterMap (pairHours? ts d)).getLast?.getD .closed

/-! ### One more token -/

theorem pairedDays_append (n : Nat) (ts us : List (Token Symbol)) :
    pairedDays n (ts ++ us) = pairedDays n ts ++ pairedDays (n + timeCount ts) us := by
  induction ts generalizing n with
  | nil => rfl
  | cons t ts ih =>
      have hcount : timeCount (t :: ts) = timeCount [t] + timeCount ts := timeCount_append [t] ts
      rw [List.cons_append, pairedDays, pairedDays, ih, hcount, Nat.add_assoc, List.append_assoc]

/-- **A further weekday belongs to the pair behind all those that are complete.** -/
theorem daysOfPair_concat (ts : List (Token Symbol)) (t : Token Symbol) (k : Nat) :
    daysOfPair (ts ++ [t]) k
      = daysOfPair ts k ++ if timeCount ts / 2 = k then t.symbol.weekday?.toList else [] := by
  unfold daysOfPair
  rw [pairedDays_append, List.filter_append, List.map_append, Nat.zero_add, pairedDays, pairedDays,
    List.append_nil, List.filter_map, List.map_map]
  congr 1
  by_cases hk : timeCount ts / 2 = k
  · rw [if_pos hk]
    simp [Function.comp_def, hk]
  · rw [if_neg hk]
    simp [Function.comp_def, hk]

theorem le_of_mem_pairedDays {n : Nat} {ts : List (Token Symbol)} {p : Nat × Weekday}
    (h : p ∈ pairedDays n ts) : p.1 ≤ (n + timeCount ts) / 2 := by
  induction ts generalizing n with
  | nil => simp [pairedDays] at h
  | cons t ts ih =>
      have hcount : timeCount (t :: ts) = timeCount [t] + timeCount ts := timeCount_append [t] ts
      rw [pairedDays, List.mem_append] at h
      rcases h with h | h
      · obtain ⟨d, -, rfl⟩ := List.mem_map.mp h
        show n / 2 ≤ _
        omega
      · have hle := ih h
        rwa [hcount, ← Nat.add_assoc]

/-- No weekday belongs to a pair in front of which another one is not complete. -/
theorem daysOfPair_eq_nil {ts : List (Token Symbol)} {k : Nat} (h : timeCount ts / 2 < k) :
    daysOfPair ts k = [] := by
  unfold daysOfPair
  rw [List.map_eq_nil_iff, List.filter_eq_nil_iff]
  intro p hp hk
  have hle := le_of_mem_pairedDays hp
  rw [Nat.zero_add] at hle
  have hpk : p.1 = k := by simpa using hk
  omega

theorem ends_concat (ds : List Weekday) (d : Weekday) :
    ends (ds ++ [d]) = some (((ends ds).map Prod.fst).getD d, d) := by
  cases ds with
  | nil => rfl
  | cons e ds => simp [ends]

theorem ends_eq_none_iff {ds : List Weekday} : ends ds = none ↔ ds = [] := by
  cases ds <;> simp [ends]

/-- **What a pair gives to a day is settled when the pair is complete.** -/
theorem pairHours?_concat {ts : List (Token Symbol)} {k : Nat} (hk : k < timeCount ts / 2)
    (t : Token Symbol) (d : Weekday) : pairHours? (ts ++ [t]) d k = pairHours? ts d k := by
  have hlen : 2 * k + 1 < (timesOf ts).length := by
    have hcount : timeCount ts = (timesOf ts).length := rfl
    omega
  unfold pairHours?
  rw [daysOfPair_concat, if_neg (by omega), List.append_nil, timesOf_append,
    List.getElem?_append_left (by omega), List.getElem?_append_left hlen]

theorem filterMap_pairHours?_concat (ts : List (Token Symbol)) (t : Token Symbol) (d : Weekday) :
    (List.range (timeCount ts / 2)).filterMap (pairHours? (ts ++ [t]) d)
      = (List.range (timeCount ts / 2)).filterMap (pairHours? ts d) :=
  List.filterMap_congr fun _ hk => pairHours?_concat (List.mem_range.mp hk) t d

/-- A token that completes no pair changes the hours of no day. -/
theorem hoursOn_concat_of_eq {ts : List (Token Symbol)} {t : Token Symbol}
    (h : timeCount (ts ++ [t]) / 2 = timeCount ts / 2) (d : Weekday) :
    hoursOn (ts ++ [t]) d = hoursOn ts d := by
  rw [hoursOn, h, filterMap_pairHours?_concat, hoursOn]

/-- **A token that completes a pair gives the days of that pair its hours.** -/
theorem hoursOn_concat_of_succ {ts : List (Token Symbol)} {t : Token Symbol}
    (h : timeCount (ts ++ [t]) / 2 = timeCount ts / 2 + 1) (d : Weekday) :
    hoursOn (ts ++ [t]) d
      = (pairHours? (ts ++ [t]) d (timeCount ts / 2)).getD (hoursOn ts d) := by
  rw [hoursOn, h, List.range_succ, List.filterMap_append, filterMap_pairHours?_concat, hoursOn]
  cases hhours : pairHours? (ts ++ [t]) d (timeCount ts / 2) with
  | none => simp [hhours]
  | some hours => simp [hhours]

/-- The hours of a pair that the last token completes. -/
theorem pairHours?_of_completed {ts : List (Token Symbol)} {t : Token Symbol}
    (ht : t.symbol = .time) {opening closing : TimeOfDay} (hsecond : timeCount ts % 2 = 1)
    (hopening : (timesOf ts).getLast? = some (some opening))
    (hclosing : t.shownTime? = some closing) {first last : Weekday}
    (hdays : ends (daysOfPair ts (timeCount ts / 2)) = some (first, last)) (d : Weekday) :
    pairHours? (ts ++ [t]) d (timeCount ts / 2)
      = if first.isWithin last d then some (.between opening closing) else none := by
  have hcount : timeCount ts = (timesOf ts).length := rfl
  have hfirst : (timesOf ts)[2 * (timeCount ts / 2)]? = some (some opening) := by
    rw [List.getLast?_eq_getElem?] at hopening
    rwa [show 2 * (timeCount ts / 2) = (timesOf ts).length - 1 by omega]
  have hday : t.symbol.weekday? = none := by
    rw [ht]
    rfl
  unfold pairHours?
  rw [daysOfPair_concat, hday, Option.toList_none, ite_self, List.append_nil, hdays, timesOf_append,
    timesOf_singleton_of_time ht, List.getElem?_append_left (by omega), hfirst,
    show 2 * (timeCount ts / 2) + 1 = (timesOf ts).length by omega, List.getElem?_concat_length,
    hclosing]
  rfl

end BusinessHours

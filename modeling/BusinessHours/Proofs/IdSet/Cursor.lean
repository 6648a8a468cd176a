/-
What a walk through a set shows.

A cursor has a place among the numbers, and the members from there on are the ones it still has to
show.  `remaining` lists them, and one step of the walk is one step along that list: `next` answers
with its head and leaves its tail.  The step is by cases of what `next` looks at.  If the word has
an unseen bit, the lowest of them is the least member from the place on.  If it has none, moving to
the next word passes no member.  If there is no such word, there is no member left.

From this a whole walk, for any number of questions, is the list of all members from the first to
the last, and nothing after that.
-/
import BusinessHours.IdSet.Cursor
import BusinessHours.IdSet.Lemmas
import Mathlib.Data.List.Sort

namespace BusinessHours

namespace IdSet

variable {size : Nat} {s : IdSet size} {c d : Cursor}

/-- The number a cursor stands in front of. -/
def Cursor.place (c : Cursor) : Nat := 64 * c.index + c.bit

/-- The members a walk has not come by, in ascending order. -/
def remaining (s : IdSet size) (c : Cursor) : List Nat :=
  s.toList.filter fun i => c.place ≤ i

theorem mem_remaining {i : Nat} : i ∈ s.remaining c ↔ i ∈ s ∧ c.place ≤ i := by
  simp [remaining]

theorem remaining_ascending (s : IdSet size) (c : Cursor) :
    (s.remaining c).Pairwise (· < ·) := s.toList_ascending.filter _

theorem remaining_start (s : IdSet size) : s.remaining .start = s.toList := by
  simp [remaining, Cursor.place, Cursor.start]

/-! ### From one cursor to the next -/

/-- A least member from the place on is the first that remains. -/
theorem remaining_eq_cons {i : Nat} (hi : i ∈ s) (hplace : c.place ≤ i) (hd : d.place = i + 1)
    (hleast : ∀ j ∈ s, c.place ≤ j → i ≤ j) : s.remaining c = i :: s.remaining d := by
  have hascending : (i :: s.remaining d).Pairwise (· < ·) := by
    refine List.pairwise_cons.mpr ⟨fun j hj => ?_, remaining_ascending s d⟩
    have := (mem_remaining.mp hj).2
    omega
  refine List.Pairwise.eq_of_mem_iff (remaining_ascending s c) hascending fun j => ?_
  rw [List.mem_cons, mem_remaining, mem_remaining, hd]
  constructor
  · intro h
    obtain ⟨hj, hcj⟩ := h
    have := hleast j hj hcj
    by_cases hji : j = i
    · exact .inl hji
    · exact .inr ⟨hj, by omega⟩
  · rintro (rfl | ⟨hj, hij⟩)
    · exact ⟨hi, hplace⟩
    · exact ⟨hj, by omega⟩

/-- Where no member is passed, the same ones remain. -/
theorem remaining_eq_remaining (hcd : c.place ≤ d.place)
    (hnone : ∀ j ∈ s, c.place ≤ j → d.place ≤ j) : s.remaining c = s.remaining d := by
  refine List.filter_congr fun j hj => ?_
  rw [decide_eq_decide]
  exact ⟨hnone j (mem_toList.mp hj), Nat.le_trans hcd⟩

/-- The unseen bits of a word are the members in it from the place on. -/
theorem hasBit_unseen (hbit : c.bit < 64) {i : Nat} (hi : i / 64 = c.index) :
    Word.hasBit (s.unseen c) i = true ↔ i ∈ s ∧ c.place ≤ i := by
  have hplace : c.bit ≤ i % 64 ↔ c.place ≤ i := by
    unfold Cursor.place
    omega
  rw [unseen, Word.hasBit_and_not_below _ hbit, Bool.and_eq_true, decide_eq_true_iff, hplace,
    mem_def, hi]

/-- The lowest unseen bit is the next member. -/
theorem remaining_of_found (hbit : c.bit < 64) (hfound : Word.trailingZeros (s.unseen c) < 64) :
    s.remaining c = (64 * c.index + Word.trailingZeros (s.unseen c)) ::
      s.remaining ⟨c.index, Word.trailingZeros (s.unseen c) + 1⟩ := by
  have hset := Word.hasBit_trailingZeros hfound
  have hunset := fun i => Word.hasBit_of_lt_trailingZeros (w := s.unseen c) (i := i)
  generalize Word.trailingZeros (s.unseen c) = found at hfound hset hunset ⊢
  have hindex : (64 * c.index + found) / 64 = c.index := by omega
  have hset' : Word.hasBit (s.unseen c) (64 * c.index + found) = true := by
    rwa [Word.hasBit_eq_getLsbD, Nat.mul_add_mod, ← Word.hasBit_eq_getLsbD]
  obtain ⟨hmem, hplace⟩ := (hasBit_unseen hbit hindex).mp hset'
  refine remaining_eq_cons hmem hplace rfl fun j hj hcj => ?_
  apply Nat.le_of_not_lt
  intro hlt
  have hjindex : j / 64 = c.index := by
    unfold Cursor.place at hcj
    omega
  have hclear := hunset j (by omega)
  rw [(hasBit_unseen hbit hjindex).mpr ⟨hj, hcj⟩] at hclear
  exact Bool.noConfusion hclear

/-- If no bit is unseen, the next word has all that remains. -/
theorem remaining_of_not_found (hbit : c.bit ≤ 64)
    (hfound : ¬ (c.bit < 64 ∧ Word.trailingZeros (s.unseen c) < 64)) :
    s.remaining c = s.remaining ⟨c.index + 1, 0⟩ := by
  have hnext : (Cursor.mk (c.index + 1) 0).place = 64 * c.index + 64 := Nat.mul_succ 64 c.index
  refine remaining_eq_remaining ?_ fun j hj hcj => ?_
  · rw [hnext, Cursor.place]
    omega
  · apply Nat.le_of_not_lt
    intro hlt
    rw [hnext] at hlt
    have hbit' : c.bit < 64 := by
      unfold Cursor.place at hcj
      omega
    have hjindex : j / 64 = c.index := by
      unfold Cursor.place at hcj
      omega
    have hzero : s.unseen c = 0 := by
      apply Decidable.byContradiction
      intro hne
      exact hfound ⟨hbit', Word.trailingZeros_lt_iff.mpr hne⟩
    have hset := (hasBit_unseen hbit' hjindex).mpr ⟨hj, hcj⟩
    rw [hzero, Word.hasBit_zero] at hset
    exact Bool.noConfusion hset

/-- Behind the last word nothing remains. -/
theorem remaining_eq_nil (hindex : wordCount size ≤ c.index) : s.remaining c = [] := by
  refine List.eq_nil_iff_forall_not_mem.mpr fun j hj => ?_
  obtain ⟨hmem, hplace⟩ := mem_remaining.mp hj
  have := div_lt_of_mem hmem
  unfold Cursor.place at hplace
  omega

/-! ### The walk -/

/-- **One step of a walk is one step along what remains.** -/
theorem next_spec (s : IdSet size) (c : Cursor) (hbit : c.bit ≤ 64) :
    (s.next c).1 = (s.remaining c).head? ∧ s.remaining (s.next c).2 = (s.remaining c).tail ∧
      (s.next c).2.bit ≤ 64 := by
  fun_induction next s c with
  | case1 c hindex found hfound =>
      obtain ⟨hbit', hfound'⟩ := hfound
      rw [remaining_of_found hbit' hfound']
      exact ⟨rfl, rfl, hfound'⟩
  | case2 c hindex found hfound ih =>
      rw [remaining_of_not_found hbit hfound]
      exact ih (Nat.zero_le 64)
  | case3 c hindex =>
      have hnil := remaining_eq_nil (s := s) (Nat.not_lt.mp hindex)
      refine ⟨?_, ?_, hbit⟩
      · rw [hnil]
        rfl
      · rw [hnil]
        rfl

/-- **A walk shows what remains, in ascending order, and then nothing any more.** -/
theorem walk_eq (s : IdSet size) (n : Nat) {c : Cursor} (hbit : c.bit ≤ 64) :
    s.walk n c = (List.range n).map fun k => (s.remaining c)[k]? := by
  induction n generalizing c with
  | zero => rfl
  | succ n ih =>
      obtain ⟨hhead, htail, hbit'⟩ := s.next_spec c hbit
      rw [walk, hhead, ih hbit', htail, List.range_succ_eq_map, List.map_cons, List.map_map]
      simp [List.head?_eq_getElem?, Function.comp_def]

/-- A walk from the start shows the members. -/
theorem walk_start (s : IdSet size) (n : Nat) :
    s.walk n .start = (List.range n).map fun k => s.toList[k]? := by
  rw [walk_eq s n (Nat.zero_le 64), remaining_start]

end IdSet

end BusinessHours

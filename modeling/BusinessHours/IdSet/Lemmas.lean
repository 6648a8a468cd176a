/-
Sets of numbers through their members.

Each operation on a set is said here in terms of membership: what `insert`, `erase` and
`union` make members, that `toList` shows the members and nothing else, and that two sets
with the same members are equal.  With these at hand the words need not be looked at again.
-/
import BusinessHours.IdSet.Basic

namespace BusinessHours

namespace IdSet

variable {size : Nat}

theorem mem_def {s : IdSet size} {i : Nat} : i ∈ s ↔ Word.hasBit (s.word (i / 64)) i = true :=
  Iff.rfl

/-- A number below the bound has a word. -/
theorem div_lt_wordCount {i : Nat} (h : i < size) : i / 64 < wordCount size := by
  unfold wordCount; omega

theorem word_eq_getElem (s : IdSet size) {k : Nat} (h : k < wordCount size) :
    s.word k = s.words[k] := by
  simp [word, h]

theorem word_eq_zero (s : IdSet size) {k : Nat} (h : wordCount size ≤ k) : s.word k = 0 := by
  have : ¬ k < wordCount size := Nat.not_lt.mpr h
  simp [word, this]

/-- A member has a word, so it lies below the last bit of the last word. -/
theorem div_lt_of_mem {s : IdSet size} {i : Nat} (h : i ∈ s) : i / 64 < wordCount size := by
  apply Decidable.byContradiction
  intro hn
  rw [mem_def, word_eq_zero s (Nat.not_lt.mp hn)] at h
  simp at h

@[simp] theorem word_empty (k : Nat) : (empty : IdSet size).word k = 0 := by
  by_cases h : k < wordCount size <;> simp [word, empty, h]

theorem word_setIfInBounds (s : IdSet size) (j k : Nat) (w : UInt64) (hj : j < wordCount size) :
    (IdSet.mk (s.words.setIfInBounds j w) : IdSet size).word k
      = if j = k then w else s.word k := by
  unfold word
  rw [Vector.getElem?_setIfInBounds]
  by_cases h : j = k
  · subst h; simp [hj]
  · simp [h]

theorem word_union (s t : IdSet size) (k : Nat) :
    (s.union t).word k = s.word k ||| t.word k := by
  by_cases h : k < wordCount size
  · simp [word, union, h]
  · simp [word, h]

/-! ### Membership after each operation -/

@[simp] theorem not_mem_empty (i : Nat) : i ∉ (empty : IdSet size) := by
  simp [mem_def]

@[simp] theorem mem_union {s t : IdSet size} {i : Nat} : i ∈ s.union t ↔ i ∈ s ∨ i ∈ t := by
  simp [mem_def, word_union]

private theorem eq_iff_div_mod (i j : Nat) : j = i ↔ i / 64 = j / 64 ∧ i % 64 = j % 64 := by
  omega

/-- A number below the bound can be made a member. -/
theorem mem_insert {s : IdSet size} {i j : Nat} (hi : i < size) :
    j ∈ s.insert i ↔ j = i ∨ j ∈ s := by
  rw [mem_def, insert, word_setIfInBounds _ _ _ _ (div_lt_wordCount hi), mem_def]
  by_cases hw : i / 64 = j / 64
  · rw [if_pos hw, hw, Word.hasBit_or, Word.hasBit_bit, Bool.or_eq_true, decide_eq_true_eq,
      or_comm, eq_iff_div_mod i j, and_iff_right hw]
  · rw [if_neg hw, eq_iff_div_mod i j]
    simp [hw]

/-- Erasing takes one member away. -/
@[simp] theorem mem_erase {s : IdSet size} {i j : Nat} : j ∈ s.erase i ↔ j ≠ i ∧ j ∈ s := by
  by_cases hi : i / 64 < wordCount size
  · rw [mem_def, erase, word_setIfInBounds _ _ _ _ hi, mem_def, ne_eq, eq_iff_div_mod i j]
    by_cases hw : i / 64 = j / 64
    · rw [if_pos hw, hw, Word.hasBit_and_not_bit]
      simp [and_comm]
    · rw [if_neg hw]
      simp [hw]
  · have h : s.erase i = s := by
      cases s
      simp [erase, Vector.setIfInBounds_eq_of_size_le (Nat.not_lt.mp hi)]
    rw [h]
    refine ⟨fun hj => ⟨fun hji => hi ?_, hj⟩, And.right⟩
    exact hji ▸ div_lt_of_mem hj

theorem mem_single {i j : Nat} (hi : i < size) : j ∈ (single i : IdSet size) ↔ j = i := by
  simp [single, mem_insert hi]

@[simp] theorem mem_unionExcept {s t : IdSet size} {i j : Nat} :
    j ∈ s.unionExcept t i ↔ j ∈ s ∨ (j ≠ i ∧ j ∈ t) := by
  simp [unionExcept]

/-! ### What determines a set -/

/-- **Sets with the same members are equal.** -/
theorem ext_mem {s t : IdSet size} (h : ∀ i, i ∈ s ↔ i ∈ t) : s = t := by
  have hw : s.words = t.words := by
    refine Vector.ext fun k hk => Word.ext_hasBit fun j hj => ?_
    have hdiv : (64 * k + j) / 64 = k := by omega
    have hbit : ∀ w, Word.hasBit w (64 * k + j) = Word.hasBit w j := by
      intro w
      rw [Word.hasBit_eq_getLsbD, Word.hasBit_eq_getLsbD, Nat.mul_add_mod]
    have := h (64 * k + j)
    rw [mem_def, mem_def, hdiv, hbit, hbit, word_eq_getElem s hk, word_eq_getElem t hk] at this
    exact Bool.eq_iff_iff.mpr this
  cases s; cases t; exact congrArg mk hw

theorem isEmpty_iff {s : IdSet size} : s.isEmpty = true ↔ ∀ i, i ∉ s := by
  constructor
  · intro h i hi
    have hk := div_lt_of_mem hi
    have hz : s.words[i / 64] = 0 := by
      have := (Vector.all_eq_true.mp h) (i / 64) hk
      simpa using this
    rw [mem_def, word_eq_getElem s hk, hz] at hi
    simp at hi
  · intro h
    have : s = empty := ext_mem fun i => iff_of_false (h i) (not_mem_empty i)
    subst this
    simp [isEmpty, empty]

/-! ### Reports -/

/-- A set is determined by its words. -/
theorem ext_word {s t : IdSet size} (h : ∀ k < wordCount size, s.word k = t.word k) : s = t := by
  refine ext_mem fun i => ?_
  by_cases hi : i / 64 < wordCount size
  · rw [mem_def, mem_def, h _ hi]
  · exact iff_of_false (fun hm => hi (div_lt_of_mem hm)) (fun hm => hi (div_lt_of_mem hm))

theorem word_setWord (s : IdSet size) {j : Nat} (hj : j < wordCount size) (w : UInt64) (k : Nat) :
    (s.setWord j w).word k = if j = k then w else s.word k :=
  word_setIfInBounds s j k w hj

/-- Only the word with the bit of `i` is masked. -/
theorem word_erase (s : IdSet size) (i k : Nat) :
    (s.erase i).word k = if k = i / 64 then s.word k &&& ~~~ Word.bit i else s.word k := by
  by_cases hi : i / 64 < wordCount size
  · rw [erase, word_setIfInBounds _ _ _ _ hi]
    by_cases hk : i / 64 = k
    · subst hk; simp
    · rw [if_neg hk, if_neg (Ne.symm hk)]
  · by_cases hk : k = i / 64
    · subst hk
      simp [word_eq_zero _ (Nat.not_lt.mp hi)]
    · rw [if_neg hk, erase, Vector.setIfInBounds_eq_of_size_le (Nat.not_lt.mp hi)]

/--
Words that are revised one after the other do not get in each other's way: each becomes what is
made of the word that was there at first.
-/
private theorem foldl_reviseWord (s : IdSet size) (revised : Nat → UInt64 → UInt64) {n : Nat}
    (hn : n ≤ wordCount size) :
    (∀ k, ((List.range n).foldl (reviseWord revised) (s, false)).1.word k
        = if k < n then revised k (s.word k) else s.word k) ∧
      (((List.range n).foldl (reviseWord revised) (s, false)).2 = true ↔
        ∃ k < n, revised k (s.word k) ≠ s.word k) := by
  induction n with
  | zero => simp
  | succ n ih =>
    obtain ⟨hword, hreport⟩ := ih (Nat.le_of_succ_le hn)
    have hlast := hword n
    rw [if_neg (Nat.lt_irrefl n)] at hlast
    rw [List.range_succ, List.foldl_append, List.foldl_cons, List.foldl_nil, reviseWord, hlast]
    refine ⟨fun k => ?_, ?_⟩
    · show (setWord _ n _).word k = _
      rw [word_setWord _ hn, hword]
      by_cases hk : n = k
      · subst hk
        rw [if_pos rfl, if_pos (Nat.lt_succ_self n)]
      · have hiff : k < n + 1 ↔ k < n := by omega
        rw [if_neg hk]
        simp only [hiff]
    · show (_ || _) = true ↔ _
      rw [Bool.or_eq_true, hreport, bne_iff_ne]
      constructor
      · rintro (⟨k, hk, hne⟩ | hne)
        · exact ⟨k, Nat.lt_succ_of_lt hk, hne⟩
        · exact ⟨n, Nat.lt_succ_self n, Ne.symm hne⟩
      · intro h
        obtain ⟨k, hk, hne⟩ := h
        rcases Nat.lt_succ_iff_lt_or_eq.mp hk with hk' | rfl
        · exact .inl ⟨k, hk', hne⟩
        · exact .inr (Ne.symm hne)

/-- **A report is right if every word is revised as it should be.** -/
theorem reviseReporting_eq {s u : IdSet size} {revised : Nat → UInt64 → UInt64}
    (h : ∀ k < wordCount size, u.word k = revised k (s.word k)) :
    s.reviseReporting revised = (u, decide (u ≠ s)) := by
  obtain ⟨hword, hreport⟩ := foldl_reviseWord s revised (Nat.le_refl _)
  refine Prod.ext (ext_word fun k hk => ?_) (Bool.eq_iff_iff.mpr (hreport.trans ?_))
  · rw [reviseReporting, hword, if_pos hk, h k hk]
  · rw [decide_eq_true_iff]
    constructor
    · intro hne hus
      obtain ⟨k, hk, hne⟩ := hne
      exact hne (by rw [← h k hk, hus])
    · intro hus
      apply Decidable.byContradiction
      intro hnone
      refine hus (ext_word fun k hk => ?_)
      rw [h k hk]
      exact Decidable.byContradiction fun hne => hnone ⟨k, hk, hne⟩

theorem insertReporting_eq (s : IdSet size) {i : Nat} (hi : i < size) :
    s.insertReporting i = (s.insert i, decide (s.insert i ≠ s)) := by
  have hword := word_setWord s (div_lt_wordCount hi) (s.word (i / 64) ||| Word.bit i)
  refine Prod.ext rfl (Bool.eq_iff_iff.mpr ?_)
  show (s.word (i / 64) != s.word (i / 64) ||| Word.bit i) = true ↔ _
  rw [bne_iff_ne, decide_eq_true_iff]
  refine not_congr ⟨fun hsame => ext_word fun k hk => ?_, fun hsame => ?_⟩
  · show (s.setWord (i / 64) _).word k = _
    rw [hword, ← hsame]
    split
    · rename_i hk
      rw [hk]
    · rfl
  · have hnew := hword (i / 64)
    rw [if_pos rfl] at hnew
    rw [← hnew]
    exact congrArg (word · (i / 64)) hsame.symm

theorem unionReporting_eq (s t : IdSet size) :
    s.unionReporting t = (s.union t, decide (s.union t ≠ s)) :=
  reviseReporting_eq fun k _ => word_union s t k

theorem unionExceptReporting_eq (s t : IdSet size) (i : Nat) :
    s.unionExceptReporting t i = (s.unionExcept t i, decide (s.unionExcept t i ≠ s)) :=
  reviseReporting_eq fun k _ => by rw [unionExcept, word_union, word_erase]

/-! ### The list of members -/

/-- **The list shows the members and nothing else.** -/
@[simp] theorem mem_toList {s : IdSet size} {i : Nat} : i ∈ s.toList ↔ i ∈ s := by
  unfold toList
  rw [List.mem_flatMap]
  constructor
  · rintro ⟨k, -, hm⟩
    obtain ⟨j, hj, hb, rfl⟩ := Word.mem_members.mp hm
    have hdiv : (64 * k + j) / 64 = k := by omega
    rw [mem_def, hdiv, Word.hasBit_eq_getLsbD, Nat.mul_add_mod, ← Word.hasBit_eq_getLsbD]
    exact hb
  · intro h
    refine ⟨i / 64, List.mem_range.mpr (div_lt_of_mem h), Word.mem_members.mpr
      ⟨i % 64, Nat.mod_lt _ (by decide), ?_, (Nat.div_add_mod i 64).symm⟩⟩
    rw [Word.hasBit_eq_getLsbD, Nat.mod_mod, ← Word.hasBit_eq_getLsbD]
    exact h

/-- **The list is ascending**, so it shows no member twice. -/
theorem toList_ascending (s : IdSet size) : s.toList.Pairwise (· < ·) := by
  unfold toList
  rw [List.pairwise_flatMap]
  refine ⟨fun k _ => Word.members_ascending _ _, ?_⟩
  refine List.Pairwise.imp ?_ List.pairwise_lt_range
  intro k l hkl i hi j hj
  obtain ⟨a, ha, -, rfl⟩ := Word.mem_members.mp hi
  obtain ⟨b, hb, -, rfl⟩ := Word.mem_members.mp hj
  omega

end IdSet

end BusinessHours

/-
Words of sixty-four bits as sets.

A word is read through `hasBit`: number `i` stands for bit `i % 64`, so a word is a set of
numbers below sixty-four, repeated over and over.  The operations on words are the ones on
such sets, bit by bit, and two words with the same bits are equal.
-/
namespace BusinessHours

namespace Word

/-- The word in which only the bit of number `i` is set. -/
def bit (i : Nat) : UInt64 := 1 <<< UInt64.ofNat (i % 64)

/-- Whether the bit of number `i` is set. -/
def hasBit (w : UInt64) (i : Nat) : Bool := w &&& bit i != 0

/-- The numbers of the bits that are set, counted from `base`, in ascending order. -/
def members (base : Nat) (w : UInt64) : List Nat :=
  ((List.range 64).filter (hasBit w)).map (base + ·)

/-- The number of the lowest bit that is set, or sixty-four if none is. -/
def trailingZeros (w : UInt64) : Nat := w.toBitVec.ctz.toNat

/-! ### Bit by bit -/

theorem toBitVec_bit (i : Nat) : (bit i).toBitVec = BitVec.twoPow 64 (i % 64) := by
  have h : ∀ k : Fin 64, (bit k.val).toBitVec = BitVec.twoPow 64 k.val := by decide +kernel
  simpa [bit] using h ⟨i % 64, Nat.mod_lt _ (by decide)⟩

theorem hasBit_eq_getLsbD (w : UInt64) (i : Nat) :
    hasBit w i = w.toBitVec.getLsbD (i % 64) := by
  have hne : ∀ k : Fin 64, BitVec.twoPow 64 k.val ≠ 0#64 := by decide +kernel
  have hk := hne ⟨i % 64, Nat.mod_lt _ (by decide)⟩
  have h : hasBit w i = (w.toBitVec &&& BitVec.twoPow 64 (i % 64) != 0#64) := by
    rw [← toBitVec_bit, ← UInt64.toBitVec_and, Bool.eq_iff_iff, hasBit, bne_iff_ne, bne_iff_ne,
      ne_eq, ne_eq, ← UInt64.toBitVec_inj]
    rfl
  rw [h, BitVec.and_twoPow]
  cases w.toBitVec.getLsbD (i % 64) <;> simp [hk]

@[simp] theorem hasBit_zero (i : Nat) : hasBit 0 i = false := by
  simp [hasBit_eq_getLsbD]

@[simp] theorem hasBit_bit (i j : Nat) : hasBit (bit i) j = decide (i % 64 = j % 64) := by
  rw [hasBit_eq_getLsbD, toBitVec_bit, BitVec.getLsbD_twoPow]
  simp [Nat.mod_lt i (by decide : 0 < 64)]

@[simp] theorem hasBit_or (v w : UInt64) (i : Nat) :
    hasBit (v ||| w) i = (hasBit v i || hasBit w i) := by
  simp [hasBit_eq_getLsbD]

theorem hasBit_and_not_bit (w : UInt64) (i j : Nat) :
    hasBit (w &&& ~~~ bit i) j = (hasBit w j && !decide (i % 64 = j % 64)) := by
  have hj : j % 64 < 64 := Nat.mod_lt _ (by decide)
  rw [← hasBit_bit, hasBit_eq_getLsbD, hasBit_eq_getLsbD w, hasBit_eq_getLsbD (bit i)]
  simp [hj]

/-- One less than the word of a bit has the bits below it. -/
theorem getLsbD_bit_sub_one {b j : Nat} (hb : b < 64) (hj : j < 64) :
    (bit b - 1).toBitVec.getLsbD j = decide (j < b) := by
  have hminus : (bit b - 1).toBitVec = ~~~ ((-1#64) <<< b) := by
    rw [UInt64.toBitVec_sub, toBitVec_bit, Nat.mod_eq_of_lt hb, BitVec.twoPow_eq,
      BitVec.shiftLeft_neg, BitVec.not_neg]
    rfl
  rw [hminus, BitVec.getLsbD_not, BitVec.getLsbD_shiftLeft, BitVec.neg_one_eq_allOnes,
    BitVec.getLsbD_allOnes]
  by_cases h : j < b
  · simp [hj, h]
  · simp [hj, h, Nat.lt_of_le_of_lt (Nat.sub_le j b) hj]

theorem hasBit_and_not_below (w : UInt64) {b : Nat} (hb : b < 64) (i : Nat) :
    hasBit (w &&& ~~~ (bit b - 1)) i = (hasBit w i && decide (b ≤ i % 64)) := by
  have hi : i % 64 < 64 := Nat.mod_lt _ (by decide)
  rw [hasBit_eq_getLsbD, hasBit_eq_getLsbD, UInt64.toBitVec_and, UInt64.toBitVec_not,
    BitVec.getLsbD_and, BitVec.getLsbD_not, getLsbD_bit_sub_one hb hi]
  by_cases h : b ≤ i % 64
  · simp [hi, h, Nat.not_lt.mpr h]
  · simp [h, Nat.lt_of_not_le h]

/-! ### The lowest bit -/

theorem trailingZeros_lt_iff {w : UInt64} : trailingZeros w < 64 ↔ w ≠ 0 := by
  have h := BitVec.ctz_lt_iff_ne_zero (x := w.toBitVec)
  rw [BitVec.lt_def] at h
  rw [trailingZeros, ne_eq, ← UInt64.toBitVec_inj]
  exact h

theorem hasBit_trailingZeros {w : UInt64} (h : trailingZeros w < 64) :
    hasBit w (trailingZeros w) = true := by
  rw [hasBit_eq_getLsbD, Nat.mod_eq_of_lt h]
  apply BitVec.getLsbD_true_ctz_of_ne_zero
  intro hzero
  exact trailingZeros_lt_iff.mp h (UInt64.toBitVec_inj.mp hzero)

theorem hasBit_of_lt_trailingZeros {w : UInt64} {i : Nat} (h : i % 64 < trailingZeros w) :
    hasBit w i = false := by
  rw [hasBit_eq_getLsbD]
  exact BitVec.getLsbD_false_of_lt_ctz h

/-! ### Words and their members -/

/-- A word is determined by its bits. -/
theorem ext_hasBit {v w : UInt64} (h : ∀ i < 64, hasBit v i = hasBit w i) : v = w := by
  apply UInt64.toBitVec_inj.mp
  apply BitVec.eq_of_getLsbD_eq
  intro i hi
  have := h i hi
  rwa [hasBit_eq_getLsbD, hasBit_eq_getLsbD, Nat.mod_eq_of_lt hi] at this

theorem mem_members {base : Nat} {w : UInt64} {i : Nat} :
    i ∈ members base w ↔ ∃ j < 64, hasBit w j = true ∧ i = base + j := by
  unfold members
  constructor
  · intro h
    obtain ⟨j, hj, rfl⟩ := List.mem_map.mp h
    obtain ⟨hlt, hb⟩ := List.mem_filter.mp hj
    exact ⟨j, List.mem_range.mp hlt, hb, rfl⟩
  · rintro ⟨j, hlt, hb, rfl⟩
    exact List.mem_map.mpr ⟨j, List.mem_filter.mpr ⟨List.mem_range.mpr hlt, hb⟩, rfl⟩

theorem members_ascending (base : Nat) (w : UInt64) :
    (members base w).Pairwise (· < ·) := by
  refine List.Pairwise.map _ (fun a b h => Nat.add_lt_add_left h base) ?_
  exact List.Pairwise.filter _ List.pairwise_lt_range

end Word

end BusinessHours

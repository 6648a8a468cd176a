/-
Enough rounds always suffice.

`saturate` runs at most `enoughRounds` rounds.  What is shown here is that this bound never
cuts anything off: the family it returns is one that a further round leaves as it is, and
`Settles`, which runs rounds without a bound, comes to the same family.  The measure is the
number of members, which no family can have more of than there are pairs of a nonterminal
and a terminal, and which every round that changes something raises.

`saturate` goes by the report of a round and `Settles` by what the round does, so reports have
to be right: no member that is added goes unreported, and none is reported that is there
already.  One step is right because a union of words reports a word that differs.  That a whole
round is right rests on members never being taken away: what a later step adds cannot undo what
an earlier one has reported.

The argument needs nothing of rounds but that they add members and add only numbers of
terminals, so FIRST and FOLLOW share it.  The counting itself is not about families at all.
`fixed_or_le_iterate` states it for any function, and it is used once more, for sets of
nonterminals, where it bounds the number of expansions that lead to a terminal.
-/
import BusinessHours.IdSet.Lemmas
import BusinessHours.LL1.Saturation
import Mathlib.Data.Finset.Prod
import Mathlib.Data.Set.Card
import Mathlib.Order.CompletePartialOrder
import Mathlib.Order.Interval.Finset.Nat
import Mathlib.Order.Iterate

namespace BusinessHours

/-! ### Climbing

A function that raises a measure wherever it changes its argument has, after `k` steps,
either come to rest or raised the measure `k` times.
-/

theorem fixed_or_le_iterate {α : Type} (f : α → α) (measure : α → Nat) (P : α → Prop)
    (keeps : ∀ x, P x → P (f x)) (raises : ∀ x, P x → f x ≠ x → measure x < measure (f x))
    {x : α} (hx : P x) (k : Nat) :
    f (f^[k] x) = f^[k] x ∨ k ≤ measure (f^[k] x) := by
  induction k with
  | zero => exact .inr (Nat.zero_le _)
  | succ k ih =>
      rw [Function.iterate_succ_apply']
      by_cases hfix : f (f^[k] x) = f^[k] x
      · exact .inl (congrArg f hfix)
      · rcases ih with h | h
        · exact absurd h hfix
        · have hP : P (f^[k] x) := Function.Iterate.rec P hx keeps k
          exact .inr (Nat.lt_of_le_of_lt h (raises _ hP hfix))

/-- A growing operator on sets of numbers below `n` gives nothing new after `n + 1` rounds. -/
theorem iterate_subset_of_bounded {F : Set Nat → Set Nat} (mono : Monotone F) {n : Nat}
    (bounded : ∀ S, F S ⊆ Set.Iio n) (k : Nat) : F^[k] ∅ ⊆ F^[n + 1] ∅ := by
  have hfinite : ∀ {S}, S ⊆ Set.Iio n → S.Finite := fun h => (Set.finite_Iio n).subset h
  have hfixed : F (F^[n + 1] ∅) = F^[n + 1] ∅ := by
    have hle : (F^[n + 1] ∅).ncard ≤ n := by
      rw [Function.iterate_succ_apply']
      calc (F (F^[n] ∅)).ncard ≤ (Set.Iio n).ncard := Set.ncard_le_ncard (bounded _)
        _ = n := by rw [← Finset.coe_Iio, Set.ncard_coe_finset, Nat.card_Iio]
    refine (fixed_or_le_iterate F Set.ncard (fun S => S ⊆ F S) (fun S h => mono h) ?_
      (Set.empty_subset _) (n + 1)).resolve_right (by omega)
    intro S hS hne
    exact Set.ncard_lt_ncard (hS.ssubset_of_ne hne.symm) (hfinite (bounded S))
  rcases Nat.le_total k (n + 1) with h | h
  · exact mono.monotone_iterate_of_le_map (Set.empty_subset _) h
  · obtain ⟨j, rfl⟩ := Nat.exists_eq_add_of_le' h
    rw [Function.iterate_add_apply, Function.iterate_fixed hfixed]

namespace Family

variable {terms nonterms : Nat}

/-! ### Members -/

/-- Every member of one family is a member of the other. -/
def Below (f g : Family terms nonterms) : Prop := ∀ a i, i ∈ f.get a → i ∈ g.get a

theorem Below.refl (f : Family terms nonterms) : f.Below f := fun _ _ hi => hi

theorem Below.trans {f g h : Family terms nonterms} (hfg : f.Below g) (hgh : g.Below h) :
    f.Below h := fun a i hi => hgh a i (hfg a i hi)

/-- Only nonterminals have members. -/
theorem lt_of_mem_get {f : Family terms nonterms} {a i : Nat} (h : i ∈ f.get a) :
    a < nonterms := by
  by_contra hn
  have hget : f.get a = .empty := by simp [get, hn]
  rw [hget] at h
  exact IdSet.not_mem_empty i h

theorem mem_get_enlarge {f : Family terms nonterms} {a b i : Nat} {s : IdSet terms}
    (ha : a < nonterms) : i ∈ (f.enlarge a s).get b ↔ i ∈ f.get b ∨ a = b ∧ i ∈ s := by
  rw [get_enlarge f ha]
  split
  · rename_i h
    subst h
    simp
  · rename_i h
    simp [h]

theorem below_enlarge (f : Family terms nonterms) (a : Nat) (s : IdSet terms) :
    f.Below (f.enlarge a s) := by
  intro b i hi
  by_cases ha : a < nonterms
  · exact (mem_get_enlarge ha).mpr (.inl hi)
  · have hsame : f.enlarge a s = f := by
      cases f
      simp [enlarge, Vector.setIfInBounds_eq_of_size_le (Nat.not_lt.mp ha)]
    rwa [hsame]

/-- Families with the same members are equal. -/
theorem ext_mem {f g : Family terms nonterms} (h : ∀ a i, i ∈ f.get a ↔ i ∈ g.get a) :
    f = g := by
  have hsets : f.sets = g.sets := by
    refine Vector.ext fun a ha => IdSet.ext_mem fun i => ?_
    simpa [get, ha] using h a i
  cases f; cases g; exact congrArg mk hsets

/-- Families with members in each other are equal. -/
theorem Below.antisymm {f g : Family terms nonterms} (hfg : f.Below g) (hgf : g.Below f) :
    f = g := ext_mem fun a i => ⟨hfg a i, hgf a i⟩

/-! ### Reports -/

@[simp] theorem family_enlargeReporting (f : Family terms nonterms) (a : Nat) (s : IdSet terms) :
    (f.enlargeReporting a s).family = f.enlarge a s := by
  rw [enlargeReporting, IdSet.unionReporting_eq]
  rfl

@[simp] theorem family_enlargeExceptReporting (f : Family terms nonterms) (a : Nat)
    (s : IdSet terms) (i : Nat) :
    (f.enlargeExceptReporting a s i).family = f.enlarge a (s.erase i) := by
  rw [enlargeExceptReporting, IdSet.unionExceptReporting_eq]
  rfl

/-- What a round has made of `f` by now: it has only added members, and says whether it has. -/
structure Progress.Honest (f : Family terms nonterms) (done : Progress terms nonterms) : Prop where
  below : f.Below done.family
  changed_iff : done.changed = true ↔ done.family ≠ f

theorem Progress.Honest.start (f : Family terms nonterms) : Progress.Honest f (.start f) where
  below := .refl f
  changed_iff := by simp [Progress.start]

/-- A set that is enlarged makes another family exactly if it is another set. -/
theorem enlarge_eq_self_iff (f : Family terms nonterms) {a : Nat} (ha : a < nonterms)
    (s : IdSet terms) : f.enlarge a s = f ↔ (f.get a).union s = f.get a := by
  constructor
  · intro h
    have hget := get_enlarge f ha s a
    rw [if_pos rfl, h] at hget
    exact hget.symm
  · intro h
    refine ext_mem fun b i => ?_
    rw [get_enlarge f ha]
    split
    · rename_i hab
      rw [h, hab]
    · rfl

/-- A step that puts a union in place is honest if the union is reported as it should be. -/
theorem Progress.Honest.replace (f : Family terms nonterms) {a : Nat} (ha : a < nonterms)
    {s : IdSet terms} {own : IdSet terms × Bool}
    (h : own = ((f.get a).union s, decide ((f.get a).union s ≠ f.get a))) :
    Honest f (f.replace a own) where
  below := by
    rw [h]
    exact below_enlarge f a s
  changed_iff := by
    rw [h]
    show decide _ = true ↔ f.enlarge a s ≠ f
    rw [decide_eq_true_iff, ne_eq, ne_eq, enlarge_eq_self_iff f ha]

theorem Progress.Honest.enlargeReporting (f : Family terms nonterms) {a : Nat} (ha : a < nonterms)
    (s : IdSet terms) : Honest f (f.enlargeReporting a s) :=
  .replace f ha (IdSet.unionReporting_eq _ _)

theorem Progress.Honest.enlargeExceptReporting (f : Family terms nonterms) {a : Nat}
    (ha : a < nonterms) (s : IdSet terms) (i : Nat) :
    Honest f (f.enlargeExceptReporting a s i) :=
  .replace f ha (IdSet.unionExceptReporting_eq _ _ _)

/-- **One more honest step is honest on the whole.** -/
theorem Progress.Honest.andThen {f : Family terms nonterms} {done : Progress terms nonterms}
    {step : Family terms nonterms → Progress terms nonterms} (hdone : Honest f done)
    (hstep : Honest done.family (step done.family)) : Honest f (done.andThen step) where
  below := hdone.below.trans hstep.below
  changed_iff := by
    show (done.changed || (step done.family).changed) = true ↔ (step done.family).family ≠ f
    rw [Bool.or_eq_true, hdone.changed_iff, hstep.changed_iff]
    constructor
    · intro h hsame
      -- The step leaves `f`, and `done` lies between the two.
      have hboth : done.family = f := Below.antisymm (hsame ▸ hstep.below) hdone.below
      rcases h with h | h
      · exact h hboth
      · exact h (hsame.trans hboth.symm)
    · intro h
      by_cases hsame : done.family = f
      · exact .inr fun hnext => h (hnext.trans hsame)
      · exact .inl hsame

/-- If no step takes members away, a sequence of steps does not. -/
theorem Progress.below_foldl {α : Type}
    {step : Progress terms nonterms → α → Progress terms nonterms}
    (h : ∀ (done : Progress terms nonterms) (x : α), done.family.Below (step done x).family)
    (xs : List α) (done : Progress terms nonterms) :
    done.family.Below (xs.foldl step done).family := by
  induction xs generalizing done with
  | nil => exact .refl _
  | cons x xs ih => exact (h done x).trans (ih (step done x))

/-! ### Saturation -/

/--
A round that adds members only, reports whether it has added any, and adds only numbers of
terminals.
-/
structure Growing (round : Family terms nonterms → Progress terms nonterms) : Prop where
  honest : ∀ f : Family terms nonterms, Progress.Honest f (round f)
  lt : ∀ f : Family terms nonterms, (∀ a i, i ∈ f.get a → i < terms) →
    ∀ a i, i ∈ (round f).family.get a → i < terms

/-- Every pair of a nonterminal and a member of its set. -/
def pairs (f : Family terms nonterms) : Finset (Nat × Nat) :=
  (Finset.range nonterms ×ˢ Finset.range terms).filter fun x => x.2 ∈ f.get x.1

theorem card_pairs_le (f : Family terms nonterms) : f.pairs.card ≤ nonterms * terms := by
  refine (Finset.card_filter_le _ _).trans ?_
  rw [Finset.card_product, Finset.card_range, Finset.card_range]

theorem card_pairs_lt {f g : Family terms nonterms} (h : f.Below g) (hne : g ≠ f)
    (hg : ∀ a i, i ∈ g.get a → i < terms) : f.pairs.card < g.pairs.card := by
  obtain ⟨a, i, hig, hif⟩ : ∃ a i, i ∈ g.get a ∧ i ∉ f.get a := by
    by_contra hc
    push Not at hc
    exact hne (ext_mem fun a i => ⟨hc a i, h a i⟩)
  refine Finset.card_lt_card (Finset.ssubset_iff_of_subset ?_ |>.mpr ⟨(a, i), ?_, ?_⟩)
  · intro x hx
    rw [pairs, Finset.mem_filter] at hx ⊢
    exact ⟨hx.1, h _ _ hx.2⟩
  · simp only [pairs, Finset.mem_filter, Finset.mem_product, Finset.mem_range]
    exact ⟨⟨lt_of_mem_get hig, hg a i hig⟩, hig⟩
  · simp [pairs, hif]

variable {round : Family terms nonterms → Progress terms nonterms}

/-- What holds at the beginning and is kept by a round holds at the end. -/
theorem saturate_induction {P : Family terms nonterms → Prop}
    (keeps : ∀ f, P f → P (round f).family) (fuel : Nat) {f : Family terms nonterms} (hf : P f) :
    P (saturate round fuel f) := by
  induction fuel generalizing f with
  | zero => exact hf
  | succ fuel ih =>
      rw [saturate]
      split
      · exact ih (keeps f hf)
      · exact keeps f hf

/-- Nothing that was there at the beginning is lost. -/
theorem below_saturate (grow : Growing round) (fuel : Nat) (f : Family terms nonterms) :
    f.Below (saturate round fuel f) :=
  saturate_induction (fun g h => h.trans (grow.honest g).below) fuel (.refl f)

/-- Stopping early makes no difference. -/
theorem saturate_eq_iterate (grow : Growing round) (fuel : Nat) (f : Family terms nonterms) :
    saturate round fuel f = (fun f => (round f).family)^[fuel] f := by
  induction fuel generalizing f with
  | zero => rfl
  | succ fuel ih =>
      rw [saturate]
      split
      · rw [ih, Function.iterate_succ_apply]
      · rename_i h
        have hfix : (round f).family = f := by
          by_contra hne
          exact h ((grow.honest f).changed_iff.mpr hne)
        rw [hfix, Function.iterate_fixed hfix]

/-- As many rounds as there are pairs lead to a family that no further round changes. -/
theorem round_iterate (grow : Growing round) {f : Family terms nonterms}
    (hf : ∀ a i, i ∈ f.get a → i < terms) :
    (round ((fun f => (round f).family)^[nonterms * terms] f)).family
      = (fun f => (round f).family)^[nonterms * terms] f := by
  have raises : ∀ g : Family terms nonterms, (∀ a i, i ∈ g.get a → i < terms) →
      (round g).family ≠ g → g.pairs.card < (round g).family.pairs.card :=
    fun g hg hne => card_pairs_lt (grow.honest g).below hne (grow.lt g hg)
  rcases fixed_or_le_iterate (fun f => (round f).family) (fun f => f.pairs.card)
      (fun f => ∀ a i, i ∈ f.get a → i < terms) grow.lt raises hf (nonterms * terms) with h | hfull
  · exact h
  · -- Every pair is there, so there is nothing left that a round could add.
    have hlt : ∀ a i, i ∈ ((fun f => (round f).family)^[nonterms * terms] f).get a → i < terms :=
      Function.Iterate.rec (fun f : Family terms nonterms => ∀ a i, i ∈ f.get a → i < terms) hf
        grow.lt _
    by_contra hne
    have hmore := raises _ hlt hne
    have hroom := card_pairs_le (round ((fun f => (round f).family)^[nonterms * terms] f)).family
    omega

/-- **Enough rounds lead to a family that no further round changes.** -/
theorem round_saturate (grow : Growing round) {f : Family terms nonterms}
    (hf : ∀ a i, i ∈ f.get a → i < terms) :
    (round (saturate round (enoughRounds terms nonterms) f)).family
      = saturate round (enoughRounds terms nonterms) f := by
  have hrest := round_iterate grow hf
  rw [saturate_eq_iterate grow, enoughRounds, Function.iterate_succ_apply', hrest, hrest]

/-! ### Rounds without a limit -/

/--
Rounds are run until one changes nothing, however many it takes.  The number is that of the
rounds that are run, the last one included.
-/
inductive Settles (round : Family terms nonterms → Family terms nonterms) :
    Nat → Family terms nonterms → Family terms nonterms → Prop
  | rest {f : Family terms nonterms} (fixed : round f = f) : Settles round 1 f f
  | next {n : Nat} {f g : Family terms nonterms} (changed : round f ≠ f)
      (later : Settles round n (round f) g) : Settles round (n + 1) f g

/-- Where nothing changes after `k` rounds, at most one more is run. -/
theorem exists_settles_of_iterate {round : Family terms nonterms → Family terms nonterms}
    {k : Nat} {f : Family terms nonterms}
    (h : round (round^[k] f) = round^[k] f) : ∃ n ≤ k + 1, Settles round n f (round^[k] f) := by
  induction k generalizing f with
  | zero => exact ⟨1, Nat.le_refl _, .rest h⟩
  | succ k ih =>
      by_cases hfix : round f = f
      · rw [Function.iterate_fixed hfix]
        exact ⟨1, by omega, .rest hfix⟩
      · rw [Function.iterate_succ_apply] at h ⊢
        obtain ⟨n, hn, hlater⟩ := ih h
        exact ⟨n + 1, Nat.succ_le_succ hn, .next hfix hlater⟩

/-- **The limit on rounds is none:** they end by themselves, and with the same family. -/
theorem exists_settles_saturate (grow : Growing round) {f : Family terms nonterms}
    (hf : ∀ a i, i ∈ f.get a → i < terms) : ∃ n ≤ enoughRounds terms nonterms,
      Settles (fun f => (round f).family) n f
        (saturate round (enoughRounds terms nonterms) f) := by
  have hrest := round_iterate grow hf
  rw [saturate_eq_iterate grow, enoughRounds, Function.iterate_succ_apply', hrest]
  exact exists_settles_of_iterate hrest

end Family

end BusinessHours

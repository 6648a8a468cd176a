/-
Sets of numbers are finite sets.

Whoever works with two sets of numbers calls one operation after the other, each on one of the two
and some with the other one at hand.  `Call` is such an operation, and it is given two meanings: what
it does to words, and what it does to finite sets.  Both answer, with a report, or with what a walk
through the set shows.

The meanings agree.  One call on words has the answer that the call on the members has, and leaves a
set with the members that are left there (`Call.toFinset_onIdSets`).  So every sequence of calls has
the same answers and the same members after each call, whatever the two sets were at first.
-/
import BusinessHours.Proofs.IdSet.Cursor
import Mathlib.Data.Finset.Sort

namespace BusinessHours

namespace IdSet

variable {size : Nat}

/-! ### The members as a finite set -/

/-- The members. A number without a word is none. -/
def toFinset (s : IdSet size) : Finset Nat :=
  (Finset.range (64 * wordCount size)).filter fun i => s.contains i = true

@[simp] theorem mem_toFinset {s : IdSet size} {i : Nat} : i ∈ s.toFinset ↔ i ∈ s := by
  rw [toFinset, Finset.mem_filter, Finset.mem_range]
  refine ⟨And.right, fun h => ⟨?_, h⟩⟩
  have := div_lt_of_mem h
  omega

theorem toFinset_inj {s t : IdSet size} : s.toFinset = t.toFinset ↔ s = t := by
  refine ⟨fun h => ext_mem fun i => ?_, fun h => by rw [h]⟩
  rw [← mem_toFinset, h, mem_toFinset]

theorem toFinset_insert (s : IdSet size) {i : Nat} (hi : i < size) :
    (s.insert i).toFinset = s.toFinset ∪ {i} := by
  ext j
  simp [mem_insert hi]

theorem toFinset_union (s t : IdSet size) : (s.union t).toFinset = s.toFinset ∪ t.toFinset := by
  ext j
  simp

theorem toFinset_unionExcept (s t : IdSet size) (i : Nat) :
    (s.unionExcept t i).toFinset = s.toFinset ∪ t.toFinset.erase i := by
  ext j
  simp

theorem toFinset_single {i : Nat} (hi : i < size) : (single i : IdSet size).toFinset = {i} := by
  ext j
  simp [mem_single hi]

theorem toFinset_empty : (empty : IdSet size).toFinset = ∅ := by
  ext j
  simp

theorem toFinset_eq_empty_iff {s : IdSet size} : s.toFinset = ∅ ↔ s.isEmpty = true := by
  simp [Finset.eq_empty_iff_forall_notMem, isEmpty_iff]

/-- The list of the members is the sorted one. -/
theorem sort_toFinset (s : IdSet size) : s.toFinset.sort (· ≤ ·) = s.toList := by
  have hmembers : s.toFinset = s.toList.toFinset := by
    ext i
    simp
  have hnodup : s.toList.Nodup := s.toList_ascending.imp Nat.ne_of_lt
  rw [hmembers]
  exact (List.toFinset_sort (· ≤ ·) hnodup).mpr (s.toList_ascending.imp Nat.le_of_lt)

/-! ### Calls -/

/-- An operation on a set, with a second set at hand. -/
inductive Call (size : Nat) where
  /-- Makes `i` a member and reports whether it was none. -/
  | insert (i : Fin size)
  /-- Reports whether `i` is a member. -/
  | contains (i : Fin size)
  /-- Adds the members of the other set and reports whether one was missing. -/
  | union
  /-- Adds the members of the other set but `i` and reports whether one was missing. -/
  | unionExcept (i : Fin size)
  /-- Starts again with `i` as the only member. -/
  | single (i : Fin size)
  /-- Takes all members away. -/
  | clear
  /-- Reports whether there are no members. -/
  | isEmpty
  /-- Reports whether the two sets are equal. -/
  | equal
  /-- Walks through the set and asks for the next member `n` times. -/
  | walk (n : Nat)

/-- What a call answers. -/
inductive Reply where
  /-- Nothing but that it is done. -/
  | done
  /-- A yes or a no. -/
  | report (yes : Bool)
  /-- The answers of a walk. -/
  | shown (answers : List (Option Nat))
deriving DecidableEq

/-- What a call does to words: the set it leaves, and its answer. -/
def Call.onIdSets : Call size → IdSet size → IdSet size → IdSet size × Reply
  | .insert i, own, _ => Prod.map id .report (own.insertReporting i)
  | .contains i, own, _ => (own, .report (own.contains i))
  | .union, own, other => Prod.map id .report (own.unionReporting other)
  | .unionExcept i, own, other => Prod.map id .report (own.unionExceptReporting other i)
  | .single i, _, _ => (.single i, .done)
  | .clear, _, _ => (.empty, .done)
  | .isEmpty, own, _ => (own, .report own.isEmpty)
  | .equal, own, other => (own, .report (decide (own = other)))
  | .walk n, own, _ => (own, .shown (own.walk n .start))

/-- A finite set that takes the place of another, with a report of whether it differs. -/
def revised (own new : Finset Nat) : Finset Nat × Reply :=
  (new, .report (decide (new ≠ own)))

/-- What a call does to finite sets: the set it leaves, and its answer. -/
def Call.onFinsets : Call size → Finset Nat → Finset Nat → Finset Nat × Reply
  | .insert i, own, _ => revised own (own ∪ {i.val})
  | .contains i, own, _ => (own, .report (decide (i.val ∈ own)))
  | .union, own, other => revised own (own ∪ other)
  | .unionExcept i, own, other => revised own (own ∪ other.erase i.val)
  | .single i, _, _ => ({i.val}, .done)
  | .clear, _, _ => (∅, .done)
  | .isEmpty, own, _ => (own, .report (decide (own = ∅)))
  | .equal, own, other => (own, .report (decide (own = other)))
  | .walk n, own, _ => (own, .shown ((List.range n).map fun k => (own.sort (· ≤ ·))[k]?))

/-- A set that has been revised reports a change exactly if its members have changed. -/
theorem toFinset_revised (own new : IdSet size) :
    Prod.map toFinset id (Prod.map id Reply.report (new, decide (new ≠ own)))
      = revised own.toFinset new.toFinset := by
  have hreport : decide (new ≠ own) = decide (new.toFinset ≠ own.toFinset) :=
    decide_eq_decide.mpr (not_congr toFinset_inj.symm)
  rw [hreport]
  rfl

/-- **One call does to words what it does to finite sets.** -/
theorem Call.toFinset_onIdSets (call : Call size) (own other : IdSet size) :
    Prod.map toFinset id (call.onIdSets own other)
      = call.onFinsets own.toFinset other.toFinset := by
  cases call with
  | insert i =>
      rw [onIdSets, insertReporting_eq own i.isLt, toFinset_revised, toFinset_insert own i.isLt]
      rfl
  | contains i =>
      have hmem : own.contains i = decide (i.val ∈ own.toFinset) :=
        Bool.eq_iff_iff.mpr (mem_toFinset.symm.trans (decide_eq_true_iff).symm)
      rw [onIdSets, hmem]
      rfl
  | union =>
      rw [onIdSets, unionReporting_eq, toFinset_revised, toFinset_union]
      rfl
  | unionExcept i =>
      rw [onIdSets, unionExceptReporting_eq, toFinset_revised, toFinset_unionExcept]
      rfl
  | single i =>
      show (toFinset (.single i), Reply.done) = _
      rw [toFinset_single i.isLt]
      rfl
  | clear =>
      show (toFinset .empty, Reply.done) = _
      rw [toFinset_empty]
      rfl
  | isEmpty =>
      have hempty : own.isEmpty = decide (own.toFinset = ∅) :=
        Bool.eq_iff_iff.mpr (toFinset_eq_empty_iff.symm.trans (decide_eq_true_iff).symm)
      rw [onIdSets, hempty]
      rfl
  | equal =>
      have hequal : decide (own = other) = decide (own.toFinset = other.toFinset) :=
        decide_eq_decide.mpr toFinset_inj.symm
      rw [onIdSets, hequal]
      rfl
  | walk n =>
      rw [onIdSets, walk_start, ← sort_toFinset]
      rfl

/-! ### Sequences of calls -/

/--
What a sequence of calls answers, with both sets after each call.  A call is on the first set or on
the second, as its mark says, with the other one at hand.
-/
def trace {α : Type} (perform : Call size → α → α → α × Reply) :
    List (Bool × Call size) → α → α → List (Reply × α × α)
  | [], _, _ => []
  | (true, call) :: calls, a, b =>
    let done := perform call a b
    (done.2, done.1, b) :: trace perform calls done.1 b
  | (false, call) :: calls, a, b =>
    let done := perform call b a
    (done.2, a, done.1) :: trace perform calls a done.1

/-- If one call does the same under a view, so does every sequence of calls. -/
theorem map_trace {α β : Type} {perform : Call size → α → α → α × Reply}
    {perform' : Call size → β → β → β × Reply} {view : α → β}
    (h : ∀ call a b, Prod.map view id (perform call a b) = perform' call (view a) (view b))
    (calls : List (Bool × Call size)) (a b : α) :
    (trace perform calls a b).map (Prod.map id (Prod.map view view))
      = trace perform' calls (view a) (view b) := by
  induction calls generalizing a b with
  | nil => rfl
  | cons turn calls ih =>
      obtain ⟨onFirst, call⟩ := turn
      cases onFirst with
      | true =>
          rw [trace, trace, ← h call a b, List.map_cons, ih]
          rfl
      | false =>
          rw [trace, trace, ← h call b a, List.map_cons, ih]
          rfl

/--
**Sets of numbers are finite sets.**  Any sequence of calls on two sets has the answers that it has
on their members, and after each call the two sets have the members that it leaves there.
-/
theorem toFinset_trace (calls : List (Bool × Call size)) (s t : IdSet size) :
    (trace Call.onIdSets calls s t).map (Prod.map id (Prod.map toFinset toFinset))
      = trace Call.onFinsets calls s.toFinset t.toFinset :=
  map_trace Call.toFinset_onIdSets calls s t

end IdSet

end BusinessHours

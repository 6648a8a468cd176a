/-
What a predictive table holds.

Filling a table makes its placements one after another and stops at the first that finds
another production in its cell.  `ofPlacements?_spec` says both outcomes at once: either no
two placements clash, and the table holds exactly the placements that were made, or there
is a first placement that clashes, and it is the one reported.

A cell is one number, `nonterm * terms + term`, so a placement may only be looked for under
a nonterminal and a terminal that the table has; outside these bounds two cells are one.
-/
import BusinessHours.LL1.Recognizer
import BusinessHours.Proofs.LL1.Follow

namespace BusinessHours

/-- Two placements in one cell that differ in their productions. -/
def Placement.Clashes (x y : Placement) : Prop :=
  x.nonterm = y.nonterm ∧ x.term = y.term ∧ x.prod ≠ y.prod

/-- No two of the placements clash. -/
def ClashFree (xs : List Placement) : Prop := ∀ x ∈ xs, ∀ y ∈ xs, ¬ x.Clashes y

/--
The clash is that of the first placement that has one: those before it are free of clashes,
and one of them has the existing production in the same cell.
-/
def FirstClash (xs : List Placement) (c : Clash) : Prop :=
  ∃ before after, xs = before ++ c.placement :: after ∧ ClashFree before ∧
    ⟨c.placement.nonterm, c.placement.term, c.existing⟩ ∈ before ∧
    c.existing ≠ c.placement.prod

namespace Table

variable {terms nonterms : Nat}

/-! ### Cells -/

theorem cellAt_lt {a t : Nat} (ha : a < nonterms) (ht : t < terms) :
    cellAt terms a t < nonterms * terms := by
  calc a * terms + t < a * terms + terms := Nat.add_lt_add_left ht _
    _ = (a + 1) * terms := (Nat.succ_mul a terms).symm
    _ ≤ nonterms * terms := Nat.mul_le_mul_right terms ha

/-- Cells of different rows or columns are different. -/
theorem cellAt_inj {a b t u : Nat} (ht : t < terms) (hu : u < terms) :
    cellAt terms a t = cellAt terms b u ↔ a = b ∧ t = u := by
  constructor
  · intro h
    unfold cellAt at h
    have hrow : a = b := by
      have hdiv := congrArg (· / terms) h
      simpa [Nat.mul_comm, Nat.mul_add_div (Nat.zero_lt_of_lt ht), Nat.div_eq_of_lt ht,
        Nat.div_eq_of_lt hu] using hdiv
    subst hrow
    exact ⟨rfl, Nat.add_left_cancel h⟩
  · intro h
    obtain ⟨rfl, rfl⟩ := h
    rfl

theorem entry?_empty (a t : Nat) : Table.entry? (empty : Table terms nonterms) a t = none := by
  unfold entry? empty
  by_cases h : cellAt terms a t < nonterms * terms <;> simp [h]

/-! ### Filling a table -/

/-- The table shows exactly the given placements. -/
def Holds (T : Table terms nonterms) (xs : List Placement) : Prop :=
  ∀ a t p, a < nonterms → t < terms → (T.entry? a t = some p ↔ ⟨a, t, p⟩ ∈ xs)

theorem holds_empty : (empty : Table terms nonterms).Holds [] := by
  intro a t p _ _
  simp [entry?_empty]

theorem entry?_setIfInBounds (T : Table terms nonterms) {a b t u p : Nat} (ha : a < nonterms)
    (ht : t < terms) (hu : u < terms) :
    Table.entry? (⟨T.cells.setIfInBounds (cellAt terms a t) (some p)⟩ : Table terms nonterms)
        b u =
      if a = b ∧ t = u then some p else T.entry? b u := by
  unfold entry?
  rw [Vector.getElem?_setIfInBounds]
  by_cases h : a = b ∧ t = u
  · rw [if_pos ((cellAt_inj ht hu).mpr h), if_pos h, if_pos (cellAt_lt ha ht)]
    rfl
  · rw [if_neg fun hc => h ((cellAt_inj ht hu).mp hc), if_neg h]

variable {T : Table terms nonterms} {xs : List Placement} {x : Placement}

/-- A placement into a cell without entry is made. -/
theorem place_of_none (hT : T.Holds xs) (ha : x.nonterm < nonterms) (ht : x.term < terms)
    (h : T.entry? x.nonterm x.term = none) :
    ∃ T', T.place x = .ok T' ∧ T'.Holds (xs ++ [x]) := by
  refine ⟨⟨T.cells.setIfInBounds (cellAt terms x.nonterm x.term) (some x.prod)⟩,
    by simp [place, h], ?_⟩
  intro b u p hb hu
  rw [entry?_setIfInBounds T ha ht hu, List.mem_append, List.mem_singleton]
  split
  · rename_i hcell
    obtain ⟨rfl, rfl⟩ := hcell
    have hnone : ⟨x.nonterm, x.term, p⟩ ∉ xs := fun hm => by
      simp [(hT _ _ _ hb hu).mpr hm] at h
    cases x
    simp [hnone, eq_comm]
  · rename_i hcell
    rw [hT b u p hb hu]
    refine ⟨.inl, fun hm => hm.resolve_right ?_⟩
    intro h
    subst h
    exact hcell ⟨rfl, rfl⟩

/-- A production may be placed in its own cell again. -/
theorem place_of_same (hT : T.Holds xs) (ha : x.nonterm < nonterms) (ht : x.term < terms)
    (h : T.entry? x.nonterm x.term = some x.prod) :
    ∃ T', T.place x = .ok T' ∧ T'.Holds (xs ++ [x]) := by
  refine ⟨T, by simp [place, h], ?_⟩
  have hx : x ∈ xs := (hT _ _ _ ha ht).mp h
  intro b u p hb hu
  rw [hT b u p hb hu, List.mem_append, List.mem_singleton]
  refine ⟨.inl, ?_⟩
  rintro (hm | rfl)
  · exact hm
  · exact hx

theorem clashFree_append_singleton (hfree : ClashFree xs) (h : ∀ y ∈ xs, ¬ y.Clashes x) :
    ClashFree (xs ++ [x]) := by
  intro y hy z hz hyz
  rw [List.mem_append, List.mem_singleton] at hy hz
  rcases hy with hy | rfl <;> rcases hz with hz | rfl
  · exact hfree y hy z hz hyz
  · exact h y hy hyz
  · exact h z hz ⟨hyz.1.symm, hyz.2.1.symm, hyz.2.2.symm⟩
  · exact hyz.2.2 rfl

/-- **A table is filled, and shows what was placed, or the first clash is reported.** -/
theorem ofPlacements?_spec (xs : List Placement)
    (hxs : ∀ x ∈ xs, x.nonterm < nonterms ∧ x.term < terms) :
    (∃ T : Table terms nonterms, ofPlacements? xs = .ok T ∧ T.Holds xs ∧ ClashFree xs) ∨
      ∃ c, (ofPlacements? xs : Except Clash (Table terms nonterms)) = .error c ∧
        FirstClash xs c := by
  induction xs using List.reverseRecOn with
  | nil => exact .inl ⟨empty, rfl, holds_empty, by simp [ClashFree]⟩
  | append_singleton xs x ih =>
      have hsnoc : (ofPlacements? (xs ++ [x]) : Except Clash (Table terms nonterms))
          = ofPlacements? xs >>= fun T => T.place x := by
        unfold ofPlacements?
        simp [List.foldlM_append]
      obtain ⟨ha, ht⟩ := hxs x (by simp)
      rcases ih fun y hy => hxs y (by simp [hy]) with ⟨T, hok, hT, hfree⟩ | ⟨c, herr, hfirst⟩
      · rw [hsnoc, hok]
        cases hentry : T.entry? x.nonterm x.term with
        | none =>
            obtain ⟨T', hplace, hT'⟩ := place_of_none hT ha ht hentry
            refine .inl ⟨T', hplace, hT', clashFree_append_singleton hfree ?_⟩
            rintro ⟨_, _, q⟩ hy ⟨rfl, rfl, -⟩
            simp [(hT _ _ q ha ht).mpr hy] at hentry
        | some p =>
            have hp : ⟨x.nonterm, x.term, p⟩ ∈ xs := (hT _ _ _ ha ht).mp hentry
            by_cases hsame : p = x.prod
            · subst hsame
              obtain ⟨T', hplace, hT'⟩ := place_of_same hT ha ht hentry
              exact .inl ⟨T', hplace, hT',
                clashFree_append_singleton hfree fun y hy => hfree y hy x hp⟩
            · refine .inr ⟨⟨x, p⟩, ?_, xs, [], rfl, hfree, hp, hsame⟩
              change T.place x = _
              simp [place, hentry, hsame]
      · obtain ⟨before, after, hsplit, hrest⟩ := hfirst
        refine .inr ⟨c, by rw [hsnoc, herr]; rfl, before, after ++ [x], ?_, hrest⟩
        rw [hsplit, List.append_assoc, List.cons_append]

end Table

/-! ### The table of a grammar -/

theorem Production.mem_predictedOn {terms nonterms : Nat} {first follow : Family terms nonterms}
    {p : Production} {t : Nat} : t ∈ p.predictedOn first follow ↔
      t ≠ epsilonId ∧ t ∈ first.firstOf p.rhs ∨
        epsilonId ∈ first.firstOf p.rhs ∧ t ∈ follow.get p.lhs := by
  simp only [predictedOn, List.mem_append, IdSet.mem_toList, IdSet.mem_erase]
  split
  · rename_i he
    rw [IdSet.mem_toList]
    simp [he]
  · rename_i he
    simp [he]

namespace IndexedGrammar

variable {σ : Type} {G : IndexedGrammar σ}

/-- The production in place `i` expands `a` and is predicted on `t`. -/
def PredictedAt (G : IndexedGrammar σ) (i a t : Nat) : Prop :=
  ∃ p, G.prods[i]? = some p ∧ p.lhs = a ∧ t ∈ p.predictedOn G.first (G.follow G.first)

theorem mem_placements_iff {x : Placement} :
    x ∈ G.placements G.first (G.follow G.first) ↔ G.PredictedAt x.prod x.nonterm x.term := by
  simp only [placements, List.mem_flatMap, List.mem_map, Prod.exists]
  constructor
  · intro h
    obtain ⟨p, i, hp, t, ht, rfl⟩ := h
    exact ⟨p, List.mk_mem_zipIdx_iff_getElem?.mp hp, rfl, ht⟩
  · intro h
    obtain ⟨p, hp, hl, ht⟩ := h
    exact ⟨p, x.prod, List.mk_mem_zipIdx_iff_getElem?.mpr hp, x.term, ht, by rw [hl]⟩

theorem PredictedAt.lt_nontermCount (wn : G.WellNumbered) {i a t : Nat}
    (h : G.PredictedAt i a t) : a < G.nontermCount := by
  obtain ⟨p, hp, rfl, -⟩ := h
  exact wn.lhs_lt p (List.mem_of_getElem? hp)

theorem PredictedAt.lt_termCount (wn : G.WellNumbered) {i a t : Nat}
    (h : G.PredictedAt i a t) : t < G.termCount := by
  obtain ⟨p, hp, -, ht⟩ := h
  rcases Production.mem_predictedOn.mp ht with ⟨-, ht⟩ | ⟨-, ht⟩
  · exact Family.lt_of_mem_firstOf wn.epsilonId_lt (fun _ _ => lt_of_mem_first wn)
      (wn.term_lt p (List.mem_of_getElem? hp)) ht
  · exact lt_of_mem_follow wn ht

/-- **The table of a grammar exists, or the first clash of its placements is reported.** -/
theorem table?_spec (wn : G.WellNumbered) :
    (∃ T, G.table? G.first (G.follow G.first) = .ok T ∧
        T.Holds (G.placements G.first (G.follow G.first)) ∧
        ClashFree (G.placements G.first (G.follow G.first))) ∨
      ∃ c, G.table? G.first (G.follow G.first) = .error c ∧
        FirstClash (G.placements G.first (G.follow G.first)) c :=
  Table.ofPlacements?_spec _ fun _ hx =>
    ⟨(mem_placements_iff.mp hx).lt_nontermCount wn, (mem_placements_iff.mp hx).lt_termCount wn⟩

/-- **An entry is the production that is predicted there.** -/
theorem entry?_eq_some_iff (wn : G.WellNumbered) {T : Table G.termCount G.nontermCount}
    (hT : G.table? G.first (G.follow G.first) = .ok T) {a t i : Nat} (ha : a < G.nontermCount)
    (ht : t < G.termCount) : T.entry? a t = some i ↔ G.PredictedAt i a t := by
  rcases table?_spec wn with ⟨T', hok, hholds, -⟩ | ⟨c, herr, -⟩
  · obtain rfl := Except.ok.inj (hT.symm.trans hok)
    rw [hholds a t i ha ht, mem_placements_iff]
  · rw [hT] at herr
    simp at herr

end IndexedGrammar

namespace Recognizer

variable {σ : Type} [DecidableEq σ] {A : Alphabet σ} {g : Grammar A}

/-- What a recogniser is made of, once the equations it carries are used. -/
theorem ofGrammar?_eq_ok {r : Recognizer A} (h : ofGrammar? g = .ok r) :
    ∃ T hT, r = ⟨g, g.indexed, g.indexed.first, g.indexed.follow g.indexed.first, T,
      rfl, rfl, rfl, hT⟩ := by
  unfold ofGrammar? at h
  simp only at h
  split at h
  · simp at h
  · rename_i T hT
    exact ⟨T, hT, (Except.ok.inj h).symm⟩

theorem ofGrammar?_eq_get (h : (ofGrammar? g).toOption.isSome = true) :
    ofGrammar? g = .ok ((ofGrammar? g).toOption.get h) := by
  generalize ofGrammar? g = result at h ⊢
  cases result with
  | error c => simp [Except.toOption] at h
  | ok r => rfl

theorem ofGrammar?_eq_error_iff {c : Clash} : ofGrammar? g = .error c ↔
    g.indexed.table? g.indexed.first (g.indexed.follow g.indexed.first) = .error c := by
  unfold ofGrammar?
  simp only
  split
  · rename_i c' h
    simp [h]
  · rename_i T h
    simp [h]

end Recognizer

end BusinessHours

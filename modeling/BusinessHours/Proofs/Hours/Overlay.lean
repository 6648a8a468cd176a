/-
Tokens behind other tokens.

A draft that has read a whole week remembers nothing else: no weekday and no time is left over.
So the tokens behind it are read as if they came first, but for the week they are read into.
They only ever open days, whole ranges at a time, and leave every other day as it was.  What
they are read into shows through on the days that they do not open, and it decides nothing about
the errors that they run into.
-/
import BusinessHours.Proofs.Hours.Clauses

namespace BusinessHours

/-! ### One week over another -/

/-- The week with the hours of `v` on days on which `v` is open, and those of `w` on all others. -/
def Week.overlay (w v : Week) : Week :=
  .ofFn fun d => if (v.get d).isClosed then w.get d else v.get d

theorem Week.get_overlay (w v : Week) (d : Weekday) :
    (w.overlay v).get d = if (v.get d).isClosed then w.get d else v.get d := Weekly.get_ofFn _ d

/-- Nothing of the closed week shows over another one. -/
@[simp] theorem Week.overlay_closed (w : Week) : w.overlay .closed = w := by
  refine Weekly.ext_get fun d => ?_
  rw [get_overlay, closed, Weekly.get_always]
  rfl

/-- **A range of open days can be laid over a week before or after the other days are.** -/
theorem Week.overlay_cover (w v : Week) (first last : Weekday) (opening closing : TimeOfDay) :
    w.overlay (v.cover first last (.between opening closing))
      = (w.overlay v).cover first last (.between opening closing) := by
  refine Weekly.ext_get fun d => ?_
  rw [get_overlay, get_cover, get_cover, get_overlay]
  by_cases hd : first.isWithin last d = true
  · rw [if_pos hd, if_pos hd]
    rfl
  · rw [if_neg hd, if_neg hd]

/-! ### A draft over a week -/

namespace Draft

/-- The draft with its week laid over another one. -/
def onto (w : Week) (D : Draft) : Draft := { D with week := w.overlay D.week }

theorem onto_blank (w : Week) : blank.onto w = ⟨w, none, none⟩ := by
  rw [onto, blank, Week.overlay_closed]

/-- **A token does the same to a draft over any week**, and fails with the same error. -/
theorem add_onto (w : Week) (D : Draft) (t : Token Symbol) :
    (D.onto w).add t = (D.add t).map (onto w) := by
  have htime : ∀ time, (D.onto w).addTime time = (D.addTime time).map (onto w) := by
    intro time
    obtain ⟨week, days, opening⟩ := D
    cases opening with
    | none => rfl
    | some opening =>
        cases days with
        | none => rfl
        | some days =>
            obtain ⟨first, last⟩ := days
            have hcover := w.overlay_cover week first last opening time
            exact congrArg (fun v => Except.ok (Draft.mk v none none)) hcover.symm
  unfold add
  cases t.symbol with
  | time =>
      cases timeOf? t with
      | error e => rfl
      | ok time => exact htime time
  | _ => rfl

/-- **Tokens are read into any week alike.** -/
theorem foldlM_onto (w : Week) (D : Draft) (ts : List (Token Symbol)) :
    ts.foldlM add (D.onto w) = (ts.foldlM add D).map (onto w) := by
  induction ts generalizing D with
  | nil => rfl
  | cons t ts ih =>
      rw [List.foldlM_cons, List.foldlM_cons, add_onto]
      cases D.add t with
      | error e => rfl
      | ok D' => exact ih D'

/-- A draft is finished if nothing is left over. -/
theorem finish_eq_ok_iff {D : Draft} {w : Week} : D.finish = .ok w ↔ D = ⟨w, none, none⟩ := by
  obtain ⟨week, days, opening⟩ := D
  cases days <;> cases opening <;> simp [finish]

/-- A draft over another week is left over to the same extent. -/
theorem finish_onto (w : Week) (D : Draft) :
    (D.onto w).finish = D.finish.map w.overlay := by
  obtain ⟨week, days, opening⟩ := D
  cases days <;> cases opening <;> rfl

end Draft

/-! ### Tokens behind a week -/

theorem weekOfTokens_eq_ok_iff {ts : List (Token Symbol)} {w : Week} :
    weekOfTokens ts = .ok w ↔ ts.foldlM Draft.add Draft.blank = .ok ⟨w, none, none⟩ := by
  unfold weekOfTokens
  cases ts.foldlM Draft.add Draft.blank with
  | error e => simp [bind, Except.bind]
  | ok D => simpa [bind, Except.bind] using Draft.finish_eq_ok_iff

/-- **Behind a week, tokens are read as if they came first**, and then laid over that week. -/
theorem weekOfTokens_append_of_ok {a : List (Token Symbol)} {w : Week}
    (h : weekOfTokens a = .ok w) (b : List (Token Symbol)) :
    weekOfTokens (a ++ b) = (weekOfTokens b).map w.overlay := by
  have hfold := Draft.foldlM_onto w Draft.blank b
  rw [weekOfTokens, List.foldlM_append, weekOfTokens_eq_ok_iff.mp h, ← Draft.onto_blank]
  show (b.foldlM Draft.add (Draft.blank.onto w) >>= Draft.finish) = _
  rw [hfold, weekOfTokens]
  cases b.foldlM Draft.add Draft.blank with
  | error e => rfl
  | ok D => exact Draft.finish_onto w D

/-- **Tokens that are refused before their end are refused whatever stands behind them.** -/
theorem weekOfTokens_append_of_error {a : List (Token Symbol)} {e : ClauseError}
    (h : weekOfTokens a = .error e) (he : e ≠ .incompleteClause) (b : List (Token Symbol)) :
    weekOfTokens (a ++ b) = .error e := by
  have hfold : a.foldlM Draft.add Draft.blank = .error e := by
    unfold weekOfTokens at h
    cases hD : a.foldlM Draft.add Draft.blank with
    | error e' =>
        rw [hD] at h
        exact congrArg Except.error (Except.error.inj h)
    | ok D =>
        -- what is left over at the end gives no other error
        rw [hD] at h
        change D.finish = .error e at h
        unfold Draft.finish at h
        split at h
        · exact absurd (Except.error.inj h).symm he
        · simp at h
  rw [weekOfTokens, List.foldlM_append, hfold]
  rfl

/--
**Weeks read one behind the other.**  If some tokens describe a week, and those behind them do,
then together they describe the second week laid over the first: each day has its hours from the
second where that is open, and from the first elsewhere.  An error of the second is the error of
both, and so is an error of the first, unless the first is only incomplete.
-/
theorem weekOfTokens_append (a b : List (Token Symbol)) :
    (∀ v w, weekOfTokens a = .ok v → weekOfTokens b = .ok w →
      ∃ u, weekOfTokens (a ++ b) = .ok u ∧
        ∀ d, u.get d = if (w.get d).isClosed then v.get d else w.get d) ∧
    (∀ v e, weekOfTokens a = .ok v → weekOfTokens b = .error e →
      weekOfTokens (a ++ b) = .error e) ∧
    (∀ e, weekOfTokens a = .error e → e ≠ .incompleteClause →
      weekOfTokens (a ++ b) = .error e) := by
  refine ⟨?_, ?_, ?_⟩
  · intro v w hv hw
    refine ⟨v.overlay w, ?_, v.get_overlay w⟩
    rw [weekOfTokens_append_of_ok hv, hw]
    rfl
  · intro v e hv he
    rw [weekOfTokens_append_of_ok hv, he]
    rfl
  · intro e he hne
    exact weekOfTokens_append_of_error he hne b

/-- A range of weekdays and its times, read from the given texts. -/
def rangeTokens (first last : Weekday) (opening closing : String) : List (Token Symbol) :=
  [.synthetic (.day first), .synthetic (.day last), .ofLexeme .time opening,
    .ofLexeme .time closing]

/--
Behind Monday and Tuesday from eight, Tuesday from ten leaves Monday alone; and a time that is none
is refused behind them as well as in front of Tuesday.
-/
theorem rangeTokens_append :
    (∃ u, weekOfTokens (rangeTokens .monday .tuesday "08:00" "9:30" ++
        rangeTokens .tuesday .tuesday "10:00" "12:00") = .ok u ∧
      u.get .monday = .between ⟨8, 0, 0⟩ ⟨9, 30, 0⟩ ∧
      u.get .tuesday = .between ⟨10, 0, 0⟩ ⟨12, 0, 0⟩) ∧
    weekOfTokens (rangeTokens .monday .tuesday "08:00" "9:30" ++
      rangeTokens .tuesday .tuesday "25:00" "12:00") = .error (.invalidTime "25:00") ∧
    weekOfTokens (rangeTokens .monday .tuesday "25:00" "9:30" ++
      rangeTokens .tuesday .tuesday "10:00" "12:00") = .error (.invalidTime "25:00") := by
  have hfront : weekOfTokens (rangeTokens .monday .tuesday "08:00" "9:30")
      = .ok (Week.closed.cover .monday .tuesday (.between ⟨8, 0, 0⟩ ⟨9, 30, 0⟩)) := by
    decide +kernel
  have hbehind : weekOfTokens (rangeTokens .tuesday .tuesday "10:00" "12:00")
      = .ok (Week.closed.cover .tuesday .tuesday (.between ⟨10, 0, 0⟩ ⟨12, 0, 0⟩)) := by
    decide +kernel
  refine ⟨?_, ?_, ?_⟩
  · obtain ⟨u, hu, hdays⟩ := (weekOfTokens_append _ _).1 _ _ hfront hbehind
    exact ⟨u, hu, (hdays .monday).trans (by decide), (hdays .tuesday).trans (by decide)⟩
  · exact (weekOfTokens_append _ _).2.1 _ _ hfront (by decide +kernel)
  · exact (weekOfTokens_append _ _).2.2 _ (by decide +kernel) (by decide)

end BusinessHours

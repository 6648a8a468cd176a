/-
One value for each weekday.

A `Weekly` is a function on weekdays that can be stored, compared and hashed.  Its view is
`get`: two of them are equal when they give every day the same value, and `set` changes
what `get` gives for one day only.
-/
import BusinessHours.Calendar.Weekday

namespace BusinessHours

/-- One value for each weekday. -/
structure Weekly (α : Type) where
  /-- The values, Monday's first. -/
  values : Vector α 7
deriving DecidableEq

namespace Weekly

variable {α : Type}

instance [Hashable α] : Hashable (Weekly α) where
  hash w := hash w.values.toList

/-- The value of a day. -/
def get (w : Weekly α) (d : Weekday) : α := w.values[d.index]

/-- Gives one day another value. -/
def set (w : Weekly α) (d : Weekday) (a : α) : Weekly α := ⟨w.values.set d.index a⟩

/-- The same value for each day. -/
def always (a : α) : Weekly α := ⟨Vector.replicate 7 a⟩

/-- The value of each day from seven values, Monday's first. -/
def ofSeven (mon tue wed thu fri sat sun : α) : Weekly α :=
  ⟨#v[mon, tue, wed, thu, fri, sat, sun]⟩

/-- The values that a function gives to the days. -/
def ofFn (f : Weekday → α) : Weekly α :=
  .ofSeven (f .monday) (f .tuesday) (f .wednesday) (f .thursday) (f .friday) (f .saturday)
    (f .sunday)

/-- The days with their values, Monday first. -/
def entries (w : Weekly α) : List (Weekday × α) := Weekday.all.map fun d => (d, w.get d)

/-- What a day has after a day was given another value. -/
theorem get_set (w : Weekly α) (d e : Weekday) (a : α) :
    (w.set d a).get e = if d = e then a else w.get e := by
  unfold get set
  by_cases h : d = e
  · subst h; simp
  · have hne : (d.index : Nat) ≠ e.index := fun hi => h (Weekday.index_injective (Fin.ext hi))
    simp [h, Vector.getElem_set_ne _ _ hne]

/-- Every day of an unvaried week has the same value. -/
@[simp] theorem get_always (a : α) (d : Weekday) : (always a).get d = a := by
  simp [get, always]

/-- Each day has the value that the function gives it. -/
@[simp] theorem get_ofFn (f : Weekday → α) (d : Weekday) : (ofFn f).get d = f d := by
  cases d <;> rfl

/-- Values are equal when they are equal on every day. -/
theorem ext_get {w v : Weekly α} (h : ∀ d, w.get d = v.get d) : w = v := by
  have hv : w.values = v.values := by
    refine Vector.ext fun i hi => ?_
    match i, hi with
    | 0, _ => exact h .monday
    | 1, _ => exact h .tuesday
    | 2, _ => exact h .wednesday
    | 3, _ => exact h .thursday
    | 4, _ => exact h .friday
    | 5, _ => exact h .saturday
    | 6, _ => exact h .sunday
  cases w; cases v; exact congrArg Weekly.mk hv

end Weekly

end BusinessHours

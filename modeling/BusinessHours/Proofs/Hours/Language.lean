/-
The language of opening hours.

The grammar derives exactly the lists of clauses, by their symbols.  From a derivation to a
list of clauses one reads off what each nonterminal stands for and checks that each rule
keeps it; the times of the clauses do not matter, so midnight does for all of them.  The
other way each part of a clause has its own short derivation.
-/
import BusinessHours.Hours.Grammar
import BusinessHours.Proofs.Hours.Clauses
import BusinessHours.Proofs.LL1.Recognition

namespace BusinessHours

theorem ofGrammar?_hoursGrammar : Recognizer.ofGrammar? hoursGrammar = .ok hoursRecognizer :=
  Recognizer.ofGrammar?_eq_get hoursGrammar_isLL1

theorem hoursAlphabet_markersTerminal : hoursAlphabet.MarkersTerminal := by decide

namespace Clause

/-- Midnight. -/
def midnight : TimeOfDay := (TimeOfDay.ofParts? 0 0 0).get rfl

/-- A clause of the given days, from midnight to midnight. -/
def ofDays (first : Weekday) (last : Option Weekday) : Clause :=
  ⟨first, last, midnight, midnight, rfl, rfl⟩

/-- The texts that a symbol of the grammar stands for. -/
def Stands : Symbol → List Symbol → Prop
  | .openingHours, w | .schedule, w => ∃ c cs, w = listSymbols (c :: cs)
  | .moreSchedules, w => ∃ cs, w = moreSymbols cs
  | .weekdayExpression, w => ∃ first last, w = .day first :: rangeSymbols last
  | .weekday, w => ∃ d, w = [.day d]
  | .weekdayRange, w => ∃ last, w = rangeSymbols last
  | .timeRange, w => w = [.time, .rangeIndicator, .time]
  | s, w => w = [s]

theorem stands_of_terminal {t : Symbol} (ht : hoursAlphabet.isTerminal t = true) :
    Stands t [t] := by
  cases t with
  | openingHours | schedule | moreSchedules | weekdayExpression | weekday | weekdayRange
  | timeRange => exact absurd ht (by decide)
  | _ => rfl

/-- **The left side of a rule stands for whatever its body does.** -/
theorem stands_of_rule {r : Rule hoursAlphabet} (hr : r ∈ hoursGrammar.rules) {w : List Symbol}
    (h : Grammar.Spells Stands r.body w) : Stands r.lhs w := by
  have hmem : r ∈ hoursRules := hr
  simp only [hoursRules, List.mem_append, List.mem_cons, List.mem_map, List.not_mem_nil,
    or_false] at hmem
  rcases hmem with ((rfl | rfl | rfl | rfl | rfl) | ⟨d, -, rfl⟩) | rfl | rfl | rfl
  · obtain ⟨x, y, rfl, ⟨c, cs, rfl⟩, rfl⟩ := h
    exact ⟨c, cs, List.append_nil _⟩
  · obtain ⟨x, y, rfl, ⟨first, last, rfl⟩, x', y', rfl, rfl, z, z', rfl, ⟨cs, rfl⟩, rfl⟩ := h
    refine ⟨ofDays first last, cs, ?_⟩
    rw [listSymbols_cons, symbols_eq, List.append_nil]
    simp [ofDays]
  · obtain ⟨x, y, rfl, rfl, x', y', rfl, ⟨c, cs, rfl⟩, rfl⟩ := h
    exact ⟨c :: cs, by rw [List.append_nil]; rfl⟩
  · obtain rfl := h
    exact ⟨[], rfl⟩
  · obtain ⟨x, y, rfl, ⟨d, rfl⟩, x', y', rfl, ⟨last, rfl⟩, rfl⟩ := h
    exact ⟨d, last, by rw [List.append_nil]; rfl⟩
  · obtain ⟨x, y, rfl, rfl, rfl⟩ := h
    exact ⟨d, rfl⟩
  · obtain ⟨x, y, rfl, rfl, x', y', rfl, ⟨d, rfl⟩, rfl⟩ := h
    exact ⟨some d, rfl⟩
  · obtain rfl := h
    exact ⟨none, rfl⟩
  · obtain ⟨x, y, rfl, rfl, x', y', rfl, rfl, z, z', rfl, rfl, rfl⟩ := h
    rfl

/-! ### Derivations of clauses -/

theorem derives_of_mem {lhs : Symbol} {body : List Symbol} {r : Rule hoursAlphabet}
    (hr : r ∈ hoursGrammar.rules) (hl : r.lhs = lhs) (hb : r.body = body) :
    hoursGrammar.Derives [lhs] body := by
  rw [← hl, ← hb]
  exact .of_rule hr

theorem derives_weekday (d : Weekday) : hoursGrammar.Derives [.weekday] [.day d] := by
  have hr : weekdayRule d ∈ hoursGrammar.rules := by
    show weekdayRule d ∈ hoursRules
    simp [hoursRules]
  exact derives_of_mem hr rfl rfl

theorem derives_weekdayExpression (first : Weekday) (last : Option Weekday) :
    hoursGrammar.Derives [.weekdayExpression] (.day first :: rangeSymbols last) := by
  have hrange : hoursGrammar.Derives [.weekdayRange] (rangeSymbols last) := by
    cases last with
    | none => exact derives_of_mem (r := hoursRule .weekdayRange [.epsilon]) (by decide) rfl rfl
    | some d =>
        have hrule : hoursGrammar.Derives [.weekdayRange] ([.rangeIndicator] ++ [.weekday]) :=
          derives_of_mem (r := hoursRule .weekdayRange [.rangeIndicator, .weekday]) (by decide)
            rfl rfl
        exact hrule.trans ((Grammar.Derives.refl _).append (derives_weekday d))
  have hrule : hoursGrammar.Derives [.weekdayExpression] ([.weekday] ++ [.weekdayRange]) :=
    derives_of_mem (r := hoursRule .weekdayExpression [.weekday, .weekdayRange]) (by decide)
      rfl rfl
  exact hrule.trans ((derives_weekday first).append hrange)

/-- **A clause and the clauses behind it are derived from a schedule.** -/
theorem derives_schedule (c : Clause) (cs : List Clause) :
    hoursGrammar.Derives [.schedule] (listSymbols (c :: cs)) := by
  have hmore : hoursGrammar.Derives [.moreSchedules] (moreSymbols cs) := by
    cases cs with
    | nil => exact derives_of_mem (r := hoursRule .moreSchedules [.epsilon]) (by decide) rfl rfl
    | cons d cs =>
        have hrule : hoursGrammar.Derives [.moreSchedules] ([.scheduleSeparator] ++ [.schedule]) :=
          derives_of_mem (r := hoursRule .moreSchedules [.scheduleSeparator, .schedule])
            (by decide) rfl rfl
        exact hrule.trans ((Grammar.Derives.refl _).append (derives_schedule d cs))
  have htimes : hoursGrammar.Derives [.timeRange] [.time, .rangeIndicator, .time] :=
    derives_of_mem (r := hoursRule .timeRange [.time, .rangeIndicator, .time]) (by decide) rfl rfl
  have hrule : hoursGrammar.Derives [.schedule]
      ([.weekdayExpression] ++ ([.timeRange] ++ [.moreSchedules])) :=
    derives_of_mem (r := hoursRule .schedule [.weekdayExpression, .timeRange, .moreSchedules])
      (by decide) rfl rfl
  have hall := hrule.trans ((derives_weekdayExpression c.first c.last).append
    (htimes.append hmore))
  rw [listSymbols_cons, symbols_eq]
  simpa using hall

/-- **The grammar derives the lists of clauses and nothing else.** -/
theorem derives_iff_exists_clauses {w : List Symbol}
    (hw : ∀ t ∈ w, hoursAlphabet.isTerminal t = true) :
    hoursGrammar.Derives [.openingHours] w ↔ ∃ c cs, w = listSymbols (c :: cs) := by
  constructor
  · intro h
    have hstands : Grammar.Spells Stands [.openingHours] w :=
      h.spells (fun _ => stands_of_terminal) (fun r hr w => stands_of_rule hr) hw
    obtain ⟨x, y, rfl, ⟨c, cs, rfl⟩, rfl⟩ := hstands
    exact ⟨c, cs, List.append_nil _⟩
  · intro h
    obtain ⟨c, cs, rfl⟩ := h
    exact (derives_of_mem (r := hoursRule .openingHours [.schedule]) (by decide) rfl rfl).trans
      (derives_schedule c cs)

/-! ### Lists of clauses are accepted -/

/-- The symbols of clauses are terminals that can stand in an input. -/
theorem mem_listSymbols {s : Symbol} {cs : List Clause} (h : s ∈ listSymbols cs) :
    s.isTerminal = true ∧ s ≠ .unknown ∧ s ≠ .endOfInput := by
  rcases mem_or_mem_of_mem_intercalate h with hsep | ⟨part, hpart, hs⟩
  · rw [List.mem_singleton.mp hsep]
    simp [Symbol.isTerminal]
  · obtain ⟨c, -, rfl⟩ := List.mem_map.mp hpart
    unfold symbols at hs
    cases hlast : c.last with
    | none =>
        simp only [hlast, Option.elim_none, List.cons_append, List.nil_append, List.mem_cons,
          List.not_mem_nil, or_false] at hs
        rcases hs with rfl | rfl | rfl | rfl <;> simp [Symbol.isTerminal]
    | some d =>
        simp only [hlast, Option.elim_some, List.cons_append, List.nil_append, List.mem_cons,
          List.not_mem_nil, or_false] at hs
        rcases hs with rfl | rfl | rfl | rfl | rfl | rfl <;> simp [Symbol.isTerminal]

/-- **The recogniser accepts the lists of clauses, by their symbols, and nothing.** -/
theorem isAccepted_iff_exists_clauses {tokens : List (Token Symbol)}
    (hend : Symbol.endOfInput ∉ (tokens.map Token.symbol).dropLast) :
    (hoursRecognizer.validate tokens).isAccepted = true ↔ tokens = [] ∨
      ∃ c cs, hoursAlphabet.lessEnd (tokens.map Token.symbol) = listSymbols (c :: cs) := by
  have hrules : ∀ q ∈ hoursGrammar.rules, hoursAlphabet.endMark ∉ q.rhs := by decide
  rw [Recognizer.isAccepted_validate_iff, Recognizer.exists_accepts_iff_derives
    hoursAlphabet_markersTerminal ofGrammar?_hoursGrammar hrules hend]
  refine or_congr_right ?_
  constructor
  · intro h
    obtain ⟨-, hterminal, hderives⟩ := h
    refine (derives_iff_exists_clauses fun s hs => ?_).mp hderives
    obtain ⟨t, ht, rfl⟩ := List.mem_map.mp (Recognizer.mem_of_mem_lessEnd hs)
    exact hterminal t ht
  · intro h
    obtain ⟨c, cs, hlist⟩ := h
    have hsymbol : ∀ t ∈ tokens, t.symbol.isTerminal = true ∧ t.symbol ≠ .unknown := by
      intro t ht
      rcases Recognizer.mem_lessEnd_or (A := hoursAlphabet) (List.mem_map_of_mem ht) with hs | hs
      · rw [hlist] at hs
        exact ⟨(mem_listSymbols hs).1, (mem_listSymbols hs).2.1⟩
      · rw [hs]
        decide
    refine ⟨fun t ht => decide_eq_false (hsymbol t ht).2, fun t ht => (hsymbol t ht).1, ?_⟩
    rw [hlist]
    refine (derives_iff_exists_clauses fun s hs => ?_).mpr ⟨c, cs, rfl⟩
    exact (mem_listSymbols hs).1

end Clause

end BusinessHours

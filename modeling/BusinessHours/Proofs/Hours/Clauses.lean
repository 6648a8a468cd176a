/-
What tokens say.

Tokens with the symbols of clauses say when a place is open, as soon as their times can be
read: on the days they name, between the times they show.  The draft takes them in one by one,
and between two clauses it remembers nothing but the week, so it covers the ranges of the
clauses one after the other and a day keeps what the last of them gave it.

A time is all that can be missing.  The draft refuses the first time token that shows none, and
up to there it has refused nothing: if that time and all later ones could be read, the tokens
would describe a week.
-/
import BusinessHours.Hours.Clause
import BusinessHours.Hours.Draft
import Mathlib.Data.Set.List

namespace BusinessHours

/-! ### The times of tokens -/

/-- The time that the text of a token shows. -/
def Token.shownTime? (t : Token Symbol) : Option TimeOfDay :=
  t.lexeme.bind TimeOfDay.ofText?

/-- What the time tokens of a list show, in order. -/
def timesOf (ts : List (Token Symbol)) : List (Option TimeOfDay) :=
  (ts.filter fun t => t.symbol = .time).map Token.shownTime?

/-- A time token that shows no time. -/
def Token.isUnusable (t : Token Symbol) : Bool :=
  t.symbol = .time && t.shownTime?.isNone

@[simp] theorem timesOf_nil : timesOf [] = [] := rfl

theorem timesOf_append (ts us : List (Token Symbol)) :
    timesOf (ts ++ us) = timesOf ts ++ timesOf us := by
  rw [timesOf, List.filter_append, List.map_append]
  rfl

theorem timesOf_cons_of_time {t : Token Symbol} (h : t.symbol = .time) (ts : List (Token Symbol)) :
    timesOf (t :: ts) = t.shownTime? :: timesOf ts := by
  rw [timesOf, List.filter_cons_of_pos (by simpa using h), List.map_cons]
  rfl

theorem timesOf_cons_of_ne {t : Token Symbol} (h : t.symbol ≠ .time) (ts : List (Token Symbol)) :
    timesOf (t :: ts) = timesOf ts := by
  rw [timesOf, List.filter_cons_of_neg (by simpa using h)]
  rfl

/-- There are as many times as symbols for them. -/
theorem length_timesOf (ts : List (Token Symbol)) :
    (timesOf ts).length = (ts.map Token.symbol).count .time := by
  rw [timesOf, List.length_map, List.count_eq_countP, List.countP_map, List.countP_eq_length_filter]
  congr 1

/-- Times are read to the minute. -/
theorem TimeOfDay.second_of_ofText? {s : String} {time : TimeOfDay} (h : ofText? s = some time) :
    time.second = 0 := by
  unfold ofText? ofChars? at h
  split at h
  · split at h
    · unfold ofParts? at h
      split at h
      · rw [← Option.some.inj h]
        rfl
      · simp at h
    · simp at h
  · simp at h

theorem Token.second_of_shownTime? {t : Token Symbol} {time : TimeOfDay}
    (h : t.shownTime? = some time) : time.second = 0 := by
  obtain ⟨lexeme, -, hread⟩ := Option.bind_eq_some_iff.mp h
  exact TimeOfDay.second_of_ofText? hread

/-! ### The first of its kind -/

/-- Two entries of a list are the same, if what holds of each holds of none in front of either. -/
theorem eq_of_first_entries {α : Type} {P : List α → α → Prop} {before before' after after' : List α}
    {x x' : α} (hsame : before ++ x :: after = before' ++ x' :: after') (hx : P before x)
    (hx' : P before' x') (hnone : ∀ front y back, before = front ++ y :: back → ¬ P front y)
    (hnone' : ∀ front y back, before' = front ++ y :: back → ¬ P front y) :
    before = before' ∧ x = x' := by
  -- the longer of the two beginnings would have the other entry in it
  rcases List.append_eq_append_iff.mp hsame with ⟨mid, rfl, hmid⟩ | ⟨mid, rfl, hmid⟩
  · cases mid with
    | nil => exact ⟨(List.append_nil before).symm, (List.cons.inj hmid).1⟩
    | cons y mid =>
        obtain ⟨rfl, -⟩ := List.cons.inj hmid
        exact absurd hx (hnone' before x mid rfl)
  · cases mid with
    | nil => exact ⟨List.append_nil before', (List.cons.inj hmid).1.symm⟩
    | cons y mid =>
        obtain ⟨rfl, -⟩ := List.cons.inj hmid
        exact absurd hx' (hnone before' x' mid rfl)

/-! ### One token -/

namespace Draft

theorem timeOf?_of_shownTime? {t : Token Symbol} {time : TimeOfDay}
    (h : t.shownTime? = some time) : timeOf? t = .ok time := by
  obtain ⟨lexeme, hlexeme, hread⟩ := Option.bind_eq_some_iff.mp h
  simp [timeOf?, hlexeme, hread]

/-- A token that shows no time is refused for its text, or for the lack of one. -/
theorem timeOf?_of_shownTime?_eq_none {t : Token Symbol} (h : t.shownTime? = none) :
    timeOf? t = .error (t.lexeme.elim .missingLexeme .invalidTime) := by
  unfold Token.shownTime? at h
  unfold timeOf?
  cases hlexeme : t.lexeme with
  | none => rfl
  | some lexeme =>
      rw [hlexeme, Option.bind_some] at h
      simp [h]

theorem add_day (D : Draft) {t : Token Symbol} {d : Weekday} (h : t.symbol = .day d) :
    D.add t = .ok (D.addDay d) := by
  simp [add, h]

theorem add_time (D : Draft) {t : Token Symbol} (h : t.symbol = .time) {time : TimeOfDay}
    (ht : t.shownTime? = some time) : D.add t = D.addTime time := by
  unfold add
  rw [h, timeOf?_of_shownTime? ht]
  rfl

theorem add_unusable (D : Draft) {t : Token Symbol} (h : t.isUnusable = true) :
    D.add t = .error (t.lexeme.elim .missingLexeme .invalidTime) := by
  rw [Token.isUnusable, Bool.and_eq_true, decide_eq_true_iff, Option.isNone_iff_eq_none] at h
  unfold add
  rw [h.1, timeOf?_of_shownTime?_eq_none h.2]
  rfl

/-- Dashes, commas and the end mark change nothing. -/
theorem add_mark (D : Draft) {t : Token Symbol} (h : t.symbol ∈
    [Symbol.rangeIndicator, .scheduleSeparator, .endOfInput]) : D.add t = .ok D := by
  simp only [List.mem_cons, List.not_mem_nil, or_false] at h
  rcases h with h | h | h <;> simp [add, h]

/-- A fold that is not refused has refused no front of its list. -/
theorem exists_foldlM_of_append {ts us : List (Token Symbol)} {D D' : Draft}
    (h : (ts ++ us).foldlM add D = .ok D') : ∃ D₁, ts.foldlM add D = .ok D₁ := by
  rw [List.foldlM_append] at h
  cases hfront : ts.foldlM add D with
  | ok D₁ => exact ⟨D₁, rfl⟩
  | error e =>
      rw [hfront] at h
      simp [bind, Except.bind] at h

end Draft

/-! ### Lists of clauses -/

/-- What stands in a joined list stands in the separator or in one of the parts. -/
theorem mem_or_mem_of_mem_intercalate {α : Type} {x : α} {sep : List α} {parts : List (List α)}
    (h : x ∈ sep.intercalate parts) : x ∈ sep ∨ ∃ part ∈ parts, x ∈ part := by
  induction parts with
  | nil => simp at h
  | cons a parts ih =>
      cases parts with
      | nil =>
          rw [List.intercalate_singleton] at h
          exact Or.inr ⟨a, List.mem_singleton_self a, h⟩
      | cons b parts =>
          rw [List.intercalate_cons_cons, List.mem_append, List.mem_append] at h
          rcases h with (h | h) | h
          · exact Or.inr ⟨a, List.mem_cons_self, h⟩
          · exact Or.inl h
          · rcases ih h with h | ⟨part, hpart, h⟩
            · exact Or.inl h
            · exact Or.inr ⟨part, List.mem_cons_of_mem a hpart, h⟩

namespace Clause

/-- The symbols of the second weekday of a range, if it is written. -/
def rangeSymbols (last : Option Weekday) : List Symbol :=
  last.elim [] fun d => [.rangeIndicator, .day d]

/-- The symbols of the clauses behind one that has been read. -/
def moreSymbols : List Clause → List Symbol
  | [] => []
  | c :: cs => .scheduleSeparator :: listSymbols (c :: cs)

theorem symbols_eq (c : Clause) : symbols c
    = .day c.first :: (rangeSymbols c.last ++ [.time, .rangeIndicator, .time]) := rfl

theorem listSymbols_cons (c : Clause) (cs : List Clause) :
    listSymbols (c :: cs) = symbols c ++ moreSymbols cs := by
  cases cs with
  | nil => rw [listSymbols, List.map_singleton, List.intercalate_singleton, moreSymbols,
      List.append_nil]
  | cons d cs => simp [listSymbols, moreSymbols]

theorem listSymbols_cons_ne_nil (c : Clause) (cs : List Clause) : listSymbols (c :: cs) ≠ [] := by
  rw [listSymbols_cons, symbols_eq]
  exact List.cons_ne_nil _ _

/-- The two times of each clause, in order. -/
def listTimes (cs : List Clause) : List TimeOfDay := cs.flatMap fun c => [c.opening, c.closing]

theorem count_time_symbols (c : Clause) : (symbols c).count .time = 2 := by
  rw [symbols_eq]
  cases c.last <;> rfl

theorem count_time_listSymbols (cs : List Clause) :
    (listSymbols cs).count .time = 2 * cs.length := by
  induction cs with
  | nil => rfl
  | cons c cs ih =>
      have hmore : (moreSymbols cs).count .time = 2 * cs.length := by
        cases cs with
        | nil => rfl
        | cons d cs => rw [moreSymbols, List.count_cons_of_ne (by simp), ih]
      rw [listSymbols_cons, List.count_append, count_time_symbols, hmore, List.length_cons]
      omega

/-- Clauses can have their times changed: their symbols do not show them. -/
theorem exists_retimed (cs : List Clause) {times : List TimeOfDay}
    (hlen : times.length = 2 * cs.length) (hminute : ∀ t ∈ times, t.second = 0) :
    ∃ cs' : List Clause, cs'.map symbols = cs.map symbols ∧ listTimes cs' = times := by
  induction cs generalizing times with
  | nil => exact ⟨[], rfl, (List.length_eq_zero_iff.mp hlen).symm⟩
  | cons c cs ih =>
      match times, hlen, hminute with
      | opening :: closing :: rest, hlen, hminute =>
          simp only [List.forall_mem_cons] at hminute
          obtain ⟨hopening, hclosing, hrest⟩ := hminute
          have hlen' : rest.length = 2 * cs.length := by
            simp only [List.length_cons] at hlen
            omega
          obtain ⟨cs', hsymbols, htimes⟩ := ih hlen' hrest
          refine ⟨⟨c.first, c.last, opening, closing, hopening, hclosing⟩ :: cs', ?_, ?_⟩
          · rw [List.map_cons, List.map_cons, hsymbols]
            rfl
          · rw [listTimes, List.flatMap_cons, ← listTimes, htimes]
            rfl
      | [], hlen, _ => exact absurd hlen (by simp)
      | [_], hlen, _ => exact absurd hlen (by simp only [List.length_cons, List.length_nil]; omega)

/-- **Tokens with the symbols of clauses say clauses**, if all their times can be read. -/
theorem exists_clauses_of_usable {ts : List (Token Symbol)} {cs : List Clause}
    (hs : ts.map Token.symbol = listSymbols cs) (hnone : ts.find? Token.isUnusable = none) :
    ∃ cs' : List Clause, listSymbols cs' = listSymbols cs ∧
      timesOf ts = (listTimes cs').map some := by
  have hlen := length_timesOf ts
  rw [hs, count_time_listSymbols] at hlen
  have hshown : ∀ o ∈ timesOf ts, ∃ time : TimeOfDay, o = some time ∧ time.second = 0 := by
    intro o ho
    obtain ⟨t, ht, rfl⟩ := List.mem_map.mp ho
    obtain ⟨hmem, htime⟩ := List.mem_filter.mp ht
    have husable := Bool.eq_false_iff.mpr (List.find?_eq_none.mp hnone t hmem)
    rw [Token.isUnusable, htime, Bool.true_and, Option.isNone_eq_false_iff] at husable
    obtain ⟨time, hshows⟩ := Option.isSome_iff_exists.mp husable
    exact ⟨time, hshows, Token.second_of_shownTime? hshows⟩
  obtain ⟨times, htimes⟩ : timesOf ts ∈ Set.range (List.map some) := by
    rw [Set.range_list_map]
    intro o ho
    obtain ⟨time, rfl, -⟩ := hshown o ho
    exact ⟨time, rfl⟩
  rw [← htimes] at hshown hlen ⊢
  rw [List.length_map] at hlen
  obtain ⟨cs', hsymbols, rfl⟩ := exists_retimed cs hlen fun time htime => by
    obtain ⟨time', heq, hsecond⟩ := hshown _ (List.mem_map_of_mem htime)
    rw [Option.some.inj heq]
    exact hsecond
  exact ⟨cs', by rw [listSymbols, hsymbols]; rfl, rfl⟩

/-! ### From clauses to a week -/

/-- The week after a clause: its days have its hours, whatever they had before. -/
def cover (w : Week) (c : Clause) : Week := w.cover c.first (c.last.getD c.first) c.hours

/-- **A day has the hours of the last clause that covers it.** -/
theorem get_foldl_cover (cs : List Clause) (w : Week) (d : Weekday) :
    (cs.foldl cover w).get d = ((cs.filter (covers · d)).getLast?.map hours).getD (w.get d) := by
  induction cs generalizing w with
  | nil => rfl
  | cons c cs ih =>
      rw [List.foldl_cons, ih, cover, Week.get_cover]
      by_cases hc : c.covers d = true
      · have hwithin : c.first.isWithin (c.last.getD c.first) d = true := hc
        rw [if_pos hwithin, List.filter_cons, if_pos hc, List.getLast?_cons]
        cases (cs.filter (covers · d)).getLast? <;> rfl
      · have hwithin : ¬ c.first.isWithin (c.last.getD c.first) d = true := hc
        rw [if_neg hwithin, List.filter_cons, if_neg hc]

theorem foldl_cover_closed (cs : List Clause) : cs.foldl cover .closed = week cs := by
  refine Weekly.ext_get fun d => ?_
  rw [get_foldl_cover, week, Weekly.get_ofFn, Week.closed, Weekly.get_always]
  rfl

/-- The days of a clause are remembered until its times are read. -/
theorem foldlM_days {ts : List (Token Symbol)} {first : Weekday} {last : Option Weekday}
    (hs : ts.map Token.symbol = .day first :: rangeSymbols last) (w : Week) :
    timesOf ts = [] ∧
      ts.foldlM Draft.add ⟨w, none, none⟩ = .ok ⟨w, some (first, last.getD first), none⟩ := by
  obtain ⟨a, rest, rfl, ha, hrest⟩ := List.map_eq_cons_iff.mp hs
  cases last with
  | none =>
      obtain rfl := List.map_eq_nil_iff.mp hrest
      refine ⟨timesOf_cons_of_ne (by simp [ha]) [], ?_⟩
      rw [List.foldlM_cons, Draft.add_day _ ha]
      rfl
  | some d =>
      obtain ⟨b, rest, rfl, hb, hrest⟩ := List.map_eq_cons_iff.mp hrest
      obtain ⟨e, rest, rfl, he, hrest⟩ := List.map_eq_cons_iff.mp hrest
      obtain rfl := List.map_eq_nil_iff.mp hrest
      refine ⟨?_, ?_⟩
      · rw [timesOf_cons_of_ne (by simp [ha]), timesOf_cons_of_ne (by simp [hb]),
          timesOf_cons_of_ne (by simp [he]), timesOf_nil]
      · simp only [List.foldlM_cons, List.foldlM_nil, Draft.add_day _ ha,
          Draft.add_mark _ (t := b) (by simp [hb]), Draft.add_day _ he]
        rfl

/-- **The tokens of a clause leave nothing to remember but the week.** -/
theorem foldlM_clause {ts : List (Token Symbol)} {c : Clause}
    (hs : ts.map Token.symbol = symbols c)
    (ht : timesOf ts = [some c.opening, some c.closing]) (w : Week) :
    ts.foldlM Draft.add ⟨w, none, none⟩ = .ok ⟨cover w c, none, none⟩ := by
  rw [symbols_eq, ← List.cons_append] at hs
  obtain ⟨days, hours, rfl, hdays, hhours⟩ := List.map_eq_append_iff.mp hs
  obtain ⟨a, rest, rfl, ha, hrest⟩ := List.map_eq_cons_iff.mp hhours
  obtain ⟨b, rest, rfl, hb, hrest⟩ := List.map_eq_cons_iff.mp hrest
  obtain ⟨e, rest, rfl, he, hrest⟩ := List.map_eq_cons_iff.mp hrest
  obtain rfl := List.map_eq_nil_iff.mp hrest
  obtain ⟨hnone, hfold⟩ := foldlM_days hdays w
  rw [timesOf_append, hnone, List.nil_append, timesOf_cons_of_time ha,
    timesOf_cons_of_ne (by simp [hb]), timesOf_cons_of_time he, timesOf_nil, List.cons.injEq,
    List.cons.injEq] at ht
  rw [List.foldlM_append, hfold]
  simp only [List.foldlM_cons, List.foldlM_nil, bind, Except.bind, Draft.add_time _ ha ht.1,
    Draft.add_mark _ (t := b) (by simp [hb]), Draft.add_time _ he ht.2.1]
  rfl

/-- **The tokens of clauses cover the ranges of these clauses, one after the other.** -/
theorem foldlM_clauses {ts : List (Token Symbol)} {cs : List Clause}
    (hs : ts.map Token.symbol = listSymbols cs) (ht : timesOf ts = (listTimes cs).map some)
    (w : Week) : ts.foldlM Draft.add ⟨w, none, none⟩ = .ok ⟨cs.foldl cover w, none, none⟩ := by
  induction cs generalizing ts w with
  | nil =>
      obtain rfl := List.map_eq_nil_iff.mp hs
      rfl
  | cons c cs ih =>
      rw [listSymbols_cons] at hs
      obtain ⟨front, rest, rfl, hfront, hrest⟩ := List.map_eq_append_iff.mp hs
      have hlen := length_timesOf front
      rw [hfront, count_time_symbols] at hlen
      have htimes : timesOf front ++ timesOf rest
          = [some c.opening, some c.closing] ++ (listTimes cs).map some := by
        rw [← timesOf_append, ht]
        rfl
      obtain ⟨htfront, htrest⟩ := List.append_inj htimes (by rw [hlen]; rfl)
      rw [List.foldlM_append, foldlM_clause hfront htfront, List.foldl_cons]
      cases cs with
      | nil =>
          obtain rfl := List.map_eq_nil_iff.mp hrest
          rfl
      | cons d cs =>
          obtain ⟨a, rest, rfl, ha, hrest⟩ := List.map_eq_cons_iff.mp hrest
          rw [timesOf_cons_of_ne (by simp [ha])] at htrest
          show (a :: rest).foldlM Draft.add ⟨cover w c, none, none⟩ = _
          rw [List.foldlM_cons, Draft.add_mark _ (by simp [ha])]
          exact ih hrest htrest (cover w c)

/-- **Tokens that say clauses describe their week.** -/
theorem weekOfTokens_of_clauses {ts : List (Token Symbol)} {cs : List Clause}
    (hs : ts.map Token.symbol = listSymbols cs) (ht : timesOf ts = (listTimes cs).map some) :
    weekOfTokens ts = .ok (week cs) := by
  rw [weekOfTokens, Draft.blank, foldlM_clauses hs ht, ← foldl_cover_closed]
  rfl

end Clause

/-! ### The first time that is refused -/

/-- The token with its text mended, if it is a time token that shows no time. -/
def Token.mended (t : Token Symbol) : Token Symbol :=
  if t.isUnusable then { t with lexeme := some "00:00" } else t

theorem Token.symbol_mended (t : Token Symbol) : t.mended.symbol = t.symbol := by
  unfold Token.mended
  split <;> rfl

theorem Token.isUnusable_mended (t : Token Symbol) : t.mended.isUnusable = false := by
  have hshown : TimeOfDay.ofText? "00:00" = some ⟨0, 0, 0⟩ := by decide +kernel
  unfold Token.mended
  split
  · simp [Token.isUnusable, Token.shownTime?, hshown]
  · rename_i h
    exact Bool.eq_false_iff.mpr h

theorem Token.mended_of_usable {t : Token Symbol} (h : t.isUnusable = false) : t.mended = t := by
  unfold Token.mended
  rw [h, if_neg Bool.false_ne_true]

/--
**Tokens with the symbols of clauses are refused for the first time token that shows no time.**
Mended, the tokens would describe a week, so nothing in front of it is refused.
-/
theorem weekOfTokens_of_unusable {ts : List (Token Symbol)} {cs : List Clause}
    (hs : ts.map Token.symbol = Clause.listSymbols cs) {t : Token Symbol}
    (h : ts.find? Token.isUnusable = some t) :
    weekOfTokens ts = .error (t.lexeme.elim .missingLexeme .invalidTime) := by
  obtain ⟨hunusable, before, after, rfl, hbefore⟩ := List.find?_eq_some_iff_append.mp h
  have hfront : before.map Token.mended = before := by
    have husable : ∀ u ∈ before, u.mended = id u := fun u hu =>
      Token.mended_of_usable (by simpa using hbefore u hu)
    rw [List.map_congr_left husable, List.map_id]
  have hsymbols : ((before ++ t :: after).map Token.mended).map Token.symbol
      = Clause.listSymbols cs := by
    rw [← hs, List.map_map]
    exact List.map_congr_left fun u _ => u.symbol_mended
  have hnone : ((before ++ t :: after).map Token.mended).find? Token.isUnusable = none := by
    refine List.find?_eq_none.mpr fun u hu => ?_
    obtain ⟨v, -, rfl⟩ := List.mem_map.mp hu
    exact Bool.eq_false_iff.mp v.isUnusable_mended
  obtain ⟨cs', hcs', htimes⟩ := Clause.exists_clauses_of_usable hsymbols hnone
  have hfold := Clause.foldlM_clauses (hsymbols.trans hcs'.symm) htimes .closed
  rw [List.map_append, hfront] at hfold
  obtain ⟨D, hD⟩ := Draft.exists_foldlM_of_append hfold
  rw [weekOfTokens, Draft.blank, List.foldlM_append, hD]
  show ((t :: after).foldlM Draft.add D >>= Draft.finish) = _
  rw [List.foldlM_cons, Draft.add_unusable D hunusable]
  rfl

end BusinessHours

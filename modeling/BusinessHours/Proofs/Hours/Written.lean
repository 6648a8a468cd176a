/-
The tokens in which clauses are written.

A clause that is written down becomes tokens, and these say the clause: they have its symbols
and show its times.  So the tokens of a list of clauses describe the week of these clauses.

The converse starts from tokens that are what their lexemes show.  Such a token is known by its
symbol, and a time token by its time as well, so if tokens say clauses they are the tokens in
which these clauses are written.
-/
import BusinessHours.Proofs.Hours.Clauses
import BusinessHours.Proofs.Hours.Segmentation

namespace BusinessHours

/-- What stands for the parts and for the separator is joined in the same way. -/
private theorem map_intercalate {α β : Type} (f : α → β) (sep : List α) :
    ∀ parts : List (List α),
      (sep.intercalate parts).map f = (sep.map f).intercalate (parts.map (List.map f))
  | [] => rfl
  | [a] => by
      rw [List.map_singleton, List.intercalate_singleton, List.intercalate_singleton]
  | a :: b :: parts => by
      rw [List.intercalate_cons_cons, List.map_append, List.map_append,
        map_intercalate f sep (b :: parts), List.map_cons, List.map_cons, List.map_cons,
        List.intercalate_cons_cons]

namespace Clause

/-! ### The tokens of clauses -/

/-- The tokens in which a clause is written. -/
def tokens (L : Lexicon) (c : Clause) : List (Token Symbol) :=
  .ofLexeme (.day c.first) (L.names.get c.first) ::
    (c.last.elim [] fun d =>
      [.ofLexeme .rangeIndicator "-", .ofLexeme (.day d) (L.names.get d)]) ++
    [.ofLexeme .time c.opening.clockText, .ofLexeme .rangeIndicator "-",
      .ofLexeme .time c.closing.clockText]

/-- The tokens in which a list of clauses is written. -/
def listTokens (L : Lexicon) (cs : List Clause) : List (Token Symbol) :=
  [.ofLexeme .scheduleSeparator ","].intercalate (cs.map (tokens L))

variable {L : Lexicon}

theorem listTokens_singleton (c : Clause) : listTokens L [c] = tokens L c :=
  List.intercalate_singleton

theorem listTokens_cons_cons (c d : Clause) (cs : List Clause) :
    listTokens L (c :: d :: cs)
      = tokens L c ++ .ofLexeme .scheduleSeparator "," :: listTokens L (d :: cs) := by
  simp [listTokens]

theorem map_symbol_tokens (c : Clause) : (tokens L c).map Token.symbol = symbols c := by
  unfold tokens symbols
  cases c.last <;> rfl

theorem map_chars_tokens (c : Clause) : (tokens L c).map Token.chars = pieces L c := by
  unfold tokens pieces
  cases c.last <;> rfl

theorem map_symbol_listTokens (cs : List Clause) :
    (listTokens L cs).map Token.symbol = listSymbols cs := by
  have hparts : List.map Token.symbol ∘ tokens L = symbols := funext map_symbol_tokens
  rw [listTokens, map_intercalate, List.map_map, hparts]
  rfl

theorem map_chars_listTokens (cs : List Clause) :
    (listTokens L cs).map Token.chars = listPieces L cs := by
  have hparts : List.map Token.chars ∘ tokens L = pieces L := funext map_chars_tokens
  rw [listTokens, map_intercalate, List.map_map, hparts]
  rfl

theorem timesOf_tokens (c : Clause) :
    timesOf (tokens L c) = [some c.opening, some c.closing] := by
  have hshown : ∀ {t : TimeOfDay}, t.second = 0 →
      (Token.ofLexeme Symbol.time t.clockText).shownTime? = some t := TimeOfDay.ofText?_clockText
  unfold tokens timesOf
  cases c.last <;>
    simp [Token.ofLexeme] at hshown ⊢ <;>
    exact ⟨hshown c.opening_onMinute, hshown c.closing_onMinute⟩

theorem timesOf_listTokens (cs : List Clause) :
    timesOf (listTokens L cs) = (listTimes cs).map some := by
  match cs with
  | [] => rfl
  | [c] =>
      rw [listTokens_singleton, timesOf_tokens]
      rfl
  | c :: d :: cs =>
      rw [listTokens_cons_cons, timesOf_append, timesOf_tokens,
        timesOf_cons_of_ne (by simp [Token.ofLexeme]), timesOf_listTokens (d :: cs)]
      rfl

/-- **The tokens of clauses describe the week of these clauses.** -/
theorem weekOfTokens_listTokens (cs : List Clause) :
    weekOfTokens (listTokens L cs) = .ok (week cs) :=
  weekOfTokens_of_clauses (map_symbol_listTokens cs) (timesOf_listTokens cs)

/-! ### They are what their lexemes show -/

theorem faithful_clockText {t : TimeOfDay} :
    L.Faithful (.ofLexeme .time t.clockText) := by
  refine ⟨t.clockText.toList, by rw [String.ofList_toList]; rfl, ?_⟩
  refine Pattern.clock_accepts_iff.mpr ⟨t.hour, ?_, t.minute, ?_, String.toList_ofList⟩
  · have := t.hour.isLt
    omega
  · have := t.minute.isLt
    omega

theorem faithful_name (d : Weekday) : L.Faithful (.ofLexeme (.day d) (L.names.get d)) :=
  ⟨(L.names.get d).toList, by rw [String.ofList_toList]; rfl, rfl⟩

theorem faithful_dash : L.Faithful (.ofLexeme .rangeIndicator "-") := ⟨['-'], rfl, rfl⟩

theorem faithful_comma : L.Faithful (.ofLexeme .scheduleSeparator ",") := ⟨[','], rfl, rfl⟩

/-- **The tokens of clauses are what their lexemes show**, and none of them is blank. -/
theorem faithful_of_mem_listTokens {cs : List Clause} {t : Token Symbol}
    (h : t ∈ listTokens L cs) : L.Faithful t ∧ t.symbol ≠ .whiteSpace := by
  have hname : ∀ d, L.Faithful (.ofLexeme (.day d) (L.names.get d)) ∧
      Symbol.day d ≠ .whiteSpace := fun d => ⟨faithful_name d, by simp⟩
  have hdash : L.Faithful (.ofLexeme .rangeIndicator "-") ∧
      Symbol.rangeIndicator ≠ .whiteSpace := ⟨faithful_dash, by simp⟩
  have htime : ∀ time : TimeOfDay, L.Faithful (.ofLexeme .time time.clockText) ∧
      Symbol.time ≠ .whiteSpace := fun time => ⟨faithful_clockText, by simp⟩
  rcases mem_or_mem_of_mem_intercalate h with hsep | ⟨part, hpart, ht⟩
  · rw [List.mem_singleton.mp hsep]
    exact ⟨faithful_comma, by simp [Token.ofLexeme]⟩
  · obtain ⟨c, -, rfl⟩ := List.mem_map.mp hpart
    unfold tokens at ht
    cases hlast : c.last with
    | none =>
        simp only [hlast, Option.elim_none, List.cons_append, List.nil_append, List.mem_cons,
          List.not_mem_nil, or_false] at ht
        rcases ht with rfl | rfl | rfl | rfl
        · exact hname _
        · exact htime _
        · exact hdash
        · exact htime _
    | some d =>
        simp only [hlast, Option.elim_some, List.cons_append, List.nil_append, List.mem_cons,
          List.not_mem_nil, or_false] at ht
        rcases ht with rfl | rfl | rfl | rfl | rfl | rfl
        · exact hname _
        · exact hdash
        · exact hname _
        · exact htime _
        · exact hdash
        · exact htime _

end Clause

/-! ### From tokens to clauses -/

namespace Lexicon

variable {L : Lexicon}

theorem Faithful.shownTime?_eq {t : Token Symbol} (h : L.Faithful t) :
    t.shownTime? = TimeOfDay.ofChars? t.chars := by
  rw [h.eq_ofLexeme, Token.chars_ofLexeme]
  exact congrArg TimeOfDay.ofChars? String.toList_ofList

/-- A time token that shows a time shows it as a clock does. -/
theorem Faithful.chars_of_shownTime? {t : Token Symbol} (h : L.Faithful t) (hs : t.symbol = .time)
    {time : TimeOfDay} (ht : t.shownTime? = some time) : t.chars = time.clockText.toList := by
  have hshows := h.shows_chars
  rw [hs] at hshows
  obtain ⟨hour, hh, minute, hm, hchars⟩ := Pattern.clock_accepts_iff.mp hshows
  rw [h.shownTime?_eq, hchars] at ht
  rw [hchars]
  exact (TimeOfDay.clockText_of_ofChars? hh hm ht).2.symm

/-- **A token that is not blank is known by its symbol and its time.** -/
theorem Faithful.eq_of_symbol_eq {t u : Token Symbol} (ht : L.Faithful t) (hu : L.Faithful u)
    (hblank : t.symbol ≠ .whiteSpace) (hs : t.symbol = u.symbol)
    (htime : t.symbol = .time → ∃ time, t.shownTime? = some time ∧ u.shownTime? = some time) :
    t = u := by
  have hchars : t.chars = u.chars := by
    have hshows := ht.shows_chars
    have hshows' := hu.shows_chars
    rw [← hs] at hshows'
    cases hsym : t.symbol with
    | time =>
        obtain ⟨time, h, h'⟩ := htime hsym
        rw [ht.chars_of_shownTime? hsym h, hu.chars_of_shownTime? (hs ▸ hsym) h']
    | day d | rangeIndicator | scheduleSeparator =>
        rw [hsym] at hshows hshows'
        exact Eq.trans hshows (Eq.symm hshows')
    | whiteSpace => exact absurd hsym hblank
    | _ =>
        rw [hsym] at hshows
        exact hshows.elim
  calc t = .ofLexeme t.symbol (String.ofList t.chars) := ht.eq_ofLexeme
    _ = .ofLexeme u.symbol (String.ofList u.chars) := by rw [hs, hchars]
    _ = u := hu.eq_ofLexeme.symm

/-- **Tokens that are not blank are known by their symbols and their times.** -/
theorem tokens_eq_of_symbols_eq {ts us : List (Token Symbol)}
    (hts : ∀ t ∈ ts, L.Faithful t ∧ t.symbol ≠ .whiteSpace) (hus : ∀ u ∈ us, L.Faithful u)
    (hs : ts.map Token.symbol = us.map Token.symbol) {times : List TimeOfDay}
    (ht : timesOf ts = times.map some) (hu : timesOf us = times.map some) : ts = us := by
  induction ts generalizing us times with
  | nil => exact (List.map_eq_nil_iff.mp hs.symm).symm
  | cons t ts ih =>
      obtain ⟨u, us, rfl, hsu, hsus⟩ := List.map_eq_cons_iff.mp hs.symm
      obtain ⟨⟨hft, hblank⟩, hfts⟩ := List.forall_mem_cons.mp hts
      obtain ⟨hfu, hfus⟩ := List.forall_mem_cons.mp hus
      by_cases htime : t.symbol = .time
      · rw [timesOf_cons_of_time htime] at ht
        rw [timesOf_cons_of_time (hsu.trans htime)] at hu
        obtain ⟨time, times, rfl, hshows, htimes⟩ := List.map_eq_cons_iff.mp ht.symm
        obtain ⟨hshows', htimes'⟩ := List.cons.inj hu
        rw [hft.eq_of_symbol_eq hfu hblank hsu.symm fun _ => ⟨time, hshows.symm, hshows'⟩,
          ih hfts hfus hsus.symm htimes.symm htimes']
      · rw [timesOf_cons_of_ne htime] at ht
        rw [timesOf_cons_of_ne fun hc => htime (hsu.symm.trans hc)] at hu
        rw [hft.eq_of_symbol_eq hfu hblank hsu.symm fun hc => absurd hc htime,
          ih hfts hfus hsus.symm ht hu]

/--
**Tokens with the symbols of clauses are the tokens of clauses**, if they are what their
lexemes show and all their times can be read.
-/
theorem exists_listTokens {ts : List (Token Symbol)} {cs : List Clause}
    (hs : ts.map Token.symbol = Clause.listSymbols cs)
    (hts : ∀ t ∈ ts, L.Faithful t ∧ t.symbol ≠ .whiteSpace)
    (hnone : ts.find? Token.isUnusable = none) : ∃ cs', ts = Clause.listTokens L cs' := by
  obtain ⟨cs', hcs', htimes⟩ := Clause.exists_clauses_of_usable hs hnone
  have hsymbols : ts.map Token.symbol = (Clause.listTokens L cs').map Token.symbol := by
    rw [Clause.map_symbol_listTokens, hcs', hs]
  exact ⟨cs', tokens_eq_of_symbols_eq hts (fun u hu => (Clause.faithful_of_mem_listTokens hu).1)
    hsymbols htimes (Clause.timesOf_listTokens cs')⟩

end Lexicon

end BusinessHours

/-
What is wrong with seven names.

Names make a lexicon if none is empty, no two are equal and none is a token of another kind.
The three conditions are not looked at together.  A name that is empty, or equal to one before
it, cannot join the patterns of those; then the comma, whose pattern is written as the escaped
comma is, cannot join if a name is one; and only then names are held against the patterns of
every language.  So the fault that is reported is the first of the first kind, or else a comma,
or else the first of the last kind.

Names that are written alike as sources are equal, and of the other sources a name can only be
written as the comma is.  That is why a dash among the names is found last, and a comma before it.
-/
import BusinessHours.Hours.Locale
import BusinessHours.Proofs.Hours.ShortestTokens
import BusinessHours.Proofs.Hours.Sources
import Mathlib.Data.List.Nodup
import Mathlib.Data.Set.List
import Mathlib.Order.WellFounded

namespace BusinessHours

/-! ### Names in order -/

/-- The days before a day. -/
def Weekday.before (d : Weekday) : List Weekday := all.filter fun e => e.ordinal < d.ordinal

@[simp] theorem Weekday.mem_before {d e : Weekday} : e ∈ d.before ↔ e.ordinal < d.ordinal := by
  simp [before]

theorem Weekday.length_before (d : Weekday) : d.before.length + 1 = d.ordinal := by
  cases d <;> rfl

theorem Weekday.nodup_before (d : Weekday) : d.before.Nodup := by
  cases d <;> decide

theorem Weekday.exists_all_eq (d : Weekday) : ∃ after, all = d.before ++ d :: after := by
  cases d <;> exact ⟨_, rfl⟩

theorem Weekday.ordinal_injective {d e : Weekday} (h : d.ordinal = e.ordinal) : d = e := by
  refine index_injective (Fin.ext ?_)
  unfold ordinal at h
  omega

/-- Of some days one is the first. -/
theorem Weekday.exists_first {P : Weekday → Prop} (h : ∃ d, P d) :
    ∃ d, P d ∧ ∀ e, e.ordinal < d.ordinal → ¬ P e := by
  obtain ⟨d, hd, hfirst⟩ := (measure Weekday.ordinal).wf.has_min {d | P d} h
  exact ⟨d, hd, fun e he hP => hfirst e hP he⟩

/-- A name that can join the names before it: it is not empty, and none of them. -/
def Joins (names : Weekly String) (d : Weekday) : Prop :=
  names.get d ≠ "" ∧ ∀ e, e.ordinal < d.ordinal → names.get e ≠ names.get d

/-- **No two names that join are equal.** -/
theorem Joins.eq_of_eq {names : Weekly String} {d e : Weekday} (hd : Joins names d)
    (he : Joins names e) (h : names.get d = names.get e) : d = e := by
  rcases Nat.lt_trichotomy d.ordinal e.ordinal with hlt | hsame | hlt
  · exact absurd h (he.2 d hlt)
  · exact Weekday.ordinal_injective hsame
  · exact absurd h.symm (hd.2 e hlt)

/-! ### Patterns that join -/

/-- The patterns of the names of some days. -/
def namePatterns (names : Weekly String) (days : List Weekday) : List Pattern :=
  days.map fun d => .literal (names.get d).toList

theorem map_fst_lexiconEntries (names : Weekly String) :
    (lexiconEntries names).map Prod.fst
      = namePatterns names Weekday.all ++ Pattern.shared.map Prod.fst := by
  rw [lexiconEntries, Weekly.entries, List.map_append, List.map_map, List.map_map]
  rfl

theorem mem_map_source_namePatterns_iff {names : Weekly String} {days : List Weekday}
    {cs : List Char} : cs ∈ (namePatterns names days).map Pattern.source ↔
      ∃ d ∈ days, escape (names.get d).toList = cs := by
  rw [namePatterns, List.map_map, List.mem_map]
  rfl

/-- Two names are written alike as sources if they are equal. -/
theorem escape_name_mem_iff {names : Weekly String} {days : List Weekday} {d : Weekday} :
    escape (names.get d).toList ∈ (namePatterns names days).map Pattern.source ↔
      ∃ e ∈ days, names.get e = names.get d := by
  rw [mem_map_source_namePatterns_iff]
  refine exists_congr fun e => and_congr_right fun _ => ?_
  exact ⟨fun h => String.toList_inj.mp (escape_injective h), fun h => by rw [h]⟩

/-- What stands behind patterns that join is held against all of them. -/
theorem joiningFault?_append {taken : List (List Char)} {ps : List Pattern}
    (h : joiningFault? taken ps = none) (qs : List Pattern) :
    joiningFault? taken (ps ++ qs) = joiningFault? (taken ++ ps.map Pattern.source) qs := by
  induction ps generalizing taken with
  | nil => rw [List.map_nil, List.append_nil, List.nil_append]
  | cons p ps ih =>
      unfold joiningFault? at h
      split at h
      · simp at h
      · rename_i hp
        split at h
        · simp at h
        · rename_i hfresh
          rw [List.cons_append, joiningFault?, if_neg hp, if_neg hfresh, ih h, List.map_cons,
            List.append_assoc, List.singleton_append]

theorem literal_name_eq_iff {names : Weekly String} {d : Weekday} :
    Pattern.literal (names.get d).toList = .literal [] ↔ names.get d = "" := by
  rw [Pattern.literal.injEq, String.toList_eq_nil_iff]

/-- **Behind names that join, a pattern is held against all of these.** -/
theorem joiningFault?_namePatterns_append {names : Weekly String} {days : List Weekday}
    (hdays : days.Nodup) (h : ∀ d ∈ days, Joins names d) (rest : List Pattern) :
    joiningFault? [] (namePatterns names days ++ rest)
      = joiningFault? ((namePatterns names days).map Pattern.source) rest := by
  have hjoin : joiningFault? [] (namePatterns names days) = none := by
    refine joiningFault?_eq_none_iff.mpr ⟨fun p hp => ?_, fun p _ => List.not_mem_nil, ?_⟩
    · obtain ⟨d, hd, rfl⟩ := List.mem_map.mp hp
      rw [ne_eq, literal_name_eq_iff]
      exact (h d hd).1
    · rw [namePatterns, List.map_map]
      refine List.Nodup.map_on (fun d hd e he heq => ?_) hdays
      exact (h d hd).eq_of_eq (h e he) (String.toList_inj.mp (escape_injective heq))
  rw [joiningFault?_append hjoin, List.nil_append]

/-! ### The fault that is reported -/

/-- **The first name that does not join is reported**, by its place or by itself. -/
theorem joiningFault?_of_not_joins {names : Weekly String} {d : Weekday} (hd : ¬ Joins names d)
    (hbefore : ∀ e, e.ordinal < d.ordinal → Joins names e) (rest : List Pattern) :
    joiningFault? [] (namePatterns names Weekday.all ++ rest)
      = some (if names.get d = "" then .emptyWeekdayName d.ordinal
          else .duplicatePattern (names.get d)) := by
  obtain ⟨after, hall⟩ := d.exists_all_eq
  have hsplit : namePatterns names Weekday.all ++ rest = namePatterns names d.before ++
      .literal (names.get d).toList :: (namePatterns names after ++ rest) := by
    rw [hall, namePatterns, List.map_append, List.map_cons, List.append_assoc, List.cons_append]
    rfl
  rw [hsplit, joiningFault?_namePatterns_append d.nodup_before
    fun e he => hbefore e (Weekday.mem_before.mp he), joiningFault?]
  by_cases hempty : names.get d = ""
  · rw [if_pos (literal_name_eq_iff.mpr hempty), if_pos hempty, List.length_map, namePatterns,
      List.length_map, d.length_before]
  · have hequal : ∃ e ∈ d.before, names.get e = names.get d := by
      by_contra hnone
      refine hd ⟨hempty, fun e he heq => hnone ⟨e, Weekday.mem_before.mpr he, heq⟩⟩
    rw [if_neg (mt literal_name_eq_iff.mp hempty), if_neg hempty]
    have hmem : Pattern.source (.literal (names.get d).toList) ∈
        (namePatterns names d.before).map Pattern.source := escape_name_mem_iff.mpr hequal
    rw [if_pos hmem, Pattern.label, String.ofList_toList]

/-- **Behind names that join, only the comma can fail to join**, if it is one of them. -/
theorem joiningFault?_of_joins {names : Weekly String} (h : ∀ d, Joins names d) :
    joiningFault? [] (namePatterns names Weekday.all ++ Pattern.shared.map Prod.fst)
      = if Pattern.comma.source ∈ (namePatterns names Weekday.all).map Pattern.source
        then some (.duplicatePattern ",") else none := by
  -- the comma is the last of the patterns of every language
  have hunescaped : joiningFault? ((namePatterns names Weekday.all).map Pattern.source)
      unescapedPatterns = none := by
    refine joiningFault?_eq_none_iff.mpr ⟨by decide, fun p hp hmem => ?_, ?_⟩
    · obtain ⟨d, -, hd⟩ := mem_map_source_namePatterns_iff.mp hmem
      exact escape_ne_source hp _ hd
    · decide +kernel
  have hnew : Pattern.comma.source ∉ unescapedPatterns.map Pattern.source := by decide +kernel
  rw [joiningFault?_namePatterns_append (by decide) fun d _ => h d]
  show joiningFault? _ (unescapedPatterns ++ [.comma]) = _
  rw [joiningFault?_append hunescaped, joiningFault?, if_neg (by decide)]
  simp only [List.mem_append, hnew, or_false]
  rfl

theorem comma_source_mem_iff {names : Weekly String} :
    Pattern.comma.source ∈ (namePatterns names Weekday.all).map Pattern.source ↔
      ∃ d, names.get d = "," := by
  rw [mem_map_source_namePatterns_iff]
  have hcomma : Pattern.comma.source = escape ",".toList := by decide +kernel
  constructor
  · intro h
    obtain ⟨d, -, hd⟩ := h
    exact ⟨d, String.toList_inj.mp (escape_injective (hd.trans hcomma))⟩
  · intro h
    obtain ⟨d, hd⟩ := h
    exact ⟨d, Weekday.mem_all d, by rw [hd, hcomma]⟩

/-- **Of names that join, those overlap that are tokens in every language.** -/
theorem overlaps_iff_reserved {names : Weekly String} (h : ∀ d, Joins names d) (d : Weekday) :
    ((lexiconEntries names).any fun (p, s) => s != .day d && p.accepts (names.get d).toList) = true
      ↔ Reserved (names.get d).toList := by
  rw [List.any_eq_true, reserved_iff_exists_shared]
  constructor
  · intro hany
    obtain ⟨⟨p, s⟩, hmem, hoverlap⟩ := hany
    obtain ⟨hs, haccepts⟩ : (s != .day d) = true ∧ p.accepts (names.get d).toList = true :=
      Bool.and_eq_true_iff.mp hoverlap
    rcases Lexicon.mem_lexiconEntries_iff.mp hmem with ⟨e, rfl, rfl⟩ | hshared
    · have hequal : names.get e = names.get d := String.toList_inj.mp (beq_iff_eq.mp haccepts)
      rw [(h e).eq_of_eq (h d) hequal, bne_self_eq_false] at hs
      simp at hs
    · exact ⟨(p, s), hshared, haccepts⟩
  · intro hshared
    obtain ⟨⟨p, s⟩, hmem, haccepts⟩ := hshared
    have hs : s ≠ .day d := by
      rintro rfl
      simp [Pattern.shared] at hmem
    refine ⟨(p, s), List.mem_append_right _ hmem, ?_⟩
    exact Bool.and_eq_true_iff.mpr ⟨bne_iff_ne.mpr hs, haccepts⟩

/-- **The first name that is a token in every language is reported**, if all of them join. -/
theorem overlapFault?_of_reserved {names : Weekly String} (h : ∀ d, Joins names d) {d : Weekday}
    (hd : Reserved (names.get d).toList)
    (hbefore : ∀ e, e.ordinal < d.ordinal → ¬ Reserved (names.get e).toList) :
    overlapFault? names = some (.duplicatePattern (names.get d)) := by
  obtain ⟨after, hall⟩ := d.exists_all_eq
  unfold overlapFault?
  rw [Option.map_eq_some_iff]
  refine ⟨(d, names.get d), ?_, rfl⟩
  rw [List.find?_eq_some_iff_append]
  refine ⟨(overlaps_iff_reserved h d).mpr hd, d.before.map fun e => (e, names.get e),
    after.map fun e => (e, names.get e), ?_, ?_⟩
  · rw [Weekly.entries, hall, List.map_append, List.map_cons]
  · intro q hq
    obtain ⟨e, he, rfl⟩ := List.mem_map.mp hq
    rw [Bool.not_eq_true', Bool.eq_false_iff]
    intro hoverlap
    exact hbefore e (Weekday.mem_before.mp he) ((overlaps_iff_reserved h e).mp hoverlap)

theorem overlapFault?_eq_none {names : Weekly String} (h : ∀ d, Joins names d)
    (hnone : ∀ d, ¬ Reserved (names.get d).toList) : overlapFault? names = none := by
  unfold overlapFault?
  rw [Option.map_eq_none_iff, List.find?_eq_none]
  intro q hq hoverlap
  obtain ⟨d, -, rfl⟩ := List.mem_map.mp hq
  exact hnone d ((overlaps_iff_reserved h d).mp hoverlap)

/-! ### All that can be wrong -/

/-- What is wrong with seven names, the first thing that applies. -/
inductive NameFault (names : Weekly String) : LexiconError → Prop
  /-- The first name that does not join is empty. -/
  | empty {d : Weekday} (hempty : names.get d = "")
      (hbefore : ∀ e, e.ordinal < d.ordinal → Joins names e) :
      NameFault names (.emptyWeekdayName d.ordinal)
  /-- The first name that does not join is one of those before it. -/
  | repeated {d e : Weekday} (hne : names.get d ≠ "") (he : e.ordinal < d.ordinal)
      (hequal : names.get e = names.get d)
      (hbefore : ∀ e, e.ordinal < d.ordinal → Joins names e) :
      NameFault names (.duplicatePattern (names.get d))
  /-- All names join, and one is a comma. -/
  | comma {d : Weekday} (hjoins : ∀ e, Joins names e) (hcomma : names.get d = ",") :
      NameFault names (.duplicatePattern ",")
  /-- All names join, none is a comma, and this is the first token in every language. -/
  | reserved {d : Weekday} (hjoins : ∀ e, Joins names e) (hcomma : ∀ e, names.get e ≠ ",")
      (hreserved : Reserved (names.get d).toList)
      (hbefore : ∀ e, e.ordinal < d.ordinal → ¬ Reserved (names.get e).toList) :
      NameFault names (.duplicatePattern (names.get d))

/-- **What is wrong with names is what is reported.** -/
theorem NameFault.fault?_eq {names : Weekly String} {e : LexiconError} (h : NameFault names e) :
    fault? names = some e := by
  rw [BusinessHours.fault?_eq, map_fst_lexiconEntries]
  cases h with
  | @empty d hempty hbefore =>
      have hd : ¬ Joins names d := fun hjoins => hjoins.1 hempty
      rw [joiningFault?_of_not_joins hd hbefore, if_pos hempty, Option.some_or]
  | @repeated d e hne he hequal hbefore =>
      have hd : ¬ Joins names d := fun hjoins => hjoins.2 e he hequal
      rw [joiningFault?_of_not_joins hd hbefore, if_neg hne, Option.some_or]
  | @comma d hjoins hcomma =>
      rw [joiningFault?_of_joins hjoins, if_pos (comma_source_mem_iff.mpr ⟨d, hcomma⟩),
        Option.some_or]
  | @reserved d hjoins hcomma hreserved hbefore =>
      have hnone : ¬ ∃ d, names.get d = "," := fun ⟨d, hd⟩ => hcomma d hd
      rw [joiningFault?_of_joins hjoins, if_neg (mt comma_source_mem_iff.mp hnone), Option.none_or,
        overlapFault?_of_reserved hjoins hreserved hbefore]

/-- **Names with which nothing is wrong join, and none is a token in every language.** -/
theorem exists_nameFault_or (names : Weekly String) :
    (∃ e, NameFault names e) ∨
      (∀ d, Joins names d) ∧ ∀ d, ¬ Reserved (names.get d).toList := by
  by_cases hjoins : ∀ d, Joins names d
  · by_cases hcomma : ∃ d, names.get d = ","
    · obtain ⟨d, hd⟩ := hcomma
      exact .inl ⟨_, .comma hjoins hd⟩
    · by_cases hreserved : ∃ d, Reserved (names.get d).toList
      · obtain ⟨d, hd, hbefore⟩ := Weekday.exists_first hreserved
        exact .inl ⟨_, .reserved hjoins (fun e he => hcomma ⟨e, he⟩) hd hbefore⟩
      · exact .inr ⟨hjoins, fun d hd => hreserved ⟨d, hd⟩⟩
  · obtain ⟨d, hd, hbefore⟩ := Weekday.exists_first (not_forall.mp hjoins)
    have hbefore' : ∀ e, e.ordinal < d.ordinal → Joins names e := fun e he =>
      not_not.mp (hbefore e he)
    by_cases hempty : names.get d = ""
    · exact .inl ⟨_, .empty hempty hbefore'⟩
    · obtain ⟨e, he, hequal⟩ : ∃ e, e.ordinal < d.ordinal ∧ names.get e = names.get d := by
        by_contra hnone
        exact hd ⟨hempty, fun e he hequal => hnone ⟨e, he, hequal⟩⟩
      exact .inl ⟨_, .repeated hempty he hequal hbefore'⟩

theorem fault?_eq_none {names : Weekly String} (hjoins : ∀ d, Joins names d)
    (hreserved : ∀ d, ¬ Reserved (names.get d).toList) : fault? names = none := by
  have hcomma : ¬ ∃ d, names.get d = "," := by
    intro h
    obtain ⟨d, hd⟩ := h
    apply hreserved d
    rw [hd]
    exact .comma
  rw [fault?_eq, map_fst_lexiconEntries, joiningFault?_of_joins hjoins,
    if_neg (mt comma_source_mem_iff.mp hcomma), Option.none_or,
    overlapFault?_eq_none hjoins hreserved]

theorem joins_iff {names : Weekly String} : (∀ d, Joins names d) ↔
    (∀ d, names.get d ≠ "") ∧ ∀ d e, names.get d = names.get e → d = e := by
  constructor
  · intro h
    exact ⟨fun d => (h d).1, fun d e => (h d).eq_of_eq (h e)⟩
  · intro h d
    refine ⟨h.1 d, fun e he hequal => ?_⟩
    rw [h.2 e d hequal] at he
    omega

namespace Lexicon

theorem ofNames?_eq_error_iff {names : Weekly String} {e : LexiconError} :
    ofNames? names = .error e ↔ NameFault names e := by
  have hfault : ofNames? names = .error e ↔ fault? names = some e := by
    unfold ofNames?
    split <;> simp_all
  rw [hfault]
  constructor
  · intro h
    rcases exists_nameFault_or names with ⟨e', he'⟩ | ⟨hjoins, hreserved⟩
    · rw [he'.fault?_eq] at h
      rwa [← Option.some.inj h]
    · rw [fault?_eq_none hjoins hreserved] at h
      simp at h
  · exact NameFault.fault?_eq

theorem ofNames?_eq_ok_iff {names : Weekly String} {L : Lexicon} :
    ofNames? names = .ok L ↔ L.names = names := by
  constructor
  · intro h
    unfold ofNames? at h
    split at h
    · simp at h
    · rw [← Except.ok.inj h]
  · rintro rfl
    have hfault := L.faultless
    unfold ofNames?
    split
    · simp_all
    · rfl

theorem exists_ofNames?_eq_ok_iff {names : Weekly String} : (∃ L, ofNames? names = .ok L) ↔
    (∀ d, Joins names d) ∧ ∀ d, ¬ Reserved (names.get d).toList := by
  constructor
  · intro h
    obtain ⟨L, hL⟩ := h
    rcases exists_nameFault_or names with ⟨e, he⟩ | hnone
    · rw [ofNames?_eq_error_iff.mpr he] at hL
      simp at hL
    · exact hnone
  · intro h
    exact ⟨⟨names, fault?_eq_none h.1 h.2⟩, ofNames?_eq_ok_iff.mpr rfl⟩

/-! ### What a candidate is, said for each kind -/

variable (L : Lexicon)

/-- **A candidate is matched by one pattern at most.** -/
theorem length_filter_accepts_le (cs : List Char) :
    (L.entries.filter fun q => q.1.accepts cs).length ≤ 1 := by
  have hsymbols : (L.entries.map Prod.snd).Nodup := by
    have hall : L.entries.map Prod.snd = Weekday.all.map .day ++ Pattern.shared.map Prod.snd := rfl
    rw [hall]
    decide
  -- two patterns that match would have different symbols, since no symbol has two patterns
  have hnodup := (List.filter_sublist (p := fun q => q.1.accepts cs).map Prod.snd).nodup hsymbols
  have hsame : ∀ q ∈ L.entries.filter (fun q => q.1.accepts cs),
      ∀ q' ∈ L.entries.filter (fun q => q.1.accepts cs), q.2 = q'.2 := by
    intro q hq q' hq'
    obtain ⟨hq, haccepts⟩ := List.mem_filter.mp hq
    obtain ⟨hq', haccepts'⟩ := List.mem_filter.mp hq'
    have hshows : L.Shows q.2 cs := shows_iff_exists_accepts.mpr ⟨q.1, hq, haccepts⟩
    exact hshows.unique (shows_iff_exists_accepts.mpr ⟨q'.1, hq', haccepts'⟩)
  generalize L.entries.filter (fun q => q.1.accepts cs) = matching at hnodup hsame ⊢
  match matching, hnodup, hsame with
  | [], _, _ => exact Nat.zero_le 1
  | [_], _, _ => exact Nat.le_refl 1
  | q :: q' :: rest, hnodup, hsame =>
      have heq := hsame q (by simp) q' (by simp)
      simp [heq] at hnodup

theorem token?_eq_ofLexeme_iff {s : Symbol} {text : String} :
    L.token? text.toList = some (.ofLexeme s text) ↔ L.Shows s text.toList := by
  rw [token?_eq_some_iff, String.ofList_toList]
  constructor
  · intro h
    obtain ⟨s', hs', heq⟩ := h
    rwa [(Token.mk.inj heq).1]
  · exact fun h => ⟨s, h, rfl⟩

theorem exists_shows_iff {cs : List Char} :
    (∃ s, L.Shows s cs) ↔ (∃ d, cs = (L.names.get d).toList) ∨ Reserved cs := by
  rw [reserved_iff_exists_shared]
  constructor
  · intro h
    obtain ⟨s, hs⟩ := h
    obtain ⟨p, hp, haccepts⟩ := shows_iff_exists_accepts.mp hs
    rcases mem_entries_iff.mp hp with ⟨d, rfl, -⟩ | hshared
    · exact .inl ⟨d, (beq_iff_eq.mp haccepts).symm⟩
    · exact .inr ⟨(p, s), hshared, haccepts⟩
  · intro h
    rcases h with ⟨d, hd⟩ | ⟨⟨p, s⟩, hshared, haccepts⟩
    · exact ⟨.day d, hd⟩
    · exact ⟨s, shows_iff_exists_accepts.mpr ⟨p, mem_entries_iff.mpr (.inr hshared), haccepts⟩⟩

theorem token?_eq_none_iff {cs : List Char} :
    L.token? cs = none ↔ (∀ d, cs ≠ (L.names.get d).toList) ∧ ¬ Reserved cs := by
  have hnone : L.token? cs = none ↔ ¬ ∃ s, L.Shows s cs := by
    rw [Option.eq_none_iff_forall_ne_some]
    constructor
    · intro h hs
      obtain ⟨s, hs⟩ := hs
      exact h _ (token?_eq_some_iff.mpr ⟨s, hs, rfl⟩)
    · intro h t ht
      obtain ⟨s, hs, -⟩ := token?_eq_some_iff.mp ht
      exact h ⟨s, hs⟩
  rw [hnone, exists_shows_iff, not_or, not_exists]

/--
**Which names make a lexicon, and what its tokens are.**  Seven names make one if none is empty,
no two are equal and none is a token in every language; otherwise what is wrong with them is
reported.  Each of the eleven patterns of a lexicon accepts what its source matches, and no two
accept the same candidate.  A name is the token of its day, the signs, the times and the blanks
are tokens of their own, and nothing else is a token.
-/
theorem ofNames?_exact (names : Weekly String) :
    ((∃ L, ofNames? names = .ok L) ↔ (∀ d, names.get d ≠ "") ∧
      (∀ d e, names.get d = names.get e → d = e) ∧ ∀ d, ¬ Reserved (names.get d).toList) ∧
    (∀ e, ofNames? names = .error e ↔ NameFault names e) ∧
    ∀ L, ofNames? names = .ok L → L.entries.length = 11 ∧
      (∀ q ∈ L.entries, ∀ cs, q.1.accepts cs = true ↔ Matches q.1.source cs) ∧
      ∀ text : String,
        (L.entries.filter fun q => q.1.accepts text.toList).length ≤ 1 ∧
        (∀ d, L.token? text.toList = some (.ofLexeme (.day d) text) ↔ text = names.get d) ∧
        (L.token? text.toList = some (.ofLexeme .rangeIndicator text) ↔ text = "-") ∧
        (L.token? text.toList = some (.ofLexeme .scheduleSeparator text) ↔ text = ",") ∧
        (L.token? text.toList = some (.ofLexeme .whiteSpace text) ↔
          ∃ c, text.toList = [c] ∧ isBlank c = true) ∧
        (L.token? text.toList = some (.ofLexeme .time text) ↔
          ∃ a b c d, text.toList = [a, b, ':', c, d] ∧ isAsciiDigit a = true ∧
            isAsciiDigit b = true ∧ isAsciiDigit c = true ∧ isAsciiDigit d = true) ∧
        (L.token? text.toList = none ↔
          (∀ d, text ≠ names.get d) ∧ ¬ Reserved text.toList) ∧
        ∀ t, L.token? text.toList = some t → t.lexeme = some text := by
  refine ⟨?_, fun e => ofNames?_eq_error_iff, fun L hL => ?_⟩
  · rw [exists_ofNames?_eq_ok_iff, joins_iff, and_assoc]
  · obtain rfl := ofNames?_eq_ok_iff.mp hL
    refine ⟨rfl, fun q _ => q.1.accepts_iff_matches, fun text => ?_⟩
    refine ⟨L.length_filter_accepts_le _, fun d => ?_, ?_, ?_, ?_, ?_, ?_, fun t ht => ?_⟩
    · rw [token?_eq_ofLexeme_iff]
      exact String.toList_inj
    · rw [token?_eq_ofLexeme_iff]
      show text.toList = "-".toList ↔ text = "-"
      exact String.toList_inj
    · rw [token?_eq_ofLexeme_iff]
      show text.toList = ",".toList ↔ text = ","
      exact String.toList_inj
    · exact L.token?_eq_ofLexeme_iff
    · rw [token?_eq_ofLexeme_iff]
      exact Pattern.clock_accepts_iff_digits
    · rw [token?_eq_none_iff]
      simp only [ne_eq, String.toList_inj]
    · obtain ⟨s, -, rfl⟩ := token?_eq_some_iff.mp ht
      rw [String.ofList_toList]
      rfl

/--
A dash comes before a comma among these names, but it is the comma that is reported; and among the
English names the first one is Monday.
-/
theorem ofNames?_dash_comma :
    ofNames? (.ofSeven "-" "b" "," "d" "e" "f" "g") = .error (.duplicatePattern ",") ∧
      ofNames? (.ofSeven "Mon" "Tue" "Wed" "Thu" "Fri" "Sat" "Sun") = .ok english ∧
      english.token? "Mon".toList = some (.ofLexeme (.day .monday) "Mon") := by
  have hjoins : ∀ d, Joins (.ofSeven "-" "b" "," "d" "e" "f" "g") d :=
    joins_iff.mpr ⟨fun d => by cases d <;> decide, fun d e => by cases d <;> cases e <;> decide⟩
  have hcomma := (ofNames?_exact (.ofSeven "-" "b" "," "d" "e" "f" "g")).2.1
  have hEnglish : ofNames? english.names = .ok english := ofNames?_eq_ok_iff.mpr rfl
  have hMonday := ((ofNames?_exact english.names).2.2 english hEnglish).2.2 "Mon"
  exact ⟨(hcomma _).mpr (@NameFault.comma _ .wednesday hjoins rfl), hEnglish,
    (hMonday.2.1 .monday).mpr rfl⟩

end Lexicon

end BusinessHours

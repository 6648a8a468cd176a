/-
Names that can be read.

A lexicon keeps its names apart as whole candidates.  A text is cut at the first token that its
window grows to, so this is not enough for a name to be read: if something shorter that it begins
with is a token, the window is cut off there, in every text.  A name is read from some text if
and only if it is read from itself, and that is so if and only if it is a shortest token.

Of the names of one lexicon some can be read then and others not.  The lexicon is built all the
same, since no candidate is a token of two symbols.
-/
import BusinessHours.Hours.Locale
import BusinessHours.Proofs.Hours.ShortestTokens

namespace BusinessHours

namespace Lexicon

variable {L : Lexicon}

theorem token?_name (L : Lexicon) (d : Weekday) :
    L.token? (L.names.get d).toList = some (.ofLexeme (.day d) (L.names.get d)) := by
  rw [token?_eq_some_iff]
  exact ⟨.day d, rfl, by rw [String.ofList_toList]⟩

/-- **A name that nothing shorter begins is a shortest token.** -/
theorem shortest_name_iff {d : Weekday} : L.Shortest (L.names.get d).toList ↔
    ∀ u v, (L.names.get d).toList = u ++ v → u ≠ [] → v ≠ [] → L.token? u = none := by
  constructor
  · intro h u v hname hu hv
    refine h.none_shorter u ⟨v, hname.symm⟩ hu fun hsame => hv ?_
    rw [← hsame] at hname
    exact List.append_right_eq_self.mp hname.symm
  · intro h
    refine ⟨L.name_ne_nil d, ?_, fun u hu hne hshorter => ?_⟩
    · rw [L.token?_name]
      rfl
    · obtain ⟨v, hname⟩ := hu
      refine h u v hname.symm hne fun hv => hshorter ?_
      rw [← hname, hv, List.append_nil]

/-- **A name that is a shortest token is read from itself.** -/
theorem Shortest.tokenize_name {d : Weekday} (h : L.Shortest (L.names.get d).toList) :
    L.tokenize (L.names.get d) = [.ofLexeme (.day d) (L.names.get d)] := by
  have hsegments : L.Segments (L.names.get d).toList [(L.names.get d).toList] [] :=
    { text_eq := by simp
      shortest := fun u hu => by rwa [List.mem_singleton.mp hu]
      unread := unread_nil }
  rw [tokenize_of_segments hsegments, tokensOf, List.filterMap_cons_some (L.token?_name d)]
  rfl

/-- **A name that is read from some text is a shortest token.** -/
theorem shortest_name_of_mem_tokenize {d : Weekday} {text : String} {t : Token Symbol}
    (ht : t ∈ L.tokenize text) (hd : t.symbol = .day d) : L.Shortest (L.names.get d).toList := by
  obtain ⟨pieces, rest, h⟩ := L.exists_segments text.toList
  rw [tokenize_of_segments h, List.mem_append] at ht
  rcases ht with ht | ht
  · obtain ⟨u, hu, s, hs, -, rfl⟩ := mem_tokensOf_iff.mp ht
    obtain rfl : s = .day d := hd
    obtain rfl : u = (L.names.get d).toList := hs
    exact h.shortest _ hu
  -- what is left over is unknown, and so it is no day
  · by_cases hrest : rest = []
    · subst hrest
      simp [cut] at ht
    · rw [cut_nil_of_ne_nil hrest, List.mem_singleton] at ht
      rw [ht] at hd
      simp [Token.ofLexeme] at hd

/--
**Which names can be read.**  A name is read from itself, as one token of its day, if and only if
nothing shorter that it begins with is a token; and only then is its day read from any text.
-/
theorem tokenize_name_iff (L : Lexicon) (d : Weekday) :
    (L.tokenize (L.names.get d) = [.ofLexeme (.day d) (L.names.get d)] ↔
      ∀ u v, (L.names.get d).toList = u ++ v → u ≠ [] → v ≠ [] → L.token? u = none) ∧
    ((∃ text, ∃ t ∈ L.tokenize text, t.symbol = .day d) ↔
      ∀ u v, (L.names.get d).toList = u ++ v → u ≠ [] → v ≠ [] → L.token? u = none) := by
  rw [← shortest_name_iff]
  refine ⟨⟨fun h => ?_, Shortest.tokenize_name⟩, fun h => ?_, fun h => ?_⟩
  · have hmem : .ofLexeme (.day d) (L.names.get d) ∈ L.tokenize (L.names.get d) := by simp [h]
    exact shortest_name_of_mem_tokenize hmem rfl
  · obtain ⟨text, t, ht, hd⟩ := h
    exact shortest_name_of_mem_tokenize ht hd
  · refine ⟨L.names.get d, .ofLexeme (.day d) (L.names.get d), ?_, rfl⟩
    simp [h.tokenize_name]

/-- Swedish names, of which Thursday's is cut so short that it begins the one for Friday. -/
def shortened : Lexicon where
  names := .ofSeven "mån" "tis" "ons" "to" "tors" "lör" "sön"
  faultless := by decide +kernel

/-- Thursday is read where Friday is written, and no text is read as Friday. -/
theorem shortened_tokenize_friday :
    ofNames? (.ofSeven "mån" "tis" "ons" "to" "tors" "lör" "sön") = .ok shortened ∧
    shortened.tokenize (shortened.names.get .friday)
      = [.ofLexeme (.day .thursday) "to", .ofLexeme .unknown "rs"] ∧
    shortened.tokenize (shortened.names.get .friday) ≠ [.ofLexeme (.day .friday) "tors"] ∧
    ∀ text, ∀ t ∈ shortened.tokenize text, t.symbol ≠ .day .friday := by
  refine ⟨rfl, by decide +kernel, by decide +kernel, fun text t ht hd => ?_⟩
  have hshortest := shortest_name_of_mem_tokenize ht hd
  have hnone := shortest_name_iff.mp hshortest "to".toList "rs".toList
  revert hnone
  decide +kernel

end Lexicon

end BusinessHours

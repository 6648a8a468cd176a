/-
Texts spaced anew.

The lexemes of a text can be written again with other blanks between them, and the tokens stay
the same.  A lexeme may hold blanks or begin like another one, so blanks do not make its ends
known; but it is a shortest token, and a window that grows along it is cut off at its end and
not before, whatever stands behind it.  In front of it only blanks are in the way, and these are
tokens on their own.

Unknown text is the last lexeme, if there is any.  No token begins it, so it is left over again.
Blanks behind it would become a part of it, and this is why only a text without it can be
lengthened by blanks.
-/
import BusinessHours.Hours.Locale
import BusinessHours.Proofs.Hours.Segmentation

namespace BusinessHours

/-- The lexemes of some tokens one behind the other, each with a gap in front of it. -/
def respaced (gaps : List String) (tokens : List (Token Symbol)) : String :=
  String.join (List.zipWith (fun gap t => gap ++ t.lexeme.getD "") gaps tokens)

theorem respaced_cons (gap : String) (gaps : List String) (t : Token Symbol)
    (tokens : List (Token Symbol)) :
    respaced (gap :: gaps) (t :: tokens)
      = gap ++ (t.lexeme.getD "" ++ respaced gaps tokens) := by
  unfold respaced
  rw [List.zipWith_cons_cons, String.join_cons, String.append_assoc]

theorem respaced_concat {gaps : List String} {tokens : List (Token Symbol)}
    (hlength : gaps.length = tokens.length) (gap : String) (t : Token Symbol) :
    respaced (gaps ++ [gap]) (tokens ++ [t])
      = respaced gaps tokens ++ (gap ++ t.lexeme.getD "") := by
  unfold respaced
  rw [List.zipWith_append hlength, String.join_append, List.zipWith_cons_cons, String.join_cons,
    List.zipWith_nil_left, String.join_nil, String.append_empty]

/-- **Lexemes with blank gaps show their tokens.** -/
theorem spaced_respaced {gaps : List String} {tokens : List (Token Symbol)}
    (hlength : gaps.length = tokens.length) (hblank : ∀ gap ∈ gaps, AllBlank gap.toList)
    {gap : String} (hgap : AllBlank gap.toList) :
    Spaced (tokens.map Token.chars) (respaced gaps tokens ++ gap).toList := by
  induction tokens generalizing gaps with
  | nil =>
      obtain rfl := List.length_eq_zero_iff.mp hlength
      rw [show respaced [] [] = "" from rfl, String.empty_append]
      exact .nil hgap
  | cons t tokens ih =>
      obtain ⟨front, gaps, rfl⟩ := List.exists_cons_of_length_eq_add_one hlength
      obtain ⟨hfront, hgaps⟩ := List.forall_mem_cons.mp hblank
      rw [respaced_cons, String.append_assoc, String.append_assoc, String.toList_append,
        String.toList_append]
      exact .cons hfront (ih (by simpa using hlength) hgaps)

namespace Lexicon

variable {L : Lexicon}

/-- **Tokens are cut off again, wherever blanks stand**, and a rest is left over again. -/
theorem tokenize_respaced_append {tokens : List (Token Symbol)}
    (htokens : ∀ t ∈ tokens, L.Cuttable t)
    {gaps : List String} (hlength : gaps.length = tokens.length)
    (hblank : ∀ gap ∈ gaps, AllBlank gap.toList) {gap : String} (hgap : AllBlank gap.toList)
    {rest : List Char} (hrest : L.Unread rest) :
    L.tokenize (respaced gaps tokens ++ (gap ++ String.ofList rest))
      = tokens ++ L.cut rest [] := by
  apply tokenize_of_cuttable htokens (spaced_respaced hlength hblank hgap) hrest
  rw [← String.append_assoc, String.toList_append, String.toList_ofList]

/--
**Blanks do not matter.**  The lexemes of a text, with any blanks in front of each, are cut into the
tokens of the text.  Blanks behind them do not matter either, unless the last token is unknown text.
-/
theorem tokenize_respaced (L : Lexicon) (text : String) {gaps : List String}
    (hlength : gaps.length = (L.tokenize text).length)
    (hblank : ∀ gap ∈ gaps, AllBlank gap.toList) :
    L.tokenize (respaced gaps (L.tokenize text)) = L.tokenize text ∧
      ((∀ t, (L.tokenize text).getLast? = some t → t.symbol ≠ .unknown) →
        ∀ gap : String, AllBlank gap.toList →
          L.tokenize (respaced gaps (L.tokenize text) ++ gap) = L.tokenize text) := by
  obtain ⟨pieces, rest, h⟩ := L.exists_segments text.toList
  have hcuttable : ∀ t ∈ L.tokensOf pieces, L.Cuttable t :=
    fun _ => cuttable_of_mem_tokensOf h.shortest
  have htokens := tokenize_of_segments h
  by_cases hrest : rest = []
  · subst hrest
    rw [show L.cut [] [] = [] from rfl, List.append_nil] at htokens
    rw [htokens] at hlength ⊢
    have hbehind : ∀ gap : String, AllBlank gap.toList →
        L.tokenize (respaced gaps (L.tokensOf pieces) ++ gap) = L.tokensOf pieces := by
      intro gap hgap
      have hcut := tokenize_respaced_append hcuttable hlength hblank hgap unread_nil
      rw [String.ofList_nil, String.append_empty] at hcut
      exact hcut.trans (List.append_nil _)
    refine ⟨?_, fun _ => hbehind⟩
    rw [← String.append_empty (s := respaced gaps _)]
    exact hbehind "" allBlank_nil
  · rw [cut_nil_of_ne_nil hrest] at htokens
    rw [htokens] at hlength ⊢
    rw [List.length_append, List.length_singleton] at hlength
    have hgaps : gaps ≠ [] := List.ne_nil_of_length_eq_add_one hlength
    obtain ⟨gaps, gap, rfl⟩ := (List.eq_nil_or_concat gaps).resolve_left hgaps
    rw [List.concat_eq_append] at hlength hblank ⊢
    have hfront : gaps.length = (L.tokensOf pieces).length := by simpa using hlength
    refine ⟨?_, fun hlast => absurd rfl (hlast _ List.getLast?_concat)⟩
    obtain ⟨hblank, hgap⟩ := List.forall_mem_append.mp hblank
    have hcut := tokenize_respaced_append hcuttable hfront hblank (hgap gap List.mem_cons_self)
      h.unread
    rw [respaced_concat hfront]
    rwa [cut_nil_of_ne_nil hrest] at hcut

/--
With other blanks a text is cut as before, though its unknown text holds a blank of its own; and so
is a text without unknown text with blanks behind it.
-/
theorem english_tokenize_respaced :
    english.tokenize "\t- Mon  Foo 1" = english.tokenize "-Mon Foo 1" ∧
      english.tokenize "Fri\t09:00 \t" = english.tokenize "Fri 09:00" := by
  have hunknown := tokenize_respaced english "-Mon Foo 1" (show ["\t", " ", "  "].length = _ by
    decide +kernel) (by decide)
  have hhours := tokenize_respaced english "Fri 09:00" (show ["", "\t"].length = _ by
    decide +kernel) (by decide)
  have hlast : (english.tokenize "Fri 09:00").getLast? = some (.ofLexeme .time "09:00") := by
    decide +kernel
  refine ⟨?_, ?_⟩
  · have htext : respaced ["\t", " ", "  "] (english.tokenize "-Mon Foo 1") = "\t- Mon  Foo 1" := by
      decide +kernel
    have hcut := hunknown.1
    rwa [htext] at hcut
  · have htext : respaced ["", "\t"] (english.tokenize "Fri 09:00") ++ " \t" = "Fri\t09:00 \t" := by
      decide +kernel
    have hcut := hhours.2 (by simp [hlast, Token.ofLexeme]) " \t" (by decide)
    rwa [htext] at hcut

end Lexicon

end BusinessHours

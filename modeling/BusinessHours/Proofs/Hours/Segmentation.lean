/-
Tokens and the texts they are cut from.

A text that is cut without a rest is its tokens one behind the other, blanks included, and
each token is one that its lexeme shows.  Without the blanks the text shows the remaining
lexemes with blanks around them.

The converse needs that every lexeme is a shortest token.  Then a window that grows along it is
no token before it is the whole lexeme, and blanks in front of it are cut off one by one.  In a
lexicon in which no token begins another one all tokens are shortest tokens, so every written
form of some tokens is cut into just these.
-/
import BusinessHours.Proofs.Hours.ShortestTokens

namespace BusinessHours

namespace Lexicon

variable {L : Lexicon}

/-- A token that was read from what shows its symbol. -/
def Faithful (L : Lexicon) (t : Token Symbol) : Prop :=
  ∃ cs, t = .ofLexeme t.symbol (String.ofList cs) ∧ L.Shows t.symbol cs

theorem Faithful.shows_chars {t : Token Symbol} (h : L.Faithful t) : L.Shows t.symbol t.chars := by
  obtain ⟨cs, ht, hs⟩ := h
  rw [ht, Token.chars_ofLexeme]
  exact hs

theorem Faithful.eq_ofLexeme {t : Token Symbol} (h : L.Faithful t) :
    t = .ofLexeme t.symbol (String.ofList t.chars) := by
  obtain ⟨cs, ht, -⟩ := h
  have hchars : t.chars = cs := by rw [ht, Token.chars_ofLexeme]
  rw [hchars]
  exact ht

theorem Faithful.symbol_ne {t : Token Symbol} (h : L.Faithful t) :
    t.symbol ≠ .endOfInput ∧ t.symbol ≠ .unknown := h.shows_chars.symbol_ne

/-- A token that is cut off wherever its lexeme stands behind tokens and blanks, and kept. -/
structure Cuttable (L : Lexicon) (t : Token Symbol) : Prop where
  faithful : L.Faithful t
  symbol_ne_whiteSpace : t.symbol ≠ .whiteSpace
  shortest : L.Shortest t.chars

/-! ### From a text to its tokens -/

theorem cuttable_of_mem_tokensOf {pieces : List (List Char)} (h : ∀ u ∈ pieces, L.Shortest u)
    {t : Token Symbol} (ht : t ∈ L.tokensOf pieces) : L.Cuttable t := by
  obtain ⟨u, hu, s, hs, hne, rfl⟩ := mem_tokensOf_iff.mp ht
  refine ⟨⟨u, rfl, hs⟩, hne, ?_⟩
  rw [Token.chars_ofLexeme]
  exact h u hu

/-- **The tokens of a text are shown by their lexemes**, but for unknown text behind them. -/
theorem exists_tokenize (L : Lexicon) (text : String) : ∃ front left,
    (∀ t ∈ front, L.Faithful t ∧ t.symbol ≠ .whiteSpace) ∧
      L.tokenize text = front ++ L.cut left [] ∧
      (left = [] → Spaced (front.map Token.chars) text.toList) := by
  obtain ⟨pieces, left, h⟩ := L.exists_segments text.toList
  refine ⟨L.tokensOf pieces, left, ?_, tokenize_of_segments h, ?_⟩
  · intro t ht
    have hcuttable := cuttable_of_mem_tokensOf h.shortest ht
    exact ⟨hcuttable.faithful, hcuttable.symbol_ne_whiteSpace⟩
  · rintro rfl
    rw [h.text_eq, List.append_nil]
    exact spaced_tokensOf h.shortest

/-- **A text without unknown tokens shows its tokens with blanks around them.** -/
theorem spaced_of_tokenize {text : String} (h : ∀ t ∈ L.tokenize text, t.symbol ≠ .unknown) :
    Spaced ((L.tokenize text).map Token.chars) text.toList ∧
      ∀ t ∈ L.tokenize text, L.Faithful t ∧ t.symbol ≠ .whiteSpace := by
  obtain ⟨front, left, hall, htokens, hspaced⟩ := L.exists_tokenize text
  by_cases hleft : left = []
  · subst hleft
    have hfront : L.tokenize text = front := htokens.trans (List.append_nil front)
    rw [hfront]
    exact ⟨hspaced rfl, hall⟩
  · rw [htokens, cut_nil_of_ne_nil hleft] at h
    exact absurd rfl (h _ List.mem_concat_self)

/-! ### From tokens to their texts -/

/-- No token is the beginning of another one. -/
def PrefixFree (L : Lexicon) : Prop :=
  ∀ u v, (L.classify? (u ++ v)).isSome = true → u ≠ [] → v ≠ [] → L.classify? u = none

theorem Shows.ne_nil {s : Symbol} {cs : List Char} (h : L.Shows s cs) : cs ≠ [] := by
  intro h
  subst h
  cases s with
  | day d => exact L.name_ne_nil d (Eq.symm h)
  | whiteSpace =>
      obtain ⟨c, hc, -⟩ := h
      simp at hc
  | _ => simp [Shows, Pattern.accepts] at h

/-- Where no token begins another one, every token is a shortest token. -/
theorem PrefixFree.shortest (hp : L.PrefixFree) {s : Symbol} {cs : List Char}
    (h : L.Shows s cs) : L.Shortest cs where
  ne_nil := h.ne_nil
  isToken := Option.isSome_iff_exists.mpr ⟨_, token?_eq_some_iff.mpr ⟨s, h, rfl⟩⟩
  none_shorter := by
    rintro u ⟨v, rfl⟩ hu hne
    have hv : v ≠ [] := by
      rintro rfl
      exact hne (List.append_nil u).symm
    have hclass : (L.classify? (u ++ v)).isSome = true := by
      rw [classify?_eq_some_iff.mpr h]
      rfl
    rw [token?, hp u v hclass hu hv, Option.map_none]

theorem cut_blank {c : Char} (hc : isBlank c = true) (rest : List Char) :
    L.cut [] (c :: rest) = .ofLexeme .whiteSpace (String.ofList [c]) :: L.cut [] rest := by
  have hshows : L.Shows .whiteSpace ([] ++ [c]) := ⟨c, rfl, hc⟩
  exact cut_of_token? (token?_eq_some_iff.mpr ⟨_, hshows, rfl⟩) rest

/-- Blanks in front of a text leave no tokens. -/
theorem filter_cut_gap {gap : List Char} (hg : AllBlank gap) (rest : List Char) :
    (L.cut [] (gap ++ rest)).filter (fun t => t.symbol ≠ .whiteSpace)
      = (L.cut [] rest).filter fun t => t.symbol ≠ .whiteSpace := by
  induction gap with
  | nil => rfl
  | cons c gap ih =>
      obtain ⟨hc, hgap⟩ := List.forall_mem_cons.mp hg
      rw [List.cons_append, cut_blank hc, List.filter_cons_of_neg (by simp [Token.ofLexeme])]
      exact ih hgap

theorem tokenize_of_allBlank {text : String} (h : AllBlank text.toList) :
    L.tokenize text = [] := by
  have hgap := filter_cut_gap (L := L) h []
  rwa [List.append_nil] at hgap

/--
**What shows some such tokens is cut into these**, wherever the blanks stand, and then what is
behind it is cut.
-/
theorem filter_cut_of_spaced {tokens : List (Token Symbol)}
    (htokens : ∀ t ∈ tokens, L.Cuttable t)
    {cs : List Char} (h : Spaced (tokens.map Token.chars) cs) (rest : List Char) :
    (L.cut [] (cs ++ rest)).filter (fun t => t.symbol ≠ .whiteSpace)
      = tokens ++ (L.cut [] rest).filter fun t => t.symbol ≠ .whiteSpace := by
  generalize hpieces : tokens.map Token.chars = pieces at h
  induction h generalizing tokens with
  | nil hg =>
      obtain rfl := List.map_eq_nil_iff.mp hpieces
      exact filter_cut_gap hg rest
  | cons hg _ ih =>
      obtain ⟨t, tokens, rfl, rfl, rfl⟩ := List.map_eq_cons_iff.mp hpieces
      obtain ⟨⟨ht, hne, hshortest⟩, hrest⟩ := List.forall_mem_cons.mp htokens
      have htoken : L.token? ([] ++ t.chars) = some t :=
        token?_eq_some_iff.mpr ⟨_, ht.shows_chars, ht.eq_ofLexeme⟩
      rw [List.append_assoc, List.append_assoc, filter_cut_gap hg,
        cut_of_shortest hshortest.ne_nil hshortest htoken,
        List.filter_cons_of_pos (by simp [hne]), ih hrest rfl, List.cons_append]

/--
**A text that shows some such tokens is cut into these**, and what stands behind it is left over
if no token begins it.
-/
theorem tokenize_of_cuttable {tokens : List (Token Symbol)}
    (htokens : ∀ t ∈ tokens, L.Cuttable t)
    {cs rest : List Char} (h : Spaced (tokens.map Token.chars) cs) (hrest : L.Unread rest)
    {text : String} (htext : text.toList = cs ++ rest) :
    L.tokenize text = tokens ++ L.cut rest [] := by
  have hleft : L.cut [] rest = L.cut rest [] := cut_of_unread hrest
  rw [tokenize, htext, filter_cut_of_spaced htokens h, hleft, filter_cut_nil]

/-- **In a prefix free lexicon every written form of some tokens is cut into these.** -/
theorem tokenize_of_spaced (hp : L.PrefixFree) {tokens : List (Token Symbol)}
    (htokens : ∀ t ∈ tokens, L.Faithful t ∧ t.symbol ≠ .whiteSpace) {text : String}
    (h : Spaced (tokens.map Token.chars) text.toList) : L.tokenize text = tokens := by
  have hcuttable : ∀ t ∈ tokens, L.Cuttable t := by
    intro t ht
    obtain ⟨hfaithful, hne⟩ := htokens t ht
    exact ⟨hfaithful, hne, hp.shortest hfaithful.shows_chars⟩
  have hcut := tokenize_of_cuttable hcuttable h unread_nil (List.append_nil text.toList).symm
  exact hcut.trans (List.append_nil tokens)

/-! ### Lexicons that are prefix free -/

/-- A character with which none of the shared patterns begins. -/
def isPlain (c : Char) : Bool := !(isAsciiDigit c || isBlank c || c == '-' || c == ',')

/-- How a token begins tells a name, a time and a single character apart. -/
theorem Shows.cases_head {s : Symbol} {c : Char} {w : List Char} (h : L.Shows s (c :: w)) :
    (∃ d, c :: w = (L.names.get d).toList) ∨ (isAsciiDigit c = true ∧ w.length = 4) ∨
      (isAsciiDigit c = false ∧ isPlain c = false ∧ w = []) := by
  cases s with
  | day d => exact .inl ⟨d, h⟩
  | time =>
      obtain ⟨hour, hh, minute, -, hw⟩ := Pattern.clock_accepts_iff.mp h
      obtain ⟨rfl, rfl⟩ := List.cons.inj hw
      exact .inr (.inl ⟨isAsciiDigit_iff.mpr ⟨hour / 10, by omega, rfl⟩, rfl⟩)
  | rangeIndicator =>
      obtain ⟨rfl, rfl⟩ := List.cons.inj h
      exact .inr (.inr (by decide))
  | whiteSpace =>
      obtain ⟨c', hc, hblank⟩ := h
      obtain ⟨rfl, rfl⟩ := List.cons.inj hc
      refine .inr (.inr ⟨?_, by simp [isPlain, hblank], rfl⟩)
      cases hdigit : isAsciiDigit c with
      | false => rfl
      | true =>
          obtain ⟨n, hn, rfl⟩ := isAsciiDigit_iff.mp hdigit
          rw [isBlank_digitChar hn] at hblank
          simp at hblank
  | scheduleSeparator =>
      obtain ⟨rfl, rfl⟩ := List.cons.inj h
      exact .inr (.inr (by decide))
  | _ => exact h.elim

/--
**No token begins another one** if no name begins another name, and no name begins as a token
that is no name does.
-/
theorem prefixFree_of_names (hplain : ∀ d, (L.names.get d).toList.head?.all isPlain = true)
    (hnames : ∀ d e, (L.names.get d).toList <+: (L.names.get e).toList → d = e) :
    L.PrefixFree := by
  intro u v h hu hv
  obtain ⟨c, u, rfl⟩ := List.exists_cons_of_ne_nil hu
  rw [List.cons_append] at h
  obtain ⟨s', hs'⟩ := Option.isSome_iff_exists.mp h
  have hlong := (classify?_eq_some_iff.mp hs').cases_head
  have hname : ∀ {w}, (∃ d, c :: w = (L.names.get d).toList) → isPlain c = true := by
    rintro w ⟨d, hd⟩
    have hhead := hplain d
    rwa [← hd] at hhead
  have hdigit : isAsciiDigit c = true → isPlain c = false := by
    intro hc
    simp [isPlain, hc]
  cases hclass : L.classify? (c :: u) with
  | none => rfl
  | some s =>
      exfalso
      rcases (classify?_eq_some_iff.mp hclass).cases_head with hd | ⟨hc, hlength⟩ | ⟨hc, hp, rfl⟩
      · have hp := hname hd
        rcases hlong with he | ⟨hc', -⟩ | ⟨-, hp', -⟩
        · obtain ⟨d, hd⟩ := hd
          obtain ⟨e, he⟩ := he
          obtain rfl := hnames d e ⟨v, by rw [← hd, ← he, List.cons_append]⟩
          have hsame := (List.cons.inj (he.trans hd.symm)).2
          exact hv (List.append_right_eq_self.mp hsame)
        · simp [hdigit hc'] at hp
        · simp [hp'] at hp
      · rcases hlong with he | ⟨-, hlength'⟩ | ⟨hc', -⟩
        · have hp := hname he
          simp [hdigit hc] at hp
        · rw [List.length_append] at hlength'
          exact hv (List.length_eq_zero_iff.mp (by omega))
        · simp [hc'] at hc
      · rcases hlong with he | ⟨hc', -⟩ | ⟨-, -, hnil⟩
        · have hp' := hname he
          simp [hp] at hp'
        · simp [hc] at hc'
        · exact hv hnil

end Lexicon

end BusinessHours

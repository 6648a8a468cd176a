/-
Shortest tokens.

A window is cut off as soon as it is a token, so what is cut off is a *shortest* token: none of
its proper beginnings is one.  What is left when the text ends is a text that no token begins.

A text can be written in only one way as shortest tokens, one behind the other, and a rest that
no token begins.  Of two first pieces one would begin the other, and a first piece would begin
the rest.  So whatever cuts a text in this way finds the same pieces, and a lexicon may have names
that begin each other, or hold blanks and dashes, without making the tokens of a text doubtful.
-/
import BusinessHours.Hours.Clause
import BusinessHours.Hours.Segmentation
import BusinessHours.Proofs.Hours.Lexicon

namespace BusinessHours

/-- The characters a token was read from. -/
def Token.chars {σ : Type} (t : Token σ) : List Char := (t.lexeme.getD "").toList

@[simp] theorem Token.chars_ofLexeme {σ : Type} (s : σ) (cs : List Char) :
    (Token.ofLexeme s (String.ofList cs)).chars = cs := String.toList_ofList

theorem Spaced.blank_cons {pieces : List (List Char)} {text : List Char} {c : Char}
    (hc : isBlank c = true) (h : Spaced pieces text) : Spaced pieces (c :: text) := by
  have hgap : ∀ {gap : List Char}, AllBlank gap → AllBlank (c :: gap) := by
    intro gap hg
    exact List.forall_mem_cons.mpr ⟨hc, hg⟩
  cases h with
  | nil hg => exact .nil (hgap hg)
  | cons hg hr =>
      rw [← List.cons_append]
      exact .cons (hgap hg) hr

theorem allBlank_nil : AllBlank [] := by
  intro c hc
  simp at hc

/-- A further piece may stand directly behind a text. -/
theorem Spaced.concat {pieces : List (List Char)} {text : List Char} (h : Spaced pieces text)
    (last : List Char) : Spaced (pieces ++ [last]) (text ++ last) := by
  induction h with
  | nil hg =>
      have hlast : Spaced [last] (_ ++ (last ++ [])) := .cons hg (.nil allBlank_nil)
      rwa [List.append_nil] at hlast
  | cons hg _ ih =>
      rw [List.append_assoc, List.append_assoc]
      exact .cons hg ih

namespace Lexicon

variable {L : Lexicon}

/-- No token begins the text. -/
def Unread (L : Lexicon) (cs : List Char) : Prop :=
  ∀ u, u <+: cs → u ≠ [] → L.token? u = none

/-- The text is a token, and nothing shorter that it begins with is one. -/
structure Shortest (L : Lexicon) (cs : List Char) : Prop where
  ne_nil : cs ≠ []
  isToken : (L.token? cs).isSome = true
  none_shorter : ∀ u, u <+: cs → u ≠ [] → u ≠ cs → L.token? u = none

/-- The text is some pieces and a rest, one behind the other. -/
structure Segments (L : Lexicon) (text : List Char) (pieces : List (List Char))
    (rest : List Char) : Prop where
  text_eq : text = pieces.flatten ++ rest
  /-- Each piece is a shortest token. -/
  shortest : ∀ u ∈ pieces, L.Shortest u
  /-- No token begins the rest. -/
  unread : L.Unread rest

theorem token?_eq_some_iff {cs : List Char} {t : Token Symbol} :
    L.token? cs = some t ↔ ∃ s, L.Shows s cs ∧ t = .ofLexeme s (String.ofList cs) := by
  unfold token?
  rw [Option.map_eq_some_iff]
  simp only [classify?_eq_some_iff, eq_comm (a := t)]

theorem Shortest.exists_shows {cs : List Char} (h : L.Shortest cs) :
    ∃ s, L.Shows s cs ∧ L.token? cs = some (.ofLexeme s (String.ofList cs)) := by
  obtain ⟨t, ht⟩ := Option.isSome_iff_exists.mp h.isToken
  obtain ⟨s, hs, rfl⟩ := token?_eq_some_iff.mp ht
  exact ⟨s, hs, ht⟩

/-! ### Windows -/

theorem unread_nil : L.Unread [] := by
  intro u hu hne
  exact absurd (List.prefix_nil.mp hu) hne

/-- What begins a window that has grown is the window or begins what it was. -/
theorem Unread.grow {window : List Char} (hw : L.Unread window) {c : Char}
    (h : L.token? (window ++ [c]) = none) : L.Unread (window ++ [c]) := by
  intro u hu hne
  rcases List.prefix_concat_iff.mp hu with rfl | hu
  · exact h
  · exact hw u hu hne

/-- **A window that has grown to a token is a shortest token.** -/
theorem Unread.shortest {window : List Char} (hw : L.Unread window) {c : Char} {t : Token Symbol}
    (h : L.token? (window ++ [c]) = some t) : L.Shortest (window ++ [c]) where
  ne_nil := by simp
  isToken := by
    rw [h]
    rfl
  none_shorter := by
    intro u hu hne hshorter
    exact hw u ((List.prefix_concat_iff.mp hu).resolve_left hshorter) hne

/-! ### One way to cut a text -/

theorem Segments.cons {u text rest : List Char} {pieces : List (List Char)} (hu : L.Shortest u)
    (h : L.Segments text pieces rest) : L.Segments (u ++ text) (u :: pieces) rest where
  text_eq := by rw [h.text_eq, List.flatten_cons, List.append_assoc]
  shortest := List.forall_mem_cons.mpr ⟨hu, h.shortest⟩
  unread := h.unread

theorem Segments.uncons {u text rest : List Char} {pieces : List (List Char)}
    (h : L.Segments text (u :: pieces) rest) :
    L.Shortest u ∧ ∃ behind, text = u ++ behind ∧ L.Segments behind pieces rest := by
  obtain ⟨hu, hpieces⟩ := List.forall_mem_cons.mp h.shortest
  refine ⟨hu, pieces.flatten ++ rest, ?_, rfl, hpieces, h.unread⟩
  rw [h.text_eq, List.flatten_cons, List.append_assoc]

/-- A window that no token begins can be cut together with what stands behind it. -/
theorem exists_segments_of_unread {window : List Char} (hw : L.Unread window) (cs : List Char) :
    ∃ pieces rest, L.Segments (window ++ cs) pieces rest := by
  induction cs generalizing window with
  | nil => exact ⟨[], window, by simp, by simp, hw⟩
  | cons c cs ih =>
      rw [← List.singleton_append, ← List.append_assoc]
      cases htoken : L.token? (window ++ [c]) with
      | none => exact ih (hw.grow htoken)
      | some t =>
          obtain ⟨pieces, rest, h⟩ := ih unread_nil
          exact ⟨_, rest, h.cons (hw.shortest htoken)⟩

/-- **Every text can be cut into shortest tokens and a rest that no token begins.** -/
theorem exists_segments (L : Lexicon) (text : List Char) :
    ∃ pieces rest, L.Segments text pieces rest := exists_segments_of_unread unread_nil text

/-- No shortest token begins what no token begins. -/
theorem Shortest.not_unread {u behind : List Char} (hu : L.Shortest u) :
    ¬ L.Unread (u ++ behind) := by
  intro h
  have htoken := hu.isToken
  rw [h u (List.prefix_append u behind) hu.ne_nil] at htoken
  simp at htoken

theorem Shortest.eq_of_prefix {u v : List Char} (hu : L.Shortest u) (hv : L.Shortest v)
    (h : u <+: v) : u = v := by
  by_cases hne : u = v
  · exact hne
  · have htoken := hu.isToken
    rw [hv.none_shorter u h hu.ne_nil hne] at htoken
    simp at htoken

/-- **A text begins with one shortest token at most.** -/
theorem Shortest.eq_of_append_eq {u v behind behind' : List Char} (hu : L.Shortest u)
    (hv : L.Shortest v) (h : u ++ behind = v ++ behind') : u = v := by
  have hprefix : u <+: v ++ behind' := ⟨behind, h⟩
  rcases List.prefix_or_prefix_of_prefix hprefix (List.prefix_append v behind') with hp | hp
  · exact hu.eq_of_prefix hv hp
  · exact (hv.eq_of_prefix hu hp).symm

/-- **A text can be cut in one way.** -/
theorem Segments.unique {text rest rest' : List Char} {pieces pieces' : List (List Char)}
    (h : L.Segments text pieces rest) (h' : L.Segments text pieces' rest') :
    pieces' = pieces ∧ rest' = rest := by
  induction pieces generalizing text pieces' with
  | nil =>
      have hrest : text = rest := h.text_eq
      cases pieces' with
      | nil => exact ⟨rfl, h'.text_eq.symm.trans hrest⟩
      | cons v pieces' =>
          obtain ⟨hv, behind, htext, -⟩ := h'.uncons
          have hunread := h.unread
          rw [← hrest, htext] at hunread
          exact absurd hunread hv.not_unread
  | cons u pieces ih =>
      obtain ⟨hu, behind, rfl, hbehind⟩ := h.uncons
      cases pieces' with
      | nil =>
          have hunread := h'.unread
          have hrest : u ++ behind = rest' := h'.text_eq
          rw [← hrest] at hunread
          exact absurd hunread hu.not_unread
      | cons v pieces' =>
          obtain ⟨hv, behind', htext, hbehind'⟩ := h'.uncons
          obtain rfl := hu.eq_of_append_eq hv htext
          rw [← List.append_cancel_left htext] at hbehind'
          obtain ⟨rfl, rfl⟩ := ih hbehind hbehind'
          exact ⟨rfl, rfl⟩

/-! ### What is cut off -/

theorem cut_of_token? {window : List Char} {c : Char} {t : Token Symbol}
    (h : L.token? (window ++ [c]) = some t) (rest : List Char) :
    L.cut window (c :: rest) = t :: L.cut [] rest := by
  rw [cut, h]

theorem cut_of_token?_eq_none {window : List Char} {c : Char}
    (h : L.token? (window ++ [c]) = none) (rest : List Char) :
    L.cut window (c :: rest) = L.cut (window ++ [c]) rest := by
  rw [cut, h]

/-- **A window that grows along a shortest token is cut off at its end.** -/
theorem cut_of_shortest {window tail : List Char} (ht : tail ≠ [])
    (h : L.Shortest (window ++ tail)) {t : Token Symbol}
    (htoken : L.token? (window ++ tail) = some t) (rest : List Char) :
    L.cut window (tail ++ rest) = t :: L.cut [] rest := by
  induction tail generalizing window with
  | nil => exact absurd rfl ht
  | cons c tail ih =>
      by_cases htail : tail = []
      · subst htail
        exact cut_of_token? htoken rest
      · have hgrown : window ++ c :: tail = window ++ [c] ++ tail := by simp
        rw [hgrown] at h htoken
        have hshort : L.token? (window ++ [c]) = none := by
          apply h.none_shorter
          · exact List.prefix_append _ _
          · simp
          · simpa using htail
        rw [List.cons_append, cut_of_token?_eq_none hshort]
        exact ih htail h htoken

/-- **A window along which there is no token is left over.** -/
theorem cut_of_unread {window rest : List Char} (h : L.Unread (window ++ rest)) :
    L.cut window rest = L.cut (window ++ rest) [] := by
  induction rest generalizing window with
  | nil => rw [List.append_nil]
  | cons c rest ih =>
      have hgrown : window ++ c :: rest = window ++ [c] ++ rest := by simp
      rw [hgrown] at h ⊢
      rw [cut_of_token?_eq_none (h _ (List.prefix_append _ _) (by simp))]
      exact ih h

theorem cut_nil_of_ne_nil {left : List Char} (h : left ≠ []) :
    L.cut left [] = [.ofLexeme .unknown (String.ofList left)] := if_neg h

/-- **The pieces of a text are cut off one by one**, and then the rest is left over. -/
theorem cut_of_segments {text rest : List Char} {pieces : List (List Char)}
    (h : L.Segments text pieces rest) :
    L.cut [] text = pieces.filterMap L.token? ++ L.cut rest [] := by
  induction pieces generalizing text with
  | nil =>
      have htext : text = rest := h.text_eq
      subst htext
      exact cut_of_unread h.unread
  | cons u pieces ih =>
      obtain ⟨hu, behind, rfl, hbehind⟩ := h.uncons
      obtain ⟨s, -, htoken⟩ := hu.exists_shows
      rw [cut_of_shortest hu.ne_nil hu htoken, ih hbehind, List.filterMap_cons_some htoken]
      rfl

/-! ### The tokens of a text -/

/-- The tokens of some pieces, blanks dropped. -/
def tokensOf (L : Lexicon) (pieces : List (List Char)) : List (Token Symbol) :=
  (pieces.filterMap L.token?).filter fun t => t.symbol ≠ .whiteSpace

theorem mem_tokensOf_iff {pieces : List (List Char)} {t : Token Symbol} :
    t ∈ L.tokensOf pieces ↔
      ∃ u ∈ pieces, ∃ s, L.Shows s u ∧ s ≠ .whiteSpace ∧ t = .ofLexeme s (String.ofList u) := by
  unfold tokensOf
  simp only [List.mem_filter, List.mem_filterMap, token?_eq_some_iff, decide_eq_true_iff]
  constructor
  · intro h
    obtain ⟨⟨u, hu, s, hs, rfl⟩, hne⟩ := h
    exact ⟨u, hu, s, hs, hne, rfl⟩
  · intro h
    obtain ⟨u, hu, s, hs, hne, rfl⟩ := h
    exact ⟨⟨u, hu, s, hs, rfl⟩, hne⟩

/-- What is left over is not dropped. -/
theorem filter_cut_nil (left : List Char) :
    (L.cut left []).filter (fun t => t.symbol ≠ .whiteSpace) = L.cut left [] := by
  by_cases hleft : left = []
  · subst hleft
    rfl
  · rw [cut_nil_of_ne_nil hleft]
    rfl

/-- **The tokens of a text are those of its pieces**, and one of unknown text if there is a rest. -/
theorem tokenize_of_segments {text : String} {pieces : List (List Char)} {rest : List Char}
    (h : L.Segments text.toList pieces rest) :
    L.tokenize text = L.tokensOf pieces ++ L.cut rest [] := by
  rw [tokenize, cut_of_segments h, List.filter_append, filter_cut_nil]
  rfl

/-- **Pieces show their tokens**, with nothing but blanks around them. -/
theorem spaced_tokensOf {pieces : List (List Char)} (h : ∀ u ∈ pieces, L.Shortest u) :
    Spaced ((L.tokensOf pieces).map Token.chars) pieces.flatten := by
  induction pieces with
  | nil => exact .nil allBlank_nil
  | cons u pieces ih =>
      obtain ⟨hu, hpieces⟩ := List.forall_mem_cons.mp h
      obtain ⟨s, hs, htoken⟩ := hu.exists_shows
      have hrest := ih hpieces
      rw [tokensOf, List.filterMap_cons_some htoken, List.flatten_cons]
      by_cases hblank : s = .whiteSpace
      · subst hblank
        obtain ⟨c, rfl, hc⟩ := hs
        rw [List.filter_cons_of_neg (by simp [Token.ofLexeme])]
        exact hrest.blank_cons hc
      · rw [List.filter_cons_of_pos (by simp [Token.ofLexeme, hblank]), List.map_cons,
          Token.chars_ofLexeme]
        rw [← List.nil_append (u ++ _)]
        exact .cons allBlank_nil hrest

/-- Neither an end mark nor unknown text is shown by anything. -/
theorem Shows.symbol_ne {s : Symbol} {cs : List Char} (h : L.Shows s cs) :
    s ≠ .endOfInput ∧ s ≠ .unknown := by
  constructor
  · rintro rfl
    exact h
  · rintro rfl
    exact h

theorem symbol_ne_unknown_of_mem_tokensOf {pieces : List (List Char)} {t : Token Symbol}
    (h : t ∈ L.tokensOf pieces) : t.symbol ≠ .unknown := by
  obtain ⟨u, -, s, hs, -, rfl⟩ := mem_tokensOf_iff.mp h
  exact hs.symbol_ne.2

/--
**How a text is cut.**  There is one way to write it as shortest tokens and a rest that no token
begins.  Its tokens are those of the pieces, with the pieces as their lexemes and blanks left out,
and then the rest as unknown text, unless it is empty.  So the text shows its tokens in order with
nothing but blanks around them, and only the last one can be unknown.
-/
theorem tokenize_segments (L : Lexicon) (text : String) : ∃ pieces rest,
    L.Segments text.toList pieces rest ∧
    (∀ pieces' rest', L.Segments text.toList pieces' rest' → pieces' = pieces ∧ rest' = rest) ∧
    (∀ u ∈ pieces, ∃ s, s ≠ .unknown ∧ L.token? u = some (.ofLexeme s (String.ofList u))) ∧
    L.tokenize text = (pieces.filterMap L.token?).filter (fun t => t.symbol ≠ .whiteSpace) ++
      (if rest = [] then [] else [.ofLexeme .unknown (String.ofList rest)]) ∧
    Spaced ((L.tokenize text).map Token.chars) text.toList ∧
    ∀ t ∈ (L.tokenize text).dropLast, t.symbol ≠ .unknown := by
  obtain ⟨pieces, rest, h⟩ := L.exists_segments text.toList
  have htokens := tokenize_of_segments h
  have hspaced := spaced_tokensOf h.shortest
  refine ⟨pieces, rest, h, fun _ _ => h.unique, fun u hu => ?_, htokens, ?_, ?_⟩
  · obtain ⟨s, hs, htoken⟩ := (h.shortest u hu).exists_shows
    exact ⟨s, hs.symbol_ne.2, htoken⟩
  · rw [htokens, h.text_eq]
    by_cases hrest : rest = []
    · subst hrest
      rw [List.append_nil, show L.cut [] [] = [] from rfl, List.append_nil]
      exact hspaced
    · rw [cut_nil_of_ne_nil hrest, List.map_append, List.map_singleton, Token.chars_ofLexeme]
      exact hspaced.concat rest
  · intro t ht
    rw [htokens] at ht
    by_cases hrest : rest = []
    · subst hrest
      have hmem := (List.dropLast_sublist _).subset ht
      rw [show L.cut [] [] = [] from rfl, List.append_nil] at hmem
      exact symbol_ne_unknown_of_mem_tokensOf hmem
    · rw [cut_nil_of_ne_nil hrest, List.dropLast_concat] at ht
      exact symbol_ne_unknown_of_mem_tokensOf ht

end Lexicon

end BusinessHours

/-
Leftmost reading.

A derivation may replace any nonterminal of a form, and the same text can be derived in
many orders.  A recogniser has no such choice: it looks at the front of the form only.
`Reads` is the derivation it carries out.  A terminal at the front is the next symbol of
the text, and a nonterminal at the front is replaced by the body of a rule, which is noted
by its place.

The two notions agree on texts.  One half is immediate.  The other takes a derivation from
its last step back to its first, and `Reads.unexpand` is what one such step needs: an
occurrence of a body, anywhere in a form that can be read, may be folded back into the left
side it came from.
-/
import BusinessHours.Grammar.Derivation

namespace BusinessHours

namespace Grammar

variable {σ : Type} [DecidableEq σ] {A : Alphabet σ} {g : Grammar A}

/-- A text is read off a form from the front, by the rules in the given places. -/
inductive Reads (g : Grammar A) : List Nat → List σ → List σ → Prop
  | done : Reads g [] [] []
  | terminal {places : List Nat} {t : σ} {form text : List σ} (ht : A.isTerminal t = true)
      (rest : Reads g places form text) : Reads g places (t :: form) (t :: text)
  | rule {i : Nat} {places : List Nat} {r : Rule A} {form text : List σ}
      (hr : g.rules[i]? = some r) (rest : Reads g places (r.body ++ form) text) :
      Reads g (i :: places) (r.lhs :: form) text

namespace Reads

/-- What has been read is a text. -/
theorem isTerminal_of_mem {places : List Nat} {form text : List σ}
    (h : g.Reads places form text) : ∀ s ∈ text, A.isTerminal s = true := by
  induction h with
  | done => intro s hs; simp at hs
  | terminal ht _ ih =>
      intro s hs
      rcases List.mem_cons.mp hs with rfl | hs'
      · exact ht
      · exact ih s hs'
  | rule _ _ ih => exact ih

/-- A text is read off itself. -/
theorem of_terminals {text : List σ} (h : ∀ s ∈ text, A.isTerminal s = true) :
    g.Reads [] text text := by
  induction text with
  | nil => exact .done
  | cons t text ih =>
      have ht : A.isTerminal t = true := h t List.mem_cons_self
      exact .terminal ht (ih fun s hs => h s (List.mem_cons_of_mem t hs))

/-- What can be read off a form is derived from it. -/
theorem derives {places : List Nat} {form text : List σ} (h : g.Reads places form text) :
    g.Derives form text := by
  induction h with
  | done => exact .refl _
  | @terminal _ t _ _ _ _ ih => exact Derives.append (.refl [t]) ih
  | rule hr _ ih => exact .step (.replace (List.mem_of_getElem? hr) [] _) ih

/-- A body inside a form that can be read may be folded back into its left side. -/
theorem unexpand {r : Rule A} (hr : r ∈ g.rules) {places : List Nat} {form text : List σ}
    (h : g.Reads places form text) :
    ∀ before after : List σ, form = before ++ (r.body ++ after) →
      ∃ places', g.Reads places' (before ++ r.lhs :: after) text := by
  obtain ⟨i, hi⟩ := List.mem_iff_getElem?.mp hr
  -- The body may begin where the form does, whatever the next reading step is.
  have front : ∀ {places : List Nat} {form text after : List σ}, g.Reads places form text →
      form = r.body ++ after → ∃ places', g.Reads places' (r.lhs :: after) text :=
    fun h hform => ⟨i :: _, .rule hi (hform ▸ h)⟩
  induction h with
  | done =>
      intro before after hform
      obtain ⟨rfl, hbody⟩ := List.append_eq_nil_iff.mp hform.symm
      exact front .done hbody.symm
  | @terminal places t form text ht rest ih =>
      intro before after hform
      cases before with
      | nil => exact front (.terminal ht rest) hform
      | cons b before =>
          rw [List.cons_append, List.cons.injEq] at hform
          obtain ⟨rfl, hform'⟩ := hform
          obtain ⟨places', h'⟩ := ih before after hform'
          exact ⟨places', .terminal ht h'⟩
  | @rule j places q form text hq rest ih =>
      intro before after hform
      cases before with
      | nil => exact front (.rule hq rest) hform
      | cons b before =>
          rw [List.cons_append, List.cons.injEq] at hform
          obtain ⟨rfl, hform'⟩ := hform
          obtain ⟨places', h'⟩ := ih (q.body ++ before) after (by rw [hform', List.append_assoc])
          rw [List.append_assoc] at h'
          exact ⟨j :: places', .rule hq h'⟩

end Reads

/-- **A text is derived from a form exactly if it can be read off it from the front.** -/
theorem derives_iff_exists_reads {form text : List σ}
    (ht : ∀ s ∈ text, A.isTerminal s = true) :
    g.Derives form text ↔ ∃ places, g.Reads places form text := by
  constructor
  · intro h
    induction h with
    | refl => exact ⟨[], .of_terminals ht⟩
    | step first _ ih =>
        obtain ⟨places, h⟩ := ih ht
        cases first with
        | replace hr before after => exact h.unexpand hr before after rfl
  · intro h
    obtain ⟨places, h⟩ := h
    exact h.derives

/-! ### Leftmost derivations -/

/-- What a form begins with is a terminal that is read, or the left side of a rule. -/
theorem Reads.cons_cases {places : List Nat} {s : σ} {form text : List σ}
    (h : g.Reads places (s :: form) text) :
    (A.isTerminal s = true ∧ ∃ rest, text = s :: rest ∧ g.Reads places form rest) ∨
      ∃ (i : Nat) (r : Rule A) (later : List Nat), g.rules[i]? = some r ∧ r.lhs = s ∧
        places = i :: later ∧ g.Reads later (r.body ++ form) text := by
  cases h with
  | terminal ht rest => exact .inl ⟨ht, _, rfl, rest⟩
  | rule hr rest => exact .inr ⟨_, _, _, hr, rfl, rfl, rest⟩

/-- Terminals in front of a form are read without a rule. -/
theorem Reads.behind {before : List σ} (hb : ∀ s ∈ before, A.isTerminal s = true)
    {places : List Nat} {form text : List σ} (h : g.Reads places form text) :
    g.Reads places (before ++ form) (before ++ text) := by
  induction before with
  | nil => exact h
  | cons s before ih =>
      obtain ⟨hs, hb'⟩ := List.forall_mem_cons.mp hb
      exact .terminal hs (ih hb')

/-- Terminals in front of a form are what the text begins with. -/
theorem Reads.split_front {before : List σ} (hb : ∀ s ∈ before, A.isTerminal s = true)
    {places : List Nat} {form text : List σ} (h : g.Reads places (before ++ form) text) :
    ∃ rest, text = before ++ rest ∧ g.Reads places form rest := by
  induction before generalizing text with
  | nil => exact ⟨text, rfl, h⟩
  | cons s before ih =>
      obtain ⟨hs, hb'⟩ := List.forall_mem_cons.mp hb
      rw [List.cons_append] at h
      rcases h.cons_cases with ⟨-, rest, rfl, h'⟩ | ⟨_, r, _, -, hl, -⟩
      · obtain ⟨rest', rfl, h''⟩ := ih hb' h'
        exact ⟨rest', rfl, h''⟩
      · rw [← hl, r.lhs_nonterminal] at hs
        simp at hs

/-- **A leftmost derivation of a text is a reading of it**, by the same rules. -/
theorem Leftmost.reads {places : List Nat} {form text : List σ} (h : g.Leftmost places form text)
    (ht : ∀ s ∈ text, A.isTerminal s = true) : g.Reads places form text := by
  induction h with
  | refl => exact .of_terminals ht
  | step hr hb _ ih =>
      obtain ⟨rest, rfl, h⟩ := (ih ht).split_front hb
      exact (Reads.rule hr h).behind hb

/-! ### What symbols stand for -/

/-- The text is put together of one part for each symbol, and each symbol stands for its part. -/
def Spells (stands : σ → List σ → Prop) : List σ → List σ → Prop
  | [], w => w = []
  | s :: form, w => ∃ x y, w = x ++ y ∧ stands s x ∧ Spells stands form y

omit [DecidableEq σ] in
theorem spells_append {stands : σ → List σ → Prop} {u v w : List σ} :
    Spells stands (u ++ v) w ↔ ∃ x y, w = x ++ y ∧ Spells stands u x ∧ Spells stands v y := by
  induction u generalizing w with
  | nil =>
      constructor
      · intro h
        exact ⟨[], w, rfl, rfl, h⟩
      · intro h
        obtain ⟨x, y, rfl, rfl, h⟩ := h
        exact h
  | cons s u ih =>
      simp only [List.cons_append, Spells, ih]
      constructor
      · intro h
        obtain ⟨x, z, rfl, hs, y, y', rfl, hu, hv⟩ := h
        exact ⟨x ++ y, y', by rw [List.append_assoc], ⟨x, y, rfl, hs, hu⟩, hv⟩
      · intro h
        obtain ⟨z, y', rfl, ⟨x, y, rfl, hs, hu⟩, hv⟩ := h
        exact ⟨x, y ++ y', by rw [List.append_assoc], hs, y, y', rfl, hu, hv⟩

/--
**A derived text is what its form stands for**, if terminals stand for themselves and the left
side of a rule stands for whatever its body does.
-/
theorem Derives.spells {stands : σ → List σ → Prop}
    (hterminal : ∀ t, A.isTerminal t = true → stands t [t])
    (hrule : ∀ r ∈ g.rules, ∀ w, Spells stands r.body w → stands r.lhs w) {u w : List σ}
    (h : g.Derives u w) (hw : ∀ t ∈ w, A.isTerminal t = true) : Spells stands u w := by
  induction h with
  | refl u =>
      induction u with
      | nil => rfl
      | cons t u ih =>
          obtain ⟨ht, hu⟩ := List.forall_mem_cons.mp hw
          exact ⟨[t], u, rfl, hterminal t ht, ih hu⟩
  | step first _ ih =>
      cases first with
      | @replace r hr before after =>
          obtain ⟨x, y, rfl, hbefore, hrest⟩ := spells_append.mp (ih hw)
          obtain ⟨z, y', rfl, hbody, hafter⟩ := spells_append.mp hrest
          exact spells_append.mpr ⟨x, _, rfl, hbefore, z, y', rfl, hrule r hr z hbody, hafter⟩

/-! ### Parts of a form -/

/-- A step in a form is a step in its front part or in its rear part. -/
theorem Step.append_cases {u v w : List σ} (h : g.Step (u ++ v) w) :
    (∃ x, g.Step u x ∧ w = x ++ v) ∨ ∃ y, g.Step v y ∧ w = u ++ y := by
  generalize hform : u ++ v = form at h
  cases h with
  | @replace r hr before after =>
      rcases List.append_eq_append_iff.mp hform with ⟨middle, rfl, hv⟩ | ⟨middle, rfl, hmiddle⟩
      · subst hv
        exact .inr ⟨_, Step.replace hr middle after, List.append_assoc ..⟩
      · rcases List.cons_eq_append_iff.mp hmiddle with ⟨rfl, rfl⟩ | ⟨front, rfl, rfl⟩
        · rw [List.append_nil]
          exact .inr ⟨_, Step.replace hr [] after, rfl⟩
        · exact .inl ⟨_, Step.replace hr before front, by simp⟩

/-- **What a form derives is put together of what its parts derive.** -/
theorem derives_append_iff {u v w : List σ} :
    g.Derives (u ++ v) w ↔ ∃ x y, w = x ++ y ∧ g.Derives u x ∧ g.Derives v y := by
  constructor
  · intro h
    generalize hform : u ++ v = form at h
    induction h generalizing u v with
    | refl => exact ⟨u, v, hform.symm, .refl u, .refl v⟩
    | step first _ ih =>
        subst hform
        rcases first.append_cases with ⟨x, hx, rfl⟩ | ⟨y, hy, rfl⟩
        · obtain ⟨x', y', rfl, hu, hv⟩ := ih rfl
          exact ⟨x', y', rfl, .step hx hu, hv⟩
        · obtain ⟨x', y', rfl, hu, hv⟩ := ih rfl
          exact ⟨x', y', rfl, hu, .step hy hv⟩
  · intro h
    obtain ⟨x, y, rfl, hu, hv⟩ := h
    exact hu.append hv

/-- A form vanishes exactly if both of its parts do. -/
theorem derives_append_nil_iff {u v : List σ} :
    g.Derives (u ++ v) [] ↔ g.Derives u [] ∧ g.Derives v [] := by
  rw [derives_append_iff]
  constructor
  · intro h
    obtain ⟨x, y, hnil, hu, hv⟩ := h
    obtain ⟨rfl, rfl⟩ := List.append_eq_nil_iff.mp hnil.symm
    exact ⟨hu, hv⟩
  · intro h
    exact ⟨[], [], rfl, h.1, h.2⟩

/-- **A form begins as its front part does**, or as its rear part if the front vanishes. -/
theorem exists_derives_cons_append_iff {u v : List σ} {t : σ} :
    (∃ w, g.Derives (u ++ v) (t :: w)) ↔
      (∃ w, g.Derives u (t :: w)) ∨ g.Derives u [] ∧ ∃ w, g.Derives v (t :: w) := by
  simp only [derives_append_iff]
  constructor
  · intro h
    obtain ⟨w, x, y, hw, hu, hv⟩ := h
    cases x with
    | nil => exact .inr ⟨hu, w, (hw.trans (List.nil_append y)) ▸ hv⟩
    | cons s x =>
        obtain ⟨rfl, -⟩ := List.cons.inj hw
        exact .inl ⟨x, hu⟩
  · rintro (⟨w, hu⟩ | ⟨hu, w, hv⟩)
    · exact ⟨w ++ v, t :: w, v, rfl, hu, .refl v⟩
    · exact ⟨w, [], t :: w, rfl, hu, hv⟩

/-- A form with a symbol that derives `t…`, behind symbols that derive nothing. -/
theorem exists_derives_cons_of_split {front : List σ} (rest : List σ) {s t : σ}
    (hf : g.Derives front []) (hs : ∃ v, g.Derives [s] (t :: v)) :
    ∃ v, g.Derives (front ++ s :: rest) (t :: v) := by
  obtain ⟨v, hv⟩ := hs
  exact ⟨v ++ rest, hf.append (hv.append (.refl rest))⟩

/-- Terminals derive nothing but themselves. -/
theorem Derives.eq_of_terminals {u w : List σ} (h : g.Derives u w)
    (hu : ∀ s ∈ u, A.isTerminal s = true) : w = u := by
  cases h with
  | refl => rfl
  | step first _ =>
      cases first with
      | @replace r _ before after =>
          have hlhs := hu r.lhs (by simp)
          rw [r.lhs_nonterminal] at hlhs
          simp at hlhs

/-- A step from one symbol replaces it by the body of one of its rules. -/
theorem Step.exists_rule {a : σ} {v : List σ} (h : g.Step [a] v) :
    ∃ r ∈ g.rules, r.lhs = a ∧ v = r.body := by
  generalize hform : [a] = form at h
  cases h with
  | @replace r hr before after =>
      obtain ⟨rfl, rfl, rfl⟩ : before = [] ∧ a = r.lhs ∧ after = [] := by
        cases before <;> simp_all
      exact ⟨r, hr, rfl, List.append_nil _⟩

/-- **What a symbol derives other than itself is derived from the body of one of its rules.** -/
theorem Derives.exists_rule {a : σ} {w : List σ} (h : g.Derives [a] w) (hne : w ≠ [a]) :
    ∃ r ∈ g.rules, r.lhs = a ∧ g.Derives r.body w := by
  cases h with
  | refl => exact absurd rfl hne
  | step first rest =>
      obtain ⟨r, hr, hl, rfl⟩ := first.exists_rule
      exact ⟨r, hr, hl, rest⟩

/-! ### Epsilon is notation only -/

/-- A step does not bring epsilon into a form. -/
theorem Step.epsilon_notMem {u v : List σ} (h : g.Step u v) (hu : A.epsilon ∉ u) :
    A.epsilon ∉ v := by
  cases h with
  | @replace r hr before after =>
      simp only [List.mem_append, List.mem_cons, not_or] at hu ⊢
      exact ⟨hu.1, r.epsilon_notMem_body, hu.2.2⟩

/-! ### More rules -/

/-- A step is a step of every grammar that has the rules. -/
theorem Step.mono {g' : Grammar A} (hsub : g.rules ⊆ g'.rules) {u v : List σ} (h : g.Step u v) :
    g'.Step u v := by
  cases h with
  | replace hr before after => exact .replace (hsub hr) before after

/-- **More rules derive more.** -/
theorem Derives.mono {g' : Grammar A} (hsub : g.rules ⊆ g'.rules) {u v : List σ}
    (h : g.Derives u v) : g'.Derives u v := by
  induction h with
  | refl => exact .refl _
  | step first _ ih => exact .step (first.mono hsub) ih

end Grammar

/-- The body of a rule is its right side without epsilon. -/
theorem Rule.body_eq_filter {σ : Type} [DecidableEq σ] {A : Alphabet σ} (r : Rule A) :
    r.body = r.rhs.filter (· ≠ A.epsilon) := by
  unfold body isEpsilon
  split
  · rename_i h
    simp [of_decide_eq_true h]
  · rename_i h
    refine (List.filter_eq_self.mpr fun s hs => decide_eq_true ?_).symm
    intro hse
    exact h (decide_eq_true (r.epsilon_alone (hse ▸ hs)))

end BusinessHours

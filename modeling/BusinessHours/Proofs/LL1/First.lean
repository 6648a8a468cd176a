/-
FIRST sets and the expansions behind them.

`first` is the least family that every production agrees with.  The two halves are shown
here: it is closed, so a production never begins with more than its left side does, and
nothing is in it without a reason.

The reason is what an automaton needs.  A member of a FIRST set stands there because a
chain of productions leads to it, and the chain need not be longer than there are
nonterminals.  `vanishing` collects the nonterminals that can disappear, in rounds: each
round adds those with a production all of whose nodes were there before.  `beginning t`
does the same for the nonterminals that lead to the terminal `t`, over nodes that can
disappear.  A FIRST set holds exactly what these two say, and since both are numbered by
rounds, a proof about an expansion can count them down.
-/
import BusinessHours.LL1.First
import BusinessHours.Proofs.Grammar.Numbering
import BusinessHours.Proofs.LL1.Saturation

namespace BusinessHours

/-- A set made from one number has no other member. -/
theorem IdSet.eq_of_mem_single {size i j : Nat} (h : j ∈ (single i : IdSet size)) : j = i := by
  by_cases hi : i / 64 < wordCount size
  · rw [mem_def, single, insert, word_setIfInBounds _ _ _ _ hi] at h
    split at h
    · rename_i hw
      rw [word_empty, Word.hasBit_or, Word.hasBit_zero, Bool.false_or, Word.hasBit_bit,
        decide_eq_true_eq] at h
      omega
    · simp at h
  · have hempty : (single i : IdSet size) = empty := by
      simp [single, insert, Vector.setIfInBounds_eq_of_size_le (Nat.not_lt.mp hi)]
    rw [hempty] at h
    exact absurd h (not_mem_empty j)

namespace Family

variable {terms nonterms : Nat} {first : Family terms nonterms}

/-! ### FIRST of a list of nodes -/

theorem mem_firstOf_nil (h0 : epsilonId < terms) {i : Nat} :
    i ∈ first.firstOf [] ↔ i = epsilonId := IdSet.mem_single h0

theorem eq_of_mem_firstOf_term {t i : Nat} {rest : List Node}
    (h : i ∈ first.firstOf (.term t :: rest)) : i = t := IdSet.eq_of_mem_single h

theorem mem_firstOf_term {t i : Nat} {rest : List Node} (ht : t < terms) :
    i ∈ first.firstOf (.term t :: rest) ↔ i = t := IdSet.mem_single ht

theorem mem_firstOf_nonterm {a i : Nat} {rest : List Node} :
    i ∈ first.firstOf (.nonterm a :: rest) ↔
      i ≠ epsilonId ∧ i ∈ first.get a ∨ epsilonId ∈ first.get a ∧ i ∈ first.firstOf rest := by
  rw [firstOf]
  by_cases ha : epsilonId ∈ first.get a
  · simp [ha, or_comm]
  · rw [if_neg ha]
    simp only [ha, false_and, or_false, iff_and_self]
    rintro hi rfl
    exact ha hi

/-- A list can vanish exactly if each of its nodes can. -/
theorem epsilon_mem_firstOf_iff (h0 : epsilonId < terms) {nodes : List Node}
    (hn : Node.term epsilonId ∉ nodes) :
    epsilonId ∈ first.firstOf nodes ↔
      ∀ x ∈ nodes, ∃ a, x = .nonterm a ∧ epsilonId ∈ first.get a := by
  induction nodes with
  | nil => simp [mem_firstOf_nil h0]
  | cons x rest ih =>
      rw [List.mem_cons, not_or] at hn
      rw [List.forall_mem_cons, ← ih hn.2]
      cases x with
      | term t =>
          have hne : epsilonId ∉ first.firstOf (.term t :: rest) := fun h =>
            hn.1 (congrArg Node.term (eq_of_mem_firstOf_term h))
          simp [hne]
      | nonterm a => simp [mem_firstOf_nonterm]

/-- What begins a list begins its front part, or the part behind a front that can vanish. -/
theorem mem_firstOf_append (h0 : epsilonId < terms) {front rest : List Node} {i : Nat}
    (hn : Node.term epsilonId ∉ front) :
    i ∈ first.firstOf (front ++ rest) ↔ i ≠ epsilonId ∧ i ∈ first.firstOf front ∨
      epsilonId ∈ first.firstOf front ∧ i ∈ first.firstOf rest := by
  induction front with
  | nil =>
      simp only [List.nil_append, mem_firstOf_nil h0, true_and]
      exact ⟨.inr, fun h => h.resolve_left fun hc => hc.1 hc.2⟩
  | cons x front ih =>
      rw [List.mem_cons, not_or] at hn
      cases x with
      | term t =>
          have hne : epsilonId ∉ first.firstOf (.term t :: front) := fun h =>
            hn.1 (congrArg Node.term (eq_of_mem_firstOf_term h))
          have hsame : i ∈ first.firstOf (.term t :: (front ++ rest)) ↔
              i ∈ first.firstOf (.term t :: front) := Iff.rfl
          rw [List.cons_append, hsame]
          refine ⟨fun hi => .inl ⟨fun hc => hne (hc ▸ hi), hi⟩, ?_⟩
          rintro (⟨-, hi⟩ | ⟨he, -⟩)
          · exact hi
          · exact absurd he hne
      | nonterm a =>
          rw [List.cons_append, mem_firstOf_nonterm, mem_firstOf_nonterm, mem_firstOf_nonterm,
            ih hn.2]
          by_cases ha : epsilonId ∈ first.get a <;> simp [ha, and_or_left, or_assoc]

/-- A terminal begins a list because of one of its nodes, behind nodes that can vanish. -/
theorem exists_of_mem_firstOf {nodes : List Node} {i : Nat} (hi : i ≠ epsilonId)
    (h : i ∈ first.firstOf nodes) : ∃ front x rest, nodes = front ++ x :: rest ∧
      (∀ y ∈ front, ∃ a, y = .nonterm a ∧ epsilonId ∈ first.get a) ∧
      (x = .term i ∨ ∃ a, x = .nonterm a ∧ i ∈ first.get a) := by
  induction nodes with
  | nil => exact absurd (IdSet.eq_of_mem_single h) hi
  | cons x rest ih =>
      cases x with
      | term t => exact ⟨[], _, rest, rfl, by simp, .inl (by rw [eq_of_mem_firstOf_term h])⟩
      | nonterm a =>
          rcases mem_firstOf_nonterm.mp h with ⟨-, ha⟩ | ⟨he, hr⟩
          · exact ⟨[], _, rest, rfl, by simp, .inr ⟨a, rfl, ha⟩⟩
          · obtain ⟨front, y, tail, rfl, hfront, hy⟩ := ih hr
            exact ⟨.nonterm a :: front, y, tail, rfl,
              List.forall_mem_cons.mpr ⟨⟨a, rfl, he⟩, hfront⟩, hy⟩

theorem mem_firstOf_of_front {front nodes : List Node} {i : Nat}
    (hf : ∀ y ∈ front, ∃ a, y = .nonterm a ∧ epsilonId ∈ first.get a)
    (h : i ∈ first.firstOf nodes) : i ∈ first.firstOf (front ++ nodes) := by
  induction front with
  | nil => exact h
  | cons y front ih =>
      obtain ⟨⟨a, rfl, ha⟩, hfront⟩ := List.forall_mem_cons.mp hf
      exact mem_firstOf_nonterm.mpr (.inr ⟨ha, ih hfront⟩)

theorem firstOf_mono {f g : Family terms nonterms} (h : f.Below g) {nodes : List Node} {i : Nat}
    (hi : i ∈ f.firstOf nodes) : i ∈ g.firstOf nodes := by
  induction nodes with
  | nil => exact hi
  | cons x rest ih =>
      cases x with
      | term t => exact hi
      | nonterm a =>
          rcases mem_firstOf_nonterm.mp hi with ⟨hne, ha⟩ | ⟨he, hr⟩
          · exact mem_firstOf_nonterm.mpr (.inl ⟨hne, h a i ha⟩)
          · exact mem_firstOf_nonterm.mpr (.inr ⟨h a _ he, ih hr⟩)

/-- A list begins with numbers of terminals only, if its nodes do. -/
theorem lt_of_mem_firstOf (h0 : epsilonId < terms) (hf : ∀ a i, i ∈ first.get a → i < terms)
    {nodes : List Node} (hn : ∀ t, Node.term t ∈ nodes → t < terms) {i : Nat}
    (hi : i ∈ first.firstOf nodes) : i < terms := by
  by_cases hie : i = epsilonId
  · exact hie ▸ h0
  · obtain ⟨front, x, rest, rfl, -, rfl | ⟨a, rfl, ha⟩⟩ := exists_of_mem_firstOf hie hi
    · exact hn i (by simp)
    · exact hf a i ha

/-! ### One production -/

theorem mem_get_firstOnce {p : Production} (hp : p.lhs < nonterms) {a i : Nat} :
    i ∈ (first.firstOnce p).family.get a ↔
      i ∈ first.get a ∨ p.lhs = a ∧ i ∈ first.firstOf p.rhs := by
  rw [firstOnce, family_enlargeReporting, mem_get_enlarge hp]

theorem below_firstOnce (p : Production) (first : Family terms nonterms) :
    first.Below (first.firstOnce p).family := by
  rw [firstOnce, family_enlargeReporting]
  exact below_enlarge _ _ _

end Family

namespace IndexedGrammar

variable {σ : Type} {G : IndexedGrammar σ}

/-! ### The FIRST sets are closed -/

/-- What every production keeps, a round keeps. -/
theorem firstRound_induction {P : Family.Progress G.termCount G.nontermCount → Prop}
    (keeps : ∀ p ∈ G.prods, ∀ done, P done → P (done.andThen (Family.firstOnce p)))
    {f : Family G.termCount G.nontermCount} (h : P (.start f)) : P (G.firstRoundReporting f) :=
  List.foldlRecOn G.prods _ h fun done hdone p hp => keeps p hp done hdone

theorem growing_firstRound (wn : G.WellNumbered) : Family.Growing G.firstRoundReporting where
  honest := by
    intro f
    refine firstRound_induction (P := Family.Progress.Honest f) (fun p hp done hdone => ?_) (.start f)
    exact hdone.andThen (.enlargeReporting _ (wn.lhs_lt p hp) _)
  lt := by
    intro f hf
    refine firstRound_induction (P := fun done => ∀ a i, i ∈ done.family.get a → i < G.termCount)
      (fun p hp done hdone a i hi => ?_) hf
    rcases (Family.mem_get_firstOnce (wn.lhs_lt p hp)).mp hi with hi | ⟨-, hi⟩
    · exact hdone a i hi
    · exact Family.lt_of_mem_firstOf wn.epsilonId_lt hdone (wn.term_lt p hp) hi

private theorem mem_firstRound (wn : G.WellNumbered) {p : Production} (hp : p ∈ G.prods)
    {f : Family G.termCount G.nontermCount} {i : Nat} (hi : i ∈ f.firstOf p.rhs) :
    i ∈ (G.firstRound f).get p.lhs := by
  obtain ⟨before, after, hprods⟩ := List.append_of_mem hp
  have hstep : ∀ (done : Family.Progress G.termCount G.nontermCount) (q : Production),
      done.family.Below (done.andThen (Family.firstOnce q)).family :=
    fun done q => Family.below_firstOnce q done.family
  have hbefore := Family.Progress.below_foldl hstep before (.start f)
  rw [firstRound, firstRoundReporting, hprods, List.foldl_append, List.foldl_cons]
  refine Family.Progress.below_foldl hstep after _ _ _ ?_
  exact (Family.mem_get_firstOnce (wn.lhs_lt p hp)).mpr
    (.inr ⟨rfl, Family.firstOf_mono hbefore hi⟩)

theorem not_mem_get_empty (a i : Nat) :
    i ∉ (Family.empty : Family G.termCount G.nontermCount).get a := by
  simp

/-- **A production begins with nothing that its left side does not begin with.** -/
theorem first_closed (wn : G.WellNumbered) {p : Production} (hp : p ∈ G.prods) {i : Nat}
    (hi : i ∈ G.first.firstOf p.rhs) : i ∈ G.first.get p.lhs := by
  have hround : G.firstRound G.first = G.first :=
    Family.round_saturate (growing_firstRound wn) fun a i h => absurd h (not_mem_get_empty a i)
  have := mem_firstRound wn hp hi
  rwa [hround] at this

/-- Folding a right side back into its left side takes nothing away from FIRST. -/
theorem mem_firstOf_unexpand (wn : G.WellNumbered) {p : Production} (hp : p ∈ G.prods)
    {before after : List Node} (hb : Node.term epsilonId ∉ before) {i : Nat}
    (h : i ∈ G.first.firstOf (before ++ (p.rhs ++ after))) :
    i ∈ G.first.firstOf (before ++ .nonterm p.lhs :: after) := by
  rw [Family.mem_firstOf_append wn.epsilonId_lt hb] at h ⊢
  refine h.imp_right (And.imp_right fun hi => ?_)
  rw [Family.mem_firstOf_append wn.epsilonId_lt (wn.epsilon_notMem p hp)] at hi
  rw [Family.mem_firstOf_nonterm]
  exact hi.imp (And.imp_right (first_closed wn hp)) (And.imp_left (first_closed wn hp))

theorem lt_of_mem_first (wn : G.WellNumbered) {a i : Nat} (hi : i ∈ G.first.get a) :
    i < G.termCount :=
  Family.saturate_induction (growing_firstRound wn).lt _
    (fun a i h => absurd h (not_mem_get_empty a i)) a i hi

/-! ### Expansions, counted -/

/-- The nonterminals with a production whose nodes all lie in the given set. -/
def vanishRound (G : IndexedGrammar σ) (S : Set Nat) : Set Nat :=
  {a | ∃ p ∈ G.prods, p.lhs = a ∧ ∀ x ∈ p.rhs, ∃ b ∈ S, x = .nonterm b}

/-- How many rounds are enough for a chain of expansions. -/
def depth (G : IndexedGrammar σ) : Nat := G.nontermCount + 1

/-- The nonterminals that can vanish. -/
def vanishing (G : IndexedGrammar σ) : Set Nat := G.vanishRound^[G.depth] ∅

/--
The nonterminals with a production that leads to the terminal `t`: behind nodes that can
vanish it has `t` itself, or a nonterminal of the given set.
-/
def beginRound (G : IndexedGrammar σ) (t : Nat) (S : Set Nat) : Set Nat :=
  {a | ∃ p ∈ G.prods, p.lhs = a ∧ ∃ front x rest, p.rhs = front ++ x :: rest ∧
    (∀ y ∈ front, ∃ b ∈ G.vanishing, y = .nonterm b) ∧
    (x = .term t ∨ ∃ b ∈ S, x = .nonterm b)}

/-- The nonterminals that lead to the terminal `t`. -/
def beginning (G : IndexedGrammar σ) (t : Nat) : Set Nat := (G.beginRound t)^[G.depth] ∅

theorem vanishRound_mono : Monotone G.vanishRound := by
  rintro S S' hS a ⟨p, hp, rfl, hall⟩
  refine ⟨p, hp, rfl, fun x hx => ?_⟩
  obtain ⟨b, hb, rfl⟩ := hall x hx
  exact ⟨b, hS hb, rfl⟩

theorem beginRound_mono (t : Nat) : Monotone (G.beginRound t) := by
  rintro S S' hS a ⟨p, hp, rfl, front, x, rest, hrhs, hfront, hx⟩
  refine ⟨p, hp, rfl, front, x, rest, hrhs, hfront, hx.imp_right ?_⟩
  intro h
  obtain ⟨b, hb, rfl⟩ := h
  exact ⟨b, hS hb, rfl⟩

/-- What vanishes after some number of rounds vanishes. -/
theorem iterate_vanishRound_subset (wn : G.WellNumbered) (k : Nat) :
    G.vanishRound^[k] ∅ ⊆ G.vanishing := by
  refine iterate_subset_of_bounded vanishRound_mono ?_ k
  rintro S a ⟨q, hq, rfl, -⟩
  exact wn.lhs_lt q hq

/-- A production of nodes that can vanish vanishes. -/
theorem mem_vanishing_of_production (wn : G.WellNumbered) {p : Production} (hp : p ∈ G.prods)
    (h : ∀ x ∈ p.rhs, ∃ b ∈ G.vanishing, x = .nonterm b) : p.lhs ∈ G.vanishing := by
  refine iterate_vanishRound_subset wn (G.depth + 1) ?_
  rw [Function.iterate_succ_apply']
  exact ⟨p, hp, rfl, h⟩

/-- What leads to `t` after some number of rounds leads to `t`. -/
theorem iterate_beginRound_subset (wn : G.WellNumbered) (t k : Nat) :
    (G.beginRound t)^[k] ∅ ⊆ G.beginning t := by
  refine iterate_subset_of_bounded (beginRound_mono t) ?_ k
  rintro S a ⟨q, hq, rfl, -⟩
  exact wn.lhs_lt q hq

/-- A production that leads to `t` behind nodes that can vanish leads its left side there. -/
theorem mem_beginning_of_production (wn : G.WellNumbered) {t : Nat} {p : Production}
    (hp : p ∈ G.prods) {front rest : List Node} {x : Node} (hrhs : p.rhs = front ++ x :: rest)
    (hfront : ∀ y ∈ front, ∃ b ∈ G.vanishing, y = .nonterm b)
    (hx : x = .term t ∨ ∃ b ∈ G.beginning t, x = .nonterm b) : p.lhs ∈ G.beginning t := by
  refine iterate_beginRound_subset wn t (G.depth + 1) ?_
  rw [Function.iterate_succ_apply']
  exact ⟨p, hp, rfl, front, x, rest, hrhs, hfront, hx⟩

/-! ### Nothing is in a FIRST set without a reason -/

/-- Every member of the family is there because of a chain of productions. -/
structure Justified (G : IndexedGrammar σ) (f : Family G.termCount G.nontermCount) : Prop where
  vanishes : ∀ a, epsilonId ∈ f.get a → a ∈ G.vanishing
  begins : ∀ a t, t ≠ epsilonId → t ∈ f.get a → a ∈ G.beginning t

theorem justified_firstOnce (wn : G.WellNumbered) {f : Family G.termCount G.nontermCount}
    (hf : G.Justified f) {p : Production} (hp : p ∈ G.prods) :
    G.Justified (f.firstOnce p).family where
  vanishes := by
    intro a ha
    rcases (Family.mem_get_firstOnce (wn.lhs_lt p hp)).mp ha with ha | ⟨rfl, he⟩
    · exact hf.vanishes a ha
    · rw [Family.epsilon_mem_firstOf_iff wn.epsilonId_lt (wn.epsilon_notMem p hp)] at he
      refine mem_vanishing_of_production wn hp fun x hx => ?_
      obtain ⟨b, rfl, hb⟩ := he x hx
      exact ⟨b, hf.vanishes b hb, rfl⟩
  begins := by
    intro a t ht ha
    rcases (Family.mem_get_firstOnce (wn.lhs_lt p hp)).mp ha with ha | ⟨rfl, hm⟩
    · exact hf.begins a t ht ha
    · obtain ⟨front, x, rest, hrhs, hfront, hx⟩ := Family.exists_of_mem_firstOf ht hm
      refine mem_beginning_of_production wn hp hrhs (fun y hy => ?_) (hx.imp_right ?_)
      · obtain ⟨b, rfl, hb⟩ := hfront y hy
        exact ⟨b, hf.vanishes b hb, rfl⟩
      · intro h
        obtain ⟨b, rfl, hb⟩ := h
        exact ⟨b, hf.begins b t ht hb, rfl⟩

theorem justified_first (wn : G.WellNumbered) : G.Justified G.first := by
  refine Family.saturate_induction (fun f hf => ?_) _
    ⟨fun a h => absurd h (not_mem_get_empty a _), fun a t _ h => absurd h (not_mem_get_empty a t)⟩
  exact firstRound_induction (P := fun done => G.Justified done.family)
    (fun p hp done hdone => justified_firstOnce wn hdone hp) hf

/-- **Epsilon is in the FIRST set of the nonterminals that can vanish, and in no other.** -/
theorem epsilon_mem_first_iff (wn : G.WellNumbered) {a : Nat} :
    epsilonId ∈ G.first.get a ↔ a ∈ G.vanishing := by
  refine ⟨(justified_first wn).vanishes a, ?_⟩
  unfold vanishing
  generalize G.depth = k
  induction k generalizing a with
  | zero => intro h; exact absurd h (Set.notMem_empty a)
  | succ k ih =>
      intro h
      rw [Function.iterate_succ_apply'] at h
      obtain ⟨p, hp, rfl, hall⟩ := h
      refine first_closed wn hp ?_
      rw [Family.epsilon_mem_firstOf_iff wn.epsilonId_lt (wn.epsilon_notMem p hp)]
      intro x hx
      obtain ⟨b, hb, rfl⟩ := hall x hx
      exact ⟨b, rfl, ih hb⟩

/-- **A terminal is in the FIRST set of the nonterminals that lead to it, and in no other.** -/
theorem mem_first_iff (wn : G.WellNumbered) {a t : Nat} (ht : t ≠ epsilonId) :
    t ∈ G.first.get a ↔ a ∈ G.beginning t := by
  refine ⟨(justified_first wn).begins a t ht, ?_⟩
  unfold beginning
  generalize G.depth = k
  induction k generalizing a with
  | zero => intro h; exact absurd h (Set.notMem_empty a)
  | succ k ih =>
      intro h
      rw [Function.iterate_succ_apply'] at h
      obtain ⟨p, hp, rfl, front, x, rest, hrhs, hfront, hx⟩ := h
      refine first_closed wn hp ?_
      rw [hrhs]
      refine Family.mem_firstOf_of_front (fun y hy => ?_) ?_
      · obtain ⟨b, hb, rfl⟩ := hfront y hy
        exact ⟨b, rfl, (epsilon_mem_first_iff wn).mpr hb⟩
      · rcases hx with rfl | ⟨b, hb, rfl⟩
        · exact (Family.mem_firstOf_term (wn.term_lt p hp t (by simp [hrhs]))).mpr rfl
        · exact Family.mem_firstOf_nonterm.mpr (.inl ⟨ht, ih hb⟩)

end IndexedGrammar

end BusinessHours

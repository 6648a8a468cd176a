/-
FOLLOW sets.

`follow` is the least family that holds the end mark for the start symbol and lets every
occurrence of a nonterminal in a right side have what can stand after it there.  A round
goes over the occurrences one by one and changes the family between them, so the first
step is to say what one occurrence does, `followOnce`; all else is about these.  It passes over
an occurrence of the left side on its own right side, and that takes nothing away: what follows
the left side is there already (`mem_get_followOnce`).

`follow_closed` says that no occurrence lacks anything, `follow_least` that a property of
pairs which every occurrence passes on holds of all members.

The automaton needs FOLLOW sets for a whole stack.  A list of nodes *fits* in front of
another if each nonterminal on it has, in its FOLLOW set, whatever the nodes behind it can
begin with.  A right side fits wherever its left side does, so a stack that fits at the
beginning fits for ever.
-/
import BusinessHours.LL1.Follow
import BusinessHours.Proofs.LL1.First

namespace BusinessHours

namespace Family

variable {terms nonterms : Nat} {first : Family terms nonterms}

theorem mem_get_followOnce {lhs b c i : Nat} {rest : List Node} {follow : Family terms nonterms}
    (hb : b < nonterms) : i ∈ (first.followOnce lhs b rest follow).family.get c ↔
      i ∈ follow.get c ∨ b = c ∧ (i ≠ epsilonId ∧ i ∈ first.firstOf rest ∨
        epsilonId ∈ first.firstOf rest ∧ i ∈ follow.get lhs) := by
  simp only [followOnce]
  split
  · rename_i h
    obtain ⟨he, -⟩ := h
    rw [Progress.family_andThen, family_enlargeReporting, family_enlargeExceptReporting,
      mem_get_enlarge hb, mem_get_enlarge hb, mem_get_enlarge hb, IdSet.mem_erase]
    constructor
    · rintro ((h | ⟨rfl, h⟩) | ⟨rfl, h | ⟨-, h⟩⟩)
      · exact .inl h
      · exact .inr ⟨rfl, .inl h⟩
      · exact .inr ⟨rfl, .inr ⟨he, h⟩⟩
      · exact .inr ⟨rfl, .inl h⟩
    · rintro (h | ⟨rfl, h | ⟨-, h⟩⟩)
      · exact .inl (.inl h)
      · exact .inl (.inr ⟨rfl, h⟩)
      · exact .inr ⟨rfl, .inl h⟩
  · rename_i h
    rw [family_enlargeExceptReporting, mem_get_enlarge hb, IdSet.mem_erase]
    constructor
    · rintro (h | ⟨rfl, h⟩)
      · exact .inl h
      · exact .inr ⟨rfl, .inl h⟩
    · rintro (h' | ⟨rfl, h' | ⟨he, h'⟩⟩)
      · exact .inl h'
      · exact .inr ⟨rfl, h'⟩
      · -- Only the left side itself is passed over, and it has its own FOLLOW set.
        have hlhs : b = lhs := Decidable.byContradiction fun hne => h ⟨he, hne⟩
        exact .inl (hlhs ▸ h')

theorem below_followOnce (lhs b : Nat) (rest : List Node) (follow : Family terms nonterms) :
    follow.Below (first.followOnce lhs b rest follow).family := by
  simp only [followOnce]
  split
  · rw [Progress.family_andThen, family_enlargeReporting, family_enlargeExceptReporting]
    exact (below_enlarge _ _ _).trans (below_enlarge _ _ _)
  · rw [family_enlargeExceptReporting]
    exact below_enlarge _ _ _

theorem honest_followOnce {lhs b : Nat} (hb : b < nonterms) (rest : List Node)
    (follow : Family terms nonterms) :
    Progress.Honest follow (first.followOnce lhs b rest follow) := by
  have hrest := Progress.Honest.enlargeExceptReporting follow hb (first.firstOf rest) epsilonId
  simp only [followOnce]
  split
  · exact hrest.andThen (.enlargeReporting _ hb _)
  · exact hrest

/-- What every occurrence on a right side keeps, the walk along it keeps. -/
theorem followAlong_induction {P : Progress terms nonterms → Prop} {lhs : Nat} {nodes : List Node}
    (keeps : ∀ front b rest, nodes = front ++ .nonterm b :: rest → ∀ done, P done →
      P (done.andThen (first.followOnce lhs b rest)))
    {done : Progress terms nonterms} (h : P done) : P (first.followAlong lhs nodes done) := by
  induction nodes generalizing done with
  | nil => exact h
  | cons x rest ih =>
      have keeps' : ∀ front b tail, rest = front ++ .nonterm b :: tail → ∀ done, P done →
          P (done.andThen (first.followOnce lhs b tail)) :=
        fun front b tail hrest => keeps (x :: front) b tail (by rw [hrest, List.cons_append])
      cases x with
      | term t => exact ih keeps' h
      | nonterm b => exact ih keeps' (keeps [] b rest rfl _ h)

theorem below_followAlong (first : Family terms nonterms) (lhs : Nat) (nodes : List Node)
    (done : Progress terms nonterms) :
    done.family.Below (first.followAlong lhs nodes done).family :=
  followAlong_induction (P := fun d => done.family.Below d.family)
    (fun _ b rest _ d hd => hd.trans (below_followOnce lhs b rest d.family)) (.refl _)

/-- The walk along a right side comes to each occurrence on it. -/
theorem exists_followOnce_below (first : Family terms nonterms) (lhs b : Nat)
    (front rest : List Node) (done : Progress terms nonterms) : ∃ f, done.family.Below f ∧
      (first.followOnce lhs b rest f).family.Below
        (first.followAlong lhs (front ++ .nonterm b :: rest) done).family := by
  induction front generalizing done with
  | nil =>
      have hwalk := below_followAlong first lhs rest (done.andThen (first.followOnce lhs b rest))
      exact ⟨done.family, .refl _, hwalk⟩
  | cons x front ih =>
      cases x with
      | term t => exact ih done
      | nonterm c =>
          obtain ⟨f, hf, hall⟩ :=
            ih (done.andThen (first.followOnce lhs c (front ++ .nonterm b :: rest)))
          exact ⟨f, (below_followOnce _ _ _ _).trans hf, hall⟩

end Family

namespace IndexedGrammar

variable {σ : Type} {G : IndexedGrammar σ}

/-! ### Rounds -/

/-- What every occurrence keeps, a round keeps. -/
theorem followRound_induction {P : Family.Progress G.termCount G.nontermCount → Prop}
    (keeps : ∀ p ∈ G.prods, ∀ front b rest, p.rhs = front ++ .nonterm b :: rest → ∀ done, P done →
      P (done.andThen (G.first.followOnce p.lhs b rest)))
    {f : Family G.termCount G.nontermCount} (h : P (.start f)) :
    P (G.followRoundReporting G.first f) :=
  List.foldlRecOn G.prods _ h fun _ hf p hp => Family.followAlong_induction (keeps p hp) hf

/-- The nonterminals on right sides are nonterminals of the grammar. -/
theorem WellNumbered.lt_of_rhs_eq (wn : G.WellNumbered) {p : Production} (hp : p ∈ G.prods)
    {front rest : List Node} {b : Nat} (h : p.rhs = front ++ .nonterm b :: rest) :
    b < G.nontermCount :=
  wn.nonterm_lt p hp b (by simp [h])

theorem growing_followRound (wn : G.WellNumbered) :
    Family.Growing (G.followRoundReporting G.first) where
  honest := by
    intro f
    refine followRound_induction (P := Family.Progress.Honest f)
      (fun p hp front b rest hrhs done hdone => ?_) (.start f)
    exact hdone.andThen (Family.honest_followOnce (wn.lt_of_rhs_eq hp hrhs) rest _)
  lt := by
    intro f hf
    refine followRound_induction (P := fun done => ∀ a i, i ∈ done.family.get a → i < G.termCount)
      (fun p hp front b rest hrhs done hdone a i hi => ?_) hf
    rcases (Family.mem_get_followOnce (wn.lt_of_rhs_eq hp hrhs)).mp hi with
      hi | ⟨-, ⟨-, hi⟩ | ⟨-, hi⟩⟩
    · exact hdone a i hi
    · refine Family.lt_of_mem_firstOf wn.epsilonId_lt (fun _ _ => lt_of_mem_first wn) ?_ hi
      exact fun t ht => wn.term_lt p hp t (by simp [hrhs, ht])
    · exact hdone _ i hi

theorem mem_followSeed_iff (wn : G.WellNumbered) {a i : Nat} :
    i ∈ G.followSeed.get a ↔ G.start = a ∧ i = endId := by
  rw [followSeed, Family.mem_get_enlarge wn.start_lt, IdSet.mem_single wn.endId_lt]
  simp

/-! ### The FOLLOW sets are the least closed family -/

/-- **The end mark follows the start symbol.** -/
theorem endId_mem_follow_start (wn : G.WellNumbered) :
    endId ∈ (G.follow G.first).get G.start :=
  Family.below_saturate (growing_followRound wn) _ _ _ _
    ((mem_followSeed_iff wn).mpr ⟨rfl, rfl⟩)

/--
**No occurrence lacks anything:** a nonterminal on a right side is followed by what the rest
of that side begins with, and by what follows the left side if the rest can vanish.
-/
theorem follow_closed (wn : G.WellNumbered) {p : Production} (hp : p ∈ G.prods)
    {front rest : List Node} {b : Nat} (hrhs : p.rhs = front ++ .nonterm b :: rest) {i : Nat}
    (hi : i ≠ epsilonId ∧ i ∈ G.first.firstOf rest ∨
      epsilonId ∈ G.first.firstOf rest ∧ i ∈ (G.follow G.first).get p.lhs) :
    i ∈ (G.follow G.first).get b := by
  have hround : G.followRound G.first (G.follow G.first) = G.follow G.first := by
    refine Family.round_saturate (growing_followRound wn) fun a i h => ?_
    obtain ⟨-, rfl⟩ := (mem_followSeed_iff wn).mp h
    exact wn.endId_lt
  obtain ⟨before, after, hprods⟩ := List.append_of_mem hp
  have hstep : ∀ (done : Family.Progress G.termCount G.nontermCount) (q : Production),
      done.family.Below (G.first.followAlong q.lhs q.rhs done).family :=
    fun done q => Family.below_followAlong G.first q.lhs q.rhs done
  have hbefore := Family.Progress.below_foldl hstep before (.start (G.follow G.first))
  rw [← hround, followRound, followRoundReporting, hprods, List.foldl_append, List.foldl_cons, hrhs]
  obtain ⟨f, hf, hwalk⟩ := Family.exists_followOnce_below G.first p.lhs b front rest
    (before.foldl (fun done q => G.first.followAlong q.lhs q.rhs done) (.start (G.follow G.first)))
  refine Family.Progress.below_foldl hstep after _ _ _ (hwalk _ _ ?_)
  refine (Family.mem_get_followOnce (wn.lt_of_rhs_eq hp hrhs)).mpr (.inr ⟨rfl, ?_⟩)
  exact hi.imp_right (And.imp_right fun h => hf _ _ (hbefore _ _ h))

/-- **Nothing is in a FOLLOW set that the occurrences did not put there.** -/
theorem follow_least (wn : G.WellNumbered) {P : Nat → Nat → Prop} (hstart : P G.start endId)
    (hfirst : ∀ p ∈ G.prods, ∀ front b rest, p.rhs = front ++ .nonterm b :: rest →
      ∀ i, i ≠ epsilonId → i ∈ G.first.firstOf rest → P b i)
    (hfollow : ∀ p ∈ G.prods, ∀ front b rest, p.rhs = front ++ .nonterm b :: rest →
      epsilonId ∈ G.first.firstOf rest → ∀ i, P p.lhs i → P b i)
    {a i : Nat} (hi : i ∈ (G.follow G.first).get a) : P a i := by
  refine Family.saturate_induction (P := fun f => ∀ a i, i ∈ f.get a → P a i) (fun f hf => ?_) _
    (fun a i h => ?_) a i hi
  · refine followRound_induction (P := fun done => ∀ a i, i ∈ done.family.get a → P a i)
      (fun p hp front b rest hrhs done hdone a i hi => ?_) hf
    rcases (Family.mem_get_followOnce (wn.lt_of_rhs_eq hp hrhs)).mp hi with
      hi | ⟨rfl, ⟨hne, hi⟩ | ⟨he, hi⟩⟩
    · exact hdone a i hi
    · exact hfirst p hp front b rest hrhs i hne hi
    · exact hfollow p hp front b rest hrhs he i (hdone _ i hi)
  · obtain ⟨rfl, rfl⟩ := (mem_followSeed_iff wn).mp h
    exact hstart

/-- **Epsilon follows nothing.** -/
theorem ne_epsilonId_of_mem_follow (wn : G.WellNumbered) {a i : Nat}
    (hi : i ∈ (G.follow G.first).get a) : i ≠ epsilonId :=
  follow_least wn (P := fun _ i => i ≠ epsilonId) (by decide) (fun _ _ _ _ _ _ _ hne _ => hne)
    (fun _ _ _ _ _ _ _ _ h => h) hi

theorem lt_of_mem_follow (wn : G.WellNumbered) {a i : Nat}
    (hi : i ∈ (G.follow G.first).get a) : i < G.termCount := by
  refine Family.saturate_induction (growing_followRound wn).lt _ (fun a i h => ?_) a i hi
  obtain ⟨-, rfl⟩ := (mem_followSeed_iff wn).mp h
  exact wn.endId_lt

/-! ### Lists of nodes that fit -/

/--
Whatever can stand after a nonterminal of `nodes`, with `after` behind them, is in its FOLLOW
set.
-/
def Fits (G : IndexedGrammar σ) : List Node → List Node → Prop
  | [], _ => True
  | x :: rest, after =>
    (∀ b, x = .nonterm b → ∀ i, i ≠ epsilonId → i ∈ G.first.firstOf (rest ++ after) →
      i ∈ (G.follow G.first).get b) ∧ Fits G rest after

@[simp] theorem fits_nil (after : List Node) : G.Fits [] after := trivial

theorem fits_term {t : Nat} {rest after : List Node} :
    G.Fits (.term t :: rest) after ↔ G.Fits rest after := by
  simp [Fits]

theorem fits_nonterm {b : Nat} {rest after : List Node} :
    G.Fits (.nonterm b :: rest) after ↔
      (∀ i, i ≠ epsilonId → i ∈ G.first.firstOf (rest ++ after) →
        i ∈ (G.follow G.first).get b) ∧ G.Fits rest after := by
  simp [Fits]

theorem fits_append {nodes rest after : List Node} :
    G.Fits (nodes ++ rest) after ↔ G.Fits nodes (rest ++ after) ∧ G.Fits rest after := by
  induction nodes with
  | nil => simp
  | cons x nodes ih => simp [Fits, ih, and_assoc]

/-- The stack an automaton begins with fits. -/
theorem fits_start (wn : G.WellNumbered) : G.Fits [.nonterm G.start, .term endId] [] := by
  refine fits_nonterm.mpr ⟨fun i _ hi => ?_, fits_term.mpr trivial⟩
  rw [(Family.mem_firstOf_term wn.endId_lt).mp hi]
  exact endId_mem_follow_start wn

/-- A right side fits where its left side does. -/
theorem fits_rhs (wn : G.WellNumbered) {p : Production} (hp : p ∈ G.prods) {after : List Node}
    (h : ∀ i, i ≠ epsilonId → i ∈ G.first.firstOf after → i ∈ (G.follow G.first).get p.lhs) :
    G.Fits p.rhs after := by
  have hsuffix : ∀ nodes front, p.rhs = front ++ nodes → G.Fits nodes after := by
    intro nodes
    induction nodes with
    | nil => intro front _; exact fits_nil after
    | cons x rest ih =>
        intro front hrhs
        have hrest := ih (front ++ [x]) (by rw [hrhs]; simp)
        refine ⟨?_, hrest⟩
        rintro b rfl i hne hi
        have hn : Node.term epsilonId ∉ rest := fun hc =>
          wn.epsilon_notMem p hp (by simp [hrhs, hc])
        rw [Family.mem_firstOf_append wn.epsilonId_lt hn] at hi
        exact follow_closed wn hp hrhs (hi.imp_right (And.imp_right (h i hne)))
  exact hsuffix p.rhs [] rfl

/-- **Expanding a nonterminal of a list that fits leaves a list that fits.** -/
theorem fits_expand (wn : G.WellNumbered) {p : Production} (hp : p ∈ G.prods)
    {before after : List Node} (hn : Node.term epsilonId ∉ before)
    (h : G.Fits (before ++ .nonterm p.lhs :: after) []) :
    G.Fits (before ++ (p.rhs ++ after)) [] := by
  rw [fits_append, fits_nonterm] at h
  obtain ⟨hbefore, hlhs, hafter⟩ := h
  rw [List.append_nil] at hbefore hlhs
  rw [fits_append, fits_append, List.append_nil, List.append_nil]
  refine ⟨?_, fits_rhs wn hp hlhs, hafter⟩
  clear hlhs hafter
  induction before with
  | nil => exact fits_nil _
  | cons x before ih =>
      rw [List.mem_cons, not_or] at hn
      refine ⟨?_, ih hn.2 hbefore.2⟩
      rintro b rfl i hne hi
      exact hbefore.1 b rfl i hne (mem_firstOf_unexpand wn hp hn.2 hi)

end IndexedGrammar

end BusinessHours

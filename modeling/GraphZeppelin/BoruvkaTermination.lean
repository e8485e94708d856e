import GraphZeppelin.BoruvkaRound
import Mathlib.Order.Lattice.Nat

/-!
# Termination of Boruvka emulation

The do-while loop of `boruvka_emulation` has no bound in the source. A
round goes on only when it modified the graph, and `supernodes_to_merge`
sets `modified` only for a failed answer or a union of the disjoint-set
forest. A union removes a root, and there are at most `num_nodes` of them;
a round with failures and no union keeps exactly the failed
representatives, each of which has used up one of its sketches. So

  (roots - 1) * (max_sketches + 1) + the largest `samples_remaining` of a representative

falls in every round that goes on (`termMeasure_roundMerge_lt`), and the
run ends within `max 1 (num_nodes * (max_sketches + 1))` rounds, returning
or throwing (`boruvkaLoop_boruvkaStart_isSome`). The `max 1` is needed:
with no node the do-while still runs its one round
(`boruvkaLoop_numNodes_zero`).

This holds for any sketch operations and any answers, under two
conditions: every good answer names two nodes of the graph (the source
would index out of its arrays otherwise), and no supernode allows more
than `max_sketches` queries, as the constructors and `merge` keep.
-/

namespace GraphZeppelin

open ParentForest

namespace Graph

section Termination

variable {σ : Type} (ops : SketchOps σ) (conf : SupernodeConfig)

/-- Every good answer of a sketch names two nodes below `n`. -/
def GoodInRange (n : ℕ) : Prop :=
  ∀ sk sk' x, ops.query sk = .ok (sk', x, .good) →
    (invConcatPairingFn x).src.toNat < n ∧ (invConcatPairingFn x).dst.toNat < n

/-- **What holds between the rounds** of a run on `n` nodes. -/
structure TermInv (n : ℕ) (st : BoruvkaState σ) : Prop where
  numNodes : st.graph.numNodes = n
  forest : SpanningForestInv n st.graph.parent st.graph.spanningForest
  reps_lt : ∀ i ∈ st.reps, i < n
  merged_le : ∀ i < n, (st.graph.supernodes i).mergedSketches ≤ conf.maxSketches

/-- The queries left to the representatives. -/
def repsRemaining (st : BoruvkaState σ) : ℕ :=
  st.reps.toFinset.sup fun i => (st.graph.supernodes i).samplesRemaining

/-- **The measure** of a state: each root beyond the first is worth more
rounds than a representative can fail, and the representatives' queries
count the rest. -/
def termMeasure (n : ℕ) (st : BoruvkaState σ) : ℕ :=
  ((roots st.graph.parent n).card - 1) * (conf.maxSketches + 1) + repsRemaining st

variable {ops conf}

theorem TermInv.repsRemaining_le {n : ℕ} {st : BoruvkaState σ} (h : TermInv conf n st) :
    repsRemaining st ≤ conf.maxSketches :=
  Finset.sup_le fun i hi =>
    (Nat.sub_le _ _).trans (h.merged_le i (h.reps_lt i (List.mem_toFinset.mp hi)))

theorem TermInv.start {g : Graph σ}
    (hmerged : ∀ i < g.numNodes, (g.supernodes i).mergedSketches ≤ conf.maxSketches) :
    TermInv conf g.numNodes (boruvkaStart g) where
  numNodes := rfl
  forest := SpanningForestInv.start g.numNodes
  reps_lt _ hi := List.mem_range.mp hi
  merged_le := hmerged

/-- The measure at the start is below the number of rounds allowed. -/
theorem termMeasure_start_lt {g : Graph σ}
    (hmerged : ∀ i < g.numNodes, (g.supernodes i).mergedSketches ≤ conf.maxSketches) :
    termMeasure conf g.numNodes (boruvkaStart g) < max 1 (g.numNodes * (conf.maxSketches + 1)) := by
  have hrem := (TermInv.start hmerged).repsRemaining_le
  have hroots : (roots (boruvkaStart g).graph.parent g.numNodes).card = g.numNodes := by
    show (roots id g.numNodes).card = g.numNodes
    rw [roots_id, Finset.card_range]
  unfold termMeasure
  rw [hroots]
  rcases Nat.eq_zero_or_pos g.numNodes with hn | hn
  · -- no node: no representative, and still one round
    simp [repsRemaining, boruvkaStart, hn]
  · have hsplit : g.numNodes * (conf.maxSketches + 1)
        = (g.numNodes - 1) * (conf.maxSketches + 1) + (conf.maxSketches + 1) := by
      rw [← Nat.succ_mul, Nat.succ_eq_add_one, Nat.sub_add_cancel hn]
    exact lt_max_of_lt_right (by omega)

/-- The arithmetic of a round with a union: a root fewer outweighs any
queries left. -/
private theorem measure_lt_of_card_lt {c c' r r' M : ℕ} (hc : c' < c) (hc' : 0 < c')
    (hr' : r' ≤ M) : (c' - 1) * (M + 1) + r' < (c - 1) * (M + 1) + r := by
  have hle : c' * (M + 1) ≤ (c - 1) * (M + 1) := Nat.mul_le_mul_right _ (by omega)
  have hsplit : c' * (M + 1) = (c' - 1) * (M + 1) + (M + 1) := by
    rw [← Nat.succ_mul, Nat.succ_eq_add_one, Nat.sub_add_cancel hc']
  omega

/-! ## One round -/

variable {n : ℕ} {makeCopy : Bool} {st : BoruvkaState σ} {g1 : Graph σ}
  {query : ℕ → Edge × SampleSketchRet}

/-- A good answer of a sampled representative names two nodes below `n`. -/
theorem Sampled.good_lt (hgood : GoodInRange ops n) {reps : List ℕ} {g : Graph σ}
    (hs : Sampled ops reps g g1 query) {i : ℕ} (hi : i ∈ reps) (hq : (query i).2 = .good) :
    (query i).1.src.toNat < n ∧ (query i).1.dst.toNat < n := by
  obtain ⟨-, sk, x, hquery, hx, -⟩ := Supernode.sample_eq_ok ops (hs.sample i hi)
  rw [hx]
  exact hgood _ sk x (hq ▸ hquery)

/-- The loop of `supernodes_to_merge` keeps its invariant on the sampled
graph. -/
theorem TermInv.toMergeInv (hgood : GoodInRange ops n) (h : TermInv conf n st)
    (hs : Sampled ops st.reps { st.graph with modified := false } g1 query) :
    ToMergeInv query g1 st.reps (st.reps.foldl (toMergeStep query) (g1, fun _ => [], [])) := by
  have hn : g1.numNodes = n := hs.numNodes_eq.trans h.numNodes
  refine toMergeInv_foldl ?_ fun i hi hq => hn ▸ hs.good_lt hgood hi hq
  rw [hn, hs.parent_eq, hs.spanningForest_eq]
  exact h.forest

/-- **A round keeps the invariant.** -/
theorem TermInv.roundMerge (hgood : GoodInRange ops n) (h : TermInv conf n st)
    (hs : Sampled ops st.reps { st.graph with modified := false } g1 query) :
    TermInv conf n (roundMerge ops makeCopy st g1 query).1 := by
  have hinv := h.toMergeInv hgood hs
  have hn : g1.numNodes = n := hs.numNodes_eq.trans h.numNodes
  refine ⟨?_, ?_, fun i hi => ?_, fun i hi => ?_⟩
  · rw [roundMerge_numNodes, supernodesToMerge_fst, hinv.numNodes_eq, hn]
  · rw [roundMerge_parent, roundMerge_spanningForest, supernodesToMerge_fst, ← hn]
    exact hinv.forest
  · exact hn ▸ roundMerge_reps_lt hinv (fun j hj => hn ▸ h.reps_lt j hj) hi
  · -- merging only lowers the bound, and sampling keeps it
    have hkeep : ∀ j < n, ((supernodesToMerge query st.reps g1).1.supernodes j).mergedSketches
        ≤ conf.maxSketches := by
      intro j hj
      rw [supernodesToMerge_fst, hinv.supernodes_eq]
      by_cases hjr : j ∈ st.reps
      · have hfst := congrArg Prod.fst (hs.sample j hjr)
        dsimp only at hfst
        rw [← hfst, Supernode.sample_mergedSketches]
        exact h.merged_le j hj
      · rw [hs.other j hjr]
        exact h.merged_le j hj
    rw [roundMerge_supernodes]
    split
    · exact (Supernode.mergedSketches_foldl_merge_le ops _ _ _).trans (hkeep i hi)
    · exact hkeep i hi

/-- **A round that goes on lowers the measure**: by a root if it made a
union, and otherwise by a query of each representative it keeps, all of
which failed. -/
theorem termMeasure_roundMerge_lt (hgood : GoodInRange ops n) (h : TermInv conf n st)
    (hs : Sampled ops st.reps { st.graph with modified := false } g1 query)
    (hmod : (roundMerge ops makeCopy st g1 query).1.graph.modified = true) :
    termMeasure conf n (roundMerge ops makeCopy st g1 query).1 < termMeasure conf n st := by
  have hinv := h.toMergeInv hgood hs
  have h' : TermInv conf n (roundMerge ops makeCopy st g1 query).1 := h.roundMerge hgood hs
  have hn : g1.numNodes = n := hs.numNodes_eq.trans h.numNodes
  have hpar : g1.parent = st.graph.parent := hs.parent_eq
  set res := st.reps.foldl (toMergeStep query) (g1, fun _ => [], [])
  -- the roots of the two states, against those of the sampled graph
  have hroots' : roots (roundMerge ops makeCopy st g1 query).1.graph.parent n
      = roots res.1.parent g1.numNodes := by
    rw [roundMerge_parent, supernodesToMerge_fst, hn]
  have hroots : roots st.graph.parent n = roots g1.parent g1.numNodes := by
    rw [hn, hpar]
  unfold termMeasure
  rw [hroots', hroots]
  by_cases hunion : (roots res.1.parent g1.numNodes).card < (roots g1.parent g1.numNodes).card
  · -- a union: one root fewer
    have hpos : 0 < (roots res.1.parent g1.numNodes).card := by
      obtain ⟨r, hr⟩ := Finset.card_pos.mp (Nat.zero_lt_of_lt hunion)
      exact card_roots_pos hinv.lists.isForest (Nat.zero_lt_of_lt (mem_roots.mp hr).1)
    exact measure_lt_of_card_lt hunion hpos h'.repsRemaining_le
  · -- no union: the failed representatives go on, one query poorer each
    have hcard := Nat.le_of_not_lt hunion
    obtain ⟨hnil, hreps⟩ := supernodesToMerge_of_card_le hinv hcard
    have hfailed : res.2.2 ≠ [] := by
      rw [roundMerge_modified, supernodesToMerge_fst] at hmod
      rcases hinv.modified hmod with h0 | hf | hlt
      · rw [hs.modified_eq] at h0
        exact absurd h0 Bool.false_ne_true
      · exact hf
      · exact absurd hlt hunion
    have hceq : (roots res.1.parent g1.numNodes).card = (roots g1.parent g1.numNodes).card :=
      le_antisymm (Finset.card_le_card hinv.lists.roots_subset) hcard
    have hlt : ∀ i ∈ res.2.2,
        ((roundMerge ops makeCopy st g1 query).1.graph.supernodes i).samplesRemaining
          < repsRemaining st := by
      intro i hi
      have hir : i ∈ st.reps := hinv.failed_sublist.subset hi
      have hsn : (roundMerge ops makeCopy st g1 query).1.graph.supernodes i = g1.supernodes i := by
        rw [roundMerge_supernodes, hnil i, hreps, if_pos hi, List.foldl_nil,
          supernodesToMerge_fst, hinv.supernodes_eq]
      rw [hsn]
      exact (Supernode.samplesRemaining_lt_of_sample_eq_ok ops (hs.sample i hir)).trans_le
        (Finset.le_sup (f := fun i => (st.graph.supernodes i).samplesRemaining)
          (List.mem_toFinset.mpr hir))
    have hrem : repsRemaining (roundMerge ops makeCopy st g1 query).1 < repsRemaining st := by
      obtain ⟨j, hj⟩ := List.exists_mem_of_ne_nil _ hfailed
      unfold repsRemaining
      rw [roundMerge_reps, hreps]
      exact (Finset.sup_lt_iff (Nat.zero_lt_of_lt (hlt j hj))).mpr fun i hi =>
        hlt i (List.mem_toFinset.mp hi)
    rw [hceq]
    exact Nat.add_lt_add_left hrem _

/-! ## The run -/

/-- **Enough rounds**: from a state of the invariant, the loop ends within
one more round than the measure. -/
theorem isSome_boruvkaLoop (hgood : GoodInRange ops n) (h : TermInv conf n st) {k : ℕ}
    (hk : termMeasure conf n st < k) : (boruvkaLoop ops makeCopy k st).isSome := by
  refine Loop.isSome_iterate (TermInv conf n) (termMeasure conf n) ?_ k st h hk
  intro a a' ha hbody
  obtain ⟨hr, hmod⟩ := boruvkaBody_eq_inl ops hbody
  obtain ⟨hS, hm⟩ := round_eq_none ops hr
  have hs := sampled_of_none ops hS
  have ha' := congrArg Prod.fst hm
  dsimp only at ha'
  subst ha'
  exact ⟨ha.roundMerge hgood hs, termMeasure_roundMerge_lt hgood ha hs hmod⟩

/-- **Boruvka emulation terminates**: whatever the sketches answer, its
do-while loop returns or throws within `max 1 (num_nodes * (max_sketches + 1))`
rounds. -/
theorem boruvkaLoop_boruvkaStart_isSome (makeCopy : Bool) {g : Graph σ}
    (hgood : GoodInRange ops g.numNodes)
    (hmerged : ∀ i < g.numNodes, (g.supernodes i).mergedSketches ≤ conf.maxSketches) :
    (boruvkaLoop ops makeCopy (max 1 (g.numNodes * (conf.maxSketches + 1)))
      (boruvkaStart g)).isSome :=
  isSome_boruvkaLoop hgood (TermInv.start hmerged) (termMeasure_start_lt hmerged)

/-- A query that always fails. -/
def failOracle (_ : UInt64) (_ : Finset UInt64) : UInt64 × SampleSketchRet := (0, .fail)

theorem goodInRange_failOracle (n : ℕ) : GoodInRange (VecSketch.ops failOracle) n := by
  intro sk sk' x h
  simp only [VecSketch.ops, failOracle] at h
  split at h <;> simp at h

theorem boruvkaLoop_boruvkaStart_isSome_failOracle :
    GoodInRange (VecSketch.ops failOracle) 3 ∧
      (∀ i < 3, ((Graph.init (VecSketch.ops failOracle) ⟨2, 3⟩ 3 0 {}).supernodes i).mergedSketches
        ≤ 2) ∧
      (boruvkaLoop (VecSketch.ops failOracle) true (max 1 (3 * (2 + 1)))
        (boruvkaStart (Graph.init (VecSketch.ops failOracle) ⟨2, 3⟩ 3 0 {}))).isSome :=
  ⟨goodInRange_failOracle 3, fun _ _ => le_refl 2,
    @boruvkaLoop_boruvkaStart_isSome _ (VecSketch.ops failOracle) ⟨2, 3⟩ true
      (Graph.init (VecSketch.ops failOracle) ⟨2, 3⟩ 3 0 {}) (goodInRange_failOracle 3)
      fun _ _ => le_refl 2⟩

/-- With no node the do-while loop still runs one round, one more than
`num_nodes * (max_sketches + 1)`. -/
theorem boruvkaLoop_numNodes_zero (makeCopy : Bool) (g : Graph σ) :
    boruvkaLoop ops makeCopy ({ g with numNodes := 0 }.numNodes * (conf.maxSketches + 1))
        (boruvkaStart { g with numNodes := 0 }) = none ∧
      (boruvkaLoop ops makeCopy 1 (boruvkaStart { g with numNodes := 0 })).isSome := by
  refine ⟨by simp [boruvkaLoop], ?_⟩
  simp [boruvkaLoop, Loop.iterate_succ, boruvkaBody, round, sampleSupernodes, roundMerge,
    supernodesToMerge, mergeSupernodes, boruvkaStart, backupToDisk, apply_ite Graph.modified]

/-- `Graph(0)`: `Supernode::configure(0, 4)` leaves no sketch to a supernode. -/
theorem boruvkaLoop_numNodes_zero_failOracle :
    boruvkaLoop (VecSketch.ops failOracle) true
        ((Graph.init (VecSketch.ops failOracle) ⟨0, 3⟩ 0 0 {}).numNodes * (0 + 1))
        (boruvkaStart (Graph.init (VecSketch.ops failOracle) ⟨0, 3⟩ 0 0 {})) = none ∧
      (boruvkaLoop (VecSketch.ops failOracle) true 1
        (boruvkaStart (Graph.init (VecSketch.ops failOracle) ⟨0, 3⟩ 0 0 {}))).isSome :=
  @boruvkaLoop_numNodes_zero _ (VecSketch.ops failOracle) ⟨0, 3⟩ true
    (Graph.init (VecSketch.ops failOracle) ⟨0, 3⟩ 0 0 {})

/-- **Every run of `boruvka_emulation` ends** within the fuel the model
gives it. -/
theorem isSome_boruvkaEmulation (makeCopy : Bool) {g : Graph σ}
    (hgood : GoodInRange ops g.numNodes)
    (hmerged : ∀ i < g.numNodes, (g.supernodes i).mergedSketches ≤ conf.maxSketches) :
    (boruvkaEmulation ops conf makeCopy g).isSome := by
  rw [boruvkaEmulation, Option.isSome_map]
  exact isSome_boruvkaLoop hgood (TermInv.start hmerged) (termMeasure_start_lt hmerged)

end Termination

end Graph

end GraphZeppelin

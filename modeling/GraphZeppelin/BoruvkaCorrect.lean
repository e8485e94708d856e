import GraphZeppelin.Ingest

/-!
# Boruvka emulation computes the connected components

Take each sketch as the vector it summarises (`VecSketch`) and its sampler
as a sound oracle. A node's supernode, after the flush, holds the
identifiers of the edges at the node: each edge is handed to both of its
ends. Merging the supernodes of two classes adds their vectors, and the
edges between the two classes, held by both, cancel (`cutVec_union`). So
the supernode of every root of the disjoint-set forest holds the edges
leaving the root's class, and the answer the root gets is about its class:
`ZERO` means that no edge leaves it, `GOOD` names one that does.

`CutInv` is that invariant, together with the spanning forest built so far
and with what the loop has learnt: a class whose root is no longer a
representative has no edge leaving it. It holds at the start
(`CutInv.start`) and after every round (`CutInv.roundMerge`). The round
that ends a run without an exception modified nothing, so it leaves no
representative (`CutInv.reps_eq_nil_of_round`), and then no edge leaves
any class: the forest spans the graph (`CutInv.spanningForestOf`) and its
classes are the connected components. `boruvkaEmulation_correct` is this
for a whole run, and `connectedComponents_correct` for a query on the
graph a stream built, on the fast path and on the slow one.
-/

open scoped symmDiff

namespace GraphZeppelin

open ParentForest Connectivity Parity GraphZeppelin.Graph

/-! ## Classes and the vectors of their cuts -/

/-- The identifiers of the edges of `E` leaving `S`: what the supernodes of
the nodes of `S` sum to. -/
def cutVec (E : Finset (ℕ × ℕ)) (S : Finset ℕ) : Finset UInt64 := (cut E S).image edgeId

section Classes

variable {E : Finset (ℕ × ℕ)} {p p0 : ℕ → ℕ} {n : ℕ}

/-- At the start every node is a class of its own. -/
theorem classOf_id {r : ℕ} (hr : r < n) : classOf (fun i => i) n r = {r} := by
  ext u
  rw [mem_classOf, Finset.mem_singleton, show root (fun i => i) n u = u from root_id n u]
  constructor
  · exact fun h => h.2
  · rintro rfl
    exact ⟨hr, rfl⟩

/-- **The vector of a disjoint union** is the sum of the vectors: the
edges between the two parts are in both and cancel. -/
theorem cutVec_union (hE : EdgesBelow (2 ^ 32) E) {S T : Finset ℕ} (h : Disjoint S T) :
    cutVec E (S ∪ T) = cutVec E S ∆ cutVec E T := by
  have hproper : ∀ C ⊆ E, (↑C : Set (ℕ × ℕ)) ⊆ {e | e.1 < e.2 ∧ e.2 < 2 ^ 32} :=
    fun C hC e he => hE e (hC he)
  unfold cutVec
  rw [cut_union E h, image_symmDiff_of_injOn (edgeId_injOn le_rfl)
    (hproper _ (cut_subset E S)) (hproper _ (cut_subset E T))]

/-- The vector of a union of pairwise disjoint sets, built up one set at a
time. -/
theorem cutVec_foldl_union (hE : EdgesBelow (2 ^ 32) E) (T : ℕ → Finset ℕ) (l : List ℕ)
    {S : Finset ℕ} (hS : ∀ b ∈ l, Disjoint S (T b))
    (hl : l.Pairwise fun b c => Disjoint (T b) (T c)) :
    cutVec E (l.foldl (fun S b => S ∪ T b) S)
      = l.foldl (fun v b => v ∆ cutVec E (T b)) (cutVec E S) := by
  induction l generalizing S with
  | nil => rfl
  | cons b l ih =>
    obtain ⟨hb, hl⟩ := List.pairwise_cons.mp hl
    rw [List.foldl_cons, List.foldl_cons, ← cutVec_union hE (hS b List.mem_cons_self)]
    refine ih (fun c hc => Finset.disjoint_union_left.mpr ⟨?_, hb c hc⟩) hl
    exact hS c (List.mem_cons_of_mem b hc)

/-- An identifier of one of the edges `C` of the graph decodes to that
edge, smaller end first. -/
theorem mem_of_mem_image_edgeId (hE : EdgesBelow (2 ^ 32) E) {C : Finset (ℕ × ℕ)} (hC : C ⊆ E)
    {x : UInt64} (hx : x ∈ C.image edgeId) :
    ((invConcatPairingFn x).src.toNat, (invConcatPairingFn x).dst.toNat) ∈ C := by
  obtain ⟨e, he, rfl⟩ := Finset.mem_image.mp hx
  obtain ⟨h1, h2⟩ := hE e (hC he)
  obtain ⟨hsrc, hdst⟩ := invConcatPairingFn_edgeId h1 h2
  rw [hsrc, hdst]
  exact he

namespace MergeLists

variable {tm : ℕ → List ℕ} {R : ℕ}

/-- **The class of a root after the unions** is its old class with the old
classes of its list. -/
theorem classOf_eq_foldl (h : MergeLists p0 n p tm) (hR : R ∈ roots p n) :
    classOf p n R = (tm R).foldl (fun S b => S ∪ classOf p0 n b) (classOf p0 n R) := by
  have hRR : root p n R = R := root_of_isRoot (mem_roots.mp hR).2
  ext u
  rw [mem_foldl_union, mem_classOf, mem_classOf]
  constructor
  · rintro ⟨hu, hroot⟩
    -- the old root of `u` is `R` itself or one of the old roots of its list
    by_cases h0 : root p0 n u = R
    · exact .inl ⟨hu, h0⟩
    · have hmem : root p0 n u ∈ tm R := (h.mem_iff R hR _).mpr
        ⟨root_mem_roots h.isForest0 hu, h0, (h.root_root u hu).trans hroot⟩
      exact .inr ⟨root p0 n u, hmem, mem_classOf.mpr ⟨hu, rfl⟩⟩
  · rintro (⟨hu, h0⟩ | ⟨b, hb, hub⟩)
    · exact ⟨hu, by rw [← h.root_root u hu, h0, hRR]⟩
    · obtain ⟨-, -, hbR⟩ := (h.mem_iff R hR b).mp hb
      obtain ⟨hu, h0⟩ := mem_classOf.mp hub
      exact ⟨hu, by rw [← h.root_root u hu, h0, hbR]⟩

/-- **The vector of a class after the unions** is the sum of the vectors of
the old classes it gathers. -/
theorem cutVec_classOf (hE : EdgesBelow (2 ^ 32) E) (h : MergeLists p0 n p tm)
    (hR : R ∈ roots p n) :
    cutVec E (classOf p n R)
      = (tm R).foldl (fun v b => v ∆ cutVec E (classOf p0 n b)) (cutVec E (classOf p0 n R)) := by
  rw [h.classOf_eq_foldl hR]
  refine cutVec_foldl_union hE _ _ (fun b hb => classOf_disjoint ?_)
    ((h.nodup R).imp fun hne => classOf_disjoint hne)
  exact fun hRb => ((h.mem_iff R hR b).mp hb).2.1 hRb.symm

/-- A root with nothing to merge kept its class. -/
theorem classOf_of_nil (h : MergeLists p0 n p tm) (hR : R ∈ roots p n) (hnil : tm R = []) :
    classOf p n R = classOf p0 n R := by
  rw [h.classOf_eq_foldl hR, hnil, List.foldl_nil]

end MergeLists

end Classes

/-! ## The invariant of the rounds -/

/-- **What holds between the rounds** of a run on the graph `E` over the
nodes below `n`. -/
structure CutInv (E : Finset (ℕ × ℕ)) (n : ℕ) (st : BoruvkaState VecSketch) : Prop where
  numNodes : st.graph.numNodes = n
  forest : SpanningForestInv n st.graph.parent st.graph.spanningForest
  present : ∀ u v, v ∈ st.graph.spanningForest u → (u, v) ∈ E
  reps_lt : ∀ i ∈ st.reps, i < n
  /-- the supernode of a root holds the edges leaving its class -/
  sketch_cut : ∀ r ∈ roots st.graph.parent n,
    Summarises (st.graph.supernodes r) (cutVec E (classOf st.graph.parent n r))
  /-- every supernode holds edges of the graph -/
  sketch_edges : ∀ i < n, ∃ C ⊆ E, Summarises (st.graph.supernodes i) (C.image edgeId)
  /-- no edge leaves a class whose root is not a representative -/
  closed : ∀ r ∈ roots st.graph.parent n, r ∉ st.reps → cut E (classOf st.graph.parent n r) = ∅

section Rounds

variable {oracle : UInt64 → Finset UInt64 → UInt64 × SampleSketchRet} {E : Finset (ℕ × ℕ)}
  {n : ℕ} {makeCopy : Bool} {st st' : BoruvkaState VecSketch} {g1 : Graph VecSketch}
  {query : ℕ → Edge × SampleSketchRet}

/-- Sampling keeps what every supernode summarises. -/
theorem Graph.Sampled.summarises {reps : List ℕ} {g : Graph VecSketch}
    (hs : Sampled (VecSketch.ops oracle) reps g g1 query) {i : ℕ} {v : Finset UInt64}
    (h : Summarises (g.supernodes i) v) : Summarises (g1.supernodes i) v := by
  by_cases hi : i ∈ reps
  · have hfst := congrArg Prod.fst (hs.sample i hi)
    dsimp only at hfst
    rw [← hfst]
    exact h.sample
  · rw [hs.other i hi]
    exact h

/-- **A good answer names an edge** that the sampled supernode holds. -/
theorem Graph.Sampled.good_mem (hsound : OracleSound oracle) (hE32 : EdgesBelow (2 ^ 32) E)
    {reps : List ℕ} {g : Graph VecSketch} (hs : Sampled (VecSketch.ops oracle) reps g g1 query)
    {i : ℕ} (hi : i ∈ reps) {C : Finset (ℕ × ℕ)} (hC : C ⊆ E)
    (hsum : Summarises (g.supernodes i) (C.image edgeId)) (hq : (query i).2 = .good) :
    ((query i).1.src.toNat, (query i).1.dst.toNat) ∈ C := by
  obtain ⟨x, hx, hans⟩ := hsum.answers hsound (hs.sample i hi)
  rw [hq] at hans
  rw [hx]
  exact mem_of_mem_image_edgeId hE32 hC hans

/-- **A good answer of a round names two nodes of the graph**: the ends of
an edge its supernode holds. -/
theorem CutInv.good_lt (hsound : OracleSound oracle) (hE : EdgesBelow n E)
    (hE32 : EdgesBelow (2 ^ 32) E) (h : CutInv E n st)
    (hs : Sampled (VecSketch.ops oracle) st.reps { st.graph with modified := false } g1 query)
    {i : ℕ} (hi : i ∈ st.reps) (hq : (query i).2 = .good) :
    (query i).1.src.toNat < n ∧ (query i).1.dst.toNat < n := by
  obtain ⟨C, hC, hsum⟩ := h.sketch_edges i (h.reps_lt i hi)
  obtain ⟨hlt, hlt'⟩ : (query i).1.src.toNat < (query i).1.dst.toNat ∧ (query i).1.dst.toNat < n :=
    hE _ (hC (hs.good_mem hsound hE32 hi hC hsum hq))
  exact ⟨hlt.trans hlt', hlt'⟩

/-- The loop of `supernodes_to_merge` keeps its invariant on the sampled
graph. -/
theorem CutInv.toMergeInv (hsound : OracleSound oracle) (hE : EdgesBelow n E)
    (hE32 : EdgesBelow (2 ^ 32) E) (h : CutInv E n st)
    (hs : Sampled (VecSketch.ops oracle) st.reps { st.graph with modified := false } g1 query) :
    ToMergeInv query g1 st.reps (st.reps.foldl (toMergeStep query) (g1, fun _ => [], [])) := by
  have hn : g1.numNodes = n := hs.numNodes_eq.trans h.numNodes
  refine toMergeInv_foldl ?_ fun i hi hq => hn ▸ h.good_lt hsound hE hE32 hs hi hq
  rw [hn, hs.parent_eq, hs.spanningForest_eq]
  exact h.forest

/-- The lists of the round, against the forest of the state it started
from. -/
theorem CutInv.mergeLists (h : CutInv E n st)
    (hs : Sampled (VecSketch.ops oracle) st.reps { st.graph with modified := false } g1 query)
    (hinv : ToMergeInv query g1 st.reps (st.reps.foldl (toMergeStep query) (g1, fun _ => [], []))) :
    MergeLists st.graph.parent n (supernodesToMerge query st.reps g1).1.parent
      (supernodesToMerge query st.reps g1).2.2 := by
  have hlists := hinv.lists
  rw [hs.numNodes_eq.trans h.numNodes, hs.parent_eq] at hlists
  exact hlists

/-- **After the merges the supernode of every root holds the edges leaving
its class**: it is the sum of the supernodes of the old classes it
gathers. -/
theorem CutInv.sketch_cut_roundMerge (hsound : OracleSound oracle) (hE : EdgesBelow n E)
    (hE32 : EdgesBelow (2 ^ 32) E) (h : CutInv E n st)
    (hs : Sampled (VecSketch.ops oracle) st.reps { st.graph with modified := false } g1 query)
    {R : ℕ} (hR : R ∈ roots (roundMerge (VecSketch.ops oracle) makeCopy st g1 query).1.graph.parent n) :
    Summarises ((roundMerge (VecSketch.ops oracle) makeCopy st g1 query).1.graph.supernodes R)
      (cutVec E (classOf (roundMerge (VecSketch.ops oracle) makeCopy st g1 query).1.graph.parent n R)) := by
  have hinv := h.toMergeInv hsound hE hE32 hs
  have hl := h.mergeLists hs hinv
  rw [roundMerge_parent] at hR ⊢
  rw [roundMerge_supernodes_foldl hinv, hl.cutVec_classOf hE32 hR]
  -- every supernode merged in is the sampled one of an old root
  have hold : ∀ b ∈ roots st.graph.parent n,
      Summarises (g1.supernodes b) (cutVec E (classOf st.graph.parent n b)) :=
    fun b hb => hs.summarises (h.sketch_cut b hb)
  exact Summarises.foldl_merge _ (fun b hb => hold b ((hl.mem_iff R hR b).mp hb).1)
    (hold R (hl.roots_subset hR))

/-- **A class left without a representative is closed.** Its root had
nothing to merge and did not fail, so it was not asked, and was closed
before, or it answered: `ZERO` says its cut is empty, and a `GOOD` edge
leaving it would have joined it to another class. -/
theorem CutInv.closed_roundMerge (hsound : OracleSound oracle) (hE : EdgesBelow n E)
    (hE32 : EdgesBelow (2 ^ 32) E) (h : CutInv E n st)
    (hs : Sampled (VecSketch.ops oracle) st.reps { st.graph with modified := false } g1 query)
    {R : ℕ} (hR : R ∈ roots (roundMerge (VecSketch.ops oracle) makeCopy st g1 query).1.graph.parent n)
    (hRr : R ∉ (roundMerge (VecSketch.ops oracle) makeCopy st g1 query).1.reps) :
    cut E (classOf (roundMerge (VecSketch.ops oracle) makeCopy st g1 query).1.graph.parent n R)
      = ∅ := by
  have hinv := h.toMergeInv hsound hE hE32 hs
  have hl := h.mergeLists hs hinv
  have hn : g1.numNodes = n := hs.numNodes_eq.trans h.numNodes
  rw [roundMerge_parent] at hR ⊢
  rw [roundMerge_reps] at hRr
  have hnil := toMerge_eq_nil_of_not_mem hinv hRr
  have hR0 : R ∈ roots st.graph.parent n := hl.roots_subset hR
  have hclass := hl.classOf_of_nil hR hnil
  by_cases hRs : R ∈ st.reps
  · obtain ⟨x, hx, hans⟩ := (h.sketch_cut R hR0).answers hsound (hs.sample R hRs)
    cases hq : (query R).2 with
    | zero =>
      rw [hq] at hans
      rw [hclass]
      exact Finset.image_eq_empty.mp hans
    | fail => exact absurd (mem_supernodesToMerge_reps.mpr (.inl ⟨hinv.fail_mem R hRs hq, hnil⟩)) hRr
    | good =>
      rw [hq, ← hclass] at hans
      -- the edge named leaves the class, but its ends now have one root
      have he := mem_of_mem_image_edgeId hE32 (cut_subset E _) hans
      rw [← hx, mem_cut, mem_classOf, mem_classOf] at he
      obtain ⟨hsrc, hdst, hroot⟩ := hinv.good_root R hRs hq
      rw [hn] at hsrc hdst hroot
      exact absurd ⟨fun h1 => ⟨hdst, hroot.symm.trans h1.2⟩, fun h2 => ⟨hsrc, hroot.trans h2.2⟩⟩
        he.2
  · rw [hclass]
    exact h.closed R hR0 hRs

/-- **A round keeps the invariant.** -/
theorem CutInv.roundMerge (hsound : OracleSound oracle) (hE : EdgesBelow n E)
    (hE32 : EdgesBelow (2 ^ 32) E) (h : CutInv E n st)
    (hs : Sampled (VecSketch.ops oracle) st.reps { st.graph with modified := false } g1 query) :
    CutInv E n (Graph.roundMerge (VecSketch.ops oracle) makeCopy st g1 query).1 := by
  have hinv := h.toMergeInv hsound hE hE32 hs
  have hn : g1.numNodes = n := hs.numNodes_eq.trans h.numNodes
  refine ⟨?_, ?_, fun u v huv => ?_, fun i hi => ?_, fun R hR => ?_, fun i hi => ?_,
    fun R hR hRr => h.closed_roundMerge hsound hE hE32 hs hR hRr⟩
  · rw [roundMerge_numNodes, supernodesToMerge_fst, hinv.numNodes_eq, hn]
  · rw [roundMerge_parent, roundMerge_spanningForest, supernodesToMerge_fst, ← hn]
    exact hinv.forest
  · -- an edge of the forest is an old one or one a good answer named
    rw [roundMerge_spanningForest, supernodesToMerge_fst] at huv
    rcases hinv.forest_mem u v huv with hold | ⟨i, hi, hq, rfl, rfl⟩
    · rw [hs.spanningForest_eq] at hold
      exact h.present u v hold
    · obtain ⟨C, hC, hsum⟩ := h.sketch_edges i (h.reps_lt i hi)
      have he := hC (hs.good_mem hsound hE32 hi hC hsum hq)
      have hlt := (hE _ he).1
      rw [min_eq_left hlt.le, max_eq_right hlt.le]
      exact he
  · exact hn ▸ roundMerge_reps_lt hinv (fun j hj => hn ▸ h.reps_lt j hj) hi
  · exact h.sketch_cut_roundMerge hsound hE hE32 hs hR
  · -- a root holds its cut, and any other node kept its sampled supernode
    by_cases hnil : (supernodesToMerge query st.reps g1).2.2 i = []
    · rw [roundMerge_supernodes_foldl hinv, hnil, List.foldl_nil]
      obtain ⟨C, hC, hsum⟩ := h.sketch_edges i hi
      exact ⟨C, hC, hs.summarises hsum⟩
    · have hR : i ∈ roots (Graph.roundMerge (VecSketch.ops oracle) makeCopy st g1 query).1.graph.parent n := by
        rw [roundMerge_parent, supernodesToMerge_fst, ← hn]
        exact hinv.lists.mem_roots_of_ne_nil i hnil
      exact ⟨_, cut_subset E _, h.sketch_cut_roundMerge hsound hE hE32 hs hR⟩

/-- A round that threw nothing keeps the invariant. -/
theorem CutInv.round (hsound : OracleSound oracle) (hE : EdgesBelow n E)
    (hE32 : EdgesBelow (2 ^ 32) E) (h : CutInv E n st)
    (hr : Graph.round (VecSketch.ops oracle) makeCopy st = (st', none)) : CutInv E n st' := by
  obtain ⟨g1, query, hs, rfl⟩ := exists_sampled_of_round _ hr
  exact h.roundMerge hsound hE hE32 hs

/-- **The last round leaves no representative**: it modified nothing. -/
theorem CutInv.reps_eq_nil_of_round (hsound : OracleSound oracle) (hE : EdgesBelow n E)
    (hE32 : EdgesBelow (2 ^ 32) E) (h : CutInv E n st)
    (hr : Graph.round (VecSketch.ops oracle) makeCopy st = (st', none))
    (hmod : st'.graph.modified = false) : st'.reps = [] := by
  obtain ⟨g1, query, hs, rfl⟩ := exists_sampled_of_round _ hr
  exact roundMerge_reps_eq_nil (h.toMergeInv hsound hE hE32 hs) hmod

/-- **A run that ends without an exception** ends in a state of the
invariant with no representative left. -/
theorem CutInv.of_boruvkaLoop (hsound : OracleSound oracle) (hE : EdgesBelow n E)
    (hE32 : EdgesBelow (2 ^ 32) E) (h : CutInv E n st) {k : ℕ}
    (hl : boruvkaLoop (VecSketch.ops oracle) makeCopy k st = some (st', none)) :
    CutInv E n st' ∧ st'.reps = [] := by
  -- the invariant holds in the state of every round, up to the stopping one
  obtain ⟨a, ha, hbody⟩ := Loop.iterate_induction (CutInv E n)
    (fun _ _ ha hb => ha.round hsound hE hE32 (boruvkaBody_eq_inl _ hb).1) k st _ h hl
  obtain ⟨hr, hmod⟩ := boruvkaBody_eq_inr_none _ hbody
  exact ⟨ha.round hsound hE hE32 hr, ha.reps_eq_nil_of_round hsound hE hE32 hr hmod⟩

/-- **The invariant at the start**, when the supernode of each node holds
the edges at it. -/
theorem CutInv.start {g : Graph VecSketch}
    (hsum : ∀ u < g.numNodes, Summarises (g.supernodes u) (cutVec E {u})) :
    CutInv E g.numNodes (boruvkaStart g) where
  numNodes := rfl
  forest := SpanningForestInv.start g.numNodes
  present _ _ h := absurd h (Finset.notMem_empty _)
  reps_lt _ hi := List.mem_range.mp hi
  sketch_cut r hr := by
    show Summarises (g.supernodes r) (cutVec E (classOf (fun i => i) g.numNodes r))
    rw [classOf_id (mem_roots.mp hr).1]
    exact hsum r (mem_roots.mp hr).1
  sketch_edges i hi := ⟨cut E {i}, cut_subset E {i}, hsum i hi⟩
  closed r hr hrr := absurd (List.mem_range.mpr (mem_roots.mp hr).1) hrr

/-- **With no representative left the forest spans the graph**: no edge
leaves a class. -/
theorem CutInv.spanningForestOf (h : CutInv E n st) (hE : EdgesBelow n E) (hreps : st.reps = []) :
    SpanningForestOf E n st.graph.parent st.graph.spanningForest := by
  refine ⟨h.forest, h.present, fun e he => ?_⟩
  obtain ⟨h12, h2⟩ := hE e he
  have h1 : e.1 < n := h12.trans h2
  have hcut := h.closed _ (root_mem_roots h.forest.isForest h1) (by simp [hreps])
  have hiff := cut_eq_empty_iff.mp hcut e he
  rw [mem_classOf, mem_classOf] at hiff
  exact (hiff.mp ⟨h1, rfl⟩).2.symm

end Rounds

/-! ## The whole run -/

/-- `cleanup_copy` puts back supernodes, or exits, and does nothing else. -/
theorem cleanupCopy_eq {σ : Type} (ops : SketchOps σ) (conf : SupernodeConfig) (makeCopy : Bool)
    (st : BoruvkaState σ) :
    cleanupCopy ops conf makeCopy st
      = { st.graph with supernodes := (cleanupCopy ops conf makeCopy st).supernodes
                        exited := (cleanupCopy ops conf makeCopy st).exited } := by
  unfold cleanupCopy restoreFromDisk
  split
  · split
    · rfl
    · split <;> rfl
  · rfl

section Emulation

variable {oracle : UInt64 → Finset UInt64 → UInt64 × SampleSketchRet} {E : Finset (ℕ × ℕ)}

/-- **The end of a query**: from a forest that spans the graph,
`cc_from_dsu` lists its connected components, and the compressed forest it
leaves still spans it. -/
theorem ccFromDsu_correct {σ : Type} {g : Graph σ} (hE : EdgesBelow g.numNodes E)
    (hF : SpanningForestOf E g.numNodes g.parent g.spanningForest) :
    IsComponents E (Finset.range g.numNodes) (ccFromDsu g).2 ∧
      SpanningForestOf E g.numNodes (ccFromDsu g).1.parent (ccFromDsu g).1.spanningForest := by
  obtain ⟨hcc, hg, hc⟩ := ccFromDsu_spec hF.forest.isForest
  have hsf : (ccFromDsu g).1.spanningForest = g.spanningForest := by
    rw [hg]
  rw [hcc, hsf]
  exact ⟨hF.isComponents_components, hF.compress hE hc⟩

/-- **Boruvka emulation is correct**: when the supernode of each node holds
the edges at it and the run returns components, they are the connected
components of the graph, and the graph it leaves keeps a spanning forest
of it. -/
theorem boruvkaEmulation_correct (hsound : OracleSound oracle) (conf : SupernodeConfig)
    {g : Graph VecSketch} (hE : EdgesBelow g.numNodes E) (hE32 : EdgesBelow (2 ^ 32) E)
    (hsum : ∀ u < g.numNodes, Summarises (g.supernodes u) (cutVec E {u})) {makeCopy : Bool}
    {g' : Graph VecSketch} {cc : List (Finset ℕ)}
    (hrun : boruvkaEmulation (VecSketch.ops oracle) conf makeCopy g = some (g', .ok cc)) :
    IsComponents E (Finset.range g.numNodes) cc ∧
      SpanningForestOf E g.numNodes g'.parent g'.spanningForest := by
  obtain ⟨st', hl, -, rfl, rfl⟩ := boruvkaEmulation_eq_ok (VecSketch.ops oracle) conf hrun
  obtain ⟨hinv, hreps⟩ := (CutInv.start hsum).of_boruvkaLoop hsound hE hE32 hl
  have hF := hinv.spanningForestOf hE hreps
  -- the cleanup puts back supernodes only
  have hc := cleanupCopy_eq (VecSketch.ops oracle) conf makeCopy st'
  have hn : (cleanupCopy (VecSketch.ops oracle) conf makeCopy st').numNodes = g.numNodes := by
    rw [hc]
    exact hinv.numNodes
  have hgc : SpanningForestOf E (cleanupCopy (VecSketch.ops oracle) conf makeCopy st').numNodes
      (cleanupCopy (VecSketch.ops oracle) conf makeCopy st').parent
      (cleanupCopy (VecSketch.ops oracle) conf makeCopy st').spanningForest := by
    rw [hc, hinv.numNodes]
    exact hF
  rw [← hn] at hE ⊢
  -- and the forest is trusted again
  exact ccFromDsu_correct
    (g := { cleanupCopy (VecSketch.ops oracle) conf makeCopy st' with dsuValid := true }) hE hgc

/-- **The slow path of a query on the graph a stream built**: the flush,
then Boruvka on the sketches. -/
theorem boruvkaEmulation_flush_correct (hsound : OracleSound oracle) (conf : SupernodeConfig)
    (n : ℕ) (seed : UInt64) (config : GraphConfiguration) {stream : List GraphUpdate}
    (hstream : ∀ upd ∈ stream, upd.edge.src.toNat < n ∧ upd.edge.dst.toNat < n)
    {batches : List (ℕ × List ℕ)} (hbatches : (expandBatches batches).Perm (gutterPairs stream))
    {makeCopy : Bool} {g' : Graph VecSketch} {cc : List (Finset ℕ)}
    (hrun : boruvkaEmulation (VecSketch.ops oracle) conf makeCopy
      (forceFlushPauseWorkers (VecSketch.ops oracle) conf batches
        (applyUpdates (init (VecSketch.ops oracle) conf n seed config) stream)) = some (g', .ok cc)) :
    IsComponents (presentEdges stream) (Finset.range n) cc ∧
      SpanningForestOf (presentEdges stream) n g'.parent g'.spanningForest := by
  have h := ingested_applyUpdates (ingested_init (VecSketch.ops oracle) conf n seed config) rfl
    hstream
  have hn : (forceFlushPauseWorkers (VecSketch.ops oracle) conf batches
      (applyUpdates (init (VecSketch.ops oracle) conf n seed config) stream)).numNodes = n := by
    rw [numNodes_forceFlushPauseWorkers, h.numNodes_eq]
    rfl
  have hE : EdgesBelow (forceFlushPauseWorkers (VecSketch.ops oracle) conf batches
      (applyUpdates (init (VecSketch.ops oracle) conf n seed config) stream)).numNodes
      (presentEdges stream) := by
    rw [hn]
    exact edgesBelow_presentEdges hstream
  have hrun' := boruvkaEmulation_correct hsound conf hE (edgesBelow_two_pow_presentEdges stream)
    (fun u _ => summarises_flush oracle conf n seed config hstream hbatches u) hrun
  rw [hn] at hrun'
  exact hrun'

end Emulation

/-! ## Connectivity queries -/

section Query

variable {oracle : UInt64 → Finset UInt64 → UInt64 × SampleSketchRet}

/-- **A connectivity query returns the connected components** of the
present graph, with sketches taken as the vectors they summarise and a
sound oracle, and batches that hand every pending pair over exactly once:
on the fast path from the eager forest, on the slow path from Boruvka. The
forest the graph keeps is a spanning forest of the present graph: each of
its edges is present, and it has one edge fewer than its nodes in each
class. -/
theorem connectedComponents_correct (hsound : OracleSound oracle) (conf : SupernodeConfig)
    (n : ℕ) (seed : UInt64) (config : GraphConfiguration) {stream : List GraphUpdate}
    (hstream : ∀ upd ∈ stream, upd.edge.src.toNat < n ∧ upd.edge.dst.toNat < n)
    {batches : List (ℕ × List ℕ)} (hbatches : (expandBatches batches).Perm (gutterPairs stream))
    (cont : Bool) :
    ∀ r ∈ connectedComponents (VecSketch.ops oracle) conf batches cont
        (applyUpdates (init (VecSketch.ops oracle) conf n seed config) stream),
      ∀ cc, r.2 = .ok cc →
        IsComponents (presentEdges stream) (Finset.range n) cc ∧
          SpanningForestOf (presentEdges stream) n r.1.parent r.1.spanningForest := by
  intro r hr cc hcc
  have h := ingested_applyUpdates (ingested_init (VecSketch.ops oracle) conf n seed config) rfl
    hstream
  unfold connectedComponents at hr
  split at hr
  · -- the fast path: the eager forest spans the present graph
    rename_i hfast
    have hvalid : (applyUpdates (init (VecSketch.ops oracle) conf n seed config) stream).dsuValid
        = true := by
      simp only [Bool.and_eq_true] at hfast
      exact hfast.1.1
    obtain rfl := Option.mem_some_iff.mp hr
    obtain rfl := Except.ok.inj hcc
    have hE : EdgesBelow (applyUpdates (init (VecSketch.ops oracle) conf n seed config) stream).numNodes
        (presentEdges stream) := by
      rw [h.numNodes_eq]
      exact edgesBelow_presentEdges hstream
    have hcc' := ccFromDsu_correct hE (h.numNodes_eq ▸ h.eager hvalid)
    rw [h.numNodes_eq] at hcc'
    exact hcc'
  · -- the slow path, resuming ingestion after a continuing query
    cases cont with
    | true =>
      obtain ⟨r', hr', rfl⟩ := Option.mem_map.mp hr
      obtain ⟨g', e⟩ := r'
      dsimp only at hcc
      subst hcc
      simpa only [resumeIngestion_parent, resumeIngestion_spanningForest] using
        boruvkaEmulation_flush_correct hsound conf n seed config hstream hbatches hr'
    | false =>
      obtain ⟨g', e⟩ := r
      dsimp only at hcc
      subst hcc
      exact boruvkaEmulation_flush_correct hsound conf n seed config hstream hbatches hr

/-- A query on the graph of one edge among three nodes, configured as
`Supernode::configure` configures three nodes for the failure factor 4
(two sketches, seeds 3 apart), returns, and what it returns are the two
components. -/
theorem connectedComponents_correct_edge :
    (connectedComponents (VecSketch.ops minOracle) ⟨2, 3⟩ [(0, [1]), (1, [0])] false
        (applyUpdates (init (VecSketch.ops minOracle) ⟨2, 3⟩ 3 0 {}) [⟨⟨0, 1⟩, .insert⟩])).map
        (fun r => r.2.isOk) = some true ∧
      ∀ r ∈ connectedComponents (VecSketch.ops minOracle) ⟨2, 3⟩ [(0, [1]), (1, [0])] false
          (applyUpdates (init (VecSketch.ops minOracle) ⟨2, 3⟩ 3 0 {}) [⟨⟨0, 1⟩, .insert⟩]),
        ∀ cc, r.2 = .ok cc →
          IsComponents (presentEdges [⟨⟨0, 1⟩, .insert⟩]) (Finset.range 3) cc ∧
            SpanningForestOf (presentEdges [⟨⟨0, 1⟩, .insert⟩]) 3 r.1.parent r.1.spanningForest :=
  ⟨by decide,
    connectedComponents_correct minOracle_sound ⟨2, 3⟩ 3 0 {} (by decide) (by decide) false⟩

end Query

end GraphZeppelin

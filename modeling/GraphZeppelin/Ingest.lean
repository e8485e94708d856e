import GraphZeppelin.Queries
import GraphZeppelin.Summary
import GraphZeppelin.SpanningForest

/-!
# Ingesting a stream

What the graph holds after a stream of `update` calls and the flush of a
query.

`update` hands both directions of every edge to the guttering system
(`gutterPairs`). While the forest is trusted, its eager step keeps the
disjoint-set forest a spanning forest of the edges present so far
(`spanningForestOf_eagerDsu`); over a whole stream from a fresh graph, the
graph is the fresh one with its pending pairs and forests changed
(`Ingested`, `ingested_applyUpdates`).

The flush hands every pending pair to exactly one `batch_update`, in
batches of the guttering system's choosing: the pairs of the batches
(`expandBatches`) are a permutation of the pending ones. The delta
supernode of a batch from `src` toggles the identifier of each of its
edges in every sketch of `src`, so with the abstract sketches, after the
flush every sketch of a node `u` holds the edges of the cut of `{u}` in
the present graph (`summarises_flush`). A self-loop is handed over twice
from its node and cancels; an edge updated an even number of times
cancels too. What a sketch answers with is decoded by `sample` back into
the edge whose identifier the batch put in (`sample_decodes_encoded_edge`).
-/

open scoped symmDiff

namespace GraphZeppelin

open ParentForest Connectivity Parity

/-- The pairs `update` hands to the guttering system for a stream: both
directions of each update, in order. -/
def gutterPairs (stream : List GraphUpdate) : List (ℕ × ℕ) :=
  stream.flatMap fun upd =>
    [(upd.edge.src.toNat, upd.edge.dst.toNat), (upd.edge.dst.toNat, upd.edge.src.toNat)]

/-- The pairs a list of batches holds, a batch being a node and the
neighbours the guttering system collected for it. -/
def expandBatches (batches : List (ℕ × List ℕ)) : List (ℕ × ℕ) :=
  batches.flatMap fun b => b.2.map fun d => (b.1, d)

/-- The sketch index of the edge of a pair, either way round. -/
def pairId (p : ℕ × ℕ) : UInt64 := edgeId (min p.1 p.2, max p.1 p.2)

/-- The decoder reads a pair's identifier back as its smaller and its larger
end, for ids that fit `node_id_t`. -/
theorem invConcatPairingFn_pairId {p : ℕ × ℕ} (h1 : p.1 < 2 ^ 32) (h2 : p.2 < 2 ^ 32) :
    (invConcatPairingFn (pairId p)).src.toNat = min p.1 p.2 ∧
      (invConcatPairingFn (pairId p)).dst.toNat = max p.1 p.2 := by
  have hmin : (min p.1 p.2).toUInt32.toNat = min p.1 p.2 :=
    UInt32.toNat_ofNat_of_lt' (lt_of_le_of_lt (min_le_left _ _) h1)
  have hmax : (max p.1 p.2).toUInt32.toNat = max p.1 p.2 :=
    UInt32.toNat_ofNat_of_lt' (max_lt h1 h2)
  have hdec := invConcatPairingFn_concatPairingFn (min p.1 p.2).toUInt32 (max p.1 p.2).toUInt32
  rw [hmin, hmax, Nat.min_eq_left min_le_max, Nat.max_eq_right min_le_max] at hdec
  exact hdec

theorem gutterPairs_append (s t : List GraphUpdate) :
    gutterPairs (s ++ t) = gutterPairs s ++ gutterPairs t :=
  List.flatMap_append

/-! ## The pairs handed over, and the cuts -/

/-- **One update hands over from `u`** the identifier of its edge exactly
when `u` is one of its two different ends: the cut of `{u}` in the edges
it toggles. -/
theorem oddSet_pairs_update (upd : GraphUpdate) (u : ℕ) :
    oddSet (([(upd.edge.src.toNat, upd.edge.dst.toNat),
        (upd.edge.dst.toNat, upd.edge.src.toNat)].filter fun p => p.1 = u).map pairId)
      = (cut upd.toggled {u}).image edgeId := by
  unfold GraphUpdate.toggled
  by_cases hloop : upd.edge.src = upd.edge.dst
  · -- a self-loop is handed over twice from its node, and cancels
    rw [if_pos hloop, hloop]
    by_cases hu : upd.edge.dst.toNat = u <;> simp [hu, oddSet_cons_cons, cut]
  · rw [if_neg hloop]
    have hne : upd.edge.src.toNat ≠ upd.edge.dst.toNat := fun h => hloop (UInt32.toNat_inj.mp h)
    have hcut : cut {upd.pair} {u} =
        if upd.edge.src.toNat = u ∨ upd.edge.dst.toNat = u then {upd.pair} else ∅ := by
      rw [cut, Finset.filter_singleton]
      refine if_congr ?_ rfl rfl
      simp only [GraphUpdate.pair, Finset.mem_singleton]
      omega
    rw [hcut]
    by_cases h1 : upd.edge.src.toNat = u <;> by_cases h2 : upd.edge.dst.toNat = u
    · exact absurd (h1.trans h2.symm) hne
    · -- only the first pair is from `u`
      simp only [h1, h2, or_false, if_true, List.filter_cons, decide_true, decide_false,
        List.filter_nil, Bool.false_eq_true, if_false, List.map_cons, List.map_nil,
        Finset.image_singleton]
      rw [oddSet_of_nodup (List.nodup_singleton _), List.toFinset_cons, List.toFinset_nil,
        insert_empty_eq, ← h1]
      rfl
    · -- only the second pair is from `u`
      simp only [h1, h2, false_or, if_true, List.filter_cons, decide_true, decide_false,
        List.filter_nil, Bool.false_eq_true, if_false, List.map_cons, List.map_nil,
        Finset.image_singleton]
      rw [oddSet_of_nodup (List.nodup_singleton _), List.toFinset_cons, List.toFinset_nil,
        insert_empty_eq, ← h2, pairId, min_comm, max_comm]
      rfl
    · -- neither pair is from `u`
      simp [h1, h2]

/-- The cut of `{u}` in the present graph is below `2^32` on both ends. -/
theorem cut_subset_proper (E : Finset (ℕ × ℕ)) (hE : EdgesBelow (2 ^ 32) E) (u : ℕ) :
    (↑(cut E {u}) : Set (ℕ × ℕ)) ⊆ {e | e.1 < e.2 ∧ e.2 < 2 ^ 32} :=
  fun e he => hE e (cut_subset E {u} he)

/-- **The identifiers handed over from `u`**, each counted by its parity,
are those of the edges of the cut of `{u}` in the present graph. -/
theorem oddSet_gutterPairs (stream : List GraphUpdate) (u : ℕ) :
    oddSet (((gutterPairs stream).filter fun p => p.1 = u).map pairId)
      = (cut (presentEdges stream) {u}).image edgeId := by
  induction stream with
  | nil => simp [gutterPairs, cut]
  | cons upd stream ih =>
    have htog : EdgesBelow (2 ^ 32) upd.toggled := by
      rw [← presentEdges_singleton]
      exact edgesBelow_two_pow_presentEdges [upd]
    rw [gutterPairs, List.flatMap_cons, ← gutterPairs, List.filter_append, List.map_append,
      oddSet_append, ih, oddSet_pairs_update, presentEdges_cons, cut_symmDiff,
      image_symmDiff_of_injOn (edgeId_injOn le_rfl) (cut_subset_proper _ htog u)
        (cut_subset_proper _ (edgesBelow_two_pow_presentEdges stream) u)]

/-! ## Updates and the eager forest -/

namespace Graph

section Update

variable {σ : Type}

/-- An unlocked graph accepts every update. -/
theorem update_of_unlocked {g : Graph σ} (hl : g.updateLocked = false) (upd : GraphUpdate) :
    ∃ g', g.update upd = .ok g' := by
  rw [update_eq_eagerDsu, if_neg (by simp [hl])]
  exact ⟨_, rfl⟩

/-- **The eager step keeps a spanning forest** of the present edges, when
it keeps the forest trusted: an edge toggled inside a class changes no
class, and an edge between two classes links them. -/
theorem spanningForestOf_eagerDsu {E : Finset (ℕ × ℕ)} {g : Graph σ} {upd : GraphUpdate}
    (hE : EdgesBelow g.numNodes E) (hs : upd.pair.1 < g.numNodes) (hd : upd.pair.2 < g.numNodes)
    (hF : SpanningForestOf E g.numNodes g.parent g.spanningForest)
    (hvalid : (g.eagerDsu upd.pair.1 upd.pair.2).dsuValid = true) :
    SpanningForestOf (E ∆ upd.toggled) g.numNodes (g.eagerDsu upd.pair.1 upd.pair.2).parent
      (g.eagerDsu upd.pair.1 upd.pair.2).spanningForest := by
  have hf := hF.forest.isForest
  obtain ⟨hra, hrb, hg2, hc⟩ := getParent_pair hf hs hd
  set ra := g.getParent upd.pair.1
  set rb := ra.1.getParent upd.pair.2
  have hroot : ∀ y < g.numNodes, root rb.1.parent g.numNodes y = root g.parent g.numNodes y :=
    fun y hy => hc.root_eq hf hy
  -- the forest after the two `get_parent` calls
  have hF' : SpanningForestOf E g.numNodes rb.1.parent rb.1.spanningForest := by
    rw [hg2]
    exact hF.compress hE hc
  unfold eagerDsu at hvalid ⊢
  split
  · -- toggling an edge of the spanning forest drops the trust
    rename_i hin
    rw [if_pos hin] at hvalid
    cases hvalid
  · rename_i hnotin
    dsimp only
    split
    · -- both ends in one class: the edge is toggled inside it
      rename_i heq
      refine hF'.symmDiff (fun e he => ?_) (fun u v hv he => ?_)
      · rw [upd.eq_pair_of_mem_toggled he, hroot _ hs, hroot _ hd, ← hra, ← hrb, heq]
      · obtain ⟨rfl, rfl⟩ := Prod.ext_iff.mp (upd.eq_pair_of_mem_toggled he)
        rw [hg2] at hv
        exact hnotin hv
    · -- two classes: a union through the new edge
      rename_i hne
      have hne' : root rb.1.parent g.numNodes upd.pair.1 ≠ root rb.1.parent g.numNodes upd.pair.2 := by
        rw [hroot _ hs, hroot _ hd, ← hra, ← hrb]
        exact hne
      have hle : upd.pair.1 ≤ upd.pair.2 := min_le_max
      have hlink : ∀ a b, LinksEnds rb.1.parent g.numNodes upd.pair.1 upd.pair.2 a b →
          SpanningForestOf (E ∆ {upd.pair}) g.numNodes (ParentForest.link rb.1.parent a b)
            (Function.update rb.1.spanningForest upd.pair.1
              (insert upd.pair.2 (rb.1.spanningForest upd.pair.1))) := by
        intro a b hab
        have h := hF'.link hE hs hd hne' hab
        rwa [min_eq_left hle, max_eq_right hle] at h
      rw [upd.toggled_of_ne fun h => hne' (h ▸ rfl)]
      rcases unionBySize_cases rb.1 ra.2 rb.2 with hu | hu <;> rw [hu] <;> dsimp only [linkRoots]
      · refine hlink _ _ (.inr ⟨?_, ?_⟩)
        · rw [hroot _ hd, ← hrb]
        · rw [hroot _ hs, ← hra]
      · refine hlink _ _ (.inl ⟨?_, ?_⟩)
        · rw [hroot _ hs, ← hra]
        · rw [hroot _ hd, ← hrb]

/-- **What a stream of updates did** to the graph `g0` it started on: only
the pending pairs and the forests changed, the pending pairs are those of
the stream, and while it is trusted the eager forest is a spanning forest
of the present edges. -/
structure Ingested (g0 : Graph σ) (stream : List GraphUpdate) (g : Graph σ) : Prop where
  frame : g = { g0 with
    gutters := g.gutters, dsuValid := g.dsuValid, parent := g.parent, size := g.size,
    spanningForest := g.spanningForest }
  gutters : g.gutters = g0.gutters ++ gutterPairs stream
  eager : g.dsuValid = true →
    SpanningForestOf (presentEdges stream) g0.numNodes g.parent g.spanningForest

/-- A fresh graph: no pair pending, every node its own class. -/
theorem ingested_init (ops : SketchOps σ) (conf : SupernodeConfig) (n : ℕ) (seed : UInt64)
    (config : GraphConfiguration) :
    Ingested (init ops conf n seed config) [] (init ops conf n seed config) where
  frame := rfl
  gutters := rfl
  eager _ := ⟨SpanningForestInv.start n, fun _ _ h => absurd h (Finset.notMem_empty _),
    fun _ h => absurd h (Finset.notMem_empty _)⟩

namespace Ingested

variable {g0 g g' : Graph σ} {stream : List GraphUpdate}

theorem numNodes_eq (h : Ingested g0 stream g) : g.numNodes = g0.numNodes := by
  have hframe := congrArg Graph.numNodes h.frame
  exact hframe

theorem updateLocked_eq (h : Ingested g0 stream g) : g.updateLocked = g0.updateLocked := by
  have hframe := congrArg Graph.updateLocked h.frame
  exact hframe

/-- **One more update** of a stream on the nodes of the graph. -/
theorem update (h : Ingested g0 stream g) (hE : EdgesBelow g0.numNodes (presentEdges stream))
    {upd : GraphUpdate} (hs : upd.edge.src.toNat < g0.numNodes)
    (hd : upd.edge.dst.toNat < g0.numNodes) (hupd : g.update upd = .ok g') :
    Ingested g0 (stream ++ [upd]) g' := by
  obtain ⟨hl, hgut, hframe⟩ := update_eq_ok hupd
  refine ⟨by rw [hframe, h.frame], ?_, fun hv => ?_⟩
  · rw [hgut, h.gutters, gutterPairs_append, List.append_assoc]
    rfl
  rw [update_eq_eagerDsu, if_neg (by simp [hl])] at hupd
  have hg' := Except.ok.inj hupd
  have hn := h.numNodes_eq
  rw [presentEdges_append, presentEdges_singleton]
  by_cases hvg : g.dsuValid = true
  · -- the eager step on the trusted forest
    rw [if_pos hvg] at hg'
    subst hg'
    have hF := h.eager hvg
    rw [← hn] at hE hs hd hF ⊢
    exact spanningForestOf_eagerDsu (g := { g with gutters := g.gutters ++ _ }) hE
      (lt_of_le_of_lt (min_le_left _ _) hs) (max_lt hs hd) hF hv
  · -- an untrusted forest stays untrusted
    rw [if_neg hvg] at hg'
    subst hg'
    exact absurd hv hvg

end Ingested

/-- **A stream of updates on the nodes of an unlocked graph** is ingested
update by update. -/
theorem ingested_applyUpdates {g0 : Graph σ} (h0 : Ingested g0 [] g0)
    (hl : g0.updateLocked = false) {stream : List GraphUpdate}
    (hstream : ∀ upd ∈ stream, upd.edge.src.toNat < g0.numNodes ∧ upd.edge.dst.toNat < g0.numNodes) :
    Ingested g0 stream (applyUpdates g0 stream) := by
  refine Loop.foldl_invariant (Ingested g0) _ stream g0 h0 fun done upd g hpre h => ?_
  have hmem : upd ∈ stream := hpre.subset (List.mem_append_right _ (List.mem_singleton_self upd))
  have hdone : ∀ x ∈ done, x.edge.src.toNat < g0.numNodes ∧ x.edge.dst.toNat < g0.numNodes :=
    fun x hx => hstream x (hpre.subset (List.mem_append_left _ hx))
  -- updates are unlocked, so the update is accepted
  obtain ⟨g', hupd⟩ := update_of_unlocked (h.updateLocked_eq.trans hl) upd
  simp only [hupd]
  exact h.update (edgesBelow_presentEdges hdone) (hstream upd hmem).1 (hstream upd hmem).2 hupd

end Update

/-! ## The flush -/

/-- `generate_delta_node` indexes each edge by its identifier, whichever
end is `src`. -/
theorem generateDeltaNode_eq {σ : Type} (ops : SketchOps σ) (conf : SupernodeConfig)
    (nodeN nodeSeed : UInt64) (src : ℕ) (edges : List ℕ) :
    generateDeltaNode ops conf nodeN nodeSeed src edges
      = Supernode.deltaSupernode ops conf nodeN nodeSeed (edges.map fun e => pairId (src, e)) := by
  dsimp only [generateDeltaNode]
  congr 1
  refine List.map_congr_left fun e _ => ?_
  unfold pairId edgeId
  dsimp only
  split
  · rename_i hlt
    rw [min_eq_left hlt.le, max_eq_right hlt.le]
  · rename_i hge
    rw [min_eq_right (Nat.le_of_not_lt hge), max_eq_left (Nat.le_of_not_lt hge)]

/-- The identifier of an edge is the same from either end and decodes to the
smaller end and the larger, and two unordered pairs share no identifier.
So `generate_delta_node` indexes each edge of its batch by one index, and
when a sketch answers that index, `sample` hands back that very edge. -/
theorem sample_decodes_encoded_edge {σ : Type} (ops : SketchOps σ) :
    (∀ i j : UInt32, concatPairingFn i j = concatPairingFn j i) ∧
    (∀ i j : UInt32, invConcatPairingFn (concatPairingFn i j) = ⟨min i j, max i j⟩) ∧
    (∀ i j i' j' : UInt32, concatPairingFn i j = concatPairingFn i' j' →
      min i j = min i' j' ∧ max i j = max i' j') ∧
    (∀ (conf : SupernodeConfig) (nodeN nodeSeed : UInt64) (src : ℕ) (edges : List ℕ),
      src < 2 ^ 32 → ∃ encode : ℕ → UInt64,
        generateDeltaNode ops conf nodeN nodeSeed src edges
          = Supernode.deltaSupernode ops conf nodeN nodeSeed (edges.map encode) ∧
        ∀ e ∈ edges, e < 2 ^ 32 → ∀ (s : Supernode σ) (sk : σ) (ret : SampleSketchRet),
          ¬s.outOfQueries → ops.query (s.sketches s.sampleIdx) = .ok (sk, encode e, ret) →
          ∃ s' d, Supernode.sample ops s = (s', .ok (d, ret)) ∧
            d.src.toNat = min src e ∧ d.dst.toNat = max src e) := by
  refine ⟨concatPairingFn_comm, invConcatPairingFn_concatPairingFn_eq,
    fun _ _ _ _ h => concatPairingFn_inj h, ?_⟩
  intro conf nodeN nodeSeed src edges hsrc
  -- each edge is indexed by its identifier from `src`
  refine ⟨fun e => pairId (src, e), generateDeltaNode_eq ops conf nodeN nodeSeed src edges, ?_⟩
  intro e _ he s sk ret hq hquery
  obtain ⟨hd1, hd2⟩ := invConcatPairingFn_pairId (p := (src, e)) hsrc he
  exact ⟨_, _, Supernode.sample_of_query_eq_ok ops hq hquery, hd1, hd2⟩

/-- A worker's batch from `src` changes the supernode of `src` only. -/
theorem supernodes_workerBatch {σ : Type} (ops : SketchOps σ) (conf : SupernodeConfig)
    {g : Graph σ} (hl : g.updateLocked = false) (b : ℕ × List ℕ) (u : ℕ) :
    (workerBatch ops conf g b).supernodes u =
      if u = b.1 then
        (g.supernodes u).applyDeltaUpdate ops
          (generateDeltaNode ops conf (g.supernodes u).n (g.supernodes u).seed b.1 b.2)
      else g.supernodes u := by
  simp only [workerBatch, batchUpdate, hl, Bool.false_eq_true, if_false, Function.update_apply]
  split
  · rename_i hu
    rw [hu]
  · rfl

section Flush

variable (oracle : UInt64 → Finset UInt64 → UInt64 × SampleSketchRet) (conf : SupernodeConfig)

/-- **The workers add the batches**: after a run of batches, every sketch
of `u` the supernode may still query has the identifiers of the pairs from
`u` added, each by its parity. -/
theorem summarises_foldl_workerBatch (batches : List (ℕ × List ℕ)) {g : Graph VecSketch}
    (hl : g.updateLocked = false) {v : ℕ → Finset UInt64}
    (hv : ∀ u, Summarises (g.supernodes u) (v u))
    (hshape : ∀ u, (g.supernodes u).mergedSketches ≤ (g.supernodes u).numSketches ∧
      (g.supernodes u).mergedSketches ≤ conf.maxSketches) (u : ℕ) :
    Summarises ((batches.foldl (workerBatch (VecSketch.ops oracle) conf) g).supernodes u)
      (v u ∆ oddSet (((expandBatches batches).filter fun p => p.1 = u).map pairId)) := by
  induction batches generalizing g v with
  | nil =>
    rw [List.foldl_nil, expandBatches, List.flatMap_nil, List.filter_nil, List.map_nil,
      oddSet_nil, ← Finset.bot_eq_empty, symmDiff_bot]
    exact hv u
  | cons b batches ih =>
    -- the first batch adds its identifiers to the supernode of its node
    set w : ℕ → Finset UInt64 := fun u =>
      if u = b.1 then v u ∆ oddSet (b.2.map fun e => pairId (b.1, e)) else v u
    have hl' : (workerBatch (VecSketch.ops oracle) conf g b).updateLocked = false := by
      rw [workerBatch_frame]
      exact hl
    have hsn := supernodes_workerBatch (VecSketch.ops oracle) conf hl b
    have hw : ∀ u, Summarises ((workerBatch (VecSketch.ops oracle) conf g b).supernodes u) (w u) := by
      intro u
      rw [hsn]
      by_cases hu : u = b.1
      · rw [if_pos hu, generateDeltaNode_eq]
        simp only [w, if_pos hu]
        rw [← hu]
        exact Summarises.applyDeltaUpdate conf (hv u) (hshape u).1 (hshape u).2 _ _ _
      · rw [if_neg hu]
        simp only [w, if_neg hu]
        exact hv u
    have hshape' : ∀ u, ((workerBatch (VecSketch.ops oracle) conf g b).supernodes u).mergedSketches
        ≤ ((workerBatch (VecSketch.ops oracle) conf g b).supernodes u).numSketches ∧
        ((workerBatch (VecSketch.ops oracle) conf g b).supernodes u).mergedSketches
          ≤ conf.maxSketches := by
      intro u
      rw [hsn]
      split
      · exact hshape u
      · exact hshape u
    have hrest := ih hl' hw hshape'
    rw [List.foldl_cons]
    convert hrest using 1
    rw [expandBatches, List.flatMap_cons, ← expandBatches, List.filter_append, List.map_append,
      oddSet_append, ← symmDiff_assoc]
    congr 1
    by_cases hu : u = b.1
    · subst hu
      simp [w, List.filter_map, Function.comp_def]
    · simp [w, hu, List.filter_map, Function.comp_def, Ne.symm hu]

/-- **After the flush, every sketch of a node holds its cut** in the
present graph, for a stream on the nodes of a fresh graph and batches that
hand every pending pair over exactly once. -/
theorem summarises_flush (n : ℕ) (seed : UInt64) (config : GraphConfiguration)
    {stream : List GraphUpdate}
    (hstream : ∀ upd ∈ stream, upd.edge.src.toNat < n ∧ upd.edge.dst.toNat < n)
    {batches : List (ℕ × List ℕ)} (hbatches : (expandBatches batches).Perm (gutterPairs stream))
    (u : ℕ) :
    Summarises ((forceFlushPauseWorkers (VecSketch.ops oracle) conf batches
        (applyUpdates (init (VecSketch.ops oracle) conf n seed config) stream)).supernodes u)
      ((cut (presentEdges stream) {u}).image edgeId) := by
  have h := ingested_applyUpdates (ingested_init (VecSketch.ops oracle) conf n seed config) rfl
    hstream
  set g1 := applyUpdates (init (VecSketch.ops oracle) conf n seed config) stream
  have hsn : g1.supernodes = (init (VecSketch.ops oracle) conf n seed config).supernodes := by
    rw [h.frame]
  have hpaused : g1.paused = false := by
    rw [h.frame]
    rfl
  have hl : g1.updateLocked = false := h.updateLocked_eq
  -- the workers run: the fresh sketches hold the empty vector
  have hrun := summarises_foldl_workerBatch oracle conf batches hl (v := fun _ => ∅)
    (fun u => by rw [hsn]; exact fun _ _ _ => rfl) (fun u => by rw [hsn]; exact ⟨le_rfl, le_rfl⟩) u
  rw [← Finset.bot_eq_empty, bot_symmDiff, oddSet_perm ((hbatches.filter _).map _),
    oddSet_gutterPairs] at hrun
  simp only [forceFlushPauseWorkers, hpaused, Bool.false_eq_true, if_false]
  exact hrun

end Flush

end Graph

end GraphZeppelin

import GraphZeppelin.BoruvkaRestore

/-!
# A session of updates and continuing queries

The way GraphZeppelin is meant to be used: a stream of `update` calls with
`connected_components(true)` asked in between, each query answered while
the graph goes on ingesting. This module proves that every such session
answers every query right: the components a query returns are those of
the edges present at that point (`session_answers_components`).

Three things have to hold between the operations for that, and they are
the fields of `SessionInv`. The pending pairs in the guttering system are
those of the updates since the last flush, and the supernode of each node
holds the cut of the edges flushed before them, with nothing sampled and
every sketch unqueried. While the forest is trusted, it is a spanning forest
of the present edges. And the graph is unlocked, its workers running.

An update keeps all three (`SessionInv.update`). A query that takes the fast
path reads the trusted forest and flushes nothing. A query that takes the
slow path flushes, so every sketch then holds the cut of the present edges,
and runs Boruvka on them; the run puts every supernode back
(`boruvkaEmulation_holds`) and the query resets the query state. So the
next query finds the supernodes as a flush left them
(`SessionInv.connectedComponents`). What Boruvka keeps of the graph, whatever
the sketches answer, is said once, with the property of supernodes it keeps
as a parameter (`RunKeeps`).

The guttering system is external. A session only asks of it what
`force_flush` promises: the batches of each flush hand over exactly the
pairs pending at that point (`HandsOver`). The sketches are the abstract
ones, with a sound oracle.
-/

open scoped symmDiff

namespace GraphZeppelin

open ParentForest Connectivity Parity

namespace Graph

/-! ## What a Boruvka run keeps -/

section Frame

variable {σ : Type} (ops : SketchOps σ) (conf : SupernodeConfig)

/-- **The fields of the graph a Boruvka run keeps** once it has locked
updates: the node count, the seed, the configuration, the lock, the pending
pairs, the trust in the forest, the injected failure and the workers. -/
def kept (g : Graph σ) :
    ℕ × UInt64 × GraphConfiguration × Bool × List (ℕ × ℕ) × Bool × Bool × Bool :=
  (g.numNodes, g.seed, g.config, g.updateLocked, g.gutters, g.dsuValid, g.failRound2, g.paused)

theorem kept_eq_iff {g g' : Graph σ} :
    g'.kept = g.kept ↔ g'.numNodes = g.numNodes ∧ g'.seed = g.seed ∧ g'.config = g.config ∧
      g'.updateLocked = g.updateLocked ∧ g'.gutters = g.gutters ∧ g'.dsuValid = g.dsuValid ∧
      g'.failRound2 = g.failRound2 ∧ g'.paused = g.paused := by
  simp only [kept, Prod.mk.injEq]

/-- The backup writes the file or marks the exit, and keeps the rest. -/
theorem kept_backupToDisk (ids : List ℕ) (g : Graph σ) : (backupToDisk ids g).kept = g.kept := by
  rw [backupToDisk_eq]
  rfl

/-- One iteration of the loop of `supernodes_to_merge` changes only the
forests and `modified`. -/
theorem toMergeStep_frame (query : ℕ → Edge × SampleSketchRet)
    (acc : Graph σ × (ℕ → List ℕ) × List ℕ) (i : ℕ) :
    (toMergeStep query acc i).1 = { acc.1 with
      parent := (toMergeStep query acc i).1.parent, size := (toMergeStep query acc i).1.size,
      modified := (toMergeStep query acc i).1.modified,
      spanningForest := (toMergeStep query acc i).1.spanningForest } := by
  unfold toMergeStep
  dsimp only
  split
  · rfl
  · rfl
  · split
    · rfl
    · -- a union links one root under the other
      rcases unionBySize_cases ((acc.1.getParent (query i).1.src.toNat).1.getParent
          (query i).1.dst.toNat).1 (acc.1.getParent (query i).1.src.toNat).2
          ((acc.1.getParent (query i).1.src.toNat).1.getParent (query i).1.dst.toNat).2
        with h | h <;> rw [h] <;> rfl

theorem foldl_toMergeStep_frame (query : ℕ → Edge × SampleSketchRet) (l : List ℕ)
    (acc : Graph σ × (ℕ → List ℕ) × List ℕ) :
    (l.foldl (toMergeStep query) acc).1 = { acc.1 with
      parent := (l.foldl (toMergeStep query) acc).1.parent,
      size := (l.foldl (toMergeStep query) acc).1.size,
      modified := (l.foldl (toMergeStep query) acc).1.modified,
      spanningForest := (l.foldl (toMergeStep query) acc).1.spanningForest } := by
  induction l generalizing acc with
  | nil => rfl
  | cons i l ih =>
    rw [List.foldl_cons, ih, toMergeStep_frame query acc i]

/-- `supernodes_to_merge` keeps the fields of `kept` and the supernodes. -/
theorem supernodesToMerge_kept (query : ℕ → Edge × SampleSketchRet) (reps : List ℕ)
    (g : Graph σ) :
    (supernodesToMerge query reps g).1.kept = g.kept ∧
      (supernodesToMerge query reps g).1.supernodes = g.supernodes := by
  rw [supernodesToMerge_fst, foldl_toMergeStep_frame]
  exact ⟨rfl, rfl⟩

variable {P : Supernode σ → Prop}

/-- **What a Boruvka run keeps** of the graph `g` it started on, for a
property `P` of supernodes: the fields of `kept`, updates locked, `P` of
every supernode and of every copy, and the mark of an exit. -/
structure RunKeeps (P : Supernode σ → Prop) (g : Graph σ) (st : BoruvkaState σ) : Prop where
  kept : st.graph.kept = { g with updateLocked := true }.kept
  supernodes : ∀ u, P (st.graph.supernodes u)
  copies : ∀ u c, st.copySupernodes u = some c → P c
  exited : g.exited = true → st.graph.exited = true

theorem RunKeeps.start {g : Graph σ} (hP : ∀ u, P (g.supernodes u)) :
    RunKeeps P g (boruvkaStart g) where
  kept := rfl
  supernodes := hP
  copies _ _ h := absurd h (by simp [boruvkaStart])
  exited h := h

/-- Merging a list of supernodes into one keeps a property that each merge
keeps. -/
theorem foldl_merge_of_forall (hmerge : ∀ s t, P s → P t → P (Supernode.merge ops s t))
    (f : ℕ → Supernode σ) (hf : ∀ b, P (f b)) (l : List ℕ) {s : Supernode σ} (hs : P s) :
    P (l.foldl (fun s b => Supernode.merge ops s (f b)) s) := by
  induction l generalizing s with
  | nil => exact hs
  | cons b l ih => exact ih (hmerge s (f b) hs (hf b))

variable {ops}

/-- **Every round keeps what a run keeps**, whether it threw while sampling
or went on to merge, when sampling, merging and copying keep `P`. -/
theorem RunKeeps.round (hsample : ∀ s, P s → P (Supernode.sample ops s).1)
    (hmerge : ∀ s t, P s → P t → P (Supernode.merge ops s t))
    (hcopy : ∀ s, P s → P (Supernode.copy ops s)) {g : Graph σ} {st : BoruvkaState σ}
    (h : RunKeeps P g st) (makeCopy : Bool) : RunKeeps P g (Graph.round ops makeCopy st).1 := by
  -- sampling changes the sampled supernodes only
  have hsampled : ∀ u, P ((Graph.sampleSupernodes ops st.query st.reps
      { st.graph with modified := false }).1.supernodes u) := by
    intro u
    rw [sampleSupernodes_fst]
    dsimp only
    split
    · exact hsample _ (h.supernodes u)
    · exact h.supernodes u
  cases hS : (Graph.sampleSupernodes ops st.query st.reps
      { st.graph with modified := false }).2.2 with
  | some e =>
    have hr : (Graph.round ops makeCopy st).1 = { st with
        graph := (Graph.sampleSupernodes ops st.query st.reps
          { st.graph with modified := false }).1
        query := (Graph.sampleSupernodes ops st.query st.reps
          { st.graph with modified := false }).2.1 } := by
      simp only [Graph.round, hS]
    rw [hr]
    exact ⟨h.kept, hsampled, h.copies, h.exited⟩
  | none =>
    rw [round_of_none _ hS]
    set g1 := (Graph.sampleSupernodes ops st.query st.reps { st.graph with modified := false }).1
    obtain ⟨hk, hsup⟩ := supernodesToMerge_kept (Graph.sampleSupernodes ops st.query st.reps
      { st.graph with modified := false }).2.1 st.reps g1
    have hm : ∀ b, P ((supernodesToMerge (Graph.sampleSupernodes ops st.query st.reps
        { st.graph with modified := false }).2.1 st.reps g1).1.supernodes b) := by
      rw [hsup]
      exact hsampled
    refine ⟨?_, fun u => ?_, fun u c hc => ?_, fun hx => ?_⟩
    · rw [roundMerge_graph]
      exact (ite_backupToDisk_of _ _ Graph.kept kept_backupToDisk _).trans (hk.trans h.kept)
    · -- each new representative is merged with its list
      rw [roundMerge_supernodes]
      split
      · exact foldl_merge_of_forall ops hmerge _ hm _ (hm u)
      · exact hm u
    · rw [roundMerge_copySupernodes] at hc
      split at hc
      · cases hc
        exact hcopy _ (hm u)
      · exact h.copies u c hc
    · -- the lists of the round keep the mark, and the backup cannot clear it
      rw [roundMerge_graph]
      refine exited_ite_backupToDisk _ _ _ ?_
      rw [supernodesToMerge_fst, foldl_toMergeStep_frame]
      exact h.exited hx

/-- **The state a run stops in keeps what a run keeps.** -/
theorem RunKeeps.of_boruvkaLoop (hsample : ∀ s, P s → P (Supernode.sample ops s).1)
    (hmerge : ∀ s t, P s → P t → P (Supernode.merge ops s t))
    (hcopy : ∀ s, P s → P (Supernode.copy ops s)) {g : Graph σ} {st : BoruvkaState σ}
    (h : RunKeeps P g st) {makeCopy : Bool} {k : ℕ} {r : BoruvkaState σ × Option Exception}
    (hl : boruvkaLoop ops makeCopy k st = some r) : RunKeeps P g r.1 := by
  obtain ⟨a, ha, hbody⟩ := Loop.iterate_induction (RunKeeps P g)
    (fun a a' ha hb => by
      obtain ⟨hr, -⟩ := boruvkaBody_eq_inl _ hb
      have hround := ha.round hsample hmerge hcopy makeCopy
      rw [hr] at hround
      exact hround) k st r h hl
  rw [boruvkaBody_eq_inr _ hbody]
  exact ha.round hsample hmerge hcopy makeCopy

/-- The updates of `restore_from_disk` put read-back supernodes only. -/
theorem foldl_update_reload_of_forall {β : Type} (F : β → Supernode σ) (hF : ∀ x, P (F x))
    (L : List (ℕ × β)) {sn : ℕ → Supernode σ} (hsn : ∀ u, P (sn u)) (u : ℕ) :
    P (L.foldl (fun sn r => Function.update sn r.1 (F r.2)) sn u) := by
  induction L generalizing sn with
  | nil => exact hsn u
  | cons r L ih =>
    refine ih fun v => ?_
    dsimp only
    rw [Function.update_apply]
    split
    · exact hF r.2
    · exact hsn v

/-- `cleanup_copy` keeps the fields of `kept` and the mark of an exit, and
puts back copies or read-back supernodes only. -/
theorem RunKeeps.cleanupCopy {g : Graph σ}
    (hreload : ∀ w, P (Supernode.reload ops conf g.numNodes.toUInt64 g.seed w))
    {st : BoruvkaState σ} (h : RunKeeps P g st) (makeCopy : Bool) :
    (Graph.cleanupCopy ops conf makeCopy st).kept = { g with updateLocked := true }.kept ∧
      (∀ u, P ((Graph.cleanupCopy ops conf makeCopy st).supernodes u)) ∧
      (g.exited = true → (Graph.cleanupCopy ops conf makeCopy st).exited = true) := by
  unfold Graph.cleanupCopy
  split
  · split
    · refine ⟨h.kept, fun u => ?_, h.exited⟩
      show P (st.backedUp.foldl (fun sn i => Function.update sn i ((st.copySupernodes i).getD (sn i)))
        st.graph.supernodes u)
      rw [foldl_update_getD]
      split
      · cases hc : st.copySupernodes u with
        | none => exact h.supernodes u
        | some c => exact h.copies u c hc
      · exact h.supernodes u
    · -- the file is read back with the node count and the seed the run keeps
      unfold restoreFromDisk
      split
      · obtain ⟨hn, hs, -⟩ := kept_eq_iff.mp h.kept
        refine ⟨h.kept, foldl_update_reload_of_forall _ (fun w => ?_) _ h.supernodes, h.exited⟩
        rw [hn, hs]
        exact hreload w
      · exact ⟨h.kept, h.supernodes, fun _ => rfl⟩
  · exact ⟨h.kept, h.supernodes, h.exited⟩

/-- **What `boruvka_emulation` keeps**, whatever the sketches answer: `P`
of every supernode, and the fields of `kept`, with updates locked and the
forest trusted once the run returns. -/
theorem boruvkaEmulation_keeps (hsample : ∀ s, P s → P (Supernode.sample ops s).1)
    (hmerge : ∀ s t, P s → P t → P (Supernode.merge ops s t))
    (hcopy : ∀ s, P s → P (Supernode.copy ops s))
    {g : Graph σ} (hreload : ∀ w, P (Supernode.reload ops conf g.numNodes.toUInt64 g.seed w))
    (hP : ∀ u, P (g.supernodes u)) {makeCopy : Bool}
    {r : Graph σ × Except Exception (List (Finset ℕ))}
    (hrun : boruvkaEmulation ops conf makeCopy g = some r) :
    (∀ u, P (r.1.supernodes u)) ∧
      r.1.kept = { g with updateLocked := true, dsuValid := r.2.isOk || g.dsuValid }.kept := by
  obtain ⟨g', e⟩ := r
  cases e with
  | error e =>
    obtain ⟨s, hl, rfl, -⟩ := boruvkaEmulation_eq_error ops conf hrun
    have hkeep := (RunKeeps.start hP).of_boruvkaLoop hsample hmerge hcopy hl
    obtain ⟨hk, hsup, -⟩ := hkeep.cleanupCopy conf hreload makeCopy
    exact ⟨hsup, hk⟩
  | ok cc =>
    obtain ⟨st, hl, -, rfl, -⟩ := boruvkaEmulation_eq_ok ops conf hrun
    have hkeep := (RunKeeps.start hP).of_boruvkaLoop hsample hmerge hcopy hl
    obtain ⟨hk, hsup, -⟩ := hkeep.cleanupCopy conf hreload makeCopy
    -- `cc_from_dsu` of the trusted forest moves only the forest
    rw [ccFromDsu_frame]
    obtain ⟨hn, hs, hc, hl, hg, -, hf, hp⟩ := kept_eq_iff.mp hk
    exact ⟨hsup, kept_eq_iff.mpr ⟨hn, hs, hc, hl, hg, rfl, hf, hp⟩⟩

/-- `boruvka_emulation` locks updates, keeps the other fields of `kept`, and
trusts the forest once it returns. -/
theorem boruvkaEmulation_kept {g : Graph σ} {makeCopy : Bool}
    {r : Graph σ × Except Exception (List (Finset ℕ))}
    (hrun : boruvkaEmulation ops conf makeCopy g = some r) :
    r.1.kept = { g with updateLocked := true, dsuValid := r.2.isOk || g.dsuValid }.kept :=
  (boruvkaEmulation_keeps (P := fun _ => True) conf (fun _ _ => trivial)
    (fun _ _ _ _ => trivial) (fun _ _ => trivial) (fun _ => trivial) (fun _ => trivial) hrun).2

/-- **An exit is final**: a Boruvka run on a graph whose process has exited
reports the exit, whatever the sketches answer. -/
theorem boruvkaEmulation_of_exited {g : Graph σ} (hx : g.exited = true) {makeCopy : Bool}
    {r : Graph σ × Except Exception (List (Finset ℕ))}
    (hrun : boruvkaEmulation ops conf makeCopy g = some r) : r.2 = .error .exitFailure := by
  -- the cleaned-up graph of the run keeps the mark
  have hend : ∀ s ∈ boruvkaLoop ops makeCopy (boruvkaFuel conf g) (boruvkaStart g),
      (Graph.cleanupCopy ops conf makeCopy s.1).exited = true := fun s hl =>
    ((((RunKeeps.start (P := fun _ => True) fun _ => trivial).of_boruvkaLoop
      (fun _ _ => trivial) (fun _ _ _ _ => trivial) (fun _ _ => trivial) hl).cleanupCopy conf
        (fun _ => trivial) makeCopy).2.2 hx)
  obtain ⟨g', e⟩ := r
  cases e with
  | ok cc =>
    obtain ⟨st, hl, hx', -⟩ := boruvkaEmulation_eq_ok ops conf hrun
    rw [hend _ hl] at hx'
    cases hx'
  | error e =>
    obtain ⟨s, hl, -, ⟨-, rfl⟩ | ⟨hx', -⟩⟩ := boruvkaEmulation_eq_error ops conf hrun
    · rfl
    · rw [hend s hl] at hx'
      cases hx'

end Frame

/-! ## The flush, node by node -/

section FlushNode

variable {σ : Type} (ops : SketchOps σ) (conf : SupernodeConfig)

/-- A worker's batch keeps the sketch counts of every supernode. -/
theorem workerBatch_shape (g : Graph σ) (b : ℕ × List ℕ) (u : ℕ) :
    ((workerBatch ops conf g b).supernodes u).numSketches = (g.supernodes u).numSketches ∧
      ((workerBatch ops conf g b).supernodes u).mergedSketches
        = (g.supernodes u).mergedSketches := by
  cases hl : g.updateLocked
  · rw [supernodes_workerBatch ops conf hl]
    split <;> exact ⟨rfl, rfl⟩
  · -- `batch_update` throws and the worker keeps its state
    simp only [workerBatch, batchUpdate, hl, if_true, and_self]

theorem foldl_workerBatch_shape (batches : List (ℕ × List ℕ)) (g : Graph σ) (u : ℕ) :
    ((batches.foldl (workerBatch ops conf) g).supernodes u).numSketches
        = (g.supernodes u).numSketches ∧
      ((batches.foldl (workerBatch ops conf) g).supernodes u).mergedSketches
        = (g.supernodes u).mergedSketches := by
  induction batches generalizing g with
  | nil => exact ⟨rfl, rfl⟩
  | cons b batches ih =>
    obtain ⟨hnum, hmerged⟩ := workerBatch_shape ops conf g b u
    obtain ⟨hnum', hmerged'⟩ := ih (workerBatch ops conf g b)
    exact ⟨hnum'.trans hnum, hmerged'.trans hmerged⟩

/-- The flush of running workers: every batch applied, nothing pending, the
workers paused. -/
theorem forceFlushPauseWorkers_of_running {g : Graph σ} (hp : g.paused = false)
    (batches : List (ℕ × List ℕ)) :
    forceFlushPauseWorkers ops conf batches g = { g with
      supernodes := (batches.foldl (workerBatch ops conf) g).supernodes, gutters := [],
      paused := true } := by
  simp only [forceFlushPauseWorkers, hp, Bool.false_eq_true, if_false]
  rw [foldl_workerBatch_frame]

end FlushNode

/-- The pairs of the first batch from `u`, and those of the rest. -/
theorem oddSet_expandBatches_cons (b : ℕ × List ℕ) (batches : List (ℕ × List ℕ)) (u : ℕ) :
    oddSet (((expandBatches (b :: batches)).filter fun p => p.1 = u).map pairId)
      = (if u = b.1 then oddSet (b.2.map fun e => pairId (b.1, e)) else ∅) ∆
        oddSet (((expandBatches batches).filter fun p => p.1 = u).map pairId) := by
  rw [expandBatches, List.flatMap_cons, ← expandBatches, List.filter_append, List.map_append,
    oddSet_append]
  congr 1
  by_cases hu : u = b.1
  · subst hu
    simp [List.filter_map, Function.comp_def]
  · simp [hu, List.filter_map, Function.comp_def, Ne.symm hu]

/-- **The workers add the batches to a node**: after a run of batches, every
sketch of `u` the supernode may still query has the identifiers of the
pairs from `u` added, each by its parity. -/
theorem Summarises.foldl_workerBatch (oracle : UInt64 → Finset UInt64 → UInt64 × SampleSketchRet)
    (conf : SupernodeConfig) (batches : List (ℕ × List ℕ)) {g : Graph VecSketch}
    (hl : g.updateLocked = false) {u : ℕ} {v : Finset UInt64}
    (hv : Summarises (g.supernodes u) v)
    (hle : (g.supernodes u).mergedSketches ≤ (g.supernodes u).numSketches)
    (hM : (g.supernodes u).mergedSketches ≤ conf.maxSketches) :
    Summarises ((batches.foldl (workerBatch (VecSketch.ops oracle) conf) g).supernodes u)
      (v ∆ oddSet (((expandBatches batches).filter fun p => p.1 = u).map pairId)) := by
  induction batches generalizing g v with
  | nil =>
    rw [List.foldl_nil, expandBatches, List.flatMap_nil, List.filter_nil, List.map_nil,
      oddSet_nil, ← Finset.bot_eq_empty, symmDiff_bot]
    exact hv
  | cons b batches ih =>
    have hl' : (workerBatch (VecSketch.ops oracle) conf g b).updateLocked = false := by
      rw [workerBatch_frame]
      exact hl
    obtain ⟨hnum, hmerged⟩ := workerBatch_shape (VecSketch.ops oracle) conf g b u
    -- the first batch adds its pairs if it is from `u`
    have hw : Summarises ((workerBatch (VecSketch.ops oracle) conf g b).supernodes u)
        (v ∆ if u = b.1 then oddSet (b.2.map fun e => pairId (b.1, e)) else ∅) := by
      rw [supernodes_workerBatch _ _ hl]
      split
      · rename_i hu
        rw [generateDeltaNode_eq, ← hu]
        exact Summarises.applyDeltaUpdate conf hv hle hM _ _ _
      · rw [← Finset.bot_eq_empty, symmDiff_bot]
        exact hv
    have hrest := ih hl' hw (by rw [hnum, hmerged]; exact hle) (by rw [hmerged]; exact hM)
    rw [List.foldl_cons, oddSet_expandBatches_cons, ← symmDiff_assoc]
    exact hrest

/-- The identifiers of the cut of `{u}` after two streams in turn: those
after each, added. -/
theorem cutVec_presentEdges_append (s t : List GraphUpdate) (u : ℕ) :
    cutVec (presentEdges (s ++ t)) {u} = cutVec (presentEdges s) {u} ∆ cutVec (presentEdges t) {u} := by
  rw [cutVec, presentEdges_append, cut_symmDiff,
    image_symmDiff_of_injOn (edgeId_injOn le_rfl)
      (cut_subset_proper _ (edgesBelow_two_pow_presentEdges s) u)
      (cut_subset_proper _ (edgesBelow_two_pow_presentEdges t) u)]
  rfl

end Graph

/-! ## The supernodes between the operations -/

open GraphZeppelin.Graph

section Sketched

variable (conf : SupernodeConfig) {oracle : UInt64 → Finset UInt64 → UInt64 × SampleSketchRet}

/-- **The supernodes hold the cut of `E`** at each node below `n`, as a
flush leaves them: every sketch still to be sampled holds it, no query has
touched them, and every supernode has all `max_sketches` sketches. -/
structure Sketched (n : ℕ) (E : Finset (ℕ × ℕ)) (g : Graph VecSketch) : Prop where
  summarises : ∀ u < n, Summarises (g.supernodes u) (cutVec E {u})
  fresh : ∀ u < n, Fresh conf g.seed (g.supernodes u)
  numSketches : ∀ u, (g.supernodes u).numSketches = conf.maxSketches

variable {conf} {n : ℕ} {E : Finset (ℕ × ℕ)} {g : Graph VecSketch}

/-- The constructor's supernodes hold the empty graph. -/
theorem Sketched.init (conf : SupernodeConfig) (n : ℕ) (seed : UInt64)
    (config : GraphConfiguration) :
    Sketched conf n (presentEdges []) (init (VecSketch.ops oracle) conf n seed config) where
  summarises _ _ _ _ _ := rfl
  fresh _ _ := fresh_makeSupernode _ _
  numSketches _ := rfl

/-- What changes neither the supernodes nor the seed keeps them. -/
theorem Sketched.of_eq (h : Sketched conf n E g) {g' : Graph VecSketch}
    (hsn : g'.supernodes = g.supernodes) (hseed : g'.seed = g.seed) : Sketched conf n E g' := by
  refine ⟨fun u hu => ?_, fun u hu => ?_, fun u => ?_⟩
  · rw [hsn]
    exact h.summarises u hu
  · rw [hsn, hseed]
    exact h.fresh u hu
  · rw [hsn]
    exact h.numSketches u

/-- **The flush adds the pending updates**: when the batches hand over the
pairs of the updates `pend` and the workers run, the supernodes hold the
cut of the edges present after `done` and then `pend`. -/
theorem Sketched.flush {done pend : List GraphUpdate} (h : Sketched conf n (presentEdges done) g)
    (hl : g.updateLocked = false) (hp : g.paused = false) {batches : List (ℕ × List ℕ)}
    (hb : (expandBatches batches).Perm (gutterPairs pend)) :
    Sketched conf n (presentEdges (done ++ pend))
      (forceFlushPauseWorkers (VecSketch.ops oracle) conf batches g) := by
  rw [forceFlushPauseWorkers_of_running _ _ hp]
  refine ⟨fun u hu => ?_, fun u hu => fresh_foldl_workerBatch batches (h.fresh u hu),
    fun u => ((foldl_workerBatch_shape _ conf batches g u).1.trans (h.numSketches u))⟩
  have hmerged := (h.fresh u hu).mergedSketches
  have hflush := Summarises.foldl_workerBatch oracle conf batches hl (h.summarises u hu)
    (by rw [hmerged, h.numSketches u]) hmerged.le
  rw [oddSet_perm ((hb.filter _).map _), oddSet_gutterPairs] at hflush
  rw [cutVec_presentEdges_append]
  exact hflush

/-- A restored supernode is fresh again. -/
theorem Restored.fresh {s0 s : Supernode VecSketch} {seed : UInt64} (hr : Restored conf s0 s)
    (hf : Fresh conf seed s0) : Fresh conf seed s where
  sampleIdx := hr.1
  mergedSketches := hr.2.1
  unqueried j hj := by rw [hr.2.2 j hj]
  seed j hj := by
    rw [hr.2.2 j hj]
    exact hf.seed j hj

/-- A restored supernode summarises what the original did. -/
theorem Restored.summarises {s0 s : Supernode VecSketch} {seed : UInt64} {v : Finset UInt64}
    (hr : Restored conf s0 s) (hf : Fresh conf seed s0) (hv : Summarises s0 v) :
    Summarises s v := by
  intro j _ hj
  rw [hr.2.1] at hj
  rw [hr.2.2 j hj]
  exact hv j (hf.sampleIdx ▸ Nat.zero_le j) (hf.mergedSketches ▸ hj)

/-- Sampling, merging, copying and reading back keep the sketch count
`max_sketches`. -/
theorem boruvkaEmulation_numSketches {g : Graph VecSketch}
    (h : ∀ u, (g.supernodes u).numSketches = conf.maxSketches) {makeCopy : Bool}
    {r : Graph VecSketch × Except Exception (List (Finset ℕ))}
    (hrun : boruvkaEmulation (VecSketch.ops oracle) conf makeCopy g = some r) :
    (∀ u, (r.1.supernodes u).numSketches = conf.maxSketches) ∧
      r.1.kept = { g with updateLocked := true, dsuValid := r.2.isOk || g.dsuValid }.kept :=
  boruvkaEmulation_keeps (P := fun s => s.numSketches = conf.maxSketches) conf
    (fun s hs => (Supernode.sample_numSketches _ s).trans hs)
    (fun s t hs _ => (Supernode.merge_numSketches _ s t).trans hs)
    (fun s hs => (Supernode.copy_numSketches _ s).trans hs) (fun _ => rfl) h hrun

/-- **A continuing query gives the supernodes back**: after a Boruvka run on
them and the reset of the query state, they hold the cut of the same edges,
untouched by queries, whether the run returned or threw, unless it ended the
process. -/
theorem Sketched.resume (hsound : OracleSound oracle) (h : Sketched conf n E g)
    (hn : g.numNodes = n) (hE : EdgesBelow n E) (hE32 : EdgesBelow (2 ^ 32) E)
    {r : Graph VecSketch × Except Exception (List (Finset ℕ))}
    (hrun : boruvkaEmulation (VecSketch.ops oracle) conf true g = some r)
    (hx : r.1.exited = false) :
    Sketched conf n E (resumeIngestion (VecSketch.ops oracle) r.1) := by
  subst hn
  obtain ⟨hnum, hholds⟩ := boruvkaEmulation_holds conf hsound hE hE32 h.summarises h.fresh hrun hx
  obtain ⟨hsk, hkept⟩ := boruvkaEmulation_numSketches h.numSketches hrun
  have hseed : (resumeIngestion (VecSketch.ops oracle) r.1).seed = g.seed :=
    (kept_eq_iff.mp hkept).2.1
  have hrestored : ∀ u < g.numNodes, Restored conf (g.supernodes u)
      ((resumeIngestion (VecSketch.ops oracle) r.1).supernodes u) := fun u hu =>
    resumeIngestion_restored conf hnum h.fresh hholds hu
  refine ⟨fun u hu => (hrestored u hu).summarises (h.fresh u hu) (h.summarises u hu),
    fun u hu => ?_, fun u => ?_⟩
  · rw [hseed]
    exact (hrestored u hu).fresh (h.fresh u hu)
  · -- the reset keeps the sketch count of every supernode
    show (if u < r.1.numNodes then Supernode.resetQueryState (VecSketch.ops oracle) (r.1.supernodes u)
      else r.1.supernodes u).numSketches = conf.maxSketches
    split
    · exact (Supernode.resetQueryState_numSketches _ _).trans (hsk u)
    · exact hsk u

end Sketched

/-! ## Sessions -/

section Session

/-- The operations of a session on `n` nodes: updates of edges between
nodes below `n`, and continuing `connected_components` queries. -/
def SessionOp (n : ℕ) : Op → Prop
  | .update upd => upd.edge.src.toNat < n ∧ upd.edge.dst.toNat < n
  | .connectedComponents cont => cont = true
  | .pointQuery _ _ => False
  | .writeBinary => False

instance (n : ℕ) : DecidablePred (SessionOp n)
  | .update _ => inferInstanceAs (Decidable (_ ∧ _))
  | .connectedComponents cont => inferInstanceAs (Decidable (cont = true))
  | .pointQuery _ _ => inferInstanceAs (Decidable False)
  | .writeBinary => inferInstanceAs (Decidable False)

/-- The updates an operation makes. -/
def Graph.Op.stream : Op → List GraphUpdate
  | .update upd => [upd]
  | _ => []

/-- The updates of a list of operations, in order. -/
def updatesOf (os : List Op) : List GraphUpdate := os.flatMap Graph.Op.stream

/-- **What an operation of a session may return** after the updates `past`:
an update is accepted; a query throws, or returns the connected components
of the edges present. -/
def RightAnswer (n : ℕ) (past : List GraphUpdate) : Op → Except Exception Ret → Prop
  | .update _, r => r = .ok .unit
  | .connectedComponents _, r => ∀ x, r = .ok x →
    ∃ cc, x = .components cc ∧ IsComponents (presentEdges past) (Finset.range n) cc
  | _, _ => False

/-- What the operations of a session may return, each after the updates
before it; the answers stop after a query that ended the process. -/
def RightAnswers (n : ℕ) : List GraphUpdate → List Op → List (Except Exception Ret) → Prop
  | _, [], [] => True
  | past, o :: os, r :: rs => RightAnswer n past o r ∧
    (r = .error .exitFailure ∧ rs = [] ∨ RightAnswers n (past ++ o.stream) os rs)
  | _, _, _ => False

variable {σ : Type} (ops : SketchOps σ) (conf : SupernodeConfig) (failFactor : UInt64)

/-- **The guttering system hands over the pending pairs**: along the run, the
batches of every continuing query hold the pairs pending at that point, each
once. -/
def HandsOver : List (Op × List (ℕ × List ℕ)) → Graph σ → Prop
  | [], _ => True
  | (o, batches) :: rest, g =>
    (o = .connectedComponents true → (expandBatches batches).Perm g.gutters) ∧
      ∀ r ∈ exec ops conf failFactor batches o g, HandsOver rest r.1

instance instDecidableHandsOver : ∀ (os : List (Op × List (ℕ × List ℕ))) (g : Graph σ),
    Decidable (HandsOver ops conf failFactor os g)
  | [], _ => inferInstanceAs (Decidable True)
  | (o, batches) :: rest, g =>
    have : ∀ g', Decidable (HandsOver ops conf failFactor rest g') :=
      instDecidableHandsOver rest
    inferInstanceAs (Decidable ((o = .connectedComponents true →
      (expandBatches batches).Perm g.gutters) ∧
        ∀ r ∈ exec ops conf failFactor batches o g, HandsOver ops conf failFactor rest r.1))

/-- **An accepted update keeps a trusted forest spanning**: while the forest
stays trusted, it spans the present edges with the update's edge toggled. -/
theorem spanningForestOf_update {E : Finset (ℕ × ℕ)} {g g' : Graph σ} {upd : GraphUpdate}
    (hE : EdgesBelow g.numNodes E) (hs : upd.edge.src.toNat < g.numNodes)
    (hd : upd.edge.dst.toNat < g.numNodes)
    (hF : g.dsuValid = true → SpanningForestOf E g.numNodes g.parent g.spanningForest)
    (hupd : g.update upd = .ok g') (hv : g'.dsuValid = true) :
    SpanningForestOf (E ∆ upd.toggled) g.numNodes g'.parent g'.spanningForest := by
  obtain ⟨hl, -, -⟩ := update_eq_ok hupd
  rw [update_eq_eagerDsu, if_neg (by simp [hl])] at hupd
  have hg' := Except.ok.inj hupd
  by_cases hvg : g.dsuValid = true
  · -- the eager step on the trusted forest
    rw [if_pos hvg] at hg'
    subst hg'
    exact spanningForestOf_eagerDsu (g := { g with gutters := g.gutters ++ _ }) hE
      (lt_of_le_of_lt (min_le_left _ _) hs) (max_lt hs hd) (hF hvg) hv
  · -- an untrusted forest stays untrusted
    rw [if_neg hvg] at hg'
    subst hg'
    exact absurd hv hvg

end Session

section SessionInv

variable (conf : SupernodeConfig) {oracle : UInt64 → Finset UInt64 → UInt64 × SampleSketchRet}

/-- **What holds between the operations of a session** on `n` nodes, after
the updates `past`: the pending pairs are those of the last updates `pend`,
and the supernodes hold the cut of the edges present before them; the
trusted forest spans the present edges; updates are unlocked, the workers
run, and no failure is injected. -/
structure SessionInv (n : ℕ) (past : List GraphUpdate) (g : Graph VecSketch) : Prop where
  numNodes : g.numNodes = n
  onNodes : ∀ upd ∈ past, upd.edge.src.toNat < n ∧ upd.edge.dst.toNat < n
  unlocked : g.updateLocked = false
  running : g.paused = false
  failRound2 : g.failRound2 = false
  pending : ∃ done pend, past = done ++ pend ∧ g.gutters = gutterPairs pend ∧
    Sketched conf n (presentEdges done) g
  eager : g.dsuValid = true → SpanningForestOf (presentEdges past) n g.parent g.spanningForest
  alive : g.exited = false

/-- **The state a session ends in when a query ended the process**: the
graph is marked exited and its forest is not trusted, so that any query
asked of it would run Boruvka and report the exit again. -/
structure Ended {σ : Type} (g : Graph σ) : Prop where
  exited : g.exited = true
  untrusted : g.dsuValid = false

variable {conf} {n : ℕ} {past : List GraphUpdate} {g : Graph VecSketch}

/-- A session starts on a graph just constructed. -/
theorem SessionInv.init (conf : SupernodeConfig) (n : ℕ) (seed : UInt64)
    (config : GraphConfiguration) :
    SessionInv conf n [] (init (VecSketch.ops oracle) conf n seed config) where
  numNodes := rfl
  onNodes _ h := nomatch h
  unlocked := rfl
  running := rfl
  failRound2 := rfl
  pending := ⟨[], [], rfl, rfl, Sketched.init conf n seed config⟩
  eager := (ingested_init (VecSketch.ops oracle) conf n seed config).eager
  alive := rfl

namespace SessionInv

theorem edgesBelow (h : SessionInv conf n past g) : EdgesBelow g.numNodes (presentEdges past) := by
  rw [h.numNodes]
  exact edgesBelow_presentEdges h.onNodes

/-- A new forest that spans the present edges while trusted. -/
theorem withParent (h : SessionInv conf n past g) (p : ℕ → ℕ)
    (hF : g.dsuValid = true → SpanningForestOf (presentEdges past) n p g.spanningForest) :
    SessionInv conf n past { g with parent := p } := by
  obtain ⟨done, pend, hpast, hpend, hsk⟩ := h.pending
  exact ⟨h.numNodes, h.onNodes, h.unlocked, h.running, h.failRound2,
    ⟨done, pend, hpast, hpend, hsk.of_eq rfl rfl⟩, hF, h.alive⟩

/-- **An update is accepted and keeps the invariant**: its pairs join the
pending ones, and the eager step keeps a trusted forest spanning. -/
theorem update (h : SessionInv conf n past g) {upd : GraphUpdate}
    (hupd : upd.edge.src.toNat < n ∧ upd.edge.dst.toNat < n) :
    ∃ g', g.update upd = .ok g' ∧ SessionInv conf n (past ++ [upd]) g' := by
  obtain ⟨g', hg'⟩ := update_of_unlocked h.unlocked upd
  obtain ⟨-, hgut, hframe⟩ := update_eq_ok hg'
  obtain ⟨done, pend, hpast, hpend, hsk⟩ := h.pending
  refine ⟨g', hg', (congrArg Graph.numNodes hframe).trans h.numNodes, fun x hx => ?_,
    (congrArg Graph.updateLocked hframe).trans h.unlocked,
    (congrArg Graph.paused hframe).trans h.running,
    (congrArg Graph.failRound2 hframe).trans h.failRound2,
    ⟨done, pend ++ [upd], by rw [hpast, List.append_assoc], ?_,
      hsk.of_eq (by rw [hframe]) (by rw [hframe])⟩, fun hv => ?_,
    (congrArg Graph.exited hframe).trans h.alive⟩
  · rcases List.mem_append.mp hx with hx | hx
    · exact h.onNodes x hx
    · rw [List.mem_singleton.mp hx]
      exact hupd
  · rw [hgut, hpend, gutterPairs_append]
    rfl
  · -- the eager step, on the nodes of the graph
    have hn := h.numNodes
    have hF := spanningForestOf_update h.edgesBelow (by rw [hn]; exact hupd.1)
      (by rw [hn]; exact hupd.2) (fun hvg => by rw [hn]; exact h.eager hvg) hg' hv
    rw [presentEdges_append, presentEdges_singleton, ← hn]
    exact hF

/-- **The fast path**: `cc_from_dsu` of the trusted forest lists the
components of the present edges, and only compresses the forest. -/
theorem ccFromDsu (h : SessionInv conf n past g) (hvalid : g.dsuValid = true) :
    IsComponents (presentEdges past) (Finset.range n) (ccFromDsu g).2 ∧
      SessionInv conf n past (ccFromDsu g).1 := by
  have hF : SpanningForestOf (presentEdges past) g.numNodes g.parent g.spanningForest := by
    rw [h.numNodes]
    exact h.eager hvalid
  obtain ⟨hcc, hF'⟩ := ccFromDsu_correct h.edgesBelow hF
  have hsf : (Graph.ccFromDsu g).1.spanningForest = g.spanningForest := by
    rw [ccFromDsu_frame]
  rw [h.numNodes, hsf] at hF'
  rw [h.numNodes] at hcc
  refine ⟨hcc, ?_⟩
  rw [ccFromDsu_frame]
  exact h.withParent _ fun _ => hF'

/-- **The flush hands the pending pairs to the supernodes**: afterwards they
hold the cut of the present edges. -/
theorem sketched_flush (oracle : UInt64 → Finset UInt64 → UInt64 × SampleSketchRet)
    (h : SessionInv conf n past g) {batches : List (ℕ × List ℕ)}
    (hb : (expandBatches batches).Perm g.gutters) :
    Sketched conf n (presentEdges past)
      (forceFlushPauseWorkers (VecSketch.ops oracle) conf batches g) := by
  obtain ⟨done, pend, hpast, hpend, hsk⟩ := h.pending
  rw [hpast]
  exact hsk.flush h.unlocked h.running (hpend ▸ hb)

/-- **Boruvka after the flush is right**: when it returns, it lists the
components of the present edges and leaves a spanning forest of them. -/
theorem flush_correct (hsound : OracleSound oracle) (h : SessionInv conf n past g)
    {batches : List (ℕ × List ℕ)} (hb : (expandBatches batches).Perm g.gutters) {makeCopy : Bool}
    {r : Graph VecSketch × Except Exception (List (Finset ℕ))}
    (hrun : boruvkaEmulation (VecSketch.ops oracle) conf makeCopy
      (forceFlushPauseWorkers (VecSketch.ops oracle) conf batches g) = some r)
    {cc : List (Finset ℕ)} (hcc : r.2 = .ok cc) :
    IsComponents (presentEdges past) (Finset.range n) cc ∧
      SpanningForestOf (presentEdges past) n r.1.parent r.1.spanningForest := by
  have hsk1 := h.sketched_flush oracle hb
  have hn1 : (forceFlushPauseWorkers (VecSketch.ops oracle) conf batches g).numNodes = n :=
    (numNodes_forceFlushPauseWorkers _ _ _ _).trans h.numNodes
  obtain ⟨g', res⟩ := r
  dsimp only at hcc
  subst hcc
  have hc := boruvkaEmulation_correct hsound conf
    (by rw [hn1]; exact edgesBelow_presentEdges h.onNodes) (edgesBelow_two_pow_presentEdges past)
    (fun u hu => by exact hsk1.summarises u (hn1 ▸ hu)) hrun
  rw [hn1] at hc
  exact hc

/-- **The slow path**: Boruvka runs on the flushed supernodes and, when it
returns, lists the components of the present edges with a spanning forest;
the continuing query then gives the supernodes back, with nothing pending,
and trusts the forest only if the run returned. A run that ended the
process reports it and leaves the forest untrusted. -/
theorem resume (hsound : OracleSound oracle) (h : SessionInv conf n past g)
    (hvalid : g.dsuValid = false) {batches : List (ℕ × List ℕ)}
    (hb : (expandBatches batches).Perm g.gutters)
    {r : Graph VecSketch × Except Exception (List (Finset ℕ))}
    (hrun : boruvkaEmulation (VecSketch.ops oracle) conf true
      (forceFlushPauseWorkers (VecSketch.ops oracle) conf batches g) = some r) :
    (∀ cc, r.2 = .ok cc → IsComponents (presentEdges past) (Finset.range n) cc) ∧
      (SessionInv conf n past (resumeIngestion (VecSketch.ops oracle) r.1) ∨
        Ended (resumeIngestion (VecSketch.ops oracle) r.1) ∧ r.2 = .error .exitFailure) := by
  have hsk1 := h.sketched_flush oracle hb
  -- the run keeps the flushed graph's fields, which are those of `g` but for the flush
  obtain ⟨-, hkept⟩ := boruvkaEmulation_numSketches hsk1.numSketches hrun
  rw [forceFlushPauseWorkers_of_running _ _ h.running batches] at hkept
  obtain ⟨hnum, -, -, -, hgut, hdsu, hfail, -⟩ := kept_eq_iff.mp hkept
  have hdsu' : r.1.dsuValid = (r.2.isOk || g.dsuValid) := hdsu
  refine ⟨fun cc hcc => (h.flush_correct hsound hb hrun hcc).1, ?_⟩
  cases hx : r.1.exited with
  | true =>
    -- the exit is the outcome, and the forest stays as untrusted as it was
    have hexit := boruvkaEmulation_exit_of_exited _ _ hrun hx
    refine .inr ⟨⟨hx, ?_⟩, hexit⟩
    show r.1.dsuValid = false
    rw [hdsu', hexit, hvalid]
    rfl
  | false =>
    refine .inl ⟨hnum.trans h.numNodes, h.onNodes, rfl, rfl, hfail.trans h.failRound2,
      ⟨past, [], (List.append_nil past).symm, hgut,
        hsk1.resume hsound ((numNodes_forceFlushPauseWorkers _ _ _ _).trans h.numNodes)
          (edgesBelow_presentEdges h.onNodes) (edgesBelow_two_pow_presentEdges past) hrun hx⟩,
      fun hv => ?_, hx⟩
    -- the forest is trusted again only when the run returned
    obtain ⟨g', res⟩ := r
    have hok : res.isOk = true := by
      have hv' : (res.isOk || g.dsuValid) = true := hdsu'.symm.trans hv
      rwa [hvalid, Bool.or_false] at hv'
    cases res with
    | error e => cases hok
    | ok cc => exact (h.flush_correct hsound hb hrun rfl).2

/-- **A continuing query answers right and keeps the invariant**, on either
path, unless its Boruvka run ended the process and reported it. -/
theorem connectedComponents (hsound : OracleSound oracle) (h : SessionInv conf n past g)
    {batches : List (ℕ × List ℕ)} (hb : (expandBatches batches).Perm g.gutters)
    {r : Graph VecSketch × Except Exception (List (Finset ℕ))}
    (hr : Graph.connectedComponents (VecSketch.ops oracle) conf batches true g = some r) :
    (∀ cc, r.2 = .ok cc → IsComponents (presentEdges past) (Finset.range n) cc) ∧
      (SessionInv conf n past r.1 ∨ Ended r.1 ∧ r.2 = .error .exitFailure) := by
  cases hvalid : g.dsuValid with
  | true =>
    -- the fast path answers from the trusted forest and flushes nothing
    simp only [Graph.connectedComponents, hvalid, h.failRound2, Bool.and_self, Bool.not_false,
      if_true, Option.some.injEq] at hr
    subst hr
    obtain ⟨hcc, hinv⟩ := h.ccFromDsu hvalid
    exact ⟨fun cc hcc' => Except.ok.inj hcc' ▸ hcc, .inl hinv⟩
  | false =>
    simp only [Graph.connectedComponents, hvalid, Bool.false_and, Bool.false_eq_true, if_false,
      if_true] at hr
    obtain ⟨r', hr', rfl⟩ := Option.map_eq_some_iff.mp hr
    exact h.resume hsound hvalid hb hr'

/-- A continuing query returns when every good answer names two nodes. -/
theorem isSome_connectedComponents (h : SessionInv conf n past g)
    (hgood : GoodInRange (VecSketch.ops oracle) n) (batches : List (ℕ × List ℕ)) :
    (Graph.connectedComponents (VecSketch.ops oracle) conf batches true g).isSome := by
  obtain ⟨done, pend, -, -, hsk⟩ := h.pending
  unfold Graph.connectedComponents
  split
  · rfl
  · rw [if_pos rfl, Option.isSome_map]
    refine isSome_boruvkaEmulation true ?_ fun i hi => ?_
    · rw [numNodes_forceFlushPauseWorkers, h.numNodes]
      exact hgood
    · rw [numNodes_forceFlushPauseWorkers, h.numNodes] at hi
      exact (fresh_forceFlushPauseWorkers (hsk.fresh i hi) batches).mergedSketches.le

/-- **Every operation of a session answers right and keeps the invariant.** -/
theorem exec (hsound : OracleSound oracle) (h : SessionInv conf n past g) (failFactor : UInt64)
    {o : Op} (ho : SessionOp n o) {batches : List (ℕ × List ℕ)}
    (hb : o = .connectedComponents true → (expandBatches batches).Perm g.gutters)
    {r : Graph VecSketch × Except Exception Ret}
    (hr : Graph.exec (VecSketch.ops oracle) conf failFactor batches o g = some r) :
    RightAnswer n past o r.2 ∧
      (SessionInv conf n (past ++ o.stream) r.1 ∨ Ended r.1 ∧ r.2 = .error .exitFailure) := by
  cases o with
  | update upd =>
    obtain ⟨g', hupd, hinv⟩ := h.update ho
    simp only [Graph.exec, hupd, Option.some.injEq] at hr
    subst hr
    exact ⟨rfl, .inl hinv⟩
  | connectedComponents cont =>
    obtain rfl : cont = true := ho
    obtain ⟨r', hr', rfl⟩ := Option.map_eq_some_iff.mp hr
    obtain ⟨hcc, hinv⟩ := h.connectedComponents hsound (hb rfl) hr'
    have hnil : past ++ Graph.Op.stream (.connectedComponents true) = past := List.append_nil past
    refine ⟨fun x hx => ?_, ?_⟩
    swap
    · rw [hnil]
      rcases hinv with hinv | ⟨hend, hexit⟩
      · exact .inl hinv
      · refine .inr ⟨hend, ?_⟩
        dsimp only
        rw [hexit]
        rfl
    cases hres : r'.2 with
    | error e =>
      rw [hres] at hx
      cases hx
    | ok cc =>
      rw [hres] at hx
      exact ⟨cc, (Except.ok.inj hx).symm, hcc cc hres⟩
  | pointQuery a b => exact ho.elim
  | writeBinary => exact ho.elim

/-- Every operation of a session returns when every good answer names two
nodes. -/
theorem isSome_exec (h : SessionInv conf n past g) (failFactor : UInt64) {o : Op}
    (ho : SessionOp n o) (hgood : GoodInRange (VecSketch.ops oracle) n)
    (batches : List (ℕ × List ℕ)) :
    (Graph.exec (VecSketch.ops oracle) conf failFactor batches o g).isSome := by
  cases o with
  | update upd =>
    simp only [Graph.exec]
    split <;> rfl
  | connectedComponents cont =>
    obtain rfl : cont = true := ho
    rw [Graph.exec, Option.isSome_map]
    exact h.isSome_connectedComponents hgood batches
  | pointQuery a b => exact ho.elim
  | writeBinary => exact ho.elim

/-- **A whole session answers right** from any state of the invariant, and
ends in a state of the invariant after all its updates, or in the state a
query that ended the process left; it returns when every good answer names
two nodes. The induction is on the operations, the invariant carried from
each to the next. -/
theorem run (hsound : OracleSound oracle) (failFactor : UInt64)
    {os : List (Op × List (ℕ × List ℕ))} (hos : ∀ p ∈ os, SessionOp n p.1)
    (h : SessionInv conf n past g) (hhand : HandsOver (VecSketch.ops oracle) conf failFactor os g) :
    (GoodInRange (VecSketch.ops oracle) n →
      (Graph.run (VecSketch.ops oracle) conf failFactor os g).isSome) ∧
      ∀ r ∈ Graph.run (VecSketch.ops oracle) conf failFactor os g,
        RightAnswers n past (os.map Prod.fst) r.2 ∧
          (SessionInv conf n (past ++ updatesOf (os.map Prod.fst)) r.1 ∨ Ended r.1) := by
  induction os generalizing past g with
  | nil =>
    refine ⟨fun _ => rfl, fun r hr => ?_⟩
    obtain rfl := Option.mem_some_iff.mp hr
    exact ⟨trivial, .inl (by rw [List.map_nil, updatesOf, List.flatMap_nil, List.append_nil]; exact h)⟩
  | cons p os ih =>
    obtain ⟨o, batches⟩ := p
    obtain ⟨hb, hrest⟩ := hhand
    have ho : SessionOp n o := hos (o, batches) List.mem_cons_self
    have hos' : ∀ p ∈ os, SessionOp n p.1 := fun p hp => hos p (List.mem_cons_of_mem _ hp)
    have hupd : past ++ updatesOf (((o, batches) :: os).map Prod.fst)
        = past ++ o.stream ++ updatesOf (os.map Prod.fst) := by
      rw [List.map_cons, updatesOf, List.flatMap_cons, ← List.append_assoc]
      rfl
    -- the operation answers right; it ended the process, or the rest of the run goes on
    -- from the invariant
    have hstep : ∀ r ∈ Graph.exec (VecSketch.ops oracle) conf failFactor batches o g,
        RightAnswer n past o r.2 ∧
          (r.1.exited = true → Ended r.1 ∧ r.2 = .error .exitFailure) ∧
          (r.1.exited = false →
            (GoodInRange (VecSketch.ops oracle) n →
              (Graph.run (VecSketch.ops oracle) conf failFactor os r.1).isSome) ∧
            ∀ s ∈ Graph.run (VecSketch.ops oracle) conf failFactor os r.1,
              RightAnswers n (past ++ o.stream) (os.map Prod.fst) s.2 ∧
                (SessionInv conf n (past ++ o.stream ++ updatesOf (os.map Prod.fst)) s.1 ∨
                  Ended s.1)) := by
      intro r hr
      obtain ⟨hans, hinv⟩ := h.exec hsound failFactor ho hb hr
      refine ⟨hans, fun hx => ?_, fun hx => ?_⟩
      · rcases hinv with hinv | hend
        · rw [hinv.alive] at hx
          cases hx
        · exact hend
      · rcases hinv with hinv | ⟨hend, -⟩
        · exact ih hos' hinv (hrest r hr)
        · rw [hend.exited] at hx
          cases hx
    refine ⟨fun hgood => ?_, fun s hs => ?_⟩
    · obtain ⟨r, hr⟩ := Option.isSome_iff_exists.mp (h.isSome_exec failFactor ho hgood batches)
      rw [Graph.run, hr, Option.bind_some]
      by_cases hx : r.1.exited = true
      · rw [if_pos hx]
        rfl
      · rw [if_neg hx, Option.isSome_map]
        exact ((hstep r hr).2.2 (Bool.of_not_eq_true hx)).1 hgood
    · rw [Graph.run] at hs
      obtain ⟨r, hr, hs'⟩ := Option.mem_bind_iff.mp hs
      obtain ⟨hans, hend, hgo⟩ := hstep r hr
      by_cases hx : r.1.exited = true
      · -- the run stops at the operation that ended the process
        rw [if_pos hx] at hs'
        obtain rfl := Option.mem_some_iff.mp hs'
        obtain ⟨hend, hexit⟩ := hend hx
        exact ⟨⟨hans, .inl ⟨hexit, rfl⟩⟩, .inr hend⟩
      · rw [if_neg hx] at hs'
        obtain ⟨s', hs'', rfl⟩ := Option.mem_map.mp hs'
        obtain ⟨hans', hinv⟩ := (hgo (Bool.of_not_eq_true hx)).2 s' hs''
        rw [hupd]
        exact ⟨⟨hans, .inr hans'⟩, hinv⟩

end SessionInv

/-- **Every session answers every query right**: on a graph just
constructed, a run of updates between its nodes and continuing
`connected_components` queries, each flush handed exactly the pending
pairs, accepts every update, and every query that returns lists the
connected components of the edges present at that point, whichever path it
takes; the run returns when every good answer of a sketch names two
nodes. -/
theorem session_answers_components (hsound : OracleSound oracle) (conf : SupernodeConfig)
    (failFactor : UInt64) (n : ℕ) (seed : UInt64) (config : GraphConfiguration)
    {os : List (Op × List (ℕ × List ℕ))} (hos : ∀ p ∈ os, SessionOp n p.1)
    (hhand : HandsOver (VecSketch.ops oracle) conf failFactor os
      (init (VecSketch.ops oracle) conf n seed config)) :
    (GoodInRange (VecSketch.ops oracle) n →
      (run (VecSketch.ops oracle) conf failFactor os
        (init (VecSketch.ops oracle) conf n seed config)).isSome) ∧
      ∀ r ∈ run (VecSketch.ops oracle) conf failFactor os
          (init (VecSketch.ops oracle) conf n seed config),
        RightAnswers n [] (os.map Prod.fst) r.2 := by
  obtain ⟨hsome, hruns⟩ := (SessionInv.init conf n seed config).run hsound failFactor hos hhand
  exact ⟨hsome, fun r hr => (hruns r hr).1⟩

/-- On `Graph(3)` configured for the failure factor 4, the edge (0, 1)
inserted and asked for, then deleted and asked for: the first query takes
the fast path and flushes nothing, so the second flush hands over both
updates. -/
theorem session_answers_components_toggle :
    (∀ p ∈ [(Op.update ⟨⟨0, 1⟩, .insert⟩, []), (.connectedComponents true, [(0, [1]), (1, [0])]),
          (.update ⟨⟨0, 1⟩, .delete⟩, []),
          (.connectedComponents true, [(0, [1, 1]), (1, [0, 0])])], SessionOp 3 p.1) ∧
      HandsOver (VecSketch.ops minOracle) ⟨2, 3⟩ 4 [(Op.update ⟨⟨0, 1⟩, .insert⟩, []), (.connectedComponents true, [(0, [1]), (1, [0])]),
          (.update ⟨⟨0, 1⟩, .delete⟩, []),
          (.connectedComponents true, [(0, [1, 1]), (1, [0, 0])])]
        (init (VecSketch.ops minOracle) ⟨2, 3⟩ 3 0 {}) ∧
      ((GoodInRange (VecSketch.ops minOracle) 3 →
          (run (VecSketch.ops minOracle) ⟨2, 3⟩ 4 [(Op.update ⟨⟨0, 1⟩, .insert⟩, []), (.connectedComponents true, [(0, [1]), (1, [0])]),
          (.update ⟨⟨0, 1⟩, .delete⟩, []),
          (.connectedComponents true, [(0, [1, 1]), (1, [0, 0])])]
            (init (VecSketch.ops minOracle) ⟨2, 3⟩ 3 0 {})).isSome) ∧
        ∀ r ∈ run (VecSketch.ops minOracle) ⟨2, 3⟩ 4 [(Op.update ⟨⟨0, 1⟩, .insert⟩, []), (.connectedComponents true, [(0, [1]), (1, [0])]),
          (.update ⟨⟨0, 1⟩, .delete⟩, []),
          (.connectedComponents true, [(0, [1, 1]), (1, [0, 0])])]
            (init (VecSketch.ops minOracle) ⟨2, 3⟩ 3 0 {}),
          RightAnswers 3 [] (List.map Prod.fst [(Op.update ⟨⟨0, 1⟩, .insert⟩, []), (.connectedComponents true, [(0, [1]), (1, [0])]),
          (.update ⟨⟨0, 1⟩, .delete⟩, []),
          (.connectedComponents true, [(0, [1, 1]), (1, [0, 0])])]) r.2) :=
  ⟨by decide, by decide,
    session_answers_components minOracle_sound ⟨2, 3⟩ 4 3 0 {} (by decide) (by decide)⟩

/-- Every operation of that session returns, the first query from the eager
forest and the second through Boruvka; the last flush leaves nothing
pending. -/
example :
    (run (VecSketch.ops minOracle) ⟨2, 3⟩ 4 [(Op.update ⟨⟨0, 1⟩, .insert⟩, []), (.connectedComponents true, [(0, [1]), (1, [0])]),
          (.update ⟨⟨0, 1⟩, .delete⟩, []),
          (.connectedComponents true, [(0, [1, 1]), (1, [0, 0])])] (init (VecSketch.ops minOracle) ⟨2, 3⟩ 3 0 {})).map
        (fun r => (r.1.gutters, r.2.map Except.isOk))
      = some ([], [true, true, true, true]) := by
  decide

end SessionInv

end GraphZeppelin

import GraphZeppelin.Supernode
import GraphZeppelin.ParentForest
import Mathlib.Data.Finset.Sort

/-!
# The graph

`Graph` holds one supernode per node, the disjoint-set forest (`parent`,
`size`) that Boruvka and the eager DSU build, the spanning forest found so
far, and the flags that decide which path a query takes. This module models
its state and the operations on it other than Boruvka itself: the
constructor, `get_parent`, `update` with the eager DSU of the default build
(`USE_EAGER_DSU`), `batch_update` and the delta supernode it adds, and
`cc_from_dsu`.

The guttering system and the graph workers run in other threads. The model
keeps what the graph's correctness depends on: the pairs `update` has handed
to the guttering system and no worker has applied yet (`gutters`), and the
static flag `GraphWorker::paused`. A running worker applies a batch of
pending pairs through `batch_update` (`workerBatch`); `force_flush` followed
by `pause_workers` lets running workers apply every pending pair before they
stop, while workers already paused wait on their condition and apply nothing
(`forceFlushPauseWorkers`).

`get_parent` recurses without a bound; on a forest over `num_nodes` nodes it
stops within `num_nodes` calls, which is the fuel `findCompress` is given.
-/

namespace GraphZeppelin

open ParentForest

/-- What the directory `_disk_dir` is, as far as the backup file
`_disk_dir + "supernode_backup.data"` goes: whether the file can be opened for
writing there, and whether it is already there when the graph is built. -/
structure DiskDir where
  writable : Bool := true
  holdsBackup : Bool := false
  deriving DecidableEq, Repr

/-- The options of `GraphConfiguration` the modelled code reads. -/
structure GraphConfiguration where
  /-- `_backup_in_mem`: Boruvka keeps its backups as copies in memory rather
  than in the backup file. -/
  backupInMem : Bool := true
  /-- `_disk_dir`: where the backup file is. -/
  diskDir : DiskDir := {}
  deriving DecidableEq, Repr

/-- **The state of a `Graph`.** -/
structure Graph (σ : Type) where
  /-- `num_nodes`. -/
  numNodes : Nat
  /-- `seed`. -/
  seed : UInt64
  /-- `config`. -/
  config : GraphConfiguration
  /-- `update_locked`: set by Boruvka, cleared when a continuing query ends. -/
  updateLocked : Bool
  /-- `modified`: whether the current Boruvka round changed anything. -/
  modified : Bool
  /-- `supernodes`. -/
  supernodes : Nat → Supernode σ
  /-- `parent`. -/
  parent : Nat → Nat
  /-- `size`. -/
  size : Nat → Nat
  /-- `dsu_valid`: the forest is trusted to give the components. -/
  dsuValid : Bool
  /-- `spanning_forest`: for each node, the larger endpoints of the forest
  edges it is the smaller endpoint of. -/
  spanningForest : Nat → Finset Nat
  /-- `fail_round_2`, set by `should_fail_CC`. -/
  failRound2 : Bool
  /-- The pairs handed to the guttering system and not yet applied. -/
  gutters : List (Nat × Nat)
  /-- `GraphWorker::paused`. -/
  paused : Bool
  /-- The backup file: the supernodes `backup_to_disk` last wrote. -/
  backupFile : List (Supernode σ)
  /-- Whether the backup file exists. -/
  backupOnDisk : Bool
  /-- Whether the process has called `exit(EXIT_FAILURE)`. -/
  exited : Bool

namespace Graph

section Dsu

variable {σ : Type}

/-- `Graph::get_parent`: the root of `node`, with path compression. -/
def getParent (g : Graph σ) (node : Nat) : Graph σ × Nat :=
  let r := findCompress g.parent g.numNodes node
  ({ g with parent := r.1 }, r.2)

@[simp] theorem getParent_fst (g : Graph σ) (node : Nat) :
    (g.getParent node).1 = { g with parent := (findCompress g.parent g.numNodes node).1 } := rfl

/-- `get_parent` of a root returns it and changes nothing. -/
theorem getParent_of_isRoot {g : Graph σ} {x : Nat} (hx : IsRoot g.parent x) :
    g.getParent x = (g, x) := by
  simp only [getParent, findCompress_of_isRoot hx]

/-- **What `get_parent` does** on a forest: it returns the root and only
compresses the forest. -/
theorem getParent_spec {g : Graph σ} (hf : IsForest g.parent g.numNodes) {x : Nat}
    (hx : x < g.numNodes) :
    (g.getParent x).2 = root g.parent g.numNodes x ∧
      Compressed g.parent (g.getParent x).1.parent g.numNodes :=
  findCompress_spec_of_lt hf hx

/-- `get_parent` of two nodes in turn, as `supernodes_to_merge` and the
eager `update` call it: the two roots, and only a compressed forest. -/
theorem getParent_pair {g : Graph σ} (hf : IsForest g.parent g.numNodes) {s d : Nat}
    (hs : s < g.numNodes) (hd : d < g.numNodes) :
    (g.getParent s).2 = root g.parent g.numNodes s ∧
      ((g.getParent s).1.getParent d).2 = root g.parent g.numNodes d ∧
      ((g.getParent s).1.getParent d).1
        = { g with parent := ((g.getParent s).1.getParent d).1.parent } ∧
      Compressed g.parent ((g.getParent s).1.getParent d).1.parent g.numNodes := by
  obtain ⟨hra, hca⟩ := getParent_spec hf hs
  obtain ⟨hrb, hcb⟩ := @getParent_spec σ (g.getParent s).1 (hca.isForest hf) d hd
  refine ⟨hra, ?_, rfl, hca.trans hf hcb⟩
  rw [hrb]
  exact hca.root_eq hf hd

/-- `parent[b] = a; size[a] += size[b]`. -/
def linkRoots (g : Graph σ) (a b : Nat) : Graph σ :=
  { g with parent := link g.parent a b, size := Function.update g.size a (g.size a + g.size b) }

/-- The union by size of two roots, which `supernodes_to_merge` and the eager
`update` both make: the root of the smaller tree becomes a child of the
other root. Returns the new parent and child. -/
def unionBySize (g : Graph σ) (a b : Nat) : Graph σ × Nat × Nat :=
  -- make a the parent of b
  if g.size a < g.size b then (g.linkRoots b a, b, a) else (g.linkRoots a b, a, b)

/-- The union links one of the two roots under the other. -/
theorem unionBySize_cases (g : Graph σ) (a b : Nat) :
    g.unionBySize a b = (g.linkRoots b a, b, a) ∨ g.unionBySize a b = (g.linkRoots a b, a, b) := by
  unfold unionBySize
  split
  · exact .inl rfl
  · exact .inr rfl

/-- One iteration of the loop of `cc_from_dsu`, `temp[get_parent(i)].insert(i)`,
on the graph, the keys of `temp` and `temp`. -/
def ccStep (acc : Graph σ × Finset Nat × (Nat → Finset Nat)) (i : Nat) :
    Graph σ × Finset Nat × (Nat → Finset Nat) :=
  let r := acc.1.getParent i
  (r.1, insert r.2 acc.2.1, Function.update acc.2.2 r.2 (insert i (acc.2.2 r.2)))

/-- `Graph::cc_from_dsu`: the nodes grouped by their root, the groups in
increasing order of the root (the order of the `std::map`). -/
def ccFromDsu (g : Graph σ) : Graph σ × List (Finset Nat) :=
  let res := (List.range g.numNodes).foldl ccStep (g, ∅, fun _ => ∅)
  (res.1, (res.2.1.sort (· ≤ ·)).map res.2.2)

/-- The class of a root: the nodes below `n` under it. -/
def classOf (p : Nat → Nat) (n r : Nat) : Finset Nat :=
  (Finset.range n).filter (fun i => root p n i = r)

@[simp] theorem mem_classOf {p : Nat → Nat} {n r u : Nat} :
    u ∈ classOf p n r ↔ u < n ∧ root p n u = r := by
  rw [classOf, Finset.mem_filter, Finset.mem_range]

theorem classOf_disjoint {p : Nat → Nat} {n r r' : Nat} (h : r ≠ r') :
    Disjoint (classOf p n r) (classOf p n r') :=
  Finset.disjoint_filter.mpr fun _ _ hr hr' => h (hr.symm.trans hr')

/-- The components the forest gives: the class of every root, by
increasing root. -/
def components (p : Nat → Nat) (n : Nat) : List (Finset Nat) :=
  (((Finset.range n).image (root p n)).sort (· ≤ ·)).map (classOf p n)

/-- The loop of `cc_from_dsu` changes only the forest. -/
theorem foldl_ccStep_frame (l : List Nat) (acc : Graph σ × Finset Nat × (Nat → Finset Nat)) :
    (l.foldl ccStep acc).1 = { acc.1 with parent := (l.foldl ccStep acc).1.parent } := by
  induction l generalizing acc with
  | nil => rfl
  | cons i l ih =>
    rw [List.foldl_cons, ih]
    rfl

theorem ccFromDsu_frame (g : Graph σ) :
    (ccFromDsu g).1 = { g with parent := (ccFromDsu g).1.parent } :=
  foldl_ccStep_frame _ _

/-- The loop of `cc_from_dsu` after the first `k` nodes. -/
theorem foldl_ccFromDsu {g : Graph σ} (hf : IsForest g.parent g.numNodes) {k : Nat}
    (hk : k ≤ g.numNodes) :
    let res := (List.range k).foldl ccStep (g, ∅, fun _ => ∅)
    res.1 = { g with parent := res.1.parent } ∧ Compressed g.parent res.1.parent g.numNodes ∧
      res.2.1 = (Finset.range k).image (root g.parent g.numNodes) ∧
      ∀ r, res.2.2 r = (Finset.range k).filter (fun i => root g.parent g.numNodes i = r) := by
  induction k with
  | zero => exact ⟨rfl, compressed_refl _ _, rfl, fun _ => rfl⟩
  | succ k ih =>
    obtain ⟨hg, hc, hkeys, htemp⟩ := ih (Nat.le_of_succ_le hk)
    simp only [List.range_succ, List.foldl_append, List.foldl_cons, List.foldl_nil, ccStep]
    set res := (List.range k).foldl ccStep (g, ∅, fun _ => ∅)
    -- the state so far is `g` with a compressed forest, so `get_parent` finds the old root
    have hf' : IsForest res.1.parent res.1.numNodes := by
      rw [hg]
      exact hc.isForest hf
    have hkn : k < res.1.numNodes := by
      rw [hg]
      exact hk
    obtain ⟨hroot, hc'⟩ := getParent_spec hf' hkn
    have hn : res.1.numNodes = g.numNodes := by rw [hg]
    rw [hn, hc.root_eq hf hk] at hroot
    rw [hn] at hc'
    refine ⟨?_, hc.trans hf hc', ?_, fun r => ?_⟩
    · rw [getParent_fst, hg]
    · rw [hroot, hkeys, Finset.range_add_one, Finset.image_insert]
    · rw [hroot, Finset.range_add_one, Finset.filter_insert, htemp]
      by_cases hr : r = root g.parent g.numNodes k
      · subst hr
        simp
      · rw [Function.update_of_ne hr, if_neg (Ne.symm hr)]
        exact htemp r

/-- **What `cc_from_dsu` returns** on a forest: the classes of the roots, by
increasing root; and the forest is only compressed. -/
theorem ccFromDsu_spec {g : Graph σ} (hf : IsForest g.parent g.numNodes) :
    (ccFromDsu g).2 = components g.parent g.numNodes ∧
      (ccFromDsu g).1 = { g with parent := (ccFromDsu g).1.parent } ∧
      Compressed g.parent (ccFromDsu g).1.parent g.numNodes := by
  obtain ⟨hg, hc, hkeys, htemp⟩ := foldl_ccFromDsu hf (le_refl g.numNodes)
  refine ⟨?_, hg, hc⟩
  simp only [ccFromDsu, components]
  rw [hkeys]
  exact List.map_congr_left (fun r _ => htemp r)

end Dsu

section Ops

variable {σ : Type} (ops : SketchOps σ) (conf : SupernodeConfig)

/-- The constructor `Graph(num_nodes, config)`, with the seed it drew: a
fresh supernode per node, every node its own root, the forest trusted. -/
def init (numNodes : Nat) (seed : UInt64) (config : GraphConfiguration) : Graph σ where
  numNodes := numNodes
  seed := seed
  config := config
  updateLocked := false
  modified := false
  supernodes _ := Supernode.makeSupernode ops conf numNodes.toUInt64 seed
  parent i := i
  size _ := 1
  dsuValid := true
  spanningForest _ := ∅
  failRound2 := false
  gutters := []
  paused := false
  backupFile := []
  backupOnDisk := config.diskDir.holdsBackup
  exited := false

/-- `Graph::generate_delta_node`: the delta supernode of a batch of
neighbours of `src`, each edge given by its identifier. -/
def generateDeltaNode (nodeN nodeSeed : UInt64) (src : Nat) (edges : List Nat) :
    Supernode σ :=
  let updates := edges.map fun edge =>
    if src < edge then concatPairingFn src.toUInt32 edge.toUInt32
    else concatPairingFn edge.toUInt32 src.toUInt32
  Supernode.deltaSupernode ops conf nodeN nodeSeed updates

/-- `Graph::batch_update`. -/
def batchUpdate (g : Graph σ) (src : Nat) (edges : List Nat) : Except Exception (Graph σ) :=
  if g.updateLocked then .error .updateLocked
  else
    let s := g.supernodes src
    let delta := generateDeltaNode ops conf s.n s.seed src edges
    .ok { g with supernodes := Function.update g.supernodes src (s.applyDeltaUpdate ops delta) }

/-- A worker applying one batch of the guttering system through
`batch_update`. Workers only run while updates are unlocked, where
`batch_update` does not throw; the state is kept if it would. -/
def workerBatch (g : Graph σ) (batch : Nat × List Nat) : Graph σ :=
  match g.batchUpdate ops conf batch.1 batch.2 with
  | .ok g' => g'
  | .error _ => g

/-- `gts->force_flush()` and then `GraphWorker::pause_workers()`, with the
batches the guttering system forms of the pending pairs: running workers
apply them all before they pause; paused workers apply none. -/
def forceFlushPauseWorkers (batches : List (Nat × List Nat)) (g : Graph σ) : Graph σ :=
  if g.paused then g
  else { batches.foldl (workerBatch ops conf) g with gutters := [], paused := true }

/-- A worker's batch changes only the supernodes. -/
theorem workerBatch_frame (g : Graph σ) (batch : Nat × List Nat) :
    workerBatch ops conf g batch
      = { g with supernodes := (workerBatch ops conf g batch).supernodes } := by
  by_cases hl : g.updateLocked
  · -- `batch_update` would throw: the worker's state is kept
    have hkeep : workerBatch ops conf g batch = g := by
      simp only [workerBatch, batchUpdate, hl, if_true]
    rw [hkeep]
  · simp only [workerBatch, batchUpdate, hl, Bool.false_eq_true, if_false]

theorem foldl_workerBatch_frame (batches : List (Nat × List Nat)) (g : Graph σ) :
    batches.foldl (workerBatch ops conf) g
      = { g with supernodes := (batches.foldl (workerBatch ops conf) g).supernodes } := by
  induction batches generalizing g with
  | nil => rfl
  | cons b bs ih =>
    rw [List.foldl_cons, ih, workerBatch_frame ops conf g b]

/-- Workers already paused apply nothing. -/
theorem forceFlushPauseWorkers_of_paused {batches : List (Nat × List Nat)} {g : Graph σ}
    (h : g.paused = true) : forceFlushPauseWorkers ops conf batches g = g := by
  simp only [forceFlushPauseWorkers, h, if_true]

@[simp] theorem paused_forceFlushPauseWorkers (batches : List (Nat × List Nat)) (g : Graph σ) :
    (forceFlushPauseWorkers ops conf batches g).paused = true := by
  unfold forceFlushPauseWorkers
  split
  · assumption
  · rfl

@[simp] theorem updateLocked_forceFlushPauseWorkers (batches : List (Nat × List Nat))
    (g : Graph σ) :
    (forceFlushPauseWorkers ops conf batches g).updateLocked = g.updateLocked := by
  unfold forceFlushPauseWorkers
  split
  · rfl
  · show (batches.foldl (workerBatch ops conf) g).updateLocked = g.updateLocked
    rw [foldl_workerBatch_frame]

@[simp] theorem numNodes_forceFlushPauseWorkers (batches : List (Nat × List Nat)) (g : Graph σ) :
    (forceFlushPauseWorkers ops conf batches g).numNodes = g.numNodes := by
  unfold forceFlushPauseWorkers
  split
  · rfl
  · show (batches.foldl (workerBatch ops conf) g).numNodes = g.numNodes
    rw [foldl_workerBatch_frame]

@[simp] theorem seed_forceFlushPauseWorkers (batches : List (Nat × List Nat)) (g : Graph σ) :
    (forceFlushPauseWorkers ops conf batches g).seed = g.seed := by
  unfold forceFlushPauseWorkers
  split
  · rfl
  · show (batches.foldl (workerBatch ops conf) g).seed = g.seed
    rw [foldl_workerBatch_frame]

@[simp] theorem exited_forceFlushPauseWorkers (batches : List (Nat × List Nat)) (g : Graph σ) :
    (forceFlushPauseWorkers ops conf batches g).exited = g.exited := by
  unfold forceFlushPauseWorkers
  split
  · rfl
  · show (batches.foldl (workerBatch ops conf) g).exited = g.exited
    rw [foldl_workerBatch_frame]

end Ops

section Update

variable {σ : Type}

/-- `GraphWorker::unpause_workers`. -/
def unpauseWorkers (g : Graph σ) : Graph σ := { g with paused := false }

/-- `Graph::update` with the eager DSU: both directions go to the guttering
system; while the forest is trusted, toggling one of its edges makes it
untrusted, and any other edge joins the trees of its endpoints. The update
type is not read: an insertion and a deletion are the same toggle. -/
def update (g : Graph σ) (upd : GraphUpdate) : Except Exception (Graph σ) :=
  if g.updateLocked then .error .updateLocked
  else
    let s := upd.edge.src.toNat
    let d := upd.edge.dst.toNat
    let g := { g with gutters := g.gutters ++ [(s, d), (d, s)] }
    if g.dsuValid then
      let src := min s d
      let dst := max s d
      if dst ∈ g.spanningForest src then .ok { g with dsuValid := false }
      else
        let ra := g.getParent src
        let rb := ra.1.getParent dst
        if ra.2 = rb.2 then .ok rb.1
        else
          -- single-threaded, the compare-and-swap on the root `b` succeeds
          let g := (rb.1.unionBySize ra.2 rb.2).1
          .ok { g with
            spanningForest := Function.update g.spanningForest src
              (insert dst (g.spanningForest src)) }
    else .ok g

/-- The block of `update` under `USE_EAGER_DSU`, on a trusted forest, for
an edge given smaller end first. -/
def eagerDsu (g : Graph σ) (src dst : Nat) : Graph σ :=
  if dst ∈ g.spanningForest src then { g with dsuValid := false }
  else
    let ra := g.getParent src
    let rb := ra.1.getParent dst
    if ra.2 = rb.2 then rb.1
    else
      let g := (rb.1.unionBySize ra.2 rb.2).1
      { g with
        spanningForest := Function.update g.spanningForest src
          (insert dst (g.spanningForest src)) }

/-- `update` hands both directions of the edge to the guttering system, and
then takes the eager step while the forest is trusted. -/
theorem update_eq_eagerDsu (g : Graph σ) (upd : GraphUpdate) :
    g.update upd =
      if g.updateLocked then .error .updateLocked
      else
        let g0 := { g with
          gutters := g.gutters ++ [(upd.edge.src.toNat, upd.edge.dst.toNat),
            (upd.edge.dst.toNat, upd.edge.src.toNat)] }
        .ok (if g.dsuValid then
          eagerDsu g0 (min upd.edge.src.toNat upd.edge.dst.toNat)
            (max upd.edge.src.toNat upd.edge.dst.toNat)
          else g0) := by
  unfold update eagerDsu
  split
  · rfl
  · dsimp only
    split
    · split
      · rfl
      · split <;> rfl
    · rfl

/-- The union changes only the forest and the sizes. -/
theorem unionBySize_frame (g : Graph σ) (a b : Nat) :
    (g.unionBySize a b).1
      = { g with parent := (g.unionBySize a b).1.parent, size := (g.unionBySize a b).1.size } := by
  rcases unionBySize_cases g a b with h | h <;> rw [h] <;> rfl

/-- **What an accepted `update` did**: updates were unlocked, both
directions of the edge were handed to the guttering system, and nothing
but the pending pairs, the forest, the sizes, the spanning forest and
`dsu_valid` changed. -/
theorem update_eq_ok {g g' : Graph σ} {upd : GraphUpdate} (h : g.update upd = .ok g') :
    g.updateLocked = false ∧
      g'.gutters = g.gutters ++
        [(upd.edge.src.toNat, upd.edge.dst.toNat), (upd.edge.dst.toNat, upd.edge.src.toNat)] ∧
      g' = { g with
        gutters := g'.gutters, dsuValid := g'.dsuValid, parent := g'.parent,
        size := g'.size, spanningForest := g'.spanningForest } := by
  unfold update at h
  split at h
  · cases h
  · rename_i hl
    refine ⟨Bool.eq_false_iff.mpr hl, ?_⟩
    dsimp only at h
    split at h
    · split at h
      · cases h
        exact ⟨rfl, rfl⟩
      · split at h
        · cases h
          exact ⟨rfl, rfl⟩
        · rw [unionBySize_frame] at h
          cases h
          exact ⟨rfl, rfl⟩
    · cases h
      exact ⟨rfl, rfl⟩

end Update

end Graph

end GraphZeppelin

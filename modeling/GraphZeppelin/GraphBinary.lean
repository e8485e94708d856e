import GraphZeppelin.SupernodeBinary
import GraphZeppelin.SketchLinearity
import GraphZeppelin.Queries

/-!
# The graph file

`Graph::write_binary` flushes the pending updates and writes a file: the
seed in eight bytes, `num_nodes` in four, the failure factor of the
sketches in eight, and the supernode of every node as a `FULL` record of
dense sketches. The constructor `Graph(input_file, config)` reads the
header back, configures the sketches and supernodes from `num_nodes` and
the failure factor, and reads each supernode with
`Supernode(n, seed, binary_in)`, which seeds its sketch `j` with
`seed + j * sketch_width`.

The reader gets back the sketches of the writer exactly when every sketch
was seeded that way, and updates never reseed a sketch: a fresh graph is
`Seeded`, and `update`, the workers and the flush keep it so. A graph
reached by updates is therefore read back with the same seed, node count and
configuration, and every sketch of every node bucket-equal to the one
written, with nothing sampled (`write_binary_reheats`).

The configuration is computed in double precision by
`Supernode::configure`; the reader takes it as the function `configure`
of the node count and the failure factor, the same function that configured
the graph written.
-/

namespace GraphZeppelin

open Bytes

namespace Graph

/-! ## Writing and reading -/

/-- The bytes `write_binary` writes for a file: the header, then each
supernode's dense `FULL` record. -/
def GraphFile.toBytes (cfg : SketchConfig) (f : GraphFile Sketch) : Option (List UInt8) :=
  (f.supernodes.mapM fun s => Supernode.writeBinary cfg s false).map fun records =>
    toBytesLE 8 f.seed.toNat ++ toBytesLE 4 f.numNodes.toNat ++ toBytesLE 8 f.failFactor.toNat ++
      records.flatten

/-- One pass of the loop of the file constructor: the supernode of node `i`
read in the sketch memory of that node. -/
def readSupernode (cfg : SketchConfig) (conf : SupernodeConfig) (n seed : UInt64)
    (mem : ℕ → ℕ → Sketch) (fuel : ℕ) (acc : (ℕ → Supernode Sketch) × InStream) (i : ℕ) :
    Option ((ℕ → Supernode Sketch) × InStream) :=
  (Supernode.ofStream cfg conf n seed acc.2 (mem i) fuel).map fun r =>
    (Function.update acc.1 i r.1, r.2)

/-- **`Graph(input_file, config)`**: the header read over the
indeterminate `seed`, `num_nodes` and failure factor (read as zero), the
configuration `configure` computes from the last two, and the supernode of
each node; the slots no node has keep their memory. The forest starts
untrusted and every node its own root. -/
def ofFile (configure : UInt64 → UInt64 → SketchConfig × SupernodeConfig)
    (config : GraphConfiguration) (binIn : InStream) (mem : ℕ → ℕ → Sketch) (fuel : ℕ) :
    Option (SketchConfig × SupernodeConfig × Graph Sketch) :=
  let seed := binIn.readLE 8 0
  let numNodes := seed.2.readLE 4 0
  let factor := numNodes.2.readLE 8 0
  let c := configure numNodes.1.toUInt64 factor.1.toUInt64
  ((List.range numNodes.1).foldlM
      (readSupernode c.1 c.2 numNodes.1.toUInt64 seed.1.toUInt64 mem fuel)
      (fun i => ⟨0, numNodes.1.toUInt64, seed.1.toUInt64, 0, 0, mem i⟩, factor.2)).map fun r =>
    (c.1, c.2,
      { numNodes := numNodes.1
        seed := seed.1.toUInt64
        config := config
        updateLocked := false
        modified := false
        supernodes := r.1
        parent := fun i => i
        size := fun _ => 1
        dsuValid := false
        spanningForest := fun _ => ∅
        failRound2 := false
        gutters := []
        paused := false
        backupFile := []
        backupOnDisk := config.diskDir.holdsBackup
        exited := false })

/-! ## Seeds -/

section Seeds

variable (cfg : SketchConfig) (xxh : UInt64 → UInt64 → UInt64) (conf : SupernodeConfig)

/-- **Every sketch seeded as the constructor seeds it**: each node has its
`max_sketches` sketches, the sketch `j` with the seed
`seed + j * sketch_width` of the graph. -/
def Seeded (g : Graph Sketch) : Prop :=
  ∀ i < g.numNodes, (g.supernodes i).numSketches = conf.maxSketches ∧
    ∀ j < conf.maxSketches, ((g.supernodes i).sketches j).seed = g.seed + j.toUInt64 * conf.sketchWidth

theorem seeded_init (n : ℕ) (seed : UInt64) (config : GraphConfiguration) :
    Seeded conf (init (Sketch.ops cfg xxh) conf n seed config) :=
  fun _ _ => ⟨rfl, fun _ _ => rfl⟩

variable {conf}

/-- An update only hands its pairs to the guttering system. -/
theorem Seeded.applyUpdates {g : Graph Sketch} (h : Seeded conf g) (stream : List GraphUpdate) :
    Seeded conf (Graph.applyUpdates g stream) := by
  obtain ⟨hn, hs, hsn⟩ := applyUpdates_frame g stream
  intro i hi
  rw [hsn, hs]
  exact h i (hn ▸ hi)

/-- **A worker's batch keeps the seeds**: the delta supernode is added
into the sketches, and a sum keeps the seed of the sketch added to. -/
theorem Seeded.workerBatch {g : Graph Sketch} (h : Seeded conf g) (b : ℕ × List ℕ) :
    Seeded conf (Graph.workerBatch (Sketch.ops cfg xxh) conf g b) := by
  unfold Graph.workerBatch batchUpdate
  split
  · next g' hb =>
    split at hb
    · cases hb
    · cases hb
      intro i hi
      dsimp only at hi ⊢
      obtain ⟨hnum, hseed⟩ := h i hi
      by_cases hib : i = b.1
      · subst hib
        refine ⟨by rw [Function.update_self]; exact hnum, fun j hj => ?_⟩
        rw [Function.update_self]
        show Sketch.seed (if j < (g.supernodes b.1).numSketches then _ else _) = _
        split
        · exact (Sketch.seed_add cfg _ _).trans (hseed j hj)
        · exact hseed j hj
      · rw [Function.update_of_ne hib]
        exact ⟨hnum, hseed⟩
  · exact h

/-- The flush keeps the seeds, whether the workers run or are paused. -/
theorem Seeded.forceFlushPauseWorkers {g : Graph Sketch} (h : Seeded conf g)
    (batches : List (ℕ × List ℕ)) :
    Seeded conf (Graph.forceFlushPauseWorkers (Sketch.ops cfg xxh) conf batches g) := by
  unfold Graph.forceFlushPauseWorkers
  split
  · exact h
  · -- the workers apply the batches one after another
    suffices hrun : ∀ g : Graph Sketch, Seeded conf g →
        Seeded conf (batches.foldl (Graph.workerBatch (Sketch.ops cfg xxh) conf) g) from
      hrun g h
    induction batches with
    | nil => exact fun _ hg => hg
    | cons b bs ih => exact fun g hg => ih _ (hg.workerBatch cfg xxh b)

end Seeds

/-! ## The file read back -/

section Read

variable (cfg : SketchConfig) (xxh : UInt64 → UInt64 → UInt64) (conf : SupernodeConfig)
  (n seed : UInt64) (mem : ℕ → ℕ → Sketch) (fuel : ℕ)

/-- **The records of a run of nodes are read back**, one after another:
each node of the run gets the reload of its supernode up to bucket
equality, with nothing sampled and every sketch mergeable; the nodes before
the run keep their slots, and the stream is left after the last record. The
induction is on the number of nodes, from the first of the run. -/
theorem foldlM_readSupernode (hmax : conf.maxSketches < 2 ^ 32) (sn : ℕ → Supernode Sketch)
    (out : ℕ → List UInt8) (hout : ∀ i, Supernode.writeBinary cfg (sn i) false = some (out i))
    (more : List UInt8) :
    ∀ (k lo : ℕ) (acc : ℕ → Supernode Sketch),
      (∀ i, lo ≤ i → i < lo + k → (sn i).numSketches = conf.maxSketches) →
      ∃ r, (List.range' lo k).foldlM (readSupernode cfg conf n seed mem fuel)
          (acc, ⟨((List.range' lo k).map out).flatten ++ more, false, false⟩)
          = some (r, ⟨more, false, false⟩) ∧
        (∀ i < lo, r i = acc i) ∧
        ∀ i, lo ≤ i → i < lo + k → (r i).sampleIdx = 0 ∧
          (r i).mergedSketches = conf.maxSketches ∧ ∀ j < conf.maxSketches,
            Sketch.BucketEq cfg ((r i).sketches j)
              ((Supernode.reload (Sketch.ops cfg xxh) conf n seed (sn i)).sketches j)
  | 0, lo, acc, _ => ⟨acc, by simp, fun _ _ => rfl, fun i h1 h2 => absurd h2 (by omega)⟩
  | k + 1, lo, acc, hnum => by
    -- the record of the first node, then the rest of the run
    obtain ⟨o, ho, r, hr, h0, -, -, -, hmerged, hsk⟩ := Supernode.ofStream_writeBinary cfg conf xxh
      (sn lo) (hnum lo le_rfl (by omega)) hmax n seed (mem lo)
      (((List.range' (lo + 1) k).map out).flatten ++ more) fuel
    rw [hout lo, Option.some.injEq] at ho
    subst ho
    obtain ⟨r', hr', hbefore, hin⟩ := foldlM_readSupernode hmax sn out hout more k (lo + 1)
      (Function.update acc lo r) (fun i h1 h2 => hnum i (by omega) (by omega))
    refine ⟨r', ?_, fun i hi => ?_, fun i h1 h2 => ?_⟩
    · rw [List.range'_succ, List.foldlM_cons, List.map_cons, List.flatten_cons, List.append_assoc,
        readSupernode, hr]
      exact hr'
    · rw [hbefore i (by omega), Function.update_of_ne (by omega)]
    · by_cases hlo : i = lo
      · -- the first node keeps the supernode just read
        subst hlo
        rw [hbefore i (Nat.lt_succ_self i), Function.update_self]
        exact ⟨h0, hmerged, hsk⟩
      · exact hin i (by omega) (by omega)

/-- The bytes of a file: its header, then the record of each supernode. -/
theorem GraphFile.toBytes_eq (f : GraphFile Sketch) {out : Supernode Sketch → List UInt8}
    (hout : ∀ s, Supernode.writeBinary cfg s false = some (out s)) :
    f.toBytes cfg = some (toBytesLE 8 f.seed.toNat ++ toBytesLE 4 f.numNodes.toNat ++
      toBytesLE 8 f.failFactor.toNat ++ (f.supernodes.map out).flatten) := by
  rw [GraphFile.toBytes, show (fun s => Supernode.writeBinary cfg s false) = fun s => pure (out s)
    from funext hout, List.mapM_pure]
  rfl

/-- **The header is read back**, and the reader configures from it: once
the loop over the nodes reads their records, the graph has the seed and the
node count of the header, the supernodes of the loop, and the
configuration of the node count and the failure factor. -/
theorem ofFile_of_foldlM (configure : UInt64 → UInt64 → SketchConfig × SupernodeConfig)
    (config : GraphConfiguration) (numNodes : UInt32) (factor : UInt64) (rest : List UInt8)
    {r : ℕ → Supernode Sketch} {rest' : InStream}
    (h : (List.range numNodes.toNat).foldlM
        (readSupernode (configure numNodes.toNat.toUInt64 factor).1
          (configure numNodes.toNat.toUInt64 factor).2 numNodes.toNat.toUInt64 seed mem fuel)
        (fun i => ⟨0, numNodes.toNat.toUInt64, seed, 0, 0, mem i⟩, ⟨rest, false, false⟩)
      = some (r, rest')) :
    ∃ g, ofFile configure config ⟨toBytesLE 8 seed.toNat ++ toBytesLE 4 numNodes.toNat ++
        toBytesLE 8 factor.toNat ++ rest, false, false⟩ mem fuel
        = some ((configure numNodes.toNat.toUInt64 factor).1,
          (configure numNodes.toNat.toUInt64 factor).2, g) ∧
      g.seed = seed ∧ g.numNodes = numNodes.toNat ∧ g.supernodes = r := by
  have hseed : seed.toNat.toUInt64 = seed := by rw [Nat.toUInt64_eq, UInt64.ofNat_toNat]
  have hfactor : factor.toNat.toUInt64 = factor := by rw [Nat.toUInt64_eq, UInt64.ofNat_toNat]
  rw [ofFile, List.append_assoc, List.append_assoc,
    InStream.readLE_toBytesLE _ _ (show seed.toNat < 256 ^ 8 from UInt64.toNat_lt _)]
  dsimp only
  rw [InStream.readLE_toBytesLE _ _ (show numNodes.toNat < 256 ^ 4 from UInt32.toNat_lt _)]
  dsimp only
  rw [InStream.readLE_toBytesLE _ _ (show factor.toNat < 256 ^ 8 from UInt64.toNat_lt _)]
  dsimp only
  rw [hseed, hfactor, h]
  exact ⟨_, rfl, rfl, rfl, rfl⟩

end Read

/-- **A graph reached by updates is read back from its file.** A fresh
graph on `n` nodes, configured by `configure n factor`, takes a stream of
updates, and `write_binary` flushes it and writes its file. The file
constructor reads that file back with the same configuration, so with the
same failure factor, and with the same seed and node count; every node's
supernode has nothing sampled, every sketch mergeable, and each sketch
bucket-equal to the one written. -/
theorem write_binary_reheats (configure : UInt64 → UInt64 → SketchConfig × SupernodeConfig)
    (xxh : UInt64 → UInt64 → UInt64) {n : ℕ} (hn : n < 2 ^ 32) (seed : UInt64)
    (config : GraphConfiguration) {factor : UInt64}
    (hmax : (configure n.toUInt64 factor).2.maxSketches < 2 ^ 32)
    (stream : List GraphUpdate) (batches : List (ℕ × List ℕ)) (mem : ℕ → ℕ → Sketch) (fuel : ℕ)
    (more : List UInt8) :
    let c := configure n.toUInt64 factor
    let w := writeBinary (Sketch.ops c.1 xxh) c.2 batches factor
      (applyUpdates (init (Sketch.ops c.1 xxh) c.2 n seed config) stream)
    ∃ bytes, w.2.toBytes c.1 = some bytes ∧
      ∃ g, ofFile configure config ⟨bytes ++ more, false, false⟩ mem fuel = some (c.1, c.2, g) ∧
        g.seed = w.1.seed ∧ g.numNodes = w.1.numNodes ∧
        ∀ i < g.numNodes, (g.supernodes i).sampleIdx = 0 ∧
          (g.supernodes i).mergedSketches = c.2.maxSketches ∧
          ∀ j < c.2.maxSketches, Sketch.BucketEq c.1 ((g.supernodes i).sketches j)
            ((w.1.supernodes i).sketches j) := by
  intro c w
  -- the graph written: seeded as the constructor seeds it, on `n` nodes, with `seed`
  have hseeded : Seeded c.2 w.1 :=
    ((seeded_init c.1 xxh c.2 n seed config).applyUpdates stream).forceFlushPauseWorkers c.1 xxh
      batches
  obtain ⟨hn1, hs1, -⟩ := applyUpdates_frame (init (Sketch.ops c.1 xxh) c.2 n seed config) stream
  have hwn : w.1.numNodes = n := (numNodes_forceFlushPauseWorkers _ _ _ _).trans hn1
  have hws : w.1.seed = seed := (seed_forceFlushPauseWorkers _ _ _ _).trans hs1
  have hnodes : w.2.numNodes.toNat = n := by
    rw [show w.2.numNodes = w.1.numNodes.toUInt32 from rfl, hwn, Nat.toUInt32_eq,
      UInt32.toNat_ofNat', Nat.mod_eq_of_lt hn]
  -- each supernode is written as its dense `FULL` record
  set out : Supernode Sketch → List UInt8 := fun s => toBytesLE 4 SerialType.full.toNat ++
    (List.range' 0 s.numSketches).flatMap fun j => Sketch.writeBinary c.1 (s.sketches j)
  refine ⟨_, GraphFile.toBytes_eq c.1 w.2 (fun s => Supernode.writeBinary_dense c.1 s), ?_⟩
  -- the records are read back node by node
  obtain ⟨r, hr, -, hin⟩ := foldlM_readSupernode c.1 xxh c.2 n.toUInt64 seed mem fuel hmax
    w.1.supernodes (out ∘ w.1.supernodes) (fun i => Supernode.writeBinary_dense c.1 _) more n 0
    (fun i => ⟨0, n.toUInt64, seed, 0, 0, mem i⟩) (fun i _ hi => (hseeded i (by omega)).1)
  rw [← List.range_eq_range', ← List.map_map] at hr
  have hsn : w.2.supernodes = (List.range n).map w.1.supernodes := by
    rw [show w.2.supernodes = (List.range w.1.numNodes).map w.1.supernodes from rfl, hwn]
  have hseed : w.2.seed = seed := hws
  -- the header, and the reader's configuration from it
  obtain ⟨g, hg, hgs, hgn, hgsn⟩ := ofFile_of_foldlM w.2.seed mem fuel configure config
    w.2.numNodes factor _ (by rw [hnodes, hseed]; exact hr)
  refine ⟨g, ?_, hgs.trans hseed |>.trans hws.symm, hgn.trans (hnodes.trans hwn.symm),
    fun i hi => ?_⟩
  · rw [hsn, List.append_assoc _ _ more, hnodes, show w.2.failFactor = factor from rfl]
    rw [hnodes] at hg
    exact hg
  rw [hgn, hnodes] at hi
  obtain ⟨h0, hmerged, hsk⟩ := hin i (Nat.zero_le i) (by omega)
  rw [hgsn]
  refine ⟨h0, hmerged, fun j hj => ⟨?_, (hsk j hj).2⟩⟩
  -- the reload has the seed the constructor gave the sketch written
  rw [(hsk j hj).1, ((hseeded i (by omega)).2 j hj), hws]
  rfl

/-- Three nodes with one edge between them, flushed in two batches, under
the configuration `Graph(3)` sets up with the default failure factor 4:
four buckets a sketch and two sketches a supernode. -/
theorem write_binary_reheats_edge :
    3 < 2 ^ 32 ∧ (2 : ℕ) < 2 ^ 32 ∧
    ∃ bytes, (writeBinary (Sketch.ops ⟨4, 9, 3, 1⟩ fun _ _ => 0) ⟨2, 3⟩ [(0, [1]), (1, [0])] 4
        (applyUpdates (init (Sketch.ops ⟨4, 9, 3, 1⟩ fun _ _ => 0) ⟨2, 3⟩ 3 7 {})
          [⟨⟨0, 1⟩, .insert⟩])).2.toBytes ⟨4, 9, 3, 1⟩ = some bytes ∧
      ∃ g, ofFile (fun _ _ => (⟨4, 9, 3, 1⟩, ⟨2, 3⟩)) {} ⟨bytes ++ [], false, false⟩
          (fun _ _ => Sketch.makeSketch 0) 0 = some (⟨4, 9, 3, 1⟩, ⟨2, 3⟩, g) ∧
        g.seed = (writeBinary (Sketch.ops ⟨4, 9, 3, 1⟩ fun _ _ => 0) ⟨2, 3⟩ [(0, [1]), (1, [0])]
          4 (applyUpdates (init (Sketch.ops ⟨4, 9, 3, 1⟩ fun _ _ => 0) ⟨2, 3⟩ 3 7 {})
            [⟨⟨0, 1⟩, .insert⟩])).1.seed ∧
        g.numNodes = (writeBinary (Sketch.ops ⟨4, 9, 3, 1⟩ fun _ _ => 0) ⟨2, 3⟩
          [(0, [1]), (1, [0])] 4 (applyUpdates (init (Sketch.ops ⟨4, 9, 3, 1⟩ fun _ _ => 0)
            ⟨2, 3⟩ 3 7 {}) [⟨⟨0, 1⟩, .insert⟩])).1.numNodes ∧
        ∀ i < g.numNodes, (g.supernodes i).sampleIdx = 0 ∧ (g.supernodes i).mergedSketches = 2 ∧
          ∀ j < 2, Sketch.BucketEq ⟨4, 9, 3, 1⟩ ((g.supernodes i).sketches j)
            (((writeBinary (Sketch.ops ⟨4, 9, 3, 1⟩ fun _ _ => 0) ⟨2, 3⟩ [(0, [1]), (1, [0])] 4
              (applyUpdates (init (Sketch.ops ⟨4, 9, 3, 1⟩ fun _ _ => 0) ⟨2, 3⟩ 3 7 {})
                [⟨⟨0, 1⟩, .insert⟩])).1.supernodes i).sketches j) :=
  ⟨by decide, by decide, write_binary_reheats (fun _ _ => (⟨4, 9, 3, 1⟩, ⟨2, 3⟩)) (fun _ _ => 0)
    (by decide) 7 {} (by decide) [⟨⟨0, 1⟩, .insert⟩] [(0, [1]), (1, [0])]
    (fun _ _ => Sketch.makeSketch 0) 0 []⟩

/-! ## A file the reader trusts -/

/-- **A reheated graph can outrun the bound of Boruvka**: the file
constructor takes the range of a `PARTIAL` record as it stands, so the
supernode of node 0 of this Graph(2) file, configured as
`Supernode::configure(2, 4)` configures it (one bucket, one sketch slot of
stride three), says four sketches are mergeable. Every sketch of its
record has a non-zero bucket with a wrong checksum, so each round fails on
node 0 and moves it one sketch on, and the loop throws only in its fifth
round, past `max 1 (num_nodes * (max_sketches + 1)) = 4`. -/
theorem boruvkaLoop_reheated_merged_gt_max :
    ∃ r ∈ ofFile (fun _ _ => (⟨4, 4, 3, 0⟩, ⟨1, 3⟩)) {}
        ⟨toBytesLE 8 0 ++ toBytesLE 4 2 ++ toBytesLE 8 4 ++
          (toBytesLE 4 SerialType.part.toNat ++ toBytesLE 4 0 ++ toBytesLE 4 4 ++
            Sketch.writeBinary ⟨4, 4, 3, 0⟩ ⟨0, fun _ => 5, fun _ => 6, false⟩ ++
            Sketch.writeBinary ⟨4, 4, 3, 0⟩ ⟨0, fun _ => 5, fun _ => 6, false⟩ ++
            Sketch.writeBinary ⟨4, 4, 3, 0⟩ ⟨0, fun _ => 5, fun _ => 6, false⟩ ++
            Sketch.writeBinary ⟨4, 4, 3, 0⟩ ⟨0, fun _ => 5, fun _ => 6, false⟩) ++
          (toBytesLE 4 SerialType.full.toNat ++
            Sketch.writeBinary ⟨4, 4, 3, 0⟩ (Sketch.makeSketch 0)), false, false⟩
        (fun _ _ => Sketch.makeSketch 0) 1,
      r.2.2.numNodes = 2 ∧ (r.2.2.supernodes 0).mergedSketches = 4 ∧
      boruvkaLoop (Sketch.ops ⟨4, 4, 3, 0⟩ fun _ _ => 0) false (max 1 (r.2.2.numNodes * (1 + 1)))
        (boruvkaStart r.2.2) = none ∧
      (boruvkaLoop (Sketch.ops ⟨4, 4, 3, 0⟩ fun _ _ => 0) false 5 (boruvkaStart r.2.2)).map
        (·.2) = some (some .outOfQueries) := by
  decide +kernel

end Graph

end GraphZeppelin

import GraphZeppelin.Session

/-!
# The graph is parametric in its sketches

Every function of the graph model calls its sketches only through the
operations of `SketchOps`. So a map `f` of sketches that takes each
operation of one implementation to the same operation of another takes
every run of the graph on the first to the run on the second: the same
outcomes, and the same graph with every sketch mapped (`SketchSim.run_map`).

The map need only commute on the sketches the runs reach. Which those are
is a property `K i` of the sketch at position `i` of a supernode, which the
operations keep (`SketchSim`); every supernode, copy and backup of a graph
then has it (`Graph.Within`). Position `i` of a supernode of a graph with
seed `seed` is made and read back with the seed `seed + i * sketch_width`,
so `K i` may fix the seed of the sketch, as the sum of two sketches needs.
A flush adds to the sketches the identifiers of the pairs of its batches,
and those must satisfy `X` (`BatchesIn`).
-/

namespace GraphZeppelin

open ParentForest

variable {σ τ : Type}

/-! ## Mapping the sketches of a state -/

/-- The supernode with every sketch mapped by `f`. -/
@[simps]
def Supernode.map (f : σ → τ) (s : Supernode σ) : Supernode τ where
  sampleIdx := s.sampleIdx
  n := s.n
  seed := s.seed
  numSketches := s.numSketches
  mergedSketches := s.mergedSketches
  sketches i := f (s.sketches i)

attribute [ext] Supernode

/-- The graph with every sketch of its supernodes and of its backup file
mapped by `f`. -/
@[simps]
def Graph.map (f : σ → τ) (g : Graph σ) : Graph τ where
  numNodes := g.numNodes
  seed := g.seed
  config := g.config
  updateLocked := g.updateLocked
  modified := g.modified
  supernodes u := (g.supernodes u).map f
  parent := g.parent
  size := g.size
  dsuValid := g.dsuValid
  spanningForest := g.spanningForest
  failRound2 := g.failRound2
  gutters := g.gutters
  paused := g.paused
  backupFile := g.backupFile.map (Supernode.map f)
  backupOnDisk := g.backupOnDisk
  exited := g.exited

/-- The file with every sketch mapped by `f`. -/
def Graph.GraphFile.map (f : σ → τ) (file : Graph.GraphFile σ) : Graph.GraphFile τ where
  seed := file.seed
  numNodes := file.numNodes
  failFactor := file.failFactor
  supernodes := file.supernodes.map (Supernode.map f)

/-- The state of a Boruvka run with every sketch of the graph and of the
copies mapped by `f`. -/
@[simps]
def BoruvkaState.map (f : σ → τ) (st : BoruvkaState σ) : BoruvkaState τ where
  graph := st.graph.map f
  reps := st.reps
  query := st.query
  copySupernodes u := (st.copySupernodes u).map (Supernode.map f)
  backedUp := st.backedUp
  firstRound := st.firstRound

/-! ## Simulations of the sketch operations -/

/-- **`f` simulates the sketch operations `ops` by `ops'`** on the sketches
with `K`, in the supernodes of a graph with seed `seed`: each operation, on
the image of sketches with `K` at one position, is the image of the
operation, and keeps `K` there. Position `i` is made and read back with the
seed `seed + i * sketch_width`; an update adds an identifier with `X`. -/
structure SketchSim (ops : SketchOps σ) (ops' : SketchOps τ) (f : σ → τ)
    (conf : SupernodeConfig) (seed : UInt64) (K : ℕ → σ → Prop) (X : UInt64 → Prop) : Prop where
  make : ∀ i : ℕ, ops'.make (seed + i.toUInt64 * conf.sketchWidth)
    = f (ops.make (seed + i.toUInt64 * conf.sketchWidth))
  make_K : ∀ i : ℕ, K i (ops.make (seed + i.toUInt64 * conf.sketchWidth))
  update : ∀ i a x, K i a → X x → ops'.update (f a) x = f (ops.update a x)
  update_K : ∀ i a x, K i a → X x → K i (ops.update a x)
  query : ∀ i a, K i a → ops'.query (f a) = (ops.query a).map fun r => (f r.1, r.2)
  query_K : ∀ i a r, K i a → ops.query a = .ok r → K i r.1
  add : ∀ i a b, K i a → K i b → ops'.add (f a) (f b) = f (ops.add a b)
  add_K : ∀ i a b, K i a → K i b → K i (ops.add a b)
  copy : ∀ i a, K i a → ops'.copy (f a) = f (ops.copy a)
  copy_K : ∀ i a, K i a → K i (ops.copy a)
  resetQueried : ∀ i a, K i a → ops'.resetQueried (f a) = f (ops.resetQueried a)
  resetQueried_K : ∀ i a, K i a → K i (ops.resetQueried a)
  reload : ∀ (i : ℕ) a, K i a → ops'.reload (seed + i.toUInt64 * conf.sketchWidth) (f a)
    = f (ops.reload (seed + i.toUInt64 * conf.sketchWidth) a)
  reload_K : ∀ (i : ℕ) a, K i a → K i (ops.reload (seed + i.toUInt64 * conf.sketchWidth) a)

/-- A supernode of the graph with seed `seed` whose every sketch has `K`. -/
structure Supernode.Within (K : ℕ → σ → Prop) (seed : UInt64) (s : Supernode σ) : Prop where
  seed_eq : s.seed = seed
  sketches : ∀ i, K i (s.sketches i)

/-- A graph with seed `seed` whose supernodes and backups are all within
`K`. -/
structure Graph.Within (K : ℕ → σ → Prop) (seed : UInt64) (g : Graph σ) : Prop where
  seed_eq : g.seed = seed
  supernodes : ∀ u, (g.supernodes u).Within K seed
  backupFile : ∀ s ∈ g.backupFile, s.Within K seed

/-- A state of a Boruvka run whose graph and copies are all within `K`. -/
structure BoruvkaState.Within (K : ℕ → σ → Prop) (seed : UInt64) (st : BoruvkaState σ) :
    Prop where
  graph : st.graph.Within K seed
  copies : ∀ u c, st.copySupernodes u = some c → c.Within K seed

/-- Every pair of the batches has an identifier with `X`. -/
def BatchesIn (X : UInt64 → Prop) (batches : List (ℕ × List ℕ)) : Prop :=
  ∀ b ∈ batches, ∀ e ∈ b.2, X (pairId (b.1, e))

instance (X : UInt64 → Prop) [DecidablePred X] (batches : List (ℕ × List ℕ)) :
    Decidable (BatchesIn X batches) :=
  inferInstanceAs (Decidable (∀ b ∈ batches, ∀ e ∈ b.2, X (pairId (b.1, e))))

/-- Replacing the supernodes by supernodes within `K` keeps a graph within
`K`. -/
theorem Graph.Within.with_supernodes {K : ℕ → σ → Prop} {seed : UInt64} {g : Graph σ}
    (h : g.Within K seed) {F : ℕ → Supernode σ} (hF : ∀ u, (F u).Within K seed) :
    ({ g with supernodes := F } : Graph σ).Within K seed :=
  ⟨h.seed_eq, hF, h.backupFile⟩

/-- The backup file holds supernodes of the graph. -/
theorem Graph.Within.backupToDisk {K : ℕ → σ → Prop} {seed : UInt64} {g : Graph σ}
    (h : g.Within K seed) (ids : List ℕ) : (Graph.backupToDisk ids g).Within K seed := by
  rw [Graph.backupToDisk_eq]
  refine ⟨h.seed_eq, h.supernodes, fun s hs => ?_⟩
  dsimp only at hs
  split at hs
  · obtain ⟨u, -, rfl⟩ := List.mem_map.mp hs
    exact h.supernodes u
  · exact h.backupFile s hs

/-- Reading the forest changes only the forest. -/
theorem Graph.Within.sameRoot {K : ℕ → σ → Prop} {seed : UInt64} {g : Graph σ}
    (h : g.Within K seed) (a b : ℕ) : (g.sameRoot a b).1.Within K seed := by
  rw [Graph.sameRoot_frame]
  exact ⟨h.seed_eq, h.supernodes, h.backupFile⟩

theorem Graph.Within.resetDsu {K : ℕ → σ → Prop} {seed : UInt64} {g : Graph σ}
    (h : g.Within K seed) : (Graph.resetDsu g).Within K seed :=
  ⟨h.seed_eq, h.supernodes, h.backupFile⟩

/-! ## The functions that never touch a sketch -/

namespace Graph

section Oblivious

variable (f : σ → τ)

theorem getParent_map (g : Graph σ) (x : ℕ) :
    (g.map f).getParent x = ((g.getParent x).1.map f, (g.getParent x).2) := rfl

theorem sameRoot_map (g : Graph σ) (a b : ℕ) :
    (g.map f).sameRoot a b = ((g.sameRoot a b).1.map f, (g.sameRoot a b).2) := rfl

theorem unionBySize_map (g : Graph σ) (a b : ℕ) :
    (g.map f).unionBySize a b = ((g.unionBySize a b).1.map f, (g.unionBySize a b).2) := by
  unfold unionBySize
  by_cases hlt : g.size a < g.size b
  · rw [if_pos (show (g.map f).size a < (g.map f).size b from hlt), if_pos hlt]
    rfl
  · rw [if_neg (show ¬(g.map f).size a < (g.map f).size b from hlt), if_neg hlt]
    rfl

theorem eagerDsu_map (g : Graph σ) (src dst : ℕ) :
    eagerDsu (g.map f) src dst = (eagerDsu g src dst).map f := by
  unfold eagerDsu
  by_cases hin : dst ∈ g.spanningForest src
  · rw [if_pos (show dst ∈ (g.map f).spanningForest src from hin), if_pos hin]
    rfl
  · rw [if_neg (show dst ∉ (g.map f).spanningForest src from hin), if_neg hin]
    dsimp only
    rw [getParent_map, getParent_map]
    -- the endpoints' roots are those of the unmapped graph
    by_cases heq : (g.getParent src).2 = ((g.getParent src).1.getParent dst).2
    · rw [if_pos heq, if_pos heq]
    · rw [if_neg heq, if_neg heq, unionBySize_map]
      rfl

theorem update_map (g : Graph σ) (upd : GraphUpdate) :
    (g.map f).update upd = (g.update upd).map (Graph.map f) := by
  rw [update_eq_eagerDsu, update_eq_eagerDsu]
  by_cases hl : g.updateLocked = true
  · rw [if_pos (show (g.map f).updateLocked = true from hl), if_pos hl]
    rfl
  · rw [if_neg (show ¬(g.map f).updateLocked = true from hl), if_neg hl]
    dsimp only
    by_cases hv : g.dsuValid = true
    · rw [if_pos (show (g.map f).dsuValid = true from hv), if_pos hv]
      exact congrArg Except.ok (eagerDsu_map f { g with gutters := g.gutters ++
        [(upd.edge.src.toNat, upd.edge.dst.toNat), (upd.edge.dst.toNat, upd.edge.src.toNat)] } _ _)
    · rw [if_neg (show ¬(g.map f).dsuValid = true from hv), if_neg hv]
      rfl

theorem toMergeStep_map (query : ℕ → Edge × SampleSketchRet)
    (acc : Graph σ × (ℕ → List ℕ) × List ℕ) (i : ℕ) :
    toMergeStep query (acc.1.map f, acc.2) i
      = ((toMergeStep query acc i).1.map f, (toMergeStep query acc i).2) := by
  unfold toMergeStep
  dsimp only
  rcases hq : (query i).2 with _ | _ | _
  · -- a good sample: a union unless both ends have one root
    dsimp only
    rw [getParent_map, getParent_map]
    by_cases heq : (acc.1.getParent (query i).1.src.toNat).2
        = ((acc.1.getParent (query i).1.src.toNat).1.getParent (query i).1.dst.toNat).2
    · rw [if_pos heq, if_pos heq]
    · rw [if_neg heq, if_neg heq, unionBySize_map]
      rfl
  · rfl
  · rfl

theorem supernodesToMerge_map (query : ℕ → Edge × SampleSketchRet) (reps : List ℕ)
    (g : Graph σ) :
    supernodesToMerge query reps (g.map f)
      = ((supernodesToMerge query reps g).1.map f, (supernodesToMerge query reps g).2) := by
  have hfold : reps.foldl (toMergeStep query) (g.map f, fun _ => [], [])
      = ((reps.foldl (toMergeStep query) (g, fun _ => [], [])).1.map f,
        (reps.foldl (toMergeStep query) (g, fun _ => [], [])).2) :=
    @List.foldl_hom _ _ _ (fun acc => (acc.1.map f, acc.2)) _ _ reps (g, fun _ => [], [])
      fun acc i => toMergeStep_map f query acc i
  simp only [supernodesToMerge, hfold]
  rfl

theorem ccFromDsu_map (g : Graph σ) :
    (g.map f).ccFromDsu = ((ccFromDsu g).1.map f, (ccFromDsu g).2) := by
  have hfold : (List.range g.numNodes).foldl ccStep (g.map f, ∅, fun _ => ∅)
      = ((((List.range g.numNodes).foldl ccStep (g, ∅, fun _ => ∅))).1.map f,
        ((List.range g.numNodes).foldl ccStep (g, ∅, fun _ => ∅)).2) :=
    @List.foldl_hom _ _ _ (fun acc : Graph σ × Finset ℕ × (ℕ → Finset ℕ) => (acc.1.map f, acc.2))
      _ _ (List.range g.numNodes) (g, ∅, fun _ => ∅) fun _ _ => rfl
  simp only [ccFromDsu]
  rw [show (g.map f).numNodes = g.numNodes from rfl, hfold]

theorem resetDsu_map (g : Graph σ) : resetDsu (g.map f) = (resetDsu g).map f := rfl

theorem backupToDisk_map (ids : List ℕ) (g : Graph σ) :
    backupToDisk ids (g.map f) = (backupToDisk ids g).map f := by
  unfold backupToDisk
  by_cases hw : g.config.diskDir.writable = true
  · rw [if_pos (show (g.map f).config.diskDir.writable = true from hw), if_pos hw]
    simp only [Graph.map, List.map_map]
    rfl
  · rw [if_neg (show ¬(g.map f).config.diskDir.writable = true from hw), if_neg hw]
    rfl

theorem boruvkaStart_map (g : Graph σ) : boruvkaStart (g.map f) = (boruvkaStart g).map f := rfl

/-- Replacing the supernodes and mapping commute, given the new supernodes
pointwise. -/
theorem with_supernodes_map {g : Graph σ} {F : ℕ → Supernode σ} {F' : ℕ → Supernode τ}
    (h : ∀ u, F' u = (F u).map f) :
    ({ g.map f with supernodes := F' } : Graph τ) = ({ g with supernodes := F } : Graph σ).map f := by
  rw [show F' = fun u => (F u).map f from funext h]
  rfl

end Oblivious

end Graph

/-! ## Supernodes -/

namespace SketchSim

variable {ops : SketchOps σ} {ops' : SketchOps τ} {f : σ → τ} {conf : SupernodeConfig}
  {seed : UInt64} {K : ℕ → σ → Prop} {X : UInt64 → Prop}
  (hsim : SketchSim ops ops' f conf seed K X)
include hsim

theorem makeSupernode_map (n : UInt64) :
    Supernode.makeSupernode ops' conf n seed = (Supernode.makeSupernode ops conf n seed).map f :=
  Supernode.ext rfl rfl rfl rfl rfl (funext hsim.make)

theorem within_makeSupernode (n : UInt64) :
    (Supernode.makeSupernode ops conf n seed).Within K seed :=
  ⟨rfl, hsim.make_K⟩

/-- `sample` queries the next sketch, and the image of its query is the
query of its image. -/
theorem sample_map {s : Supernode σ} (hs : s.Within K seed) :
    Supernode.sample ops' (s.map f) = ((Supernode.sample ops s).1.map f, (Supernode.sample ops s).2) ∧
      (Supernode.sample ops s).1.Within K seed := by
  unfold Supernode.sample
  by_cases hout : s.outOfQueries
  · rw [if_pos (show (s.map f).outOfQueries from hout), if_pos hout]
    exact ⟨rfl, hs⟩
  · rw [if_neg (show ¬(s.map f).outOfQueries from hout), if_neg hout]
    dsimp only
    rw [show (s.map f).sketches (s.map f).sampleIdx = f (s.sketches s.sampleIdx) from rfl,
      hsim.query _ _ (hs.sketches s.sampleIdx)]
    cases hq : ops.query (s.sketches s.sampleIdx) with
    | error e => exact ⟨rfl, hs.seed_eq, hs.sketches⟩
    | ok r =>
      dsimp only [Except.map]
      refine ⟨Prod.ext (Supernode.ext rfl rfl rfl rfl rfl ?_) rfl, hs.seed_eq, fun i => ?_⟩
      · -- the queried sketch is replaced on both sides
        exact (Function.comp_update f s.sketches s.sampleIdx r.1).symm
      · show K i (Function.update s.sketches s.sampleIdx r.1 i)
        rw [Function.update_apply]
        split
        · rename_i hi
          subst hi
          exact hsim.query_K _ _ r (hs.sketches _) hq
        · exact hs.sketches i

theorem merge_map {s t : Supernode σ} (hs : s.Within K seed) (ht : t.Within K seed) :
    Supernode.merge ops' (s.map f) (t.map f) = (Supernode.merge ops s t).map f ∧
      (Supernode.merge ops s t).Within K seed := by
  refine ⟨Supernode.ext rfl rfl rfl rfl rfl (funext fun i => ?_), hs.seed_eq, fun i => ?_⟩
  · simp only [Supernode.merge, Supernode.map_sketches]
    rw [apply_ite f]
    exact ite_congr rfl (fun _ => hsim.add i _ _ (hs.sketches i) (ht.sketches i)) fun _ => rfl
  · rw [Supernode.merge_sketches]
    split
    · exact hsim.add_K i _ _ (hs.sketches i) (ht.sketches i)
    · exact hs.sketches i

theorem applyDeltaUpdate_map {s d : Supernode σ} (hs : s.Within K seed) (hd : d.Within K seed) :
    Supernode.applyDeltaUpdate ops' (s.map f) (d.map f) = (Supernode.applyDeltaUpdate ops s d).map f ∧
      (Supernode.applyDeltaUpdate ops s d).Within K seed := by
  refine ⟨Supernode.ext rfl rfl rfl rfl rfl (funext fun i => ?_), hs.seed_eq, fun i => ?_⟩
  · simp only [Supernode.applyDeltaUpdate, Supernode.map_sketches]
    rw [apply_ite f]
    exact ite_congr rfl (fun _ => hsim.add i _ _ (hs.sketches i) (hd.sketches i)) fun _ => rfl
  · simp only [Supernode.applyDeltaUpdate]
    split
    · exact hsim.add_K i _ _ (hs.sketches i) (hd.sketches i)
    · exact hs.sketches i

/-- The delta supernode of a batch: each sketch is made and takes the
batch's updates, one after another. -/
theorem deltaSupernode_map (n : UInt64) {updates : List UInt64} (hX : ∀ x ∈ updates, X x) :
    Supernode.deltaSupernode ops' conf n seed updates
        = (Supernode.deltaSupernode ops conf n seed updates).map f ∧
      (Supernode.deltaSupernode ops conf n seed updates).Within K seed := by
  set d := Supernode.makeSupernode ops conf n seed
  have hd : d.Within K seed := hsim.within_makeSupernode n
  -- the updates of one sketch, with `K` at its position as the invariant
  have hfold : ∀ i, updates.foldl ops'.update (f (d.sketches i))
        = f (updates.foldl ops.update (d.sketches i)) ∧
      K i (updates.foldl ops.update (d.sketches i)) := fun i =>
    Loop.foldl_map_of_invariant (K i) f ops.update updates
      (fun x hx a ha => ⟨hsim.update i a x ha (hX x hx), hsim.update_K i a x ha (hX x hx)⟩) _
      (hd.sketches i)
  refine ⟨Supernode.ext rfl rfl rfl rfl rfl (funext fun i => ?_), rfl, fun i => ?_⟩
  · simp only [Supernode.deltaSupernode, hsim.makeSupernode_map n, Supernode.map_numSketches,
      Supernode.map_sketches]
    rw [apply_ite f]
    exact ite_congr rfl (fun _ => (hfold i).1) fun _ => rfl
  · simp only [Supernode.deltaSupernode]
    split
    · exact (hfold i).2
    · exact hd.sketches i

theorem resetQueryState_map {s : Supernode σ} (hs : s.Within K seed) :
    Supernode.resetQueryState ops' (s.map f) = (Supernode.resetQueryState ops s).map f ∧
      (Supernode.resetQueryState ops s).Within K seed := by
  refine ⟨Supernode.ext rfl rfl rfl rfl rfl (funext fun i => ?_), hs.seed_eq, fun i => ?_⟩
  · simp only [Supernode.resetQueryState, Supernode.map_sketches]
    rw [apply_ite f]
    exact ite_congr rfl (fun _ => hsim.resetQueried i _ (hs.sketches i)) fun _ => rfl
  · simp only [Supernode.resetQueryState]
    split
    · exact hsim.resetQueried_K i _ (hs.sketches i)
    · exact hs.sketches i

theorem copy_map {s : Supernode σ} (hs : s.Within K seed) :
    Supernode.copy ops' (s.map f) = (Supernode.copy ops s).map f ∧
      (Supernode.copy ops s).Within K seed := by
  refine ⟨Supernode.ext rfl rfl rfl rfl rfl (funext fun i => ?_), hs.seed_eq, fun i => ?_⟩
  · simp only [Supernode.copy, Supernode.map_sketches]
    rw [apply_ite f]
    exact ite_congr rfl (fun _ => hsim.copy i _ (hs.sketches i)) fun _ => rfl
  · simp only [Supernode.copy]
    split
    · exact hsim.copy_K i _ (hs.sketches i)
    · exact hs.sketches i

/-- Reading back a backup reseeds each sketch with the seed of its
position, which a sketch within `K` already has. -/
theorem reload_map (n : UInt64) {w : Supernode σ} (hw : w.Within K seed) :
    Supernode.reload ops' conf n seed (w.map f) = (Supernode.reload ops conf n seed w).map f ∧
      (Supernode.reload ops conf n seed w).Within K seed :=
  ⟨Supernode.ext rfl rfl rfl rfl rfl (funext fun i => hsim.reload i _ (hw.sketches i)),
    rfl, fun i => hsim.reload_K i _ (hw.sketches i)⟩


/-! ## Ingestion -/

/-- A worker's batch: the delta supernode of the batch, added into the
supernode of its node. -/
theorem workerBatch_map {g : Graph σ} (hg : g.Within K seed) {b : ℕ × List ℕ}
    (hb : ∀ e ∈ b.2, X (pairId (b.1, e))) :
    Graph.workerBatch ops' conf (g.map f) b = (Graph.workerBatch ops conf g b).map f ∧
      (Graph.workerBatch ops conf g b).Within K seed := by
  by_cases hl : g.updateLocked = true
  · -- `batch_update` throws, and the worker keeps its graph
    have h1 : Graph.workerBatch ops conf g b = g := by
      simp only [Graph.workerBatch, Graph.batchUpdate, hl, if_true]
    have h2 : Graph.workerBatch ops' conf (g.map f) b = g.map f := by
      simp only [Graph.workerBatch, Graph.batchUpdate, Graph.map_updateLocked, hl, if_true]
    rw [h1, h2]
    exact ⟨rfl, hg⟩
  · have hl' : g.updateLocked = false := Bool.eq_false_iff.mpr hl
    have hl'' : (g.map f).updateLocked = false := hl'
    have hs := hg.supernodes b.1
    have hX : ∀ x ∈ b.2.map fun e => pairId (b.1, e), X x := by
      intro x hx
      obtain ⟨e, he, rfl⟩ := List.mem_map.mp hx
      exact hb e he
    obtain ⟨hdelta, hdw⟩ := hsim.deltaSupernode_map (g.supernodes b.1).n hX
    obtain ⟨happ, haw⟩ := hsim.applyDeltaUpdate_map hs hdw
    have hsup : ∀ u, (Graph.workerBatch ops conf g b).supernodes u = if u = b.1 then
        (g.supernodes u).applyDeltaUpdate ops (Supernode.deltaSupernode ops conf
          (g.supernodes b.1).n seed (b.2.map fun e => pairId (b.1, e))) else g.supernodes u := by
      intro u
      rw [Graph.supernodes_workerBatch ops conf hl' b u, Graph.generateDeltaNode_eq]
      split
      · rename_i hu
        subst hu
        rw [hs.seed_eq]
      · rfl
    refine ⟨?_, ?_⟩
    · rw [Graph.workerBatch_frame ops' conf (g.map f) b, Graph.workerBatch_frame ops conf g b]
      refine Graph.with_supernodes_map f fun u => ?_
      rw [Graph.supernodes_workerBatch ops' conf hl'' b u, hsup u, Graph.generateDeltaNode_eq,
        apply_ite (Supernode.map f)]
      refine ite_congr rfl (fun hu => ?_) fun _ => rfl
      subst hu
      rw [Graph.map_supernodes, Supernode.map_n, Supernode.map_seed, hs.seed_eq, hdelta]
      exact happ
    · rw [Graph.workerBatch_frame ops conf g b]
      refine hg.with_supernodes fun u => ?_
      rw [hsup u]
      split
      · rename_i hu
        subst hu
        exact haw
      · exact hg.supernodes u

/-- **The flush**: the workers apply the batches one after another, with
every supernode within `K` as the invariant of the loop. -/
theorem forceFlushPauseWorkers_map {batches : List (ℕ × List ℕ)} (hX : BatchesIn X batches)
    {g : Graph σ} (hg : g.Within K seed) :
    Graph.forceFlushPauseWorkers ops' conf batches (g.map f)
        = (Graph.forceFlushPauseWorkers ops conf batches g).map f ∧
      (Graph.forceFlushPauseWorkers ops conf batches g).Within K seed := by
  have hfold := Loop.foldl_map_of_invariant (Graph.Within K seed) (Graph.map f)
    (Graph.workerBatch ops conf) batches (fun b hb g hg => hsim.workerBatch_map hg (hX b hb)) g hg
  unfold Graph.forceFlushPauseWorkers
  by_cases hp : g.paused = true
  · rw [if_pos (show (g.map f).paused = true from hp), if_pos hp]
    exact ⟨rfl, hg⟩
  · rw [if_neg (show ¬(g.map f).paused = true from hp), if_neg hp, hfold.1]
    exact ⟨rfl, hfold.2.seed_eq, hfold.2.supernodes, hfold.2.backupFile⟩

/-! ## Boruvka -/

theorem sampleSupernodes_map (query : ℕ → Edge × SampleSketchRet) (reps : List ℕ)
    {g : Graph σ} (hg : g.Within K seed) :
    Graph.sampleSupernodes ops' query reps (g.map f)
        = ((Graph.sampleSupernodes ops query reps g).1.map f,
          (Graph.sampleSupernodes ops query reps g).2) ∧
      (Graph.sampleSupernodes ops query reps g).1.Within K seed := by
  have hs : ∀ i, Supernode.sample ops' ((g.map f).supernodes i)
      = ((Supernode.sample ops (g.supernodes i)).1.map f, (Supernode.sample ops (g.supernodes i)).2) :=
    fun i => (hsim.sample_map (hg.supernodes i)).1
  refine ⟨?_, ?_⟩
  · simp only [Graph.sampleSupernodes, hs]
    exact Prod.ext (Graph.with_supernodes_map f fun i => (apply_ite _ _ _ _).symm) rfl
  · rw [Graph.sampleSupernodes_fst]
    refine hg.with_supernodes fun i => ?_
    split
    · exact (hsim.sample_map (hg.supernodes i)).2
    · exact hg.supernodes i

/-- The merges of a round, and the copies of the first round of a
continuing query. -/
theorem mergeSupernodes_map {copies : ℕ → Option (Supernode σ)}
    (hc : ∀ u c, copies u = some c → c.Within K seed) (newReps : List ℕ) (toMerge : ℕ → List ℕ)
    (makeCopy : Bool) {g : Graph σ} (hg : g.Within K seed) :
    Graph.mergeSupernodes ops' (fun u => (copies u).map (Supernode.map f)) newReps toMerge makeCopy
        (g.map f)
        = ((Graph.mergeSupernodes ops copies newReps toMerge makeCopy g).1.map f,
          fun u => ((Graph.mergeSupernodes ops copies newReps toMerge makeCopy g).2 u).map
            (Supernode.map f)) ∧
      (Graph.mergeSupernodes ops copies newReps toMerge makeCopy g).1.Within K seed ∧
      ∀ u c, (Graph.mergeSupernodes ops copies newReps toMerge makeCopy g).2 u = some c →
        c.Within K seed := by
  -- the merges into one representative, with the merged supernode within `K`
  have hfold : ∀ a, (toMerge a).foldl (fun s b => Supernode.merge ops' s ((g.map f).supernodes b))
        ((g.map f).supernodes a)
      = ((toMerge a).foldl (fun s b => Supernode.merge ops s (g.supernodes b)) (g.supernodes a)).map f ∧
      ((toMerge a).foldl (fun s b => Supernode.merge ops s (g.supernodes b)) (g.supernodes a)).Within
        K seed := fun a =>
    Loop.foldl_map_of_invariant (Supernode.Within K seed) (Supernode.map f)
      (fun s b => Supernode.merge ops s (g.supernodes b)) (toMerge a)
      (fun b _ s hs => hsim.merge_map hs (hg.supernodes b)) (g.supernodes a) (hg.supernodes a)
  refine ⟨Prod.ext ?_ ?_, hg.with_supernodes fun a => ?_, fun u c hu => ?_⟩
  · refine Graph.with_supernodes_map f fun a => ?_
    rw [apply_ite (Supernode.map f)]
    exact ite_congr rfl (fun _ => (hfold a).1) fun _ => rfl
  · funext a
    simp only [Graph.mergeSupernodes]
    rw [apply_ite (Option.map (Supernode.map f))]
    exact ite_congr rfl (fun _ => congrArg some (hsim.copy_map (hg.supernodes a)).1) fun _ => rfl
  · split
    · exact (hfold a).2
    · exact hg.supernodes a
  · simp only [Graph.mergeSupernodes] at hu
    split at hu
    · cases hu
      exact (hsim.copy_map (hg.supernodes u)).2
    · exact hc u c hu

/-- Reading back the backups, each with the seed of the graph. -/
theorem restoreFromDisk_map (ids : List ℕ) {g : Graph σ} (hg : g.Within K seed) :
    Graph.restoreFromDisk ops' conf ids (g.map f) = (Graph.restoreFromDisk ops conf ids g).map f ∧
      (Graph.restoreFromDisk ops conf ids g).Within K seed := by
  have hreload : ∀ w : Supernode σ, w.Within K seed →
      Supernode.reload ops' conf g.numNodes.toUInt64 g.seed (w.map f)
        = (Supernode.reload ops conf g.numNodes.toUInt64 g.seed w).map f ∧
      (Supernode.reload ops conf g.numNodes.toUInt64 g.seed w).Within K seed := by
    rw [hg.seed_eq]
    exact fun w hw => hsim.reload_map _ hw
  -- the fold over the pairs read back, every supernode within `K` as its invariant
  have hfold := @Loop.foldl_map_of_invariant _ _ _
    (fun (sn : ℕ → Supernode τ) (r : ℕ × Supernode σ) => Function.update sn r.1
      (Supernode.reload ops' conf g.numNodes.toUInt64 g.seed (r.2.map f)))
    (fun sn : ℕ → Supernode σ => ∀ u, (sn u).Within K seed) (fun sn u => (sn u).map f)
    (fun sn r => Function.update sn r.1 (Supernode.reload ops conf g.numNodes.toUInt64 g.seed r.2))
    (ids.zip g.backupFile) (fun r hr sn hsn => by
      have hw := hg.backupFile r.2 (List.of_mem_zip hr).2
      refine ⟨?_, fun u => ?_⟩
      · rw [(hreload r.2 hw).1]
        exact (Function.comp_update (Supernode.map f) sn r.1 _).symm
      · rw [Function.update_apply]
        split
        · exact (hreload r.2 hw).2
        · exact hsn u) g.supernodes hg.supernodes
  unfold Graph.restoreFromDisk
  by_cases hb : g.backupOnDisk = true
  · rw [if_pos (show (g.map f).backupOnDisk = true from hb), if_pos hb]
    refine ⟨?_, hg.with_supernodes hfold.2⟩
    refine Graph.with_supernodes_map f fun u => ?_
    rw [Graph.map_backupFile, List.zip_map_right, List.foldl_map]
    exact congrFun hfold.1 u
  · -- no file: the process exits, and no supernode is read
    rw [if_neg (show ¬(g.map f).backupOnDisk = true from hb), if_neg hb]
    exact ⟨rfl, hg.seed_eq, hg.supernodes, hg.backupFile⟩

/-- `cleanup_copy`: the backed-up supernodes put back from their copies or
from the backup file. -/
theorem cleanupCopy_map (makeCopy : Bool) {st : BoruvkaState σ} (hst : st.Within K seed) :
    Graph.cleanupCopy ops' conf makeCopy (st.map f) = (Graph.cleanupCopy ops conf makeCopy st).map f ∧
      (Graph.cleanupCopy ops conf makeCopy st).Within K seed := by
  cases makeCopy with
  | false => exact ⟨rfl, hst.graph⟩
  | true =>
    by_cases hmem : st.graph.config.backupInMem = true
    · -- the copies in memory, every supernode within `K` as the invariant of the loop
      have hfold := @Loop.foldl_map_of_invariant _ _ _
        (fun (sn : ℕ → Supernode τ) (i : ℕ) => Function.update sn i
          (((st.copySupernodes i).map (Supernode.map f)).getD (sn i)))
        (fun sn : ℕ → Supernode σ => ∀ u, (sn u).Within K seed) (fun sn u => (sn u).map f)
        (fun sn i => Function.update sn i ((st.copySupernodes i).getD (sn i))) st.backedUp
        (fun i _ sn hsn => by
          refine ⟨?_, fun u => ?_⟩
          · rw [Option.getD_map]
            exact (Function.comp_update (Supernode.map f) sn i _).symm
          · rw [Function.update_apply]
            split
            · cases hc : st.copySupernodes i with
              | none => exact hsn i
              | some c => exact hst.copies i c hc
            · exact hsn u) st.graph.supernodes hst.graph.supernodes
      simp only [Graph.cleanupCopy, if_true, BoruvkaState.map_graph, Graph.map_config, hmem]
      exact ⟨Graph.with_supernodes_map f fun u => congrFun hfold.1 u,
        hst.graph.with_supernodes hfold.2⟩
    · simp only [Graph.cleanupCopy, if_true, BoruvkaState.map_graph, Graph.map_config, hmem,
        Bool.false_eq_true, if_false]
      exact hsim.restoreFromDisk_map st.backedUp hst.graph


/-- The rest of a round: the unions, which touch no supernode, the backup
to disk in the first round of a continuing query, and the merges. -/
theorem roundMerge_map (makeCopy : Bool) {st : BoruvkaState σ} (hst : st.Within K seed)
    {g : Graph σ} (hg : g.Within K seed) (query : ℕ → Edge × SampleSketchRet) :
    Graph.roundMerge ops' makeCopy (st.map f) (g.map f) query
        = ((Graph.roundMerge ops makeCopy st g query).1.map f,
          (Graph.roundMerge ops makeCopy st g query).2) ∧
      (Graph.roundMerge ops makeCopy st g query).1.Within K seed := by
  -- the unions never touch a supernode
  have hmw : (Graph.supernodesToMerge query st.reps g).1.Within K seed := by
    rw [Graph.supernodesToMerge_fst, Graph.foldl_toMergeStep_frame]
    exact ⟨hg.seed_eq, hg.supernodes, hg.backupFile⟩
  simp only [Graph.roundMerge, BoruvkaState.map_reps, Graph.supernodesToMerge_map,
    Graph.map_config, BoruvkaState.map_firstRound]
  generalize Graph.supernodesToMerge query st.reps g = m at hmw ⊢
  -- the graph the merges start from, with the backup file written or not
  have hback : ∀ c : Bool, (if c = true then Graph.backupToDisk m.2.1 (m.1.map f) else m.1.map f)
      = (if c = true then Graph.backupToDisk m.2.1 m.1 else m.1).map f ∧
      (if c = true then Graph.backupToDisk m.2.1 m.1 else m.1).Within K seed := by
    intro c
    cases c with
    | false => exact ⟨rfl, hmw⟩
    | true => exact ⟨Graph.backupToDisk_map f _ _, hmw.backupToDisk _⟩
  obtain ⟨hg2, hg2w⟩ := hback (makeCopy && st.firstRound && !m.1.config.backupInMem)
  obtain ⟨hmerge, hmw', hcw⟩ := hsim.mergeSupernodes_map hst.copies m.2.1 m.2.2
    (st.firstRound && makeCopy) hg2w
  have hmerge' : Graph.mergeSupernodes ops' (st.map f).copySupernodes m.2.1 m.2.2
      (st.firstRound && makeCopy) ((if (makeCopy && st.firstRound && !m.1.config.backupInMem) = true
        then Graph.backupToDisk m.2.1 m.1 else m.1).map f) = _ := hmerge
  rw [hg2, hmerge']
  exact ⟨rfl, hmw', hcw⟩

/-- **A round**: the samples, then, if none threw, the rest of the round. -/
theorem round_map (makeCopy : Bool) {st : BoruvkaState σ} (hst : st.Within K seed) :
    Graph.round ops' makeCopy (st.map f)
        = ((Graph.round ops makeCopy st).1.map f, (Graph.round ops makeCopy st).2) ∧
      (Graph.round ops makeCopy st).1.Within K seed := by
  have hg0 : ({ st.graph with modified := false } : Graph σ).Within K seed :=
    ⟨hst.graph.seed_eq, hst.graph.supernodes, hst.graph.backupFile⟩
  obtain ⟨hs, hsw⟩ := hsim.sampleSupernodes_map st.query st.reps hg0
  have hs' : Graph.sampleSupernodes ops' (st.map f).query (st.map f).reps
      { (st.map f).graph with modified := false } = _ := hs
  cases he : (Graph.sampleSupernodes ops st.query st.reps { st.graph with modified := false }).2.2 with
  | some e =>
    -- a sample threw: the round stops with the samples stored
    have h1 : Graph.round ops makeCopy st = ({ st with
        graph := (Graph.sampleSupernodes ops st.query st.reps { st.graph with modified := false }).1
        query := (Graph.sampleSupernodes ops st.query st.reps
          { st.graph with modified := false }).2.1 }, some e) := by
      simp only [Graph.round, he]
    have h2 : Graph.round ops' makeCopy (st.map f) = ({ st.map f with
        graph := (Graph.sampleSupernodes ops st.query st.reps
          { st.graph with modified := false }).1.map f
        query := (Graph.sampleSupernodes ops st.query st.reps
          { st.graph with modified := false }).2.1 }, some e) := by
      simp only [Graph.round, hs', he]
    rw [h1, h2]
    exact ⟨rfl, hsw, hst.copies⟩
  | none =>
    have he' : (Graph.sampleSupernodes ops' (st.map f).query (st.map f).reps
        { (st.map f).graph with modified := false }).2.2 = none := by
      rw [hs']
      exact he
    rw [Graph.round_of_none ops he, Graph.round_of_none ops' he', hs']
    exact hsim.roundMerge_map makeCopy hst hsw _

/-- A round after which the loop goes on leaves a state within `K`. -/
theorem within_of_boruvkaBody {makeCopy : Bool} {st st' : BoruvkaState σ} (hst : st.Within K seed)
    (hb : Graph.boruvkaBody ops makeCopy st = .inl st') : st'.Within K seed := by
  have hw := (hsim.round_map makeCopy hst).2
  rwa [(Graph.boruvkaBody_eq_inl ops hb).1] at hw

theorem boruvkaBody_map (makeCopy : Bool) {st : BoruvkaState σ} (hst : st.Within K seed) :
    Graph.boruvkaBody ops' makeCopy (st.map f)
      = Sum.map (BoruvkaState.map f) (Prod.map (BoruvkaState.map f) id)
        (Graph.boruvkaBody ops makeCopy st) := by
  unfold Graph.boruvkaBody
  rw [(hsim.round_map makeCopy hst).1]
  dsimp only
  cases (Graph.round ops makeCopy st).2 with
  | some e => rfl
  | none =>
    -- go on exactly when the round modified the graph
    dsimp only
    by_cases hmod : (Graph.round ops makeCopy st).1.graph.modified = true
    · rw [if_pos (show ((Graph.round ops makeCopy st).1.map f).graph.modified = true from hmod),
        if_pos hmod]
      rfl
    · rw [if_neg (show ¬((Graph.round ops makeCopy st).1.map f).graph.modified = true from hmod),
        if_neg hmod]
      rfl

/-- **The loop of rounds**, for every fuel: the invariant of the states is
that they are within `K`. -/
theorem boruvkaLoop_map (makeCopy : Bool) (k : ℕ) {st : BoruvkaState σ} (hst : st.Within K seed) :
    Graph.boruvkaLoop ops' makeCopy k (st.map f)
      = (Graph.boruvkaLoop ops makeCopy k st).map (Prod.map (BoruvkaState.map f) id) :=
  Loop.iterate_map (BoruvkaState.Within K seed) (BoruvkaState.map f)
    (Prod.map (BoruvkaState.map f) id) (fun _ h => hsim.boruvkaBody_map makeCopy h)
    (fun _ _ h hb => hsim.within_of_boruvkaBody h hb) k st hst

theorem within_boruvkaLoop {makeCopy : Bool} {k : ℕ} {st : BoruvkaState σ} (hst : st.Within K seed)
    {r : BoruvkaState σ × Option Exception} (hl : Graph.boruvkaLoop ops makeCopy k st = some r) :
    r.1.Within K seed := by
  obtain ⟨a, ha, hbody⟩ := Loop.iterate_induction (BoruvkaState.Within K seed)
    (fun _ _ h hb => hsim.within_of_boruvkaBody h hb) k st r hst hl
  rw [Graph.boruvkaBody_eq_inr ops hbody]
  exact (hsim.round_map makeCopy ha).2

/-- **`boruvka_emulation`**: the loop from the start state, the cleanup of
the copies, and the components of the forest when no round threw. -/
theorem boruvkaEmulation_map (makeCopy : Bool) {g : Graph σ} (hg : g.Within K seed) :
    Graph.boruvkaEmulation ops' conf makeCopy (g.map f)
        = (Graph.boruvkaEmulation ops conf makeCopy g).map (Prod.map (Graph.map f) id) ∧
      ∀ r ∈ Graph.boruvkaEmulation ops conf makeCopy g, r.1.Within K seed := by
  have hst : (Graph.boruvkaStart g).Within K seed :=
    ⟨⟨hg.seed_eq, hg.supernodes, hg.backupFile⟩, fun _ _ h => by
      simp [Graph.boruvkaStart] at h⟩
  refine ⟨?_, fun r hr => ?_⟩
  · unfold Graph.boruvkaEmulation
    rw [show Graph.boruvkaFuel conf (g.map f) = Graph.boruvkaFuel conf g from rfl,
      Graph.boruvkaStart_map, hsim.boruvkaLoop_map makeCopy _ hst, Option.map_map, Option.map_map]
    refine Option.map_congr fun r hr => ?_
    obtain ⟨hc, -⟩ := hsim.cleanupCopy_map makeCopy (hsim.within_boruvkaLoop hst hr)
    simp only [Function.comp_apply, Prod.map_fst, Prod.map_snd, id_eq, hc, Graph.map_exited]
    by_cases hx : (Graph.cleanupCopy ops conf makeCopy r.1).exited = true
    · rw [if_pos hx, if_pos hx]
      rfl
    rw [if_neg hx, if_neg hx]
    cases r.2 with
    | some e => rfl
    | none =>
      -- the components of the forest, which touch no supernode
      show ((Graph.ccFromDsu (({ Graph.cleanupCopy ops conf makeCopy r.1 with dsuValid := true } :
          Graph σ).map f)).1, Except.ok (Graph.ccFromDsu (({ Graph.cleanupCopy ops conf makeCopy r.1 with
            dsuValid := true } : Graph σ).map f)).2) = _
      rw [Graph.ccFromDsu_map]
      rfl
  · -- the run leaves the cleaned-up graph, up to its forest
    obtain ⟨s, hl, hr1⟩ := Graph.boruvkaEmulation_graph ops conf hr
    obtain ⟨-, hcw⟩ := hsim.cleanupCopy_map makeCopy (hsim.within_boruvkaLoop hst hl)
    rw [hr1]
    exact ⟨hcw.seed_eq, hcw.supernodes, hcw.backupFile⟩


/-! ## The operations of a graph -/

theorem resumeIngestion_map {g : Graph σ} (hg : g.Within K seed) :
    Graph.resumeIngestion ops' (g.map f) = (Graph.resumeIngestion ops g).map f ∧
      (Graph.resumeIngestion ops g).Within K seed := by
  have hsn : ∀ u, (if u < g.numNodes then Supernode.resetQueryState ops' ((g.map f).supernodes u)
        else (g.map f).supernodes u)
      = (if u < g.numNodes then Supernode.resetQueryState ops (g.supernodes u)
        else g.supernodes u).map f ∧
      (if u < g.numNodes then Supernode.resetQueryState ops (g.supernodes u)
        else g.supernodes u).Within K seed := by
    intro u
    by_cases hu : u < g.numNodes
    · rw [if_pos hu, if_pos hu]
      exact hsim.resetQueryState_map (hg.supernodes u)
    · rw [if_neg hu, if_neg hu]
      exact ⟨rfl, hg.supernodes u⟩
  exact ⟨congrArg Graph.unpauseWorkers
      (Graph.with_supernodes_map (g := { g with updateLocked := false }) f fun u => (hsn u).1),
    hg.seed_eq, fun u => (hsn u).2, hg.backupFile⟩

/-- **`connected_components(cont)`**, on either path. -/
theorem connectedComponents_map {batches : List (ℕ × List ℕ)} (hX : BatchesIn X batches)
    (cont : Bool) {g : Graph σ} (hg : g.Within K seed) :
    Graph.connectedComponents ops' conf batches cont (g.map f)
        = (Graph.connectedComponents ops conf batches cont g).map (Prod.map (Graph.map f) id) ∧
      ∀ r ∈ Graph.connectedComponents ops conf batches cont g, r.1.Within K seed := by
  obtain ⟨hflush, hfw⟩ := hsim.forceFlushPauseWorkers_map hX hg
  obtain ⟨hbor, hbw⟩ := hsim.boruvkaEmulation_map true hfw
  obtain ⟨hbor', hbw'⟩ := hsim.boruvkaEmulation_map false hfw
  unfold Graph.connectedComponents
  by_cases hfast : (g.dsuValid && cont && !g.failRound2) = true
  · -- the fast path reads the forest, which touches no supernode
    rw [if_pos (show ((g.map f).dsuValid && cont && !(g.map f).failRound2) = true from hfast),
      if_pos hfast, Graph.ccFromDsu_map]
    refine ⟨rfl, fun r hr => ?_⟩
    cases hr
    rw [Graph.ccFromDsu_frame]
    exact ⟨hg.seed_eq, hg.supernodes, hg.backupFile⟩
  · rw [if_neg (show ¬((g.map f).dsuValid && cont && !(g.map f).failRound2) = true from hfast),
      if_neg hfast]
    dsimp only
    rw [hflush]
    cases cont with
    | false => exact ⟨hbor'.trans rfl, hbw'⟩
    | true =>
      -- a continuing query then resumes ingestion
      simp only [if_true]
      rw [hbor, Option.map_map, Option.map_map]
      refine ⟨Option.map_congr fun r hr => ?_, fun r hr => ?_⟩
      · rw [Function.comp_apply, Function.comp_apply, Prod.map_fst,
          (hsim.resumeIngestion_map (hbw r hr)).1]
        rfl
      · obtain ⟨r', hr', rfl⟩ := Option.map_eq_some_iff.mp hr
        exact (hsim.resumeIngestion_map (hbw r' hr')).2

/-- **`point_query(a, b)`**, on either path; the slow one resets the forest
and resumes ingestion. -/
theorem pointQuery_map {batches : List (ℕ × List ℕ)} (hX : BatchesIn X batches) (a b : ℕ)
    {g : Graph σ} (hg : g.Within K seed) :
    Graph.pointQuery ops' conf batches a b (g.map f)
        = (Graph.pointQuery ops conf batches a b g).map (Prod.map (Graph.map f) id) ∧
      ∀ r ∈ Graph.pointQuery ops conf batches a b g, r.1.Within K seed := by
  obtain ⟨hflush, hfw⟩ := hsim.forceFlushPauseWorkers_map hX hg
  obtain ⟨hbor, hbw⟩ := hsim.boruvkaEmulation_map true hfw
  unfold Graph.pointQuery
  by_cases hv : g.dsuValid = true
  · rw [if_pos (show (g.map f).dsuValid = true from hv), if_pos hv]
    refine ⟨rfl, fun r hr => ?_⟩
    cases hr
    exact hg.sameRoot a b
  · rw [if_neg (show ¬(g.map f).dsuValid = true from hv), if_neg hv]
    dsimp only
    rw [hflush, hbor, Option.map_map, Option.map_map]
    -- the answer of the forest Boruvka leaves, or its exception
    refine ⟨Option.map_congr fun r hr => ?_, fun r hr => ?_⟩
    · simp only [Function.comp_apply]
      cases hr2 : r.2 with
      | ok _ =>
        obtain ⟨hres, -⟩ := hsim.resumeIngestion_map ((hbw r hr).sameRoot a b).resetDsu
        simp only [Prod.map_fst, Prod.map_snd, id_eq, hr2, Graph.sameRoot_map, Graph.resetDsu_map,
          hres]
        rfl
      | error e =>
        obtain ⟨hres, -⟩ := hsim.resumeIngestion_map (hbw r hr).resetDsu
        simp only [Prod.map_fst, Prod.map_snd, id_eq, hr2, Graph.resetDsu_map, hres]
        rfl
    · obtain ⟨r', hr', rfl⟩ := Option.map_eq_some_iff.mp hr
      cases hr2 : r'.2 with
      | ok _ => exact (hsim.resumeIngestion_map ((hbw r' hr').sameRoot a b).resetDsu).2
      | error e => exact (hsim.resumeIngestion_map (hbw r' hr').resetDsu).2

/-- **`write_binary`**: the flush, and the file of the flushed supernodes. -/
theorem writeBinary_map {batches : List (ℕ × List ℕ)} (hX : BatchesIn X batches)
    (failFactor : UInt64) {g : Graph σ} (hg : g.Within K seed) :
    Graph.writeBinary ops' conf batches failFactor (g.map f)
        = Prod.map (Graph.map f) (Graph.GraphFile.map f)
          (Graph.writeBinary ops conf batches failFactor g) ∧
      (Graph.writeBinary ops conf batches failFactor g).1.Within K seed := by
  obtain ⟨hflush, hfw⟩ := hsim.forceFlushPauseWorkers_map hX hg
  refine ⟨?_, hfw⟩
  simp only [Graph.writeBinary, hflush]
  simp only [Prod.map, Graph.GraphFile.map, List.map_map]
  rfl

/-- **One operation.** An `update` touches no sketch; the queries and
`write_binary` are mapped as above. -/
theorem exec_map (failFactor : UInt64) {batches : List (ℕ × List ℕ)} (hX : BatchesIn X batches)
    (o : Graph.Op) {g : Graph σ} (hg : g.Within K seed) :
    Graph.exec ops' conf failFactor batches o (g.map f)
        = (Graph.exec ops conf failFactor batches o g).map (Prod.map (Graph.map f) id) ∧
      ∀ r ∈ Graph.exec ops conf failFactor batches o g, r.1.Within K seed := by
  cases o with
  | update upd =>
    simp only [Graph.exec, Graph.update_map]
    cases hu : g.update upd with
    | ok g' =>
      refine ⟨rfl, fun r hr => ?_⟩
      cases hr
      -- an accepted update changes only the pending pairs and the forests
      rw [(Graph.update_eq_ok hu).2.2]
      exact ⟨hg.seed_eq, hg.supernodes, hg.backupFile⟩
    | error e =>
      refine ⟨rfl, fun r hr => ?_⟩
      cases hr
      exact hg
  | connectedComponents cont =>
    obtain ⟨hcc, hccw⟩ := hsim.connectedComponents_map hX cont hg
    simp only [Graph.exec, hcc, Option.map_map]
    refine ⟨Option.map_congr fun _ _ => rfl, fun r hr => ?_⟩
    obtain ⟨r', hr', rfl⟩ := Option.map_eq_some_iff.mp hr
    exact hccw r' hr'
  | pointQuery a b =>
    obtain ⟨hpq, hpqw⟩ := hsim.pointQuery_map hX a b hg
    simp only [Graph.exec, hpq, Option.map_map]
    refine ⟨Option.map_congr fun _ _ => rfl, fun r hr => ?_⟩
    obtain ⟨r', hr', rfl⟩ := Option.map_eq_some_iff.mp hr
    exact hpqw r' hr'
  | writeBinary =>
    obtain ⟨hw, hww⟩ := hsim.writeBinary_map hX failFactor hg
    simp only [Graph.exec, hw]
    refine ⟨rfl, fun r hr => ?_⟩
    cases hr
    exact hww

/-- **The graph is parametric in its sketches.** If `f` simulates the
sketch operations `ops` by `ops'` on the sketches within `K`, then from any
graph within `K` every run of operations whose batches carry identifiers
with `X` gives, on the graph with its sketches mapped, the same outcomes,
and ends in the graph it ends in with its sketches mapped. The induction is
on the operations, with the graph within `K` as the invariant. -/
theorem run_map (failFactor : UInt64) :
    ∀ (os : List (Graph.Op × List (ℕ × List ℕ))), (∀ p ∈ os, BatchesIn X p.2) →
      ∀ {g : Graph σ}, g.Within K seed →
        Graph.run ops' conf failFactor os (g.map f)
          = (Graph.run ops conf failFactor os g).map (Prod.map (Graph.map f) id)
  | [], _, _, _ => rfl
  | (o, batches) :: rest, hX, g, hg => by
    obtain ⟨hex, hexw⟩ := hsim.exec_map failFactor (hX (o, batches) List.mem_cons_self) o hg
    rw [Graph.run, Graph.run, hex, Option.bind_map, Option.map_bind]
    refine Option.bind_congr fun r hr => ?_
    simp only [Function.comp_apply, Prod.map_fst, Graph.map_exited]
    -- the run stops at an exit on both sides
    by_cases hx : r.1.exited = true
    · rw [if_pos hx, if_pos hx]
      rfl
    rw [if_neg hx, if_neg hx,
      run_map failFactor rest (fun p hp => hX p (List.mem_cons_of_mem _ hp)) (hexw r hr),
      Option.map_map, Option.map_map]
    rfl

/-! ## Sessions on the mapped sketches -/

/-- A graph just constructed on the mapped sketches is the image of one
constructed on the first. -/
theorem init_map (n : ℕ) (config : GraphConfiguration) :
    Graph.init ops' conf n seed config = (Graph.init ops conf n seed config).map f := by
  unfold Graph.init Graph.map
  rw [hsim.makeSupernode_map]
  rfl

theorem within_init (n : ℕ) (config : GraphConfiguration) :
    (Graph.init ops conf n seed config).Within K seed :=
  ⟨rfl, fun _ => hsim.within_makeSupernode _, fun _ h => nomatch h⟩

/-- **The hand-over reads alike on both sketches**: the pending pairs do
not depend on the sketches, and the runs go through the images of each
other's graphs. The induction is on the operations, as for `run_map`. -/
theorem handsOver_map_iff (failFactor : UInt64) :
    ∀ (os : List (Graph.Op × List (ℕ × List ℕ))), (∀ p ∈ os, BatchesIn X p.2) →
      ∀ {g : Graph σ}, g.Within K seed →
        (HandsOver ops' conf failFactor os (g.map f) ↔ HandsOver ops conf failFactor os g)
  | [], _, _, _ => Iff.rfl
  | (o, batches) :: rest, hX, g, hg => by
    obtain ⟨hex, hexw⟩ := hsim.exec_map failFactor (hX (o, batches) List.mem_cons_self) o hg
    have hrest : ∀ p ∈ rest, BatchesIn X p.2 := fun p hp => hX p (List.mem_cons_of_mem _ hp)
    rw [HandsOver, HandsOver, Graph.map_gutters, hex, Option.forall_mem_map]
    exact and_congr Iff.rfl (forall₂_congr fun r hr =>
      handsOver_map_iff failFactor rest hrest (hexw r hr))

end SketchSim

end GraphZeppelin

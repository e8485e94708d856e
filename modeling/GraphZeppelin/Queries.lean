import GraphZeppelin.BoruvkaTermination

/-!
# Queries and the operations of a graph

The public operations a single thread calls on a `Graph`: `update`,
`connected_components(cont)`, `point_query(a, b)` and `write_binary`, and
a run of them in sequence (`run`). A query whose Boruvka run exits the
process is the last operation of a run.

Both queries first try the disjoint-set forest: when `dsu_valid` holds
they answer from it at once. Otherwise they flush the guttering system,
pause the workers and run Boruvka. A continuing query (`cont`, and every
`point_query`) then resets the query state of every supernode, unlocks
updates and resumes the workers, whether Boruvka returned or threw;
`point_query` also resets the forest, and leaves `dsu_valid` as Boruvka
set it. `write_binary` flushes and pauses the workers as the queries do,
and writes the file; it never resumes them.

Each flush is given the batches the guttering system forms of the pending
pairs (`forceFlushPauseWorkers`), as a parameter of the operation. The
checks of the verifying build (`verify_edge`, `verify_soln`) and the
timers are not modelled.
-/

namespace GraphZeppelin

open ParentForest

namespace Graph

section Queries

variable {σ : Type} (ops : SketchOps σ) (conf : SupernodeConfig)

/-- `get_parent(a) == get_parent(b)`, the answer of the forest. -/
def sameRoot (g : Graph σ) (a b : Nat) : Graph σ × Bool :=
  let ra := g.getParent a
  let rb := ra.1.getParent b
  (rb.1, decide (ra.2 = rb.2))

/-- Getting ready for ingesting more from the stream after a continuing
query: the query state of every supernode reset, updates unlocked, the
workers resumed. -/
def resumeIngestion (g : Graph σ) : Graph σ :=
  unpauseWorkers { g with
    supernodes := fun i =>
      if i < g.numNodes then Supernode.resetQueryState ops (g.supernodes i) else g.supernodes i
    updateLocked := false }

/-- `parent[i] = i; size[i] = 1` for every node, as `point_query` does
after its Boruvka run. -/
def resetDsu (g : Graph σ) : Graph σ :=
  { g with
    parent := fun i => if i < g.numNodes then i else g.parent i
    size := fun i => if i < g.numNodes then 1 else g.size i }

/-- `Graph::connected_components(cont)`: the graph after the call, and the
components or the exception it throws; `none` only if Boruvka needs more
rounds than the model gives it. -/
def connectedComponents (batches : List (Nat × List Nat)) (cont : Bool) (g : Graph σ) :
    Option (Graph σ × Except Exception (List (Finset Nat))) :=
  -- DSU check before calling force_flush()
  if g.dsuValid && cont && !g.failRound2 then
    let r := ccFromDsu g
    some (r.1, .ok r.2)
  else
    let g := forceFlushPauseWorkers ops conf batches g
    if cont then
      (boruvkaEmulation ops conf true g).map fun r => (resumeIngestion ops r.1, r.2)
    else
      -- merge in place
      boruvkaEmulation ops conf false g

/-- `Graph::should_fail_CC`: the switch of the verifying build that makes
the second round of Boruvka throw. -/
def shouldFailCC (g : Graph σ) : Graph σ := { g with failRound2 := true }

/-- `Graph::point_query(a, b)`. -/
def pointQuery (batches : List (Nat × List Nat)) (a b : Nat) (g : Graph σ) :
    Option (Graph σ × Except Exception Bool) :=
  -- DSU check before calling force_flush()
  if g.dsuValid then
    let r := g.sameRoot a b
    some (r.1, .ok r.2)
  else
    let g := forceFlushPauseWorkers ops conf batches g
    (boruvkaEmulation ops conf true g).map fun r =>
      let q : Graph σ × Except Exception Bool :=
        match r.2 with
        | .ok _ =>
          let s := r.1.sameRoot a b
          (s.1, .ok s.2)
        | .error e => (r.1, .error e)
      -- reset dsu and resume graph workers
      (resumeIngestion ops (resetDsu q.1), q.2)

/-- **What `write_binary` writes**: the header (`seed`, `num_nodes` as a
`node_id_t`, the sketch failure factor) and, for each node, its
supernode, every sketch of it (`FULL`). -/
structure GraphFile (σ : Type) where
  seed : UInt64
  numNodes : UInt32
  failFactor : UInt64
  supernodes : List (Supernode σ)

/-- `Graph::write_binary`, with the failure factor the sketches were
configured with: the pending updates flushed and applied, the workers
paused, and the file. -/
def writeBinary (batches : List (Nat × List Nat)) (failFactor : UInt64) (g : Graph σ) :
    Graph σ × GraphFile σ :=
  let g := forceFlushPauseWorkers ops conf batches g
  (g, { seed := g.seed
        numNodes := g.numNodes.toUInt32
        failFactor := failFactor
        supernodes := (List.range g.numNodes).map g.supernodes })

/-! ### What the queries leave -/

@[simp] theorem resumeIngestion_numNodes (g : Graph σ) :
    (resumeIngestion ops g).numNodes = g.numNodes := rfl

@[simp] theorem resumeIngestion_parent (g : Graph σ) :
    (resumeIngestion ops g).parent = g.parent := rfl

@[simp] theorem resumeIngestion_dsuValid (g : Graph σ) :
    (resumeIngestion ops g).dsuValid = g.dsuValid := rfl

@[simp] theorem resumeIngestion_spanningForest (g : Graph σ) :
    (resumeIngestion ops g).spanningForest = g.spanningForest := rfl

@[simp] theorem resetDsu_numNodes (g : Graph σ) : (resetDsu g).numNodes = g.numNodes := rfl

@[simp] theorem resetDsu_dsuValid (g : Graph σ) : (resetDsu g).dsuValid = g.dsuValid := rfl

@[simp] theorem paused_shouldFailCC (g : Graph σ) : (shouldFailCC g).paused = g.paused := rfl

theorem resetDsu_parent_of_lt (g : Graph σ) {i : Nat} (hi : i < g.numNodes) :
    (resetDsu g).parent i = i := if_pos hi

/-- The answer of the forest only compresses it. -/
theorem sameRoot_frame (g : Graph σ) (a b : Nat) :
    (g.sameRoot a b).1 = { g with parent := (g.sameRoot a b).1.parent } := rfl

/-- On a forest where both nodes are roots, the answer of the forest is
whether they are the same node. -/
theorem sameRoot_of_isRoot {g : Graph σ} {a b : Nat} (ha : IsRoot g.parent a)
    (hb : IsRoot g.parent b) : g.sameRoot a b = (g, decide (a = b)) := by
  simp only [sameRoot, getParent_of_isRoot ha, getParent_of_isRoot hb]

/-- A run of Boruvka that returns leaves the forest trusted. -/
theorem dsuValid_of_boruvkaEmulation_eq_ok {makeCopy : Bool} {g g' : Graph σ}
    {cc : List (Finset Nat)} (h : boruvkaEmulation ops conf makeCopy g = some (g', .ok cc)) :
    g'.dsuValid = true := by
  obtain ⟨_, -, -, rfl, -⟩ := boruvkaEmulation_eq_ok ops conf h
  rw [ccFromDsu_frame]

/-- The fast path of `point_query`. -/
theorem pointQuery_of_dsuValid {g : Graph σ} (h : g.dsuValid = true)
    (batches : List (Nat × List Nat)) (a b : Nat) :
    pointQuery ops conf batches a b g = some ((g.sameRoot a b).1, .ok (g.sameRoot a b).2) := by
  simp only [pointQuery, h, if_true]

end Queries

/-! ## Runs of operations -/

/-- The public operations of a graph. -/
inductive Op
  | update (upd : GraphUpdate)
  | connectedComponents (cont : Bool)
  | pointQuery (a b : Nat)
  | writeBinary
  deriving DecidableEq, Repr

/-- What an operation returns. -/
inductive Ret
  | unit
  | components (cc : List (Finset Nat))
  | bool (b : Bool)
  deriving DecidableEq

section Run

variable {σ : Type} (ops : SketchOps σ) (conf : SupernodeConfig) (failFactor : UInt64)

/-- One operation, with the batches its flush is given: the graph after
it, and what it returned or threw. An `update` that throws changes
nothing. -/
def exec (batches : List (Nat × List Nat)) : Op → Graph σ → Option (Graph σ × Except Exception Ret)
  | .update upd, g =>
    match g.update upd with
    | .ok g' => some (g', .ok .unit)
    | .error e => some (g, .error e)
  | .connectedComponents cont, g =>
    (connectedComponents ops conf batches cont g).map fun r => (r.1, r.2.map .components)
  | .pointQuery a b, g => (pointQuery ops conf batches a b g).map fun r => (r.1, r.2.map .bool)
  | .writeBinary, g => some ((writeBinary ops conf batches failFactor g).1, .ok .unit)

/-- A sequence of `Graph::update` calls in order; one that throws changes
nothing. -/
def applyUpdates (g : Graph σ) (upds : List GraphUpdate) : Graph σ :=
  upds.foldl (fun g upd => match g.update upd with
    | .ok g' => g'
    | .error _ => g) g

/-- Updates hand their pairs to the guttering system: the node count, the
seed and the supernodes stay. -/
theorem applyUpdates_frame (g : Graph σ) (upds : List GraphUpdate) :
    (applyUpdates g upds).numNodes = g.numNodes ∧ (applyUpdates g upds).seed = g.seed ∧
      (applyUpdates g upds).supernodes = g.supernodes := by
  induction upds generalizing g with
  | nil => exact ⟨rfl, rfl, rfl⟩
  | cons upd upds ih =>
    -- the first update keeps the three, and so does the rest of the stream
    cases hupd : g.update upd with
    | error e =>
      have hstep : applyUpdates g (upd :: upds) = applyUpdates g upds := by
        simp only [applyUpdates, List.foldl_cons, hupd]
      rw [hstep]
      exact ih g
    | ok g' =>
      have hstep : applyUpdates g (upd :: upds) = applyUpdates g' upds := by
        simp only [applyUpdates, List.foldl_cons, hupd]
      have hframe := (update_eq_ok hupd).2.2
      obtain ⟨h1, h2, h3⟩ := ih g'
      rw [hstep]
      exact ⟨h1.trans (by rw [hframe]), h2.trans (by rw [hframe]), h3.trans (by rw [hframe])⟩

/-- A run of operations in sequence, each with the batches of its flush:
the graph after it and the outcome of each operation, up to one that ended
the process. -/
def run : List (Op × List (Nat × List Nat)) → Graph σ →
    Option (Graph σ × List (Except Exception Ret))
  | [], g => some (g, [])
  | (o, batches) :: rest, g =>
    (exec ops conf failFactor batches o g).bind fun r =>
      if r.1.exited then some (r.1, [r.2]) else
      (run rest r.1).map fun s => (s.1, r.2 :: s.2)

end Run

/-! ## The forest after a slow `point_query` -/

section ResetDsu

variable {σ : Type} (ops : SketchOps σ) (conf : SupernodeConfig)

/-- **After a slow `point_query` that returns, the forest says that no two
nodes are connected**: Boruvka set `dsu_valid`, and the reset of the
forest that follows leaves it set, so every later `point_query` takes
the fast path and answers whether its two nodes are the same node. -/
theorem pointQuery_resets_dsu {g : Graph σ} (hvalid : g.dsuValid = false)
    (batches batches' : List (Nat × List Nat)) (a b : Nat) {r : Bool}
    (hr : (pointQuery ops conf batches a b g).map Prod.snd = some (.ok r)) :
    ∀ q ∈ pointQuery ops conf batches a b g, q.1.dsuValid = true ∧
      ∀ u < q.1.numNodes, ∀ v < q.1.numNodes,
        pointQuery ops conf batches' u v q.1 = some (q.1, .ok (decide (u = v))) := by
  intro q hq
  have hq' : pointQuery ops conf batches a b g = some q := hq
  rw [hq', Option.map_some, Option.some.injEq] at hr
  -- the slow path: Boruvka, the answer of its forest, and the resets
  simp only [pointQuery, hvalid, Bool.false_eq_true, if_false] at hq'
  obtain ⟨⟨g1, res⟩, hres, rfl⟩ := Option.map_eq_some_iff.mp hq'
  cases res with
  | error e => simp at hr
  | ok cc =>
    have hdsu : g1.dsuValid = true := dsuValid_of_boruvkaEmulation_eq_ok ops conf hres
    set g2 := resumeIngestion ops (resetDsu (g1.sameRoot a b).1)
    have hvalid2 : g2.dsuValid = true := by
      simp only [g2, resumeIngestion_dsuValid, resetDsu_dsuValid]
      rw [sameRoot_frame]
      exact hdsu
    have hroot : ∀ i < g2.numNodes, IsRoot g2.parent i := fun i hi =>
      resetDsu_parent_of_lt _ hi
    refine ⟨hvalid2, fun u hu v hv => ?_⟩
    rw [pointQuery_of_dsuValid ops conf hvalid2, sameRoot_of_isRoot (hroot u hu) (hroot v hv)]

/-- The failing input on `Graph(3)`, configured as `Supernode::configure`
configures three nodes for the failure factor 4 (two sketches, seeds 3
apart): the edge (0, 1) inserted, deleted and inserted again, then asked
for on the slow path. -/
theorem pointQuery_resets_dsu_toggled :
    (applyUpdates (init (VecSketch.ops minOracle) ⟨2, 3⟩ 3 0 {})
        [⟨⟨0, 1⟩, .insert⟩, ⟨⟨0, 1⟩, .delete⟩, ⟨⟨0, 1⟩, .insert⟩]).dsuValid = false ∧
      (pointQuery (VecSketch.ops minOracle) ⟨2, 3⟩ [(0, [1, 1, 1]), (1, [0, 0, 0])] 0 1
        (applyUpdates (init (VecSketch.ops minOracle) ⟨2, 3⟩ 3 0 {})
          [⟨⟨0, 1⟩, .insert⟩, ⟨⟨0, 1⟩, .delete⟩, ⟨⟨0, 1⟩, .insert⟩])).map Prod.snd
        = some (.ok true) ∧
      ∀ q ∈ pointQuery (VecSketch.ops minOracle) ⟨2, 3⟩ [(0, [1, 1, 1]), (1, [0, 0, 0])] 0 1
          (applyUpdates (init (VecSketch.ops minOracle) ⟨2, 3⟩ 3 0 {})
            [⟨⟨0, 1⟩, .insert⟩, ⟨⟨0, 1⟩, .delete⟩, ⟨⟨0, 1⟩, .insert⟩]),
        q.1.dsuValid = true ∧ ∀ u < q.1.numNodes, ∀ v < q.1.numNodes,
          pointQuery (VecSketch.ops minOracle) ⟨2, 3⟩ [] u v q.1 = some (q.1, .ok (decide (u = v))) :=
  ⟨by decide, by decide, pointQuery_resets_dsu _ _ (by decide) _ [] 0 1 (r := true) (by decide)⟩

/-- The run of the failing input: the edge (0, 1) is inserted, deleted and
inserted again, and asked for twice; the second answer comes from the
reset forest. -/
example :
    ((run (VecSketch.ops minOracle) ⟨2, 3⟩ 4
        [(.update ⟨⟨0, 1⟩, .insert⟩, []), (.update ⟨⟨0, 1⟩, .delete⟩, []),
          (.update ⟨⟨0, 1⟩, .insert⟩, []), (.pointQuery 0 1, [(0, [1, 1, 1]), (1, [0, 0, 0])]),
          (.pointQuery 0 1, [])]
        (init (VecSketch.ops minOracle) ⟨2, 3⟩ 3 0 {})).map Prod.snd)
      = some [.ok .unit, .ok .unit, .ok .unit, .ok (.bool true), .ok (.bool false)] := by
  decide

end ResetDsu

/-! ## The workers after `write_binary` -/

section WriteBinary

variable {σ : Type} (ops : SketchOps σ) (conf : SupernodeConfig)

/-- **`write_binary` leaves updates unlocked and the workers paused**,
and nothing resumes them: an update accepted afterwards is handed to the
guttering system, but the flush of the next query finds the workers paused
and applies nothing, so Boruvka runs on the supernodes as they were
written. -/
theorem writeBinary_pauses_workers (batches batches' : List (Nat × List Nat))
    (failFactor : UInt64) {g : Graph σ} (hg : g.updateLocked = false) :
    (writeBinary ops conf batches failFactor g).1.updateLocked = false ∧
      (writeBinary ops conf batches failFactor g).1.paused = true ∧
      ∀ upd g', (writeBinary ops conf batches failFactor g).1.update upd = .ok g' →
        forceFlushPauseWorkers ops conf batches' g' = g' ∧
          g'.supernodes = (writeBinary ops conf batches failFactor g).1.supernodes := by
  have hlock : (writeBinary ops conf batches failFactor g).1.updateLocked = false := by
    show (forceFlushPauseWorkers ops conf batches g).updateLocked = false
    rw [updateLocked_forceFlushPauseWorkers, hg]
  have hpaused : (writeBinary ops conf batches failFactor g).1.paused = true :=
    paused_forceFlushPauseWorkers ops conf batches g
  refine ⟨hlock, hpaused, fun upd g' hupd => ?_⟩
  -- an update keeps the workers as they are
  obtain ⟨-, -, hframe⟩ := update_eq_ok hupd
  have hpaused' : g'.paused = true := by
    rw [hframe]
    exact hpaused
  refine ⟨forceFlushPauseWorkers_of_paused ops conf hpaused', ?_⟩
  rw [hframe]

theorem writeBinary_pauses_workers_init :
    (init (VecSketch.ops minOracle) ⟨2, 3⟩ 3 0 {}).updateLocked = false ∧
      (writeBinary (VecSketch.ops minOracle) ⟨2, 3⟩ [] 4
          (init (VecSketch.ops minOracle) ⟨2, 3⟩ 3 0 {})).1.updateLocked = false ∧
      (writeBinary (VecSketch.ops minOracle) ⟨2, 3⟩ [] 4
          (init (VecSketch.ops minOracle) ⟨2, 3⟩ 3 0 {})).1.paused = true ∧
      ∀ upd g', (writeBinary (VecSketch.ops minOracle) ⟨2, 3⟩ [] 4
          (init (VecSketch.ops minOracle) ⟨2, 3⟩ 3 0 {})).1.update upd = .ok g' →
        forceFlushPauseWorkers (VecSketch.ops minOracle) ⟨2, 3⟩ [(0, [1]), (1, [0])] g' = g' ∧
          g'.supernodes = (writeBinary (VecSketch.ops minOracle) ⟨2, 3⟩ [] 4
            (init (VecSketch.ops minOracle) ⟨2, 3⟩ 3 0 {})).1.supernodes :=
  ⟨rfl, writeBinary_pauses_workers _ _ [] [(0, [1]), (1, [0])] 4 rfl⟩

/-- The updates lost after a checkpoint, on `Graph(3)` configured for the
failure factor 4: the edge (0, 1) inserted, deleted and inserted again after
`write_binary` never reaches the sketches, and the slow `point_query`
answers that 0 and 1 are not connected. -/
example :
    ((run (VecSketch.ops minOracle) ⟨2, 3⟩ 4
        [(.writeBinary, []), (.update ⟨⟨0, 1⟩, .insert⟩, []), (.update ⟨⟨0, 1⟩, .delete⟩, []),
          (.update ⟨⟨0, 1⟩, .insert⟩, []), (.pointQuery 0 1, [(0, [1, 1, 1]), (1, [0, 0, 0])])]
        (init (VecSketch.ops minOracle) ⟨2, 3⟩ 3 0 {})).map Prod.snd)
      = some [.ok .unit, .ok .unit, .ok .unit, .ok .unit, .ok (.bool false)] := by
  decide

/-- The same run without `write_binary` answers that they are. -/
example :
    ((run (VecSketch.ops minOracle) ⟨2, 3⟩ 4
        [(.update ⟨⟨0, 1⟩, .insert⟩, []), (.update ⟨⟨0, 1⟩, .delete⟩, []),
          (.update ⟨⟨0, 1⟩, .insert⟩, []), (.pointQuery 0 1, [(0, [1, 1, 1]), (1, [0, 0, 0])])]
        (init (VecSketch.ops minOracle) ⟨2, 3⟩ 3 0 {})).map Prod.snd)
      = some [.ok .unit, .ok .unit, .ok .unit, .ok (.bool true)] := by
  decide

end WriteBinary

end Graph

end GraphZeppelin

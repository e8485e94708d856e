import GraphZeppelin.BoruvkaCorrect

/-!
# The representatives and the samples of a round

`supernodes_to_merge` builds the representatives of the next round in
three steps: it pushes every representative whose sample failed, keeps
those of them whose list is empty, and adds every node with something to
merge. The nodes it adds are roots; the failed ones it keeps need not be.
A later sample of the same round can link a failed representative under
another root, which leaves its list empty: it stays a representative
while no longer a root (`mem_roundMerge_reps` says what every
representative is, `round_failed_rep_not_root` that the second kind
occurs). It is then sampled again from its own supernode, which nothing
was merged into, and can use up its sketches although its class is
complete.

The ids a round indexes `parent`, `size` and `spanning_forest` with come
from good samples. With a sound sampler they are the ends of present
edges, below `num_nodes` (`CutInv.good_lt`). Without one they are
whatever a bucket decodes to once its checksum test passes. Under a hash
for which the checksums of several indices XOR to the checksum of their
XOR, the level-0 bucket of node 0 holding the edges (0, 1) and (0, 2)
passes it, and decodes to the edge (0, 3), beyond three nodes
(`sample_good_out_of_range`).
-/

namespace GraphZeppelin

open ParentForest GraphZeppelin.Graph

/-! ## The representatives of the next round -/

section Reps

variable {σ : Type} {ops : SketchOps σ} {makeCopy : Bool} {st : BoruvkaState σ} {g1 : Graph σ}
  {query : ℕ → Edge × SampleSketchRet}

/-- **Every representative of the next round** is a root after the round,
or a representative of this round whose sample failed and into which
nothing is merged. -/
theorem mem_roundMerge_reps
    (hinv : ToMergeInv query g1 st.reps (st.reps.foldl (toMergeStep query) (g1, fun _ => [], [])))
    {i : ℕ} (hi : i ∈ (roundMerge ops makeCopy st g1 query).1.reps) :
    i ∈ roots (roundMerge ops makeCopy st g1 query).1.graph.parent g1.numNodes ∨
      (i ∈ st.reps ∧ (query i).2 = .fail ∧ (supernodesToMerge query st.reps g1).2.2 i = []) := by
  rw [roundMerge_reps, mem_supernodesToMerge_reps] at hi
  rcases hi with ⟨hf, hnil⟩ | ⟨-, hne⟩
  · exact .inr ⟨hinv.failed_sublist.subset hf, hinv.failed_fail i hf, hnil⟩
  · rw [roundMerge_parent, supernodesToMerge_fst]
    exact .inl (hinv.lists.mem_roots_of_ne_nil i hne)

end Reps

/-- A sampler that fails on the vector `bad` and otherwise answers as
`minOracle`. -/
def failOnOracle (bad : Finset UInt64) (seed : UInt64) (v : Finset UInt64) :
    UInt64 × SampleSketchRet :=
  if v = bad then (0, .fail) else minOracle seed v

/-- Failing is always allowed, so this sampler is sound. -/
theorem failOnOracle_sound (bad : Finset UInt64) : OracleSound (failOnOracle bad) := by
  intro seed v
  unfold failOnOracle
  split
  · trivial
  · exact minOracle_sound seed v

/-- **A failed representative linked under another root stays a
representative.** On the path 0 - 1 - 2, with a sound sampler that fails
on the vector of node 1 only, node 0 links node 1 under itself and node 2
links node 2 under node 0, while node 1 failed. The next round's
representatives are 1 and 0, and 1 is no longer a root; sampled again
from its own supernode, it fails again and uses up its sketches, and the
query throws although its class is complete. -/
theorem round_failed_rep_not_root :
    OracleSound (failOnOracle {edgeId (0, 1), edgeId (1, 2)}) ∧
      (round (VecSketch.ops (failOnOracle {edgeId (0, 1), edgeId (1, 2)})) false
          (boruvkaStart (forceFlushPauseWorkers
            (VecSketch.ops (failOnOracle {edgeId (0, 1), edgeId (1, 2)})) ⟨2, 3⟩
            [(0, [1]), (1, [0, 2]), (2, [1])]
            (applyUpdates (init (VecSketch.ops (failOnOracle {edgeId (0, 1), edgeId (1, 2)}))
              ⟨2, 3⟩ 3 0 {}) [⟨⟨0, 1⟩, .insert⟩, ⟨⟨1, 2⟩, .insert⟩])))).1.reps = [1, 0] ∧
      (round (VecSketch.ops (failOnOracle {edgeId (0, 1), edgeId (1, 2)})) false
          (boruvkaStart (forceFlushPauseWorkers
            (VecSketch.ops (failOnOracle {edgeId (0, 1), edgeId (1, 2)})) ⟨2, 3⟩
            [(0, [1]), (1, [0, 2]), (2, [1])]
            (applyUpdates (init (VecSketch.ops (failOnOracle {edgeId (0, 1), edgeId (1, 2)}))
              ⟨2, 3⟩ 3 0 {}) [⟨⟨0, 1⟩, .insert⟩, ⟨⟨1, 2⟩, .insert⟩])))).1.graph.parent 1 = 0 ∧
      (connectedComponents (VecSketch.ops (failOnOracle {edgeId (0, 1), edgeId (1, 2)})) ⟨2, 3⟩
          [(0, [1]), (1, [0, 2]), (2, [1])] false
          (applyUpdates (init (VecSketch.ops (failOnOracle {edgeId (0, 1), edgeId (1, 2)}))
            ⟨2, 3⟩ 3 0 {}) [⟨⟨0, 1⟩, .insert⟩, ⟨⟨1, 2⟩, .insert⟩])).map Prod.snd
        = some (.error .outOfQueries) :=
  ⟨failOnOracle_sound _, by decide, by decide, by decide⟩

/-! ## The ids of good samples -/

/-- A hash that is zero everywhere. Every index then has the depth
`max_depth`, so a sketch holds its updates in the level-0 bucket only, and
every checksum is zero. -/
def zeroHash (_ _ : UInt64) : UInt64 := 0

/-- **A good sample out of range.** With the sketches `Graph(3)` configures
(three columns of one guess, two sketches of stride three per supernode)
and the hash `zeroHash`, the stream of the edges (0, 1) and (0, 2) leaves
node 0 a level-0 bucket holding `concat(0,1) ^ concat(0,2) = 3` with
checksum zero, which passes the checksum test. The first round samples the
edge (0, 3) for node 0, although 3 is not a node, and links node 3 under
node 0: the source writes `parent[3]` out of bounds. -/
theorem sample_good_out_of_range :
    (round (Sketch.ops ⟨4, 9, 3, 1⟩ zeroHash) false
        (boruvkaStart (forceFlushPauseWorkers (Sketch.ops ⟨4, 9, 3, 1⟩ zeroHash) ⟨2, 3⟩
          [(0, [1, 2]), (1, [0]), (2, [0])]
          (applyUpdates (init (Sketch.ops ⟨4, 9, 3, 1⟩ zeroHash) ⟨2, 3⟩ 3 0 {})
            [⟨⟨0, 1⟩, .insert⟩, ⟨⟨0, 2⟩, .insert⟩])))).1.query 0
        = ({ src := 0, dst := 3 }, .good) ∧
      (round (Sketch.ops ⟨4, 9, 3, 1⟩ zeroHash) false
        (boruvkaStart (forceFlushPauseWorkers (Sketch.ops ⟨4, 9, 3, 1⟩ zeroHash) ⟨2, 3⟩
          [(0, [1, 2]), (1, [0]), (2, [0])]
          (applyUpdates (init (Sketch.ops ⟨4, 9, 3, 1⟩ zeroHash) ⟨2, 3⟩ 3 0 {})
            [⟨⟨0, 1⟩, .insert⟩, ⟨⟨0, 2⟩, .insert⟩])))).1.graph.parent 3 = 0 := by
  constructor <;> decide

end GraphZeppelin

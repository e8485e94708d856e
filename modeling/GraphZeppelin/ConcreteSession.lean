import GraphZeppelin.Simulation

/-!
# Sessions on the concrete sketches

The graph runs on `Sketch`, whose query reads buckets and checksums, and
the session theorems are proved on `VecSketch`, whose query is an oracle.
This module connects the two: every run of the graph on concrete sketches
is the image of its run on abstract ones (`concrete_run_refines`), so a
session on concrete sketches answers every query right
(`concrete_session_answers_components`).

The abstract oracle is the concrete query itself, on the vectors of a set
`U` of identifiers, and `FAIL` elsewhere. What the concrete sketches must
give is that their query is sound on those vectors (`Sketch.SoundOn`): a
checksum that collides can make a bucket of several indices look good, and
that is the event the hash functions make unlikely. Soundness is also what
makes `operator+=` refine the sum of vectors: it skips a sketch whose
level-0 bucket is zero, and a sound query answers such a sketch `ZERO` only
when its vector is zero.
-/

open scoped symmDiff

namespace GraphZeppelin

namespace Sketch

section SoundOn

variable (cfg : SketchConfig) (xxh : UInt64 → UInt64 → UInt64) (U : Finset UInt64)

/-- The answers of the concrete query on the vectors of identifiers of `U`,
and `FAIL` on the others. -/
def concreteOracleOn (seed : UInt64) (v : Finset UInt64) : UInt64 × SampleSketchRet :=
  if v ⊆ U then concreteOracle cfg xxh seed v else (0, .fail)

/-- **The concrete query is sound on `U`**: with every seed, it answers the
sketch of every vector of identifiers of `U` as `Answers` allows. -/
def SoundOn : Prop :=
  ∀ seed, ∀ v ⊆ U, Answers v (concreteOracle cfg xxh seed v)

variable {cfg xxh U}

/-- On a vector of `U` the abstract query asks the concrete one. -/
theorem query_concreteOracleOn {a : VecSketch} (ha : a.vec ⊆ U) :
    (VecSketch.ops (concreteOracleOn cfg xxh U)).query a
      = (VecSketch.ops (concreteOracle cfg xxh)).query a := by
  simp only [VecSketch.ops, concreteOracleOn, if_pos ha]

theorem SoundOn.oracleSound (hU : SoundOn cfg xxh U) :
    OracleSound (concreteOracleOn cfg xxh U) := by
  intro seed v
  unfold concreteOracleOn
  split
  · exact hU seed v ‹_›
  · trivial

/-- A good answer of the oracle is an identifier of `U`, so it names two
nodes when those of `U` do. -/
theorem SoundOn.goodInRange (hU : SoundOn cfg xxh U) {n : ℕ}
    (hUn : ∀ x ∈ U, (invConcatPairingFn x).src.toNat < n ∧ (invConcatPairingFn x).dst.toNat < n) :
    Graph.GoodInRange (VecSketch.ops (concreteOracleOn cfg xxh U)) n := by
  intro sk sk' x hq
  have hgood : concreteOracleOn cfg xxh U sk.seed sk.vec = (x, .good) := by
    simp only [VecSketch.ops] at hq
    split at hq
    · cases hq
    · exact (Prod.mk.inj (Except.ok.inj hq)).2
  unfold concreteOracleOn at hgood
  split at hgood
  · rename_i hsub
    have hx : x ∈ sk.vec := by
      have h := hU sk.seed sk.vec hsub
      rwa [hgood] at h
    exact hUn x (hsub hx)
  · cases hgood

/-- **A zero level-0 bucket is the zero vector** on `U`: the concrete query
answers such a sketch `ZERO` without looking further. -/
theorem SoundOn.eq_empty_of_last (hU : SoundOn cfg xxh U) {seed : UInt64} {v : Finset UInt64}
    (hv : v ⊆ U) (h0 : bucketOf cfg xxh seed v (cfg.numElems - 1) = (0, 0)) : v = ∅ := by
  have h := hU seed v hv
  rw [concreteOracle, query_of_last_eq_zero cfg xxh (ofVector cfg xxh seed v) rfl h0] at h
  exact h

/-- **`operator+=` refines the sum of vectors** of `U` with one seed: a
sketch whose level-0 bucket is zero is that of the zero vector, so skipping
it adds nothing. -/
theorem SoundOn.add_toSketch_of_subset (hU : SoundOn cfg xxh U) {a b : VecSketch}
    (hseed : a.seed = b.seed) (hb : b.vec ⊆ U) :
    (ops cfg xxh).add (toSketch cfg xxh a) (toSketch cfg xxh b)
      = toSketch cfg xxh ((VecSketch.ops (concreteOracleOn cfg xxh U)).add a b) := by
  by_cases h0 : bucketOf cfg xxh b.seed b.vec (cfg.numElems - 1) = (0, 0)
  · -- only the flags are combined, and the vector added is zero
    have hb0 : b.vec = ∅ := hU.eq_empty_of_last hb h0
    show (toSketch cfg xxh a).add cfg (toSketch cfg xxh b) = _
    rw [add_of_last_eq_zero cfg (toSketch cfg xxh a) (toSketch cfg xxh b) h0]
    refine ext_bucket rfl (fun k => ?_) rfl
    simp only [VecSketch.ops, bucket_toSketch, hb0]
    rw [← Finset.bot_eq_empty, symmDiff_bot]
    rfl
  · exact add_toSketch cfg xxh a b hseed h0

/-- A vector of one non-zero index is answered with that index: its
level-0 bucket holds the index and its own checksum. -/
theorem query_ofVector_singleton (seed : UInt64) {x : UInt64} (hx : x ≠ 0) :
    (ofVector cfg xxh seed {x}).query cfg xxh
      = .ok ({ ofVector cfg xxh seed {x} with alreadyQueried := true }, x, .good) := by
  have hlast : bucketOf cfg xxh seed {x} (cfg.numElems - 1) = (x, getIndexHash xxh x seed) := by
    rw [bucketOf_last, Finset.fold_singleton, bucketXor_zero]
    rfl
  have ha : (ofVector cfg xxh seed {x}).bucketA (cfg.numElems - 1) = x := congrArg Prod.fst hlast
  have hc : (ofVector cfg xxh seed {x}).bucketC (cfg.numElems - 1) = getIndexHash xxh x seed :=
    congrArg Prod.snd hlast
  simp only [query, alreadyQueried_ofVector, Bool.false_eq_true, if_false, ha, hc, hx,
    false_and, isGood, checksumSeed, seed_ofVector, beq_self_eq_true, if_true]

/-- The query is sound on the vectors of one non-zero identifier. -/
theorem soundOn_singleton {x : UInt64} (hx : x ≠ 0) : SoundOn cfg xxh {x} := by
  intro seed v hv
  rcases Finset.subset_singleton_iff.mp hv with rfl | rfl
  · -- the zero vector
    rw [concreteOracle,
      query_of_last_eq_zero cfg xxh (ofVector cfg xxh seed ∅) rfl (bucketOf_empty cfg xxh seed (cfg.numElems - 1))]
    rfl
  · rw [concreteOracle, query_ofVector_singleton seed hx]
    exact Finset.mem_singleton_self x

/-- With a hash that ignores its seed, the answer of a query does not
depend on the seed of the sketch. -/
theorem query_seedFree (h : UInt64 → UInt64) (s : Sketch) (seed : UInt64) :
    (({ s with seed := seed } : Sketch).query cfg (fun a _ => h a)).map (·.2)
      = (s.query cfg (fun a _ => h a)).map (·.2) := by
  unfold query
  dsimp only [isGood, getIndexHash, checksumSeed]
  by_cases hq : s.alreadyQueried = true
  · simp only [hq, if_true]
  by_cases h0 : s.bucketA (cfg.numElems - 1) = 0 ∧ s.bucketC (cfg.numElems - 1) = 0
  · simp only [hq, h0, if_false, Bool.false_eq_true]
    rfl
  by_cases hg : (s.bucketC (cfg.numElems - 1) == (h (s.bucketA (cfg.numElems - 1))).toUInt32) = true
  · simp only [hq, h0, hg, if_false, Bool.false_eq_true]
    rfl
  simp only [hq, h0, hg, if_false, Bool.false_eq_true]
  -- the scan of the columns: the sketches differ only in their seed
  split <;> rfl

/-- With a hash that ignores its seed, so does the concrete query: the
sketch of a vector is the same with every seed but for the seed itself. -/
theorem concreteOracle_seedFree (h : UInt64 → UInt64) (seed : UInt64) (v : Finset UInt64) :
    concreteOracle cfg (fun a _ => h a) seed v = concreteOracle cfg (fun a _ => h a) 0 v := by
  have hs : ofVector cfg (fun a _ => h a) seed v
      = { ofVector cfg (fun a _ => h a) 0 v with seed := seed } := rfl
  have hq := @query_seedFree cfg h (ofVector cfg (fun a _ => h a) 0 v) seed
  rw [← hs] at hq
  unfold concreteOracle
  cases h1 : (ofVector cfg (fun a _ => h a) seed v).query cfg (fun a _ => h a) <;>
    cases h2 : (ofVector cfg (fun a _ => h a) 0 v).query cfg (fun a _ => h a) <;>
    simp_all [Except.map]

theorem eq_of_subset_pair {α : Type} [DecidableEq α] {a b : α} {v : Finset α} (hv : v ⊆ {a, b}) :
    v = ∅ ∨ v = {a} ∨ v = {b} ∨ v = {a, b} := by
  rw [← Finset.coe_subset, Finset.coe_pair, Set.subset_pair_iff_eq] at hv
  simpa only [← Finset.coe_inj, Finset.coe_empty, Finset.coe_singleton, Finset.coe_pair] using hv

/-- The query of the sketches Graph(3) configures is sound on the two edges
(0, 1) and (1, 2) with a hash that ignores its seed: the sketch of both
fails its level-0 checksum, and a column bucket holds the identifier of
(1, 2) alone with its checksum. -/
theorem soundOn_path3 : SoundOn ⟨4, 9, 3, 1⟩ (fun a _ => a + 1) {1, 4294967298} := by
  intro seed v hv
  rw [concreteOracle_seedFree]
  rcases eq_of_subset_pair hv with rfl | rfl | rfl | rfl <;> decide

example : concreteOracle ⟨4, 9, 3, 1⟩ (fun a _ => a + 1) 0 {1, 4294967298} = (4294967298, .good) := by
  decide

/-- **The concrete sketches simulate the abstract ones** whose oracle is the
concrete query on `U`, on the sketches made with the seed of their position
over identifiers of `U`. -/
theorem SoundOn.sketchSim (hU : SoundOn cfg xxh U) (conf : SupernodeConfig) (seed : UInt64) :
    SketchSim (VecSketch.ops (concreteOracleOn cfg xxh U)) (ops cfg xxh) (toSketch cfg xxh) conf
      seed (fun i a => a.seed = seed + i.toUInt64 * conf.sketchWidth ∧ a.vec ⊆ U)
      (fun x => x ∈ U) where
  make _ := make_toSketch cfg xxh _
  make_K _ := ⟨rfl, Finset.empty_subset U⟩
  update _ a x _ _ := update_toSketch cfg xxh a x
  update_K _ _ _ ha hx :=
    ⟨ha.1, Finset.symmDiff_subset_union.trans
      (Finset.union_subset ha.2 (Finset.singleton_subset_iff.mpr hx))⟩
  query _ a ha := by rw [query_toSketch, query_concreteOracleOn ha.2]
  query_K _ a r ha hq := by
    simp only [VecSketch.ops] at hq
    split at hq
    · cases hq
    · cases hq
      exact ha
  add _ _ _ ha hb := hU.add_toSketch_of_subset (ha.1.trans hb.1.symm) hb.2
  add_K _ _ _ ha hb := ⟨ha.1, Finset.symmDiff_subset_union.trans (Finset.union_subset ha.2 hb.2)⟩
  copy _ a _ := copy_toSketch cfg xxh a
  copy_K _ _ ha := ha
  resetQueried _ a _ := resetQueried_toSketch cfg xxh a
  resetQueried_K _ _ ha := ha
  -- the position's seed is the sketch's own, which is the seed reading back keeps
  reload _ a ha := by
    rw [← ha.1]
    exact reload_toSketch cfg xxh a
  reload_K _ _ ha := ⟨rfl, ha.2⟩

end SoundOn

end Sketch

open GraphZeppelin.Graph

section Concrete

variable {cfg : SketchConfig} {xxh : UInt64 → UInt64 → UInt64} {U : Finset UInt64}

/-- **Every run on the concrete sketches refines a run on the abstract
ones.** If the concrete query is sound on the identifiers `U` and every
batch carries identifiers of `U`, the run of any operations on a graph just
constructed on concrete sketches gives the outcomes of the run on abstract
sketches whose oracle is the concrete query on `U`, and ends in its graph
with every sketch the sketch of its vector. -/
theorem concrete_run_refines (hU : Sketch.SoundOn cfg xxh U) (conf : SupernodeConfig)
    (failFactor : UInt64) (n : ℕ) (seed : UInt64) (config : GraphConfiguration)
    {os : List (Op × List (ℕ × List ℕ))} (hX : ∀ p ∈ os, BatchesIn (fun x => x ∈ U) p.2) :
    run (Sketch.ops cfg xxh) conf failFactor os (init (Sketch.ops cfg xxh) conf n seed config)
      = (run (VecSketch.ops (Sketch.concreteOracleOn cfg xxh U)) conf failFactor os
          (init (VecSketch.ops (Sketch.concreteOracleOn cfg xxh U)) conf n seed config)).map
        (Prod.map (Graph.map (Sketch.toSketch cfg xxh)) id) := by
  have hsim := hU.sketchSim conf seed
  rw [hsim.init_map n config]
  exact hsim.run_map failFactor os hX (hsim.within_init n config)

/-- The path 0 - 1 - 2 inserted, asked for and pointed at from the DSU,
then written out, which flushes it, and merged for good on the sketches
Graph(3) configures, whose query is sound on its two edges. -/
theorem concrete_run_refines_path :
    Sketch.SoundOn ⟨4, 9, 3, 1⟩ (fun a _ => a + 1) {1, 4294967298} ∧
      (∀ p ∈ [(Op.update ⟨⟨0, 1⟩, .insert⟩, []), (.update ⟨⟨1, 2⟩, .insert⟩, []),
          (.connectedComponents true, []), (.pointQuery 0 2, []),
          (.writeBinary, [(0, [1]), (1, [0, 2]), (2, [1])]), (.connectedComponents false, [])],
        BatchesIn (fun x => x ∈ ({1, 4294967298} : Finset UInt64)) p.2) ∧
      run (Sketch.ops ⟨4, 9, 3, 1⟩ fun a _ => a + 1) ⟨2, 3⟩ 4 [(Op.update ⟨⟨0, 1⟩, .insert⟩, []), (.update ⟨⟨1, 2⟩, .insert⟩, []),
          (.connectedComponents true, []), (.pointQuery 0 2, []),
          (.writeBinary, [(0, [1]), (1, [0, 2]), (2, [1])]), (.connectedComponents false, [])]
          (init (Sketch.ops ⟨4, 9, 3, 1⟩ fun a _ => a + 1) ⟨2, 3⟩ 3 0 {})
        = (run (VecSketch.ops (Sketch.concreteOracleOn ⟨4, 9, 3, 1⟩ (fun a _ => a + 1) {1, 4294967298})) ⟨2, 3⟩ 4 [(Op.update ⟨⟨0, 1⟩, .insert⟩, []), (.update ⟨⟨1, 2⟩, .insert⟩, []),
          (.connectedComponents true, []), (.pointQuery 0 2, []),
          (.writeBinary, [(0, [1]), (1, [0, 2]), (2, [1])]), (.connectedComponents false, [])]
            (init (VecSketch.ops (Sketch.concreteOracleOn ⟨4, 9, 3, 1⟩ (fun a _ => a + 1) {1, 4294967298})) ⟨2, 3⟩ 3 0 {})).map
          (Prod.map (Graph.map (Sketch.toSketch ⟨4, 9, 3, 1⟩ fun a _ => a + 1)) id) :=
  ⟨Sketch.soundOn_path3, by decide,
    concrete_run_refines Sketch.soundOn_path3 ⟨2, 3⟩ 4 3 0 {} (by decide)⟩

/-- **Every session on the concrete sketches answers every query right**
when their query is sound on the identifiers `U` its batches carry, and
those name nodes of the graph: the run returns, accepts every update, and
every query that returns lists the components of the edges present. -/
theorem concrete_session_answers_components (hU : Sketch.SoundOn cfg xxh U) {n : ℕ}
    (hUn : ∀ x ∈ U, (invConcatPairingFn x).src.toNat < n ∧ (invConcatPairingFn x).dst.toNat < n)
    (conf : SupernodeConfig) (failFactor : UInt64) (seed : UInt64) (config : GraphConfiguration)
    {os : List (Op × List (ℕ × List ℕ))} (hos : ∀ p ∈ os, SessionOp n p.1)
    (hX : ∀ p ∈ os, BatchesIn (fun x => x ∈ U) p.2)
    (hhand : HandsOver (Sketch.ops cfg xxh) conf failFactor os
      (init (Sketch.ops cfg xxh) conf n seed config)) :
    (run (Sketch.ops cfg xxh) conf failFactor os
        (init (Sketch.ops cfg xxh) conf n seed config)).isSome ∧
      ∀ r ∈ run (Sketch.ops cfg xxh) conf failFactor os
          (init (Sketch.ops cfg xxh) conf n seed config),
        RightAnswers n [] (os.map Prod.fst) r.2 := by
  have hsim := hU.sketchSim conf seed
  have hinit := hsim.within_init n config
  -- the concrete run and its hand-overs are those of the abstract run
  rw [hsim.init_map n config] at hhand ⊢
  rw [hsim.run_map failFactor os hX hinit]
  have hhand' := (hsim.handsOver_map_iff failFactor os hX hinit).mp hhand
  obtain ⟨hsome, hruns⟩ :=
    (SessionInv.init conf n seed config).run hU.oracleSound failFactor hos hhand'
  refine ⟨by rw [Option.isSome_map]; exact hsome (hU.goodInRange hUn), fun r hr => ?_⟩
  obtain ⟨r', hr', rfl⟩ := Option.mem_map.mp hr
  exact (hruns r' hr').1

/-- The path 0 - 1 - 2, whose edge (1, 2) is deleted and inserted again, so
that the first query runs Boruvka on the sketch of both edges of node 1;
then (0, 1) deleted and asked for again. -/
theorem concrete_session_answers_components_path :
    Sketch.SoundOn ⟨4, 9, 3, 1⟩ (fun a _ => a + 1) {1, 4294967298} ∧
      (∀ x ∈ ({1, 4294967298} : Finset UInt64),
        (invConcatPairingFn x).src.toNat < 3 ∧ (invConcatPairingFn x).dst.toNat < 3) ∧
      (∀ p ∈ [(Op.update ⟨⟨0, 1⟩, .insert⟩, []), (.update ⟨⟨1, 2⟩, .insert⟩, []),
          (.update ⟨⟨1, 2⟩, .delete⟩, []), (.update ⟨⟨1, 2⟩, .insert⟩, []),
          (.connectedComponents true, [(0, [1]), (1, [0, 2, 2, 2]), (2, [1, 1, 1])]),
          (.update ⟨⟨0, 1⟩, .delete⟩, []), (.connectedComponents true, [(0, [1]), (1, [0])])], SessionOp 3 p.1) ∧
      (∀ p ∈ [(Op.update ⟨⟨0, 1⟩, .insert⟩, []), (.update ⟨⟨1, 2⟩, .insert⟩, []),
          (.update ⟨⟨1, 2⟩, .delete⟩, []), (.update ⟨⟨1, 2⟩, .insert⟩, []),
          (.connectedComponents true, [(0, [1]), (1, [0, 2, 2, 2]), (2, [1, 1, 1])]),
          (.update ⟨⟨0, 1⟩, .delete⟩, []), (.connectedComponents true, [(0, [1]), (1, [0])])],
        BatchesIn (fun x => x ∈ ({1, 4294967298} : Finset UInt64)) p.2) ∧
      HandsOver (Sketch.ops ⟨4, 9, 3, 1⟩ fun a _ => a + 1) ⟨2, 3⟩ 4 [(Op.update ⟨⟨0, 1⟩, .insert⟩, []), (.update ⟨⟨1, 2⟩, .insert⟩, []),
          (.update ⟨⟨1, 2⟩, .delete⟩, []), (.update ⟨⟨1, 2⟩, .insert⟩, []),
          (.connectedComponents true, [(0, [1]), (1, [0, 2, 2, 2]), (2, [1, 1, 1])]),
          (.update ⟨⟨0, 1⟩, .delete⟩, []), (.connectedComponents true, [(0, [1]), (1, [0])])]
        (init (Sketch.ops ⟨4, 9, 3, 1⟩ fun a _ => a + 1) ⟨2, 3⟩ 3 0 {}) ∧
      (run (Sketch.ops ⟨4, 9, 3, 1⟩ fun a _ => a + 1) ⟨2, 3⟩ 4 [(Op.update ⟨⟨0, 1⟩, .insert⟩, []), (.update ⟨⟨1, 2⟩, .insert⟩, []),
          (.update ⟨⟨1, 2⟩, .delete⟩, []), (.update ⟨⟨1, 2⟩, .insert⟩, []),
          (.connectedComponents true, [(0, [1]), (1, [0, 2, 2, 2]), (2, [1, 1, 1])]),
          (.update ⟨⟨0, 1⟩, .delete⟩, []), (.connectedComponents true, [(0, [1]), (1, [0])])]
          (init (Sketch.ops ⟨4, 9, 3, 1⟩ fun a _ => a + 1) ⟨2, 3⟩ 3 0 {})).isSome ∧
        ∀ r ∈ run (Sketch.ops ⟨4, 9, 3, 1⟩ fun a _ => a + 1) ⟨2, 3⟩ 4 [(Op.update ⟨⟨0, 1⟩, .insert⟩, []), (.update ⟨⟨1, 2⟩, .insert⟩, []),
          (.update ⟨⟨1, 2⟩, .delete⟩, []), (.update ⟨⟨1, 2⟩, .insert⟩, []),
          (.connectedComponents true, [(0, [1]), (1, [0, 2, 2, 2]), (2, [1, 1, 1])]),
          (.update ⟨⟨0, 1⟩, .delete⟩, []), (.connectedComponents true, [(0, [1]), (1, [0])])]
            (init (Sketch.ops ⟨4, 9, 3, 1⟩ fun a _ => a + 1) ⟨2, 3⟩ 3 0 {}),
          RightAnswers 3 [] (List.map Prod.fst [(Op.update ⟨⟨0, 1⟩, .insert⟩, []), (.update ⟨⟨1, 2⟩, .insert⟩, []),
          (.update ⟨⟨1, 2⟩, .delete⟩, []), (.update ⟨⟨1, 2⟩, .insert⟩, []),
          (.connectedComponents true, [(0, [1]), (1, [0, 2, 2, 2]), (2, [1, 1, 1])]),
          (.update ⟨⟨0, 1⟩, .delete⟩, []), (.connectedComponents true, [(0, [1]), (1, [0])])]) r.2 := by
  have hUn : ∀ x ∈ ({1, 4294967298} : Finset UInt64),
      (invConcatPairingFn x).src.toNat < 3 ∧ (invConcatPairingFn x).dst.toNat < 3 := by
    simp only [Finset.mem_insert, Finset.mem_singleton, forall_eq_or_imp, forall_eq]
    exact ⟨⟨by decide, by decide⟩, by decide, by decide⟩
  have hhand : HandsOver (Sketch.ops ⟨4, 9, 3, 1⟩ fun a _ => a + 1) ⟨2, 3⟩ 4
      [(Op.update ⟨⟨0, 1⟩, .insert⟩, []), (.update ⟨⟨1, 2⟩, .insert⟩, []),
        (.update ⟨⟨1, 2⟩, .delete⟩, []), (.update ⟨⟨1, 2⟩, .insert⟩, []),
        (.connectedComponents true, [(0, [1]), (1, [0, 2, 2, 2]), (2, [1, 1, 1])]),
        (.update ⟨⟨0, 1⟩, .delete⟩, []), (.connectedComponents true, [(0, [1]), (1, [0])])]
      (init (Sketch.ops ⟨4, 9, 3, 1⟩ fun a _ => a + 1) ⟨2, 3⟩ 3 0 {}) := by
    decide +kernel
  exact ⟨Sketch.soundOn_path3, hUn, by decide, by decide, hhand,
    concrete_session_answers_components Sketch.soundOn_path3 hUn ⟨2, 3⟩ 4 0 {} (by decide)
      (by decide) hhand⟩

/-- Every operation of that session returns on the concrete sketches, the
queries answer the path and then the edge (1, 2) alone, and the last flush
leaves nothing pending. -/
example :
    (run (Sketch.ops ⟨4, 9, 3, 1⟩ fun a _ => a + 1) ⟨2, 3⟩ 4 [(Op.update ⟨⟨0, 1⟩, .insert⟩, []), (.update ⟨⟨1, 2⟩, .insert⟩, []),
          (.update ⟨⟨1, 2⟩, .delete⟩, []), (.update ⟨⟨1, 2⟩, .insert⟩, []),
          (.connectedComponents true, [(0, [1]), (1, [0, 2, 2, 2]), (2, [1, 1, 1])]),
          (.update ⟨⟨0, 1⟩, .delete⟩, []), (.connectedComponents true, [(0, [1]), (1, [0])])]
        (init (Sketch.ops ⟨4, 9, 3, 1⟩ fun a _ => a + 1) ⟨2, 3⟩ 3 0 {})).map
        (fun r => (r.1.gutters, r.2.map Except.isOk))
      = some ([], [true, true, true, true, true, true, true]) := by
  decide +kernel

end Concrete

end GraphZeppelin

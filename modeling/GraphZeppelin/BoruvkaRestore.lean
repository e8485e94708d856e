import GraphZeppelin.BoruvkaCorrect

/-!
# A continuing query puts the supernodes back

A continuing query (`connected_components(true)`, and every
`point_query`) runs Boruvka on the supernodes and must leave them ready to
take more updates: every sketch bucket-equal to what it was before the run,
with nothing sampled and every queried flag cleared. Boruvka merges in
place, so it saves what it is about to change: in the first round, after
sampling, the supernodes it merges into (`backed_up`) are copied in memory
or written to the backup file, and `cleanup_copy` puts them back whether
the run returns or throws. The query then resets the query state of every
supernode.

Only the supernodes of the first round's merges are saved. That is enough
because no other supernode is ever merged into: after the first round a
node outside `backed_up` is either not a root or the root of a class no
edge leaves (`CutInv.closed`), and the lists of a round never join such a
class to another (`CutInv.toMerge_eq_nil_of_closed`): every edge the new
spanning forest gains is a good answer, an edge of the graph, and an edge at
a closed class stays inside it. The proof reads the supernodes with the
abstract sketches, and that argument needs the sketches of every node to
hold the edges at it, as after a flush.

`Holds s0 s` says what a query leaves of a supernode `s0`: the seed and the
vector of every sketch, the merge bound, and no flag set on a sketch still
to be sampled. Sampling and copying keep it, and so does reading a written
supernode back from the backup file when every sketch is seeded as the
constructor seeds it (`Fresh`). `SavedInv` says that every supernode
outside `backed_up` holds its original, and that the copy or the file entry
of every one inside does; every round keeps it (`SavedInv.round`), so
`cleanup_copy` puts the originals back (`SavedInv.cleanupCopy`) and
`reset_query_state` finishes the job (`Holds.restored`). The supernodes of a
graph that a stream built are fresh after the flush (`fresh_flush`): the
workers only add delta supernodes into them.
-/

namespace GraphZeppelin

open ParentForest Connectivity GraphZeppelin.Graph

/-! ## Supernodes up to their query state -/

section Holds

variable (conf : SupernodeConfig)

/-- **A supernode no query has touched**: nothing sampled, all
`max_sketches` sketches mergeable and unqueried, and the sketch `j` seeded
with `seed + j * sketch_width`, as `Supernode(n, seed)` seeds it. -/
structure Fresh (seed : UInt64) (s : Supernode VecSketch) : Prop where
  sampleIdx : s.sampleIdx = 0
  mergedSketches : s.mergedSketches = conf.maxSketches
  unqueried : ∀ j < conf.maxSketches, (s.sketches j).alreadyQueried = false
  /-- the reader of the backup file reseeds every sketch this way -/
  seed : ∀ j < conf.maxSketches, (s.sketches j).seed = seed + j.toUInt64 * conf.sketchWidth

/-- **`s` holds the sketches of `s0`** up to its query state: the same merge
bound, every sketch with the seed and the vector of `s0`'s, and none of
those still to be sampled marked queried. -/
structure Holds (s0 s : Supernode VecSketch) : Prop where
  mergedSketches : s.mergedSketches = s0.mergedSketches
  sketch : ∀ j < conf.maxSketches,
    (s.sketches j).seed = (s0.sketches j).seed ∧ (s.sketches j).vec = (s0.sketches j).vec
  unqueried : ∀ j < conf.maxSketches, s.sampleIdx ≤ j → (s.sketches j).alreadyQueried = false

/-- **`s` is `s0` with its query state reset**: nothing sampled, all
`max_sketches` sketches mergeable, and each the sketch of `s0`, same seed
and same buckets, with its queried flag cleared. -/
def Restored (s0 s : Supernode VecSketch) : Prop :=
  s.sampleIdx = 0 ∧ s.mergedSketches = conf.maxSketches ∧
    ∀ j < conf.maxSketches, s.sketches j = { s0.sketches j with alreadyQueried := false }

instance (s0 s : Supernode VecSketch) : Decidable (Restored conf s0 s) :=
  inferInstanceAs (Decidable (_ ∧ _ ∧ _))

variable {conf} {oracle : UInt64 → Finset UInt64 → UInt64 × SampleSketchRet}
  {s0 s : Supernode VecSketch} {seed : UInt64}

theorem Fresh.holds (h : Fresh conf seed s0) : Holds conf s0 s0 where
  mergedSketches := rfl
  sketch _ _ := ⟨rfl, rfl⟩
  unqueried j hj _ := h.unqueried j hj

/-- **Sampling keeps what a supernode holds**: the query marks the sketch it
uses, which is then below the sample index. -/
theorem Holds.sample (h : Holds conf s0 s) :
    Holds conf s0 (Supernode.sample (VecSketch.ops oracle) s).1 := by
  rcases hs : Supernode.sample (VecSketch.ops oracle) s with ⟨s', r⟩
  dsimp only
  cases r with
  | error e =>
    rcases Supernode.sample_eq_error _ hs with ⟨-, -, rfl⟩ | ⟨-, -, rfl⟩
    · exact h
    · exact ⟨h.mergedSketches, h.sketch, fun j hj hle => h.unqueried j hj (Nat.le_of_succ_le hle)⟩
  | ok r =>
    obtain ⟨-, sk, x, hq, -, rfl⟩ := Supernode.sample_eq_ok _ hs
    obtain ⟨rfl, -⟩ := VecSketch.query_eq_ok oracle hq
    refine ⟨h.mergedSketches, fun j hj => ?_, fun j hj hle => ?_⟩
    · show (Function.update s.sketches s.sampleIdx _ j).seed = _ ∧
        (Function.update s.sketches s.sampleIdx _ j).vec = _
      by_cases hjs : j = s.sampleIdx
      · rw [hjs, Function.update_self]
        exact hjs ▸ h.sketch j hj
      · rw [Function.update_of_ne hjs]
        exact h.sketch j hj
    · -- the queried sketch lies below the new index
      have hne : j ≠ s.sampleIdx := Nat.ne_of_gt hle
      show (Function.update s.sketches s.sampleIdx _ j).alreadyQueried = false
      rw [Function.update_of_ne hne]
      exact h.unqueried j hj (Nat.le_of_succ_le hle)

/-- The copy constructor clears flags and keeps everything else. -/
theorem Holds.copy (h : Holds conf s0 s) : Holds conf s0 (Supernode.copy (VecSketch.ops oracle) s) := by
  have hcopy : ∀ j, (Supernode.copy (VecSketch.ops oracle) s).sketches j
      = if j < s.numSketches then { s.sketches j with alreadyQueried := false } else s.sketches j :=
    fun _ => rfl
  refine ⟨h.mergedSketches, fun j hj => ?_, fun j hj hle => ?_⟩
  · rw [hcopy]
    split
    · exact h.sketch j hj
    · exact h.sketch j hj
  · rw [hcopy]
    split
    · rfl
    · exact h.unqueried j hj hle

/-- **Reading a written supernode back from the backup file** gives what the
writer held, when the original was seeded as the constructor seeds it: the
reader reseeds every sketch that way and resets the rest. -/
theorem Holds.reload (hf : Fresh conf seed s0) (h : Holds conf s0 s) (n : UInt64) :
    Holds conf s0 (Supernode.reload (VecSketch.ops oracle) conf n seed s) := by
  refine ⟨hf.mergedSketches.symm, fun j hj => ⟨(hf.seed j hj).symm, (h.sketch j hj).2⟩,
    fun _ _ _ => rfl⟩

/-- An unqueried sketch with the seed and the vector of `t0` is `t0` with
its flag cleared. -/
theorem VecSketch.eq_of_unqueried {t t0 : VecSketch} (hseed : t.seed = t0.seed)
    (hvec : t.vec = t0.vec) (hq : t.alreadyQueried = false) :
    t = { t0 with alreadyQueried := false } := by
  obtain ⟨sd, v, q⟩ := t
  dsimp only at hseed hvec hq
  rw [hseed, hvec, hq]

/-- **`reset_query_state` finishes the restore**: the sampled sketches get
their flags cleared, and the others had none set. -/
theorem Holds.restored (hf : Fresh conf seed s0) (h : Holds conf s0 s) :
    Restored conf s0 (Supernode.resetQueryState (VecSketch.ops oracle) s) := by
  refine ⟨rfl, h.mergedSketches.trans hf.mergedSketches, fun j hj => ?_⟩
  obtain ⟨hseed, hvec⟩ := h.sketch j hj
  show (if j < s.sampleIdx then (VecSketch.ops oracle).resetQueried (s.sketches j)
    else s.sketches j) = _
  split
  · exact VecSketch.eq_of_unqueried hseed hvec rfl
  · rename_i hle
    exact VecSketch.eq_of_unqueried hseed hvec (h.unqueried j hj (Nat.le_of_not_lt hle))

end Holds

/-! ## A closed class is never merged into -/

section Closed

variable {oracle : UInt64 → Finset UInt64 → UInt64 × SampleSketchRet} {E : Finset (ℕ × ℕ)}
  {n : ℕ} {st : BoruvkaState VecSketch} {g1 : Graph VecSketch}
  {query : ℕ → Edge × SampleSketchRet}

/-- **A round never joins a closed class to another**: the root of a class
no edge leaves gets an empty list. The new spanning forest connects every
node to its new root, and each of its edges is an old one, inside an old
class, or a good answer, an edge of the graph, which stays inside a closed
class; so the old roots under the root of a closed class are in its class,
and the only one is the root itself. -/
theorem CutInv.toMerge_eq_nil_of_closed (hsound : OracleSound oracle) (hE : EdgesBelow n E)
    (hE32 : EdgesBelow (2 ^ 32) E) (h : CutInv E n st)
    (hs : Sampled (VecSketch.ops oracle) st.reps { st.graph with modified := false } g1 query)
    {R : ℕ} (hR : R ∈ roots st.graph.parent n) (hcut : cut E (classOf st.graph.parent n R) = ∅) :
    (supernodesToMerge query st.reps g1).2.2 R = [] := by
  have hinv := h.toMergeInv hsound hE hE32 hs
  have hl := h.mergeLists hs hinv
  have hn : g1.numNodes = n := hs.numNodes_eq.trans h.numNodes
  -- an edge of the new spanning forest has both ends in the old class of `R` or neither
  have hedge : ∀ u v, v ∈ (supernodesToMerge query st.reps g1).1.spanningForest u →
      (root st.graph.parent n u = R ↔ root st.graph.parent n v = R) := by
    intro u v huv
    rcases hinv.forest_mem u v huv with hold | ⟨i, hi, hq, rfl, rfl⟩
    · rw [hs.spanningForest_eq] at hold
      rw [h.forest.root_eq u v hold]
    · obtain ⟨C, hC, hsum⟩ := h.sketch_edges i (h.reps_lt i hi)
      have he := hC (hs.good_mem hsound hE32 hi hC hsum hq)
      obtain ⟨hlt, hlt'⟩ := hE _ he
      rw [min_eq_left hlt.le, max_eq_right hlt.le]
      have hiff := cut_eq_empty_iff.mp hcut _ he
      simp only [mem_classOf] at hiff
      exact ⟨fun h1 => (hiff.mp ⟨hlt.trans hlt', h1⟩).2, fun h2 => (hiff.mpr ⟨hlt', h2⟩).2⟩
  have hpath : ∀ x y, Relation.EqvGen
      (forestAdj (supernodesToMerge query st.reps g1).1.spanningForest) x y →
      (root st.graph.parent n x = R ↔ root st.graph.parent n y = R) := by
    intro x y hxy
    induction hxy with
    | rel x y hxy =>
      rcases hxy with hxy | hyx
      · exact hedge x y hxy
      · exact (hedge y x hyx).symm
    | refl x => exact Iff.rfl
    | symm x y _ ih => exact ih.symm
    | trans x y z _ _ ih1 ih2 => exact ih1.trans ih2
  by_contra hne
  obtain ⟨r', hr'⟩ := List.exists_mem_of_ne_nil _ hne
  obtain ⟨h0, hne', hroot⟩ := (hl.mem_iff R (hl.mem_roots_of_ne_nil R hne) r').mp hr'
  -- `r'` reaches its new root `R` along the forest, so it lies in the old class of `R`
  have hreach := hinv.forest.reach r' (hn ▸ (mem_roots.mp h0).1)
  rw [hn, ← supernodesToMerge_fst] at hreach
  have hR0 : root st.graph.parent n R = R := root_of_isRoot (mem_roots.mp hR).2
  have hr0 : root st.graph.parent n r' = r' := root_of_isRoot (mem_roots.mp h0).2
  have hin := (hpath _ _ hreach).mpr (by rw [hroot, hR0])
  exact hne' (hr0.symm.trans hin)

end Closed

/-! ## The backups of a continuing run -/

section Saved

variable (conf : SupernodeConfig)

/-- **What a continuing run keeps of the graph `g0` it started on**: every
supernode outside `backed_up` holds its original, and so does the copy in
memory, or the entry of the backup file, of every one inside. Nothing is
backed up before the first round has merged, and after it every
representative is backed up. -/
structure SavedInv (g0 : Graph VecSketch) (st : BoruvkaState VecSketch) : Prop where
  numNodes : st.graph.numNodes = g0.numNodes
  seed : st.graph.seed = g0.seed
  config : st.graph.config = g0.config
  first : st.firstRound = true → st.backedUp = []
  reps_backedUp : st.firstRound = false → ∀ r ∈ st.reps, r ∈ st.backedUp
  other : ∀ u < g0.numNodes, u ∉ st.backedUp →
    Holds conf (g0.supernodes u) (st.graph.supernodes u)
  inMem : st.graph.config.backupInMem = true → ∀ u < g0.numNodes, u ∈ st.backedUp →
    ∃ c, st.copySupernodes u = some c ∧ Holds conf (g0.supernodes u) c
  /-- `restore_from_disk` reads the file back in the order of `backed_up`,
  unless the process has exited -/
  onDisk : st.graph.config.backupInMem = false → st.graph.exited = false →
    ∃ f : ℕ → Supernode VecSketch,
    st.backedUp.zip st.graph.backupFile = st.backedUp.map (fun u => (u, f u)) ∧
      ∀ u < g0.numNodes, u ∈ st.backedUp → Holds conf (g0.supernodes u) (f u)

variable {conf} {oracle : UInt64 → Finset UInt64 → UInt64 × SampleSketchRet}
  {E : Finset (ℕ × ℕ)} {g0 g1 : Graph VecSketch} {st : BoruvkaState VecSketch}
  {query : ℕ → Edge × SampleSketchRet}

theorem SavedInv.start (hfresh : ∀ u < g0.numNodes, Fresh conf g0.seed (g0.supernodes u)) :
    SavedInv conf g0 (boruvkaStart g0) where
  numNodes := rfl
  seed := rfl
  config := rfl
  first _ := rfl
  reps_backedUp h := by cases h
  other u hu _ := (hfresh u hu).holds
  inMem _ _ _ h := absurd h List.not_mem_nil
  onDisk _ _ := ⟨g0.supernodes, rfl, fun _ _ h => absurd h List.not_mem_nil⟩

/-- The supernodes after sampling hold the originals wherever those before
it did. -/
theorem SavedInv.holds_sampled (h : SavedInv conf g0 st)
    (hs : Sampled (VecSketch.ops oracle) st.reps { st.graph with modified := false } g1 query)
    {u : ℕ} (hu : u < g0.numNodes) (hb : u ∉ st.backedUp) :
    Holds conf (g0.supernodes u) (g1.supernodes u) := by
  by_cases hr : u ∈ st.reps
  · have hfst := congrArg Prod.fst (hs.sample u hr)
    dsimp only at hfst
    rw [← hfst]
    exact (h.other u hu hb).sample
  · rw [hs.other u hr]
    exact h.other u hu hb

/-- **A round that threw while sampling keeps the backups**: sampling
touches no copy and no file, and each supernode it samples keeps what it
holds. -/
theorem SavedInv.sampled (h : SavedInv conf g0 st) :
    SavedInv conf g0 { st with
      graph := (sampleSupernodes (VecSketch.ops oracle) st.query st.reps
        { st.graph with modified := false }).1
      query := (sampleSupernodes (VecSketch.ops oracle) st.query st.reps
        { st.graph with modified := false }).2.1 } := by
  refine ⟨h.numNodes, h.seed, h.config, h.first, h.reps_backedUp, fun u hu hb => ?_, h.inMem,
    h.onDisk⟩
  show Holds conf (g0.supernodes u)
    (if u ∈ st.reps then (Supernode.sample (VecSketch.ops oracle) (st.graph.supernodes u)).1
      else st.graph.supernodes u)
  split
  · exact (h.other u hu hb).sample
  · exact h.other u hu hb

/-- **After the first round every new representative is backed up
already**: it failed and was a representative, or it is the root of a
class that gained an edge, and a class outside `backed_up` is closed and
gains none. -/
theorem SavedInv.mem_backedUp_of_newRep (h : SavedInv conf g0 st) (hsound : OracleSound oracle)
    (hE : EdgesBelow g0.numNodes E) (hE32 : EdgesBelow (2 ^ 32) E)
    (hc : CutInv E g0.numNodes st)
    (hs : Sampled (VecSketch.ops oracle) st.reps { st.graph with modified := false } g1 query)
    (hf : st.firstRound = false) {a : ℕ} (ha : a ∈ (supernodesToMerge query st.reps g1).2.1) :
    a ∈ st.backedUp := by
  have hinv := hc.toMergeInv hsound hE hE32 hs
  have hl := hc.mergeLists hs hinv
  rcases mem_supernodesToMerge_reps.mp ha with ⟨hfail, -⟩ | ⟨-, hne⟩
  · exact h.reps_backedUp hf a (hinv.failed_sublist.subset hfail)
  · by_contra hab
    have hR := hl.roots_subset (hl.mem_roots_of_ne_nil a hne)
    have hnr : a ∉ st.reps := fun hr => hab (h.reps_backedUp hf a hr)
    exact hne (hc.toMerge_eq_nil_of_closed hsound hE hE32 hs hR (hc.closed a hR hnr))

/-- **A round that merged keeps the backups.** In the first round the new
representatives are saved, copied after their sampling or written to the
file; in a later one every new representative is saved already, for no
supernode outside `backed_up` is merged into. -/
theorem SavedInv.roundMerge (hsound : OracleSound oracle) (hE : EdgesBelow g0.numNodes E)
    (hE32 : EdgesBelow (2 ^ 32) E) (hc : CutInv E g0.numNodes st) (h : SavedInv conf g0 st)
    (hs : Sampled (VecSketch.ops oracle) st.reps { st.graph with modified := false } g1 query) :
    SavedInv conf g0 (Graph.roundMerge (VecSketch.ops oracle) true st g1 query).1 := by
  have hinv := hc.toMergeInv hsound hE hE32 hs
  -- `supernodes_to_merge` changes only the forests of the sampled graph
  have hsup : (supernodesToMerge query st.reps g1).1.supernodes = g1.supernodes :=
    hinv.supernodes_eq
  have hseed : (supernodesToMerge query st.reps g1).1.seed = g0.seed :=
    (congrArg Graph.seed hinv.frame).trans ((congrArg Graph.seed hs.frame).trans h.seed)
  have hcfg : (supernodesToMerge query st.reps g1).1.config = g0.config :=
    (congrArg Graph.config hinv.frame).trans ((congrArg Graph.config hs.frame).trans h.config)
  have hfile1 : g1.backupFile = st.graph.backupFile := by
    rw [hs.frame]
  have hfile : (supernodesToMerge query st.reps g1).1.backupFile = st.graph.backupFile :=
    (congrArg Graph.backupFile hinv.frame).trans hfile1
  have hexit : (supernodesToMerge query st.reps g1).1.exited = st.graph.exited :=
    (congrArg Graph.exited hinv.frame).trans (by rw [hs.frame])
  have hcfg' : (Graph.roundMerge (VecSketch.ops oracle) true st g1 query).1.graph.config
      = g0.config := by
    rw [roundMerge_config]
    exact hcfg
  have hsub : st.firstRound = false →
      ∀ a ∈ (supernodesToMerge query st.reps g1).2.1, a ∈ st.backedUp :=
    fun hf _ ha => h.mem_backedUp_of_newRep hsound hE hE32 hc hs hf ha
  -- in the first round nothing is backed up yet: every sampled supernode holds its original
  have hfirst : st.firstRound = true → ∀ u < g0.numNodes,
      Holds conf (g0.supernodes u) (g1.supernodes u) := fun hfr u hu =>
    h.holds_sampled hs hu (by rw [h.first hfr]; exact List.not_mem_nil)
  -- a supernode that is not a new representative is the sampled one
  have hkept : ∀ a ∉ (supernodesToMerge query st.reps g1).2.1,
      (Graph.roundMerge (VecSketch.ops oracle) true st g1 query).1.graph.supernodes a
        = g1.supernodes a := by
    intro a ha
    rw [roundMerge_supernodes_foldl hinv, toMerge_eq_nil_of_not_mem hinv ha, List.foldl_nil]
  refine ⟨?_, ?_, hcfg', fun hf => absurd hf (by rw [roundMerge_firstRound]; decide),
    fun _ r hr => ?_, fun u hu hb => ?_, fun hmem u hu hb => ?_, fun hdisk hx => ?_⟩
  · rw [roundMerge_numNodes, supernodesToMerge_fst, hinv.numNodes_eq, hs.numNodes_eq]
    exact h.numNodes
  · rw [roundMerge_seed]
    exact hseed
  · rw [roundMerge_reps] at hr
    rw [roundMerge_backedUp]
    cases hfr : st.firstRound
    · simp only [Bool.true_and, Bool.false_eq_true, if_false]
      exact hsub hfr r hr
    · simp only [Bool.true_and, if_true]
      exact hr
  · rw [roundMerge_backedUp] at hb
    cases hfr : st.firstRound
    · simp only [hfr, Bool.true_and, Bool.false_eq_true, if_false] at hb
      rw [hkept u fun hN => hb (hsub hfr u hN)]
      exact h.holds_sampled hs hu hb
    · simp only [hfr, Bool.true_and, if_true] at hb
      rw [hkept u hb]
      exact hfirst hfr u hu
  · rw [hcfg'] at hmem
    rw [roundMerge_backedUp] at hb
    rw [roundMerge_copySupernodes]
    cases hfr : st.firstRound
    · simp only [hfr, Bool.true_and, Bool.false_eq_true, if_false] at hb
      simp only [Bool.false_and, Bool.false_eq_true, false_and, and_false, if_false]
      exact h.inMem (h.config ▸ hmem) u hu hb
    · simp only [hfr, Bool.true_and, if_true] at hb
      -- the copy is taken after the first sampling
      rw [if_pos ⟨hb, rfl, hcfg ▸ hmem⟩, hsup]
      exact ⟨_, rfl, (hfirst hfr u hu).copy⟩
  · rw [hcfg'] at hdisk
    rw [roundMerge_graph] at hx
    rw [roundMerge_backedUp, roundMerge_graph]
    cases hfr : st.firstRound
    · -- a later round writes nothing: the file and the mark are those before it
      simp only [hfr, Bool.true_and, Bool.false_and, Bool.false_eq_true, if_false] at hx ⊢
      rw [hfile]
      exact h.onDisk (h.config ▸ hdisk) (hexit ▸ hx)
    · -- the file holds the sampled supernodes of the new representatives
      have hwrite : (!(supernodesToMerge query st.reps g1).1.config.backupInMem) = true := by
        rw [hcfg, hdisk]
        rfl
      simp only [hfr, Bool.true_and, if_true, if_pos hwrite] at hx ⊢
      rw [backupToDisk_eq] at hx ⊢
      cases hw : (supernodesToMerge query st.reps g1).1.config.diskDir.writable
      · -- a file that cannot be written ends the process
        simp only [hw, Bool.not_false, Bool.true_or, Bool.true_eq_false] at hx
      · rw [if_pos rfl, hsup, ← List.map_prod_left_eq_zip]
        exact ⟨g1.supernodes, rfl, fun u hu _ => hfirst hfr u hu⟩

/-- **Every round keeps the backups**, whether it threw while sampling or
went on to merge. -/
theorem SavedInv.round (hsound : OracleSound oracle) (hE : EdgesBelow g0.numNodes E)
    (hE32 : EdgesBelow (2 ^ 32) E) (hc : CutInv E g0.numNodes st) (h : SavedInv conf g0 st) :
    SavedInv conf g0 (Graph.round (VecSketch.ops oracle) true st).1 := by
  cases hS : (Graph.sampleSupernodes (VecSketch.ops oracle) st.query st.reps
      { st.graph with modified := false }).2.2 with
  | some e =>
    have hr : (Graph.round (VecSketch.ops oracle) true st).1 = { st with
        graph := (Graph.sampleSupernodes (VecSketch.ops oracle) st.query st.reps
          { st.graph with modified := false }).1
        query := (Graph.sampleSupernodes (VecSketch.ops oracle) st.query st.reps
          { st.graph with modified := false }).2.1 } := by
      simp only [Graph.round, hS]
    rw [hr]
    exact h.sampled
  | none =>
    rw [round_of_none _ hS]
    exact h.roundMerge hsound hE hE32 hc (sampled_of_none _ hS)

/-- **The state a continuing run stops in keeps the backups**, whether the
run returned or threw: the rounds that go on keep `CutInv` and `SavedInv`,
and the one that stops is a round too. -/
theorem SavedInv.of_boruvkaLoop (hsound : OracleSound oracle) (hE : EdgesBelow g0.numNodes E)
    (hE32 : EdgesBelow (2 ^ 32) E) (hc : CutInv E g0.numNodes st) (h : SavedInv conf g0 st)
    {k : ℕ} {r : BoruvkaState VecSketch × Option Exception}
    (hl : boruvkaLoop (VecSketch.ops oracle) true k st = some r) : SavedInv conf g0 r.1 := by
  obtain ⟨a, ⟨hca, ha⟩, hbody⟩ := Loop.iterate_induction
    (fun a => CutInv E g0.numNodes a ∧ SavedInv conf g0 a)
    (fun a a' ha hb => by
      obtain ⟨hr, -⟩ := boruvkaBody_eq_inl _ hb
      have hsave := ha.2.round hsound hE hE32 ha.1
      rw [hr] at hsave
      exact ⟨ha.1.round hsound hE hE32 hr, hsave⟩) k st r ⟨hc, h⟩ hl
  rw [boruvkaBody_eq_inr _ hbody]
  exact ha.round hsound hE hE32 hca

/-- Putting the copies back: each listed node gets its copy, if it has one. -/
theorem foldl_update_getD {α : Type} (cs : ℕ → Option α) (l : List ℕ) (sn : ℕ → α) (u : ℕ) :
    l.foldl (fun sn i => Function.update sn i ((cs i).getD (sn i))) sn u
      = if u ∈ l then (cs u).getD (sn u) else sn u := by
  induction l generalizing sn with
  | nil => rfl
  | cons i l ih =>
    rw [List.foldl_cons, ih]
    by_cases hui : u = i
    · subst hui
      rw [Function.update_self, if_pos List.mem_cons_self]
      split
      · cases cs u <;> rfl
      · rfl
    · rw [Function.update_of_ne hui]
      simp only [List.mem_cons, hui, false_or]

/-- Reading entries back: each listed node gets the entry read for it. -/
theorem foldl_update_map {α β : Type} (F : β → α) (f : ℕ → β) (l : List ℕ) (sn : ℕ → α)
    (u : ℕ) :
    (l.map fun i => (i, f i)).foldl (fun sn r => Function.update sn r.1 (F r.2)) sn u
      = if u ∈ l then F (f u) else sn u := by
  induction l generalizing sn with
  | nil => rfl
  | cons i l ih =>
    rw [List.map_cons, List.foldl_cons, ih]
    by_cases hui : u = i
    · subst hui
      rw [Function.update_self, if_pos List.mem_cons_self]
      split <;> rfl
    · rw [Function.update_of_ne hui]
      simp only [List.mem_cons, hui, false_or]

/-- **`cleanup_copy` puts the originals back**: every saved supernode gets
its copy, or is read back from the file, and every other one holds its
original already. -/
theorem SavedInv.cleanupCopy (h : SavedInv conf g0 st)
    (hfresh : ∀ u < g0.numNodes, Fresh conf g0.seed (g0.supernodes u))
    (hx : (Graph.cleanupCopy (VecSketch.ops oracle) conf true st).exited = false) {u : ℕ}
    (hu : u < g0.numNodes) :
    Holds conf (g0.supernodes u)
      ((Graph.cleanupCopy (VecSketch.ops oracle) conf true st).supernodes u) := by
  unfold Graph.cleanupCopy at hx ⊢
  rw [if_pos rfl] at hx ⊢
  cases hmem : st.graph.config.backupInMem
  · simp only [hmem, Bool.false_eq_true, if_false] at hx ⊢
    unfold restoreFromDisk at hx ⊢
    -- a missing file ends the process; an existing one is read back
    cases hfile : st.graph.backupOnDisk
    · simp only [hfile, Bool.false_eq_true, if_false, Bool.true_eq_false] at hx
    simp only [hfile, if_true] at hx ⊢
    obtain ⟨f, hz, hf⟩ := h.onDisk hmem hx
    rw [hz, foldl_update_map, h.seed]
    split
    · rename_i hb
      exact (hf u hu hb).reload (hfresh u hu) _
    · rename_i hb
      exact h.other u hu hb
  · rw [if_pos rfl]
    show Holds conf (g0.supernodes u) ((st.backedUp.foldl _ st.graph.supernodes) u)
    rw [foldl_update_getD]
    split
    · rename_i hb
      obtain ⟨c, hcs, hc⟩ := h.inMem hmem u hu hb
      rw [hcs]
      exact hc
    · rename_i hb
      exact h.other u hu hb

end Saved

/-! ## Supernodes after a flush -/

section Flush

variable {conf : SupernodeConfig} {oracle : UInt64 → Finset UInt64 → UInt64 × SampleSketchRet}
  {seed : UInt64}

theorem fresh_makeSupernode (n seed : UInt64) :
    Fresh conf seed (Supernode.makeSupernode (VecSketch.ops oracle) conf n seed) :=
  ⟨rfl, rfl, fun _ _ => rfl, fun _ _ => rfl⟩

/-- **A batch keeps a supernode fresh**: the delta supernode is added into
its sketches, which keeps their seeds and sets no flag. -/
theorem Fresh.applyDeltaUpdate {s : Supernode VecSketch} (h : Fresh conf seed s)
    (n seed' : UInt64) (U : List UInt64) :
    Fresh conf seed (Supernode.applyDeltaUpdate (VecSketch.ops oracle) s
      (Supernode.deltaSupernode (VecSketch.ops oracle) conf n seed' U)) := by
  refine ⟨h.sampleIdx, h.mergedSketches, fun j hj => ?_, fun j hj => ?_⟩
  · simp only [Supernode.applyDeltaUpdate, Supernode.deltaSupernode]
    split
    · -- the sketches of a delta supernode are fresh ones with the batch applied
      rw [alreadyQueried_ops_add, h.unqueried j hj, Bool.false_or]
      split
      · rw [alreadyQueried_ops_foldl_update]
        rfl
      · rfl
    · exact h.unqueried j hj
  · simp only [Supernode.applyDeltaUpdate]
    split
    · exact h.seed j hj
    · exact h.seed j hj

/-- A worker's batch keeps every supernode fresh. -/
theorem fresh_workerBatch {g : Graph VecSketch} {u : ℕ} (h : Fresh conf seed (g.supernodes u))
    (b : ℕ × List ℕ) :
    Fresh conf seed ((Graph.workerBatch (VecSketch.ops oracle) conf g b).supernodes u) := by
  cases hl : g.updateLocked
  · rw [supernodes_workerBatch _ _ hl]
    split
    · rw [generateDeltaNode_eq]
      exact h.applyDeltaUpdate _ _ _
    · exact h
  · -- `batch_update` throws and the worker keeps its state
    simp only [Graph.workerBatch, Graph.batchUpdate, hl, if_true]
    exact h

theorem fresh_foldl_workerBatch (batches : List (ℕ × List ℕ)) {g : Graph VecSketch} {u : ℕ}
    (h : Fresh conf seed (g.supernodes u)) :
    Fresh conf seed
      ((batches.foldl (Graph.workerBatch (VecSketch.ops oracle) conf) g).supernodes u) := by
  induction batches generalizing g with
  | nil => exact h
  | cons b bs ih => exact ih (fresh_workerBatch h b)

theorem fresh_forceFlushPauseWorkers {g : Graph VecSketch} {u : ℕ}
    (h : Fresh conf seed (g.supernodes u)) (batches : List (ℕ × List ℕ)) :
    Fresh conf seed
      ((Graph.forceFlushPauseWorkers (VecSketch.ops oracle) conf batches g).supernodes u) := by
  unfold Graph.forceFlushPauseWorkers
  split
  · exact h
  · exact fresh_foldl_workerBatch batches h

/-- **After a flush no supernode of a graph a stream built has been
touched by a query**: the constructor makes them fresh, updates only hand
pairs to the guttering system, and the workers' batches keep them fresh. -/
theorem fresh_flush (n : ℕ) (config : GraphConfiguration) (stream : List GraphUpdate)
    (batches : List (ℕ × List ℕ)) (u : ℕ) :
    Fresh conf seed ((Graph.forceFlushPauseWorkers (VecSketch.ops oracle) conf batches
      (applyUpdates (Graph.init (VecSketch.ops oracle) conf n seed config) stream)).supernodes u) := by
  refine fresh_forceFlushPauseWorkers ?_ batches
  rw [(applyUpdates_frame _ stream).2.2]
  exact fresh_makeSupernode _ _

end Flush

/-! ## The continuing queries -/

section Queries

variable (conf : SupernodeConfig) {oracle : UInt64 → Finset UInt64 → UInt64 × SampleSketchRet}
  {E : Finset (ℕ × ℕ)}

/-- **A continuing Boruvka run leaves every supernode holding its original**,
whether it returned or threw, unless it ended the process, when the
supernode of each node holds the edges at it and no query has touched it. -/
theorem boruvkaEmulation_holds (hsound : OracleSound oracle) {g : Graph VecSketch}
    (hE : EdgesBelow g.numNodes E) (hE32 : EdgesBelow (2 ^ 32) E)
    (hsum : ∀ u < g.numNodes, Summarises (g.supernodes u) (cutVec E {u}))
    (hfresh : ∀ u < g.numNodes, Fresh conf g.seed (g.supernodes u))
    {r : Graph VecSketch × Except Exception (List (Finset ℕ))}
    (hrun : boruvkaEmulation (VecSketch.ops oracle) conf true g = some r)
    (hx : r.1.exited = false) :
    r.1.numNodes = g.numNodes ∧ ∀ u < g.numNodes, Holds conf (g.supernodes u) (r.1.supernodes u) := by
  -- the run ends in the cleaned-up graph, up to its forest
  obtain ⟨⟨st', e⟩, hl, hr⟩ := boruvkaEmulation_graph (VecSketch.ops oracle) conf hrun
  have hsave : SavedInv conf g st' :=
    SavedInv.of_boruvkaLoop hsound hE hE32 (CutInv.start hsum) (SavedInv.start hfresh) hl
  have hc := cleanupCopy_eq (VecSketch.ops oracle) conf true st'
  rw [hr] at hx ⊢
  refine ⟨?_, fun u hu => hsave.cleanupCopy hfresh hx hu⟩
  rw [hc]
  exact hsave.numNodes

/-- **After a continuing query every supernode is restored**: the run left
each holding its original, and the query resets their query state. -/
theorem resumeIngestion_restored {g0 g : Graph VecSketch} (hn : g.numNodes = g0.numNodes)
    (hfresh : ∀ u < g0.numNodes, Fresh conf g0.seed (g0.supernodes u))
    (h : ∀ u < g0.numNodes, Holds conf (g0.supernodes u) (g.supernodes u)) {u : ℕ}
    (hu : u < g0.numNodes) :
    Restored conf (g0.supernodes u) ((resumeIngestion (VecSketch.ops oracle) g).supernodes u) := by
  show Restored conf (g0.supernodes u)
    (if u < g.numNodes then Supernode.resetQueryState (VecSketch.ops oracle) (g.supernodes u)
      else g.supernodes u)
  rw [if_pos (hn ▸ hu)]
  exact (h u hu).restored (hfresh u hu)

/-- A continuing Boruvka run that did not end the process and then
`resume_ingestion`, on the graph the run left or on one with its node count
and supernodes, restore every supernode. -/
theorem boruvkaEmulation_restored (hsound : OracleSound oracle) {g : Graph VecSketch}
    (hE : EdgesBelow g.numNodes E) (hE32 : EdgesBelow (2 ^ 32) E)
    (hsum : ∀ u < g.numNodes, Summarises (g.supernodes u) (cutVec E {u}))
    (hfresh : ∀ u < g.numNodes, Fresh conf g.seed (g.supernodes u))
    {r : Graph VecSketch × Except Exception (List (Finset ℕ))}
    (hrun : boruvkaEmulation (VecSketch.ops oracle) conf true g = some r)
    (hx : r.1.exited = false) {g' : Graph VecSketch}
    (hn : g'.numNodes = r.1.numNodes) (hs : g'.supernodes = r.1.supernodes) {u : ℕ}
    (hu : u < g.numNodes) :
    Restored conf (g.supernodes u) ((resumeIngestion (VecSketch.ops oracle) g').supernodes u) := by
  obtain ⟨hnum, hholds⟩ := boruvkaEmulation_holds conf hsound hE hE32 hsum hfresh hrun hx
  refine resumeIngestion_restored conf (hn.trans hnum) hfresh (fun v hv => ?_) hu
  rw [hs]
  exact hholds v hv

/-- **A continuing query that runs Boruvka puts every supernode back** as
the flush left it, when each holds the edges at its node and no query has
touched it: after `connected_components(true)` or `point_query(a, b)` on
the slow path, whether Boruvka returned or threw, in any round, with the
backups in memory or on disk, every sketch has its seed and its buckets,
unqueried, nothing is sampled and all `max_sketches` are mergeable. The
calls return when every good answer names two nodes. -/
theorem slow_query_restores_supernodes (hsound : OracleSound oracle)
    (batches : List (ℕ × List ℕ)) {g : Graph VecSketch}
    (hE : EdgesBelow g.numNodes E) (hE32 : EdgesBelow (2 ^ 32) E)
    (hsum : ∀ u < g.numNodes, Summarises
      ((forceFlushPauseWorkers (VecSketch.ops oracle) conf batches g).supernodes u) (cutVec E {u}))
    (hfresh : ∀ u < g.numNodes, Fresh conf g.seed
      ((forceFlushPauseWorkers (VecSketch.ops oracle) conf batches g).supernodes u)) :
    (GoodInRange (VecSketch.ops oracle) g.numNodes →
      (connectedComponents (VecSketch.ops oracle) conf batches true g).isSome ∧
        ∀ a b, (pointQuery (VecSketch.ops oracle) conf batches a b g).isSome) ∧
    (∀ r ∈ connectedComponents (VecSketch.ops oracle) conf batches true g,
      (g.dsuValid && !g.failRound2) = false → r.1.exited = false → ∀ u < g.numNodes,
        Restored conf ((forceFlushPauseWorkers (VecSketch.ops oracle) conf batches g).supernodes u)
          (r.1.supernodes u)) ∧
    ∀ a b, ∀ r ∈ pointQuery (VecSketch.ops oracle) conf batches a b g, g.dsuValid = false →
      r.1.exited = false → ∀ u < g.numNodes,
        Restored conf ((forceFlushPauseWorkers (VecSketch.ops oracle) conf batches g).supernodes u)
          (r.1.supernodes u) := by
  -- Boruvka runs on the flushed graph, which has the node count and the seed of `g`
  set g1 := forceFlushPauseWorkers (VecSketch.ops oracle) conf batches g
  have hn1 : g1.numNodes = g.numNodes := numNodes_forceFlushPauseWorkers _ _ _ _
  have hseed : g1.seed = g.seed := seed_forceFlushPauseWorkers _ _ _ _
  have hE1 : EdgesBelow g1.numNodes E := by
    rw [hn1]
    exact hE
  have hsum1 : ∀ u < g1.numNodes, Summarises (g1.supernodes u) (cutVec E {u}) := by
    rw [hn1]
    exact hsum
  have hfresh1 : ∀ u < g1.numNodes, Fresh conf g1.seed (g1.supernodes u) := by
    rw [hn1, hseed]
    exact hfresh
  have hrun : GoodInRange (VecSketch.ops oracle) g.numNodes →
      (boruvkaEmulation (VecSketch.ops oracle) conf true g1).isSome := fun hgood =>
    @isSome_boruvkaEmulation _ (VecSketch.ops oracle) conf true g1 (hn1 ▸ hgood)
      fun i hi => (hfresh1 i hi).mergedSketches.le
  refine ⟨fun hgood => ⟨?_, fun a b => ?_⟩, fun r hr hslow hx u hu => ?_,
    fun a b r hr hslow hx u hu => ?_⟩
  · -- the slow path returns as Boruvka does
    unfold connectedComponents
    split
    · rfl
    · rw [if_pos rfl, Option.isSome_map]
      exact hrun hgood
  · unfold pointQuery
    split
    · rfl
    · rw [Option.isSome_map]
      exact hrun hgood
  · simp only [connectedComponents, Bool.and_true, hslow, Bool.false_eq_true, ↓reduceIte] at hr
    obtain ⟨r', hr', rfl⟩ := Option.mem_map.mp hr
    exact boruvkaEmulation_restored conf hsound hE1 hE32 hsum1 hfresh1 hr' hx rfl rfl (hn1 ▸ hu)
  · simp only [pointQuery, hslow, Bool.false_eq_true, ↓reduceIte] at hr
    obtain ⟨⟨g', e⟩, hr', rfl⟩ := Option.mem_map.mp hr
    -- the answer of the forest and its reset keep the node count and the supernodes
    refine boruvkaEmulation_restored conf hsound hE1 hE32 hsum1 hfresh1 hr' ?_ ?_ ?_ (hn1 ▸ hu)
    · cases e <;> exact hx
    · cases e <;> rfl
    · cases e <;> rfl

/-- Two slow calls on Graph(3), as `Supernode::configure(3, 4)` configures
it, with the edge (0, 1). The first is `connected_components(true)` after a
flush with the verifying build's switch set: it throws in its second round,
with the backups in memory. The second is `point_query(0, 1)` after the edge
was toggled, which leaves the DSU invalid, with the backups in the file: it
answers true. -/
theorem slow_query_restores_supernodes_failCC :
    (connectedComponents (VecSketch.ops minOracle) ⟨2, 3⟩ [] true
        (shouldFailCC (forceFlushPauseWorkers (VecSketch.ops minOracle) ⟨2, 3⟩ [(0, [1]), (1, [0])]
            (applyUpdates (init (VecSketch.ops minOracle) ⟨2, 3⟩ 3 0 {}) [⟨⟨0, 1⟩, .insert⟩])))).map (fun r => r.2.isOk) = some false ∧
      (∀ r ∈ connectedComponents (VecSketch.ops minOracle) ⟨2, 3⟩ [] true
          (shouldFailCC (forceFlushPauseWorkers (VecSketch.ops minOracle) ⟨2, 3⟩ [(0, [1]), (1, [0])]
            (applyUpdates (init (VecSketch.ops minOracle) ⟨2, 3⟩ 3 0 {}) [⟨⟨0, 1⟩, .insert⟩]))),
        (true && !true) = false → r.1.exited = false → ∀ u < 3,
          Restored ⟨2, 3⟩ ((forceFlushPauseWorkers (VecSketch.ops minOracle) ⟨2, 3⟩ []
            (shouldFailCC (forceFlushPauseWorkers (VecSketch.ops minOracle) ⟨2, 3⟩ [(0, [1]), (1, [0])]
            (applyUpdates (init (VecSketch.ops minOracle) ⟨2, 3⟩ 3 0 {}) [⟨⟨0, 1⟩, .insert⟩])))).supernodes u) (r.1.supernodes u)) ∧
      (pointQuery (VecSketch.ops minOracle) ⟨2, 3⟩ [(0, [1, 1, 1]), (1, [0, 0, 0])] 0 1
        (applyUpdates (init (VecSketch.ops minOracle) ⟨2, 3⟩ 3 0 { backupInMem := false })
            [⟨⟨0, 1⟩, .insert⟩, ⟨⟨0, 1⟩, .delete⟩, ⟨⟨0, 1⟩, .insert⟩])).map (fun r => (r.1.exited, r.2)) = some (false, .ok true) ∧
      ((GoodInRange (VecSketch.ops minOracle) 3 →
        (connectedComponents (VecSketch.ops minOracle) ⟨2, 3⟩ [(0, [1, 1, 1]), (1, [0, 0, 0])] true
          (applyUpdates (init (VecSketch.ops minOracle) ⟨2, 3⟩ 3 0 { backupInMem := false })
            [⟨⟨0, 1⟩, .insert⟩, ⟨⟨0, 1⟩, .delete⟩, ⟨⟨0, 1⟩, .insert⟩])).isSome ∧
        ∀ a b, (pointQuery (VecSketch.ops minOracle) ⟨2, 3⟩ [(0, [1, 1, 1]), (1, [0, 0, 0])] a b
          (applyUpdates (init (VecSketch.ops minOracle) ⟨2, 3⟩ 3 0 { backupInMem := false })
            [⟨⟨0, 1⟩, .insert⟩, ⟨⟨0, 1⟩, .delete⟩, ⟨⟨0, 1⟩, .insert⟩])).isSome) ∧
      (∀ r ∈ connectedComponents (VecSketch.ops minOracle) ⟨2, 3⟩ [(0, [1, 1, 1]), (1, [0, 0, 0])] true
          (applyUpdates (init (VecSketch.ops minOracle) ⟨2, 3⟩ 3 0 { backupInMem := false })
            [⟨⟨0, 1⟩, .insert⟩, ⟨⟨0, 1⟩, .delete⟩, ⟨⟨0, 1⟩, .insert⟩]),
        (false && !false) = false → r.1.exited = false → ∀ u < 3,
          Restored ⟨2, 3⟩ ((forceFlushPauseWorkers (VecSketch.ops minOracle) ⟨2, 3⟩ [(0, [1, 1, 1]), (1, [0, 0, 0])]
            (applyUpdates (init (VecSketch.ops minOracle) ⟨2, 3⟩ 3 0 { backupInMem := false })
            [⟨⟨0, 1⟩, .insert⟩, ⟨⟨0, 1⟩, .delete⟩, ⟨⟨0, 1⟩, .insert⟩])).supernodes u) (r.1.supernodes u)) ∧
      ∀ a b, ∀ r ∈ pointQuery (VecSketch.ops minOracle) ⟨2, 3⟩ [(0, [1, 1, 1]), (1, [0, 0, 0])] a b
          (applyUpdates (init (VecSketch.ops minOracle) ⟨2, 3⟩ 3 0 { backupInMem := false })
            [⟨⟨0, 1⟩, .insert⟩, ⟨⟨0, 1⟩, .delete⟩, ⟨⟨0, 1⟩, .insert⟩]),
        false = false → r.1.exited = false → ∀ u < 3,
          Restored ⟨2, 3⟩ ((forceFlushPauseWorkers (VecSketch.ops minOracle) ⟨2, 3⟩ [(0, [1, 1, 1]), (1, [0, 0, 0])]
            (applyUpdates (init (VecSketch.ops minOracle) ⟨2, 3⟩ 3 0 { backupInMem := false })
            [⟨⟨0, 1⟩, .insert⟩, ⟨⟨0, 1⟩, .delete⟩, ⟨⟨0, 1⟩, .insert⟩])).supernodes u) (r.1.supernodes u)) :=
  ⟨by decide,
    (slow_query_restores_supernodes ⟨2, 3⟩ minOracle_sound []
      (g := shouldFailCC (forceFlushPauseWorkers (VecSketch.ops minOracle) ⟨2, 3⟩ [(0, [1]), (1, [0])]
            (applyUpdates (init (VecSketch.ops minOracle) ⟨2, 3⟩ 3 0 {}) [⟨⟨0, 1⟩, .insert⟩])))
      (E := presentEdges [⟨⟨0, 1⟩, .insert⟩]) (edgesBelow_presentEdges (by decide))
      (edgesBelow_two_pow_presentEdges _)
      (fun u _ => by
        rw [forceFlushPauseWorkers_of_paused _ _
          ((paused_shouldFailCC _).trans (paused_forceFlushPauseWorkers _ _ _ _))]
        dsimp only [shouldFailCC]
        exact summarises_flush minOracle ⟨2, 3⟩ 3 0 {} (by decide) (by decide) u)
      (fun u _ => by
        rw [forceFlushPauseWorkers_of_paused _ _
          ((paused_shouldFailCC _).trans (paused_forceFlushPauseWorkers _ _ _ _))]
        dsimp only [shouldFailCC]
        exact fresh_flush 3 {} [⟨⟨0, 1⟩, .insert⟩] [(0, [1]), (1, [0])] u)).2.1,
    by decide,
    slow_query_restores_supernodes ⟨2, 3⟩ minOracle_sound [(0, [1, 1, 1]), (1, [0, 0, 0])]
      (g := applyUpdates (init (VecSketch.ops minOracle) ⟨2, 3⟩ 3 0 { backupInMem := false })
            [⟨⟨0, 1⟩, .insert⟩, ⟨⟨0, 1⟩, .delete⟩, ⟨⟨0, 1⟩, .insert⟩])
      (E := presentEdges [⟨⟨0, 1⟩, .insert⟩, ⟨⟨0, 1⟩, .delete⟩, ⟨⟨0, 1⟩, .insert⟩]) (edgesBelow_presentEdges (by decide))
      (edgesBelow_two_pow_presentEdges _)
      (fun u _ => summarises_flush minOracle ⟨2, 3⟩ 3 0 { backupInMem := false }
        (by decide) (by decide) u)
      (fun u _ => fresh_flush 3 { backupInMem := false }
        [⟨⟨0, 1⟩, .insert⟩, ⟨⟨0, 1⟩, .delete⟩, ⟨⟨0, 1⟩, .insert⟩] [(0, [1, 1, 1]), (1, [0, 0, 0])] u)⟩

/-- A sampler that is sound and fails on every sketch seeded `bad`. -/
def failSeedOracle (bad seed : UInt64) (v : Finset UInt64) : UInt64 × SampleSketchRet :=
  if seed = bad then (0, .fail) else minOracle seed v

theorem failSeedOracle_sound (bad : UInt64) : OracleSound (failSeedOracle bad) := by
  intro seed v
  unfold failSeedOracle
  split
  · trivial
  · exact minOracle_sound seed v

/-- **A slow query can change a supernode it did not back up** when the
supernodes are not as a flush left them. On Graph(6), as
`Supernode::configure(6, 4)` configures it, with the edge (0, 1) and the
verifying build's switch set, `connected_components(false)` merges node 1
into node 0 and throws in its second round, leaving node 0 with two sketches
sampled and the rest empty. With a sampler that fails on every sketch
seeded 3, the slow `connected_components(true)` that follows finds node 0's
next sketch zero, so node 0 is not among the first round's representatives
and is not backed up; in the second round node 1 samples (0, 1) and is
merged into node 0, the run throws, and node 0's last sketch goes from the
zero vector to the edge (0, 1). -/
theorem slow_query_merges_unsaved_root :
    OracleSound (failSeedOracle 3) ∧
      ∃ g ∈ (connectedComponents (VecSketch.ops (failSeedOracle 3)) ⟨4, 3⟩ [(0, [1]), (1, [0])] false
          (shouldFailCC (applyUpdates (init (VecSketch.ops (failSeedOracle 3)) ⟨4, 3⟩ 6 0 {})
            [⟨⟨0, 1⟩, .insert⟩]))).map Prod.fst,
        ∃ r ∈ connectedComponents (VecSketch.ops (failSeedOracle 3)) ⟨4, 3⟩ [] true g,
          (g.dsuValid && !g.failRound2) = false ∧ r.1.exited = false ∧
          r.2 = .error .outOfQueries ∧
          ((g.supernodes 0).sketches 3).vec = ∅ ∧ ((r.1.supernodes 0).sketches 3).vec = {1} ∧
          ¬ Restored ⟨4, 3⟩ ((forceFlushPauseWorkers (VecSketch.ops (failSeedOracle 3)) ⟨4, 3⟩ [] g).supernodes 0)
            (r.1.supernodes 0) := by
  refine ⟨failSeedOracle_sound 3, ?_⟩
  decide +kernel

end Queries

end GraphZeppelin

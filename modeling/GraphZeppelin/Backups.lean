import GraphZeppelin.Session

/-!
# Where Boruvka keeps its backups

`boruvka_emulation` of a continuing query backs up the supernodes it merges
into in its first round, to put them back after the last: as copies in
memory when the configuration says `backup_in_mem`, in the backup file
otherwise. The backups are made in the first round and read back only by
`cleanup_copy`, so whatever the configuration the rounds sample the same
supernodes, make the same unions and the same merges: two states that
differ only in their configuration, their backup file and their exit mark
stay so from round to round (`BoruvkaState.BackupAlike.round`), and the two
loops end alike: the rule that turns a relation every round keeps into one
between the ends of two loops is stated once (`Graph.boruvkaLoop_rel`).
Only the supernodes put back and the exit mark may differ at the end, and
no answer reads the supernodes put back: two runs that exit alike answer
alike (`Graph.BackupAlike.exec`).

What the configuration can change is whether the process survives.
`backup_to_disk` exits when the directory does not let the file be written,
and `restore_from_disk` when the file is not there, as when the first round
of a run throws before it wrote anything. Backups in memory never exit, nor
do backups to a directory that lets the file be written and already holds
it (`Graph.BackupSafe`): a run on such backups keeps the configuration, the
record of the file and the exit mark (`Graph.BackupSafe.exitFields_exec`).

So no answer depends on where the backups go, when neither place can end
the process. For any sketches and from any graph, changing the
configuration and the backup file for other backups that cannot end the
process changes neither whether an operation returns nor what it answers;
neither run exits, and the graphs it leaves differ at most in their
supernodes, configuration and backup file (`exec_backup_independent`).
-/

namespace GraphZeppelin

open ParentForest

namespace Graph

variable {σ : Type}

/-! ## Graphs alike but for their backups -/

/-- The graph with another configuration, another backup file, another
record of whether the file exists, and another exit mark. -/
def withBackup (g : Graph σ) (c : GraphConfiguration) (b : List (Supernode σ)) (d x : Bool) :
    Graph σ :=
  { g with config := c, backupFile := b, backupOnDisk := d, exited := x }

/-- **Two graphs alike but for their backups**: the second is the first
with another configuration, backup file and exit mark. -/
def BackupAlike (g g' : Graph σ) : Prop :=
  ∃ c b d x, g' = g.withBackup c b d x

/-- Two graphs alike but for their backups and their supernodes. -/
def ForestAlike (g g' : Graph σ) : Prop :=
  ∃ c b d x S, g' = { g.withBackup c b d x with supernodes := S }

theorem forestAlike_withBackup (g : Graph σ) (c : GraphConfiguration) (b : List (Supernode σ))
    (d x : Bool) : g.ForestAlike (g.withBackup c b d x) :=
  ⟨c, b, d, x, g.supernodes, rfl⟩

theorem BackupAlike.refl (g : Graph σ) : g.BackupAlike g :=
  ⟨g.config, g.backupFile, g.backupOnDisk, g.exited, rfl⟩

theorem BackupAlike.symm {g g' : Graph σ} (h : g.BackupAlike g') : g'.BackupAlike g := by
  obtain ⟨c, b, d, x, rfl⟩ := h
  exact ⟨g.config, g.backupFile, g.backupOnDisk, g.exited, rfl⟩

theorem BackupAlike.trans {g g' g'' : Graph σ} (h : g.BackupAlike g') (h' : g'.BackupAlike g'') :
    g.BackupAlike g'' := by
  obtain ⟨c, b, d, x, rfl⟩ := h
  obtain ⟨c', b', d', x', rfl⟩ := h'
  exact ⟨c', b', d', x', rfl⟩

theorem BackupAlike.forestAlike {g g' : Graph σ} (h : g.BackupAlike g') : g.ForestAlike g' := by
  obtain ⟨c, b, d, x, rfl⟩ := h
  exact forestAlike_withBackup g c b d x

theorem BackupAlike.modified {g g' : Graph σ} (h : g.BackupAlike g') : g'.modified = g.modified := by
  obtain ⟨c, b, d, x, rfl⟩ := h
  rfl

theorem BackupAlike.failRound2 {g g' : Graph σ} (h : g.BackupAlike g') :
    g'.failRound2 = g.failRound2 := by
  obtain ⟨c, b, d, x, rfl⟩ := h
  rfl

/-- Writing the backup file, or exiting for want of a place to write it,
keeps a graph alike but for its backups. -/
theorem backupAlike_ite_backupToDisk (p : Prop) [Decidable p] (ids : List ℕ) (g : Graph σ) :
    g.BackupAlike (if p then backupToDisk ids g else g) := by
  split
  · rw [backupToDisk_eq]
    exact ⟨_, _, _, _, rfl⟩
  · exact BackupAlike.refl g

/-- Replacing the supernodes and the exit mark keeps two graphs alike but
for them. -/
theorem ForestAlike.with_supernodes {g g' : Graph σ} (h : g.ForestAlike g')
    (S S' : ℕ → Supernode σ) (x x' : Bool) :
    ({ g with supernodes := S, exited := x } : Graph σ).ForestAlike
      { g' with supernodes := S', exited := x' } := by
  obtain ⟨c, b, d, _, _, rfl⟩ := h
  exact ⟨c, b, d, x', S', rfl⟩

/-! ## The functions that never read the backups -/

section Oblivious

variable (c : GraphConfiguration) (b : List (Supernode σ)) (d x : Bool)

theorem getParent_withBackup (g : Graph σ) (v : ℕ) :
    (g.withBackup c b d x).getParent v
      = ((g.getParent v).1.withBackup c b d x, (g.getParent v).2) := rfl

theorem unionBySize_withBackup (g : Graph σ) (u v : ℕ) :
    (g.withBackup c b d x).unionBySize u v
      = ((g.unionBySize u v).1.withBackup c b d x, (g.unionBySize u v).2) := by
  unfold unionBySize
  by_cases hlt : g.size u < g.size v
  · rw [if_pos (show (g.withBackup c b d x).size u < (g.withBackup c b d x).size v from hlt),
      if_pos hlt]
    rfl
  · rw [if_neg (show ¬(g.withBackup c b d x).size u < (g.withBackup c b d x).size v from hlt),
      if_neg hlt]
    rfl

theorem eagerDsu_withBackup (g : Graph σ) (src dst : ℕ) :
    eagerDsu (g.withBackup c b d x) src dst = (eagerDsu g src dst).withBackup c b d x := by
  unfold eagerDsu
  by_cases hin : dst ∈ g.spanningForest src
  · rw [if_pos (show dst ∈ (g.withBackup c b d x).spanningForest src from hin), if_pos hin]
    rfl
  · rw [if_neg (show dst ∉ (g.withBackup c b d x).spanningForest src from hin), if_neg hin]
    dsimp only
    rw [getParent_withBackup, getParent_withBackup]
    by_cases heq : (g.getParent src).2 = ((g.getParent src).1.getParent dst).2
    · rw [if_pos heq, if_pos heq]
    · rw [if_neg heq, if_neg heq, unionBySize_withBackup]
      rfl

theorem update_withBackup (g : Graph σ) (upd : GraphUpdate) :
    (g.withBackup c b d x).update upd = (g.update upd).map (withBackup · c b d x) := by
  rw [update_eq_eagerDsu, update_eq_eagerDsu]
  by_cases hl : g.updateLocked = true
  · rw [if_pos (show (g.withBackup c b d x).updateLocked = true from hl), if_pos hl]
    rfl
  · rw [if_neg (show ¬(g.withBackup c b d x).updateLocked = true from hl), if_neg hl]
    dsimp only
    by_cases hv : g.dsuValid = true
    · rw [if_pos (show (g.withBackup c b d x).dsuValid = true from hv), if_pos hv]
      exact congrArg Except.ok (eagerDsu_withBackup c b d x { g with gutters := g.gutters ++
        [(upd.edge.src.toNat, upd.edge.dst.toNat), (upd.edge.dst.toNat, upd.edge.src.toNat)] } _ _)
    · rw [if_neg (show ¬(g.withBackup c b d x).dsuValid = true from hv), if_neg hv]
      rfl

theorem toMergeStep_withBackup (query : ℕ → Edge × SampleSketchRet)
    (acc : Graph σ × (ℕ → List ℕ) × List ℕ) (i : ℕ) :
    toMergeStep query (acc.1.withBackup c b d x, acc.2) i
      = ((toMergeStep query acc i).1.withBackup c b d x, (toMergeStep query acc i).2) := by
  unfold toMergeStep
  dsimp only
  rcases (query i).2 with _ | _ | _
  · -- a good sample: a union unless both ends have one root
    dsimp only
    rw [getParent_withBackup, getParent_withBackup]
    by_cases heq : (acc.1.getParent (query i).1.src.toNat).2
        = ((acc.1.getParent (query i).1.src.toNat).1.getParent (query i).1.dst.toNat).2
    · rw [if_pos heq, if_pos heq]
    · rw [if_neg heq, if_neg heq, unionBySize_withBackup]
      rfl
  · rfl
  · rfl

theorem supernodesToMerge_withBackup (query : ℕ → Edge × SampleSketchRet) (reps : List ℕ)
    (g : Graph σ) :
    supernodesToMerge query reps (g.withBackup c b d x)
      = ((supernodesToMerge query reps g).1.withBackup c b d x,
          (supernodesToMerge query reps g).2) := by
  have hfold : reps.foldl (toMergeStep query) (g.withBackup c b d x, fun _ => [], [])
      = ((reps.foldl (toMergeStep query) (g, fun _ => [], [])).1.withBackup c b d x,
        (reps.foldl (toMergeStep query) (g, fun _ => [], [])).2) :=
    @List.foldl_hom _ _ _ (fun acc => (acc.1.withBackup c b d x, acc.2)) _ _ reps
      (g, fun _ => [], []) fun acc i => toMergeStep_withBackup c b d x query acc i
  simp only [supernodesToMerge, hfold]
  rfl

variable (ops : SketchOps σ) (conf : SupernodeConfig)

theorem workerBatch_withBackup (g : Graph σ) (batch : ℕ × List ℕ) :
    workerBatch ops conf (g.withBackup c b d x) batch
      = (workerBatch ops conf g batch).withBackup c b d x := by
  by_cases hl : g.updateLocked
  · have hl' : (g.withBackup c b d x).updateLocked = true := hl
    simp only [workerBatch, batchUpdate, hl, hl', if_true]
  · have hl' : ¬(g.withBackup c b d x).updateLocked = true := hl
    simp only [workerBatch, batchUpdate, hl, hl', Bool.false_eq_true, if_false]
    rfl

theorem forceFlushPauseWorkers_withBackup (batches : List (ℕ × List ℕ)) (g : Graph σ) :
    forceFlushPauseWorkers ops conf batches (g.withBackup c b d x)
      = (forceFlushPauseWorkers ops conf batches g).withBackup c b d x := by
  unfold forceFlushPauseWorkers
  by_cases hp : g.paused = true
  · rw [if_pos (show (g.withBackup c b d x).paused = true from hp), if_pos hp]
  · rw [if_neg (show ¬(g.withBackup c b d x).paused = true from hp), if_neg hp,
      List.foldl_hom (withBackup · c b d x) fun g batch => workerBatch_withBackup c b d x ops conf g batch]
    rfl

end Oblivious

/-! ## The functions that never read the supernodes -/

section ForestAlike

variable (ops : SketchOps σ) {g g' : Graph σ}

/-- `cc_from_dsu` reads the forest only. -/
theorem ForestAlike.ccFromDsu (h : g.ForestAlike g') :
    (ccFromDsu g).1.ForestAlike (ccFromDsu g').1 ∧ (ccFromDsu g).2 = (ccFromDsu g').2 := by
  obtain ⟨c, b, d, x, S, rfl⟩ := h
  have hfold : (List.range g.numNodes).foldl ccStep
      ({ g.withBackup c b d x with supernodes := S }, ∅, fun _ => ∅)
      = ({ ((List.range g.numNodes).foldl ccStep (g, ∅, fun _ => ∅)).1.withBackup c b d x with
          supernodes := S }, ((List.range g.numNodes).foldl ccStep (g, ∅, fun _ => ∅)).2) :=
    @List.foldl_hom _ _ _
      (fun acc : Graph σ × Finset ℕ × (ℕ → Finset ℕ) =>
        ({ acc.1.withBackup c b d x with supernodes := S }, acc.2))
      _ _ (List.range g.numNodes) (g, ∅, fun _ => ∅) fun _ _ => rfl
  unfold Graph.ccFromDsu
  rw [show ({ g.withBackup c b d x with supernodes := S } : Graph σ).numNodes = g.numNodes from rfl,
    hfold]
  exact ⟨⟨c, b, d, x, S, rfl⟩, rfl⟩

/-- Graphs alike but for their backups and their supernodes, with the same
supernodes, are alike but for their backups. -/
theorem ForestAlike.backupAlike (h : g.ForestAlike g') (hs : g'.supernodes = g.supernodes) :
    g.BackupAlike g' := by
  obtain ⟨c, b, d, x, S, rfl⟩ := h
  have hS : S = g.supernodes := hs
  subst hS
  exact ⟨c, b, d, x, rfl⟩

theorem BackupAlike.ccFromDsu (h : g.BackupAlike g') :
    (Graph.ccFromDsu g).1.BackupAlike (Graph.ccFromDsu g').1 ∧
      (Graph.ccFromDsu g).2 = (Graph.ccFromDsu g').2 := by
  obtain ⟨hcc, hans⟩ := h.forestAlike.ccFromDsu
  refine ⟨hcc.backupAlike ?_, hans⟩
  -- `cc_from_dsu` moves the forest only
  rw [ccFromDsu_frame g', ccFromDsu_frame g]
  obtain ⟨c, b, d, x, rfl⟩ := h
  rfl

theorem ForestAlike.sameRoot (h : g.ForestAlike g') (u v : ℕ) :
    (g.sameRoot u v).1.ForestAlike (g'.sameRoot u v).1 ∧ (g.sameRoot u v).2 = (g'.sameRoot u v).2 := by
  obtain ⟨c, b, d, x, S, rfl⟩ := h
  exact ⟨⟨c, b, d, x, S, rfl⟩, rfl⟩

theorem ForestAlike.resetDsu (h : g.ForestAlike g') : (resetDsu g).ForestAlike (resetDsu g') := by
  obtain ⟨c, b, d, x, S, rfl⟩ := h
  exact ⟨c, b, d, x, S, rfl⟩

theorem ForestAlike.with_dsuValid (h : g.ForestAlike g') (v : Bool) :
    ({ g with dsuValid := v } : Graph σ).ForestAlike { g' with dsuValid := v } := by
  obtain ⟨c, b, d, x, S, rfl⟩ := h
  exact ⟨c, b, d, x, S, rfl⟩

/-- The merges read the supernodes, never the backups; only the copies they
make depend on the configuration. -/
theorem BackupAlike.mergeSupernodes (h : g.BackupAlike g') (copies copies' : ℕ → Option (Supernode σ))
    (newReps : List ℕ) (toMerge : ℕ → List ℕ) (makeCopy makeCopy' : Bool) :
    (mergeSupernodes ops copies newReps toMerge makeCopy g).1.BackupAlike
      (mergeSupernodes ops copies' newReps toMerge makeCopy' g').1 := by
  obtain ⟨c, b, d, x, rfl⟩ := h
  exact ⟨c, b, d, x, rfl⟩

/-- The query state is reset in the supernodes only. -/
theorem ForestAlike.resumeIngestion (h : g.ForestAlike g') :
    (resumeIngestion ops g).ForestAlike (resumeIngestion ops g') := by
  obtain ⟨c, b, d, x, S, rfl⟩ := h
  exact ⟨c, b, d, x, _, rfl⟩

end ForestAlike

/-! ## Boruvka in lockstep -/

/-- **Two loops of Boruvka in lockstep**: a relation between their states
that every round keeps, both throwing alike, and under which both graphs
are modified alike, holds between the states the two loops stop in, for
every fuel. -/
theorem boruvkaLoop_rel {σ' : Type} {ops : SketchOps σ} {ops' : SketchOps σ'}
    {makeCopy makeCopy' : Bool} (R : BoruvkaState σ → BoruvkaState σ' → Prop)
    (hround : ∀ st st', R st st' →
      R (round ops makeCopy st).1 (round ops' makeCopy' st').1 ∧
        (round ops makeCopy st).2 = (round ops' makeCopy' st').2)
    (hmod : ∀ st st', R st st' → st'.graph.modified = st.graph.modified) (fuel : ℕ)
    {st : BoruvkaState σ} {st' : BoruvkaState σ'} (h : R st st') :
    Option.Rel (fun r r' => R r.1 r'.1 ∧ r.2 = r'.2)
      (boruvkaLoop ops makeCopy fuel st) (boruvkaLoop ops' makeCopy' fuel st') := by
  refine Loop.iterate_rel R _ (fun a a' ha => ?_) fuel st st' h
  obtain ⟨hr, he⟩ := hround a a' ha
  dsimp only [boruvkaBody]
  rw [← he]
  rcases (round ops makeCopy a).2 with _ | e
  · -- the loop goes on exactly when both rounds modified their graphs
    dsimp only
    rw [hmod _ _ hr]
    split
    · exact .inl hr
    · exact .inr ⟨hr, rfl⟩
  · exact .inr ⟨hr, rfl⟩

end Graph

namespace BoruvkaState

variable {σ : Type}

/-- **Two states of a Boruvka run alike but for their backups**: their
graphs alike but for their backups, and the same representatives, answers,
backed-up nodes and round; the copies may differ. -/
structure BackupAlike (st st' : BoruvkaState σ) : Prop where
  graph : st.graph.BackupAlike st'.graph
  reps : st'.reps = st.reps
  query : st'.query = st.query
  backedUp : st'.backedUp = st.backedUp
  firstRound : st'.firstRound = st.firstRound

variable (ops : SketchOps σ) (makeCopy : Bool) {st st' : BoruvkaState σ}

/-- Sampling reads the supernodes only: alike states sample alike. -/
theorem BackupAlike.sampleSupernodes (h : st.BackupAlike st') {c : GraphConfiguration}
    {b : List (Supernode σ)} {d x : Bool} (hg : st'.graph = st.graph.withBackup c b d x) :
    Graph.sampleSupernodes ops st'.query st'.reps { st'.graph with modified := false }
      = ((Graph.sampleSupernodes ops st.query st.reps { st.graph with modified := false }).1.withBackup
          c b d x,
        (Graph.sampleSupernodes ops st.query st.reps { st.graph with modified := false }).2) := by
  rw [h.query, h.reps, hg]
  rfl

/-- **The part of a round after sampling, in lockstep**: the unions read
the forest and the merges the supernodes, never the backups; only the
copies, the backup file and the exit mark depend on the configuration. -/
theorem BackupAlike.roundMerge (h : st.BackupAlike st') {g g' : Graph σ} (hg : g.BackupAlike g')
    (query : ℕ → Edge × SampleSketchRet) :
    (Graph.roundMerge ops makeCopy st g query).1.BackupAlike
        (Graph.roundMerge ops makeCopy st' g' query).1 ∧
      (Graph.roundMerge ops makeCopy st g query).2 = (Graph.roundMerge ops makeCopy st' g' query).2 := by
  obtain ⟨c, b, d, x, rfl⟩ := hg
  dsimp only [Graph.roundMerge]
  rw [h.reps, h.firstRound, h.backedUp, Graph.supernodesToMerge_withBackup]
  dsimp only
  set m := Graph.supernodesToMerge query st.reps g
  -- the graph given to the merges, with or without the backup file written
  have hB : (if (makeCopy && st.firstRound && !m.1.config.backupInMem) = true then
        Graph.backupToDisk m.2.1 m.1 else m.1).BackupAlike
      (if (makeCopy && st.firstRound && !(m.1.withBackup c b d x).config.backupInMem) = true then
        Graph.backupToDisk m.2.1 (m.1.withBackup c b d x) else m.1.withBackup c b d x) :=
    (Graph.backupAlike_ite_backupToDisk _ _ _).symm.trans
      (Graph.BackupAlike.trans ⟨c, b, d, x, rfl⟩ (Graph.backupAlike_ite_backupToDisk _ _ _))
  have hmerged := hB.mergeSupernodes ops st.copySupernodes st'.copySupernodes m.2.1 m.2.2
    (st.firstRound && makeCopy) (st.firstRound && makeCopy)
  exact ⟨⟨hmerged, rfl, rfl, rfl, rfl⟩, by rw [hmerged.failRound2]⟩

/-- **One round in lockstep**: the sampling reads the supernodes only, so
both rounds throw alike or go on to alike merges. -/
theorem BackupAlike.round (h : st.BackupAlike st') :
    (Graph.round ops makeCopy st).1.BackupAlike (Graph.round ops makeCopy st').1 ∧
      (Graph.round ops makeCopy st).2 = (Graph.round ops makeCopy st').2 := by
  obtain ⟨c, b, d, x, hg⟩ := h.graph
  have hs := h.sampleSupernodes ops hg
  dsimp only [Graph.round]
  rw [hs]
  rcases he : (Graph.sampleSupernodes ops st.query st.reps { st.graph with modified := false }).2.2
    with _ | e
  · exact h.roundMerge ops makeCopy ⟨c, b, d, x, rfl⟩ _
  · exact ⟨⟨⟨c, b, d, x, rfl⟩, h.reps, rfl, h.backedUp, h.firstRound⟩, rfl⟩

/-- **The two loops end alike**, for every fuel. -/
theorem BackupAlike.boruvkaLoop (h : st.BackupAlike st') (fuel : ℕ) :
    Option.Rel (fun r r' => r.1.BackupAlike r'.1 ∧ r.2 = r'.2)
      (Graph.boruvkaLoop ops makeCopy fuel st) (Graph.boruvkaLoop ops makeCopy fuel st') :=
  Graph.boruvkaLoop_rel BackupAlike (fun _ _ h => h.round ops makeCopy) (fun _ _ h => h.graph.modified)
    fuel h

end BoruvkaState

namespace Graph

variable {σ : Type} (ops : SketchOps σ) (conf : SupernodeConfig) {g g' : Graph σ}

theorem BackupAlike.boruvkaStart (h : g.BackupAlike g') :
    (boruvkaStart g).BackupAlike (boruvkaStart g') := by
  obtain ⟨c, b, d, x, rfl⟩ := h
  exact ⟨⟨c, b, d, x, rfl⟩, rfl, rfl, rfl, rfl⟩

@[simp] theorem exited_ccFromDsu (g : Graph σ) : (ccFromDsu g).1.exited = g.exited := by
  rw [ccFromDsu_frame]

/-- **`boruvka_emulation` answers alike** from graphs alike but for their
backups, when the two runs exit alike: the same components or the same
exception, and graphs that differ at most in the supernodes put back. -/
theorem BackupAlike.boruvkaEmulation (h : g.BackupAlike g') (makeCopy : Bool) :
    Option.Rel (fun r r' => r'.1.exited = r.1.exited → r.1.ForestAlike r'.1 ∧ r.2 = r'.2)
      (boruvkaEmulation ops conf makeCopy g) (boruvkaEmulation ops conf makeCopy g') := by
  have hfuel : boruvkaFuel conf g' = boruvkaFuel conf g := by
    obtain ⟨c, b, d, x, rfl⟩ := h
    rfl
  unfold Graph.boruvkaEmulation
  rw [hfuel]
  refine Loop.option_rel_map (fun r r' hr => ?_)
    (h.boruvkaStart.boruvkaLoop ops makeCopy (boruvkaFuel conf g))
  obtain ⟨st, e⟩ := r
  obtain ⟨st', e'⟩ := r'
  obtain ⟨hst, he⟩ := hr
  -- the supernodes put back and the exit mark may differ, the forest does not
  have hc : (cleanupCopy ops conf makeCopy st).ForestAlike (cleanupCopy ops conf makeCopy st') := by
    rw [cleanupCopy_eq, cleanupCopy_eq ops conf makeCopy st']
    exact hst.graph.forestAlike.with_supernodes _ _ _ _
  dsimp only at he ⊢
  subst he
  intro hx
  -- each side reports its exit, or else the exception of the loop, the same on both
  split_ifs at hx ⊢ with h1 h2 h2
  · exact ⟨hc, rfl⟩
  · cases e <;> simp [h1, h2] at hx
  · cases e <;> simp [h1, h2] at hx
  · cases e with
    | some e => exact ⟨hc, rfl⟩
    | none =>
      obtain ⟨hcc, hans⟩ := (hc.with_dsuValid true).ccFromDsu
      exact ⟨hcc, by rw [hans]⟩

/-! ## The operations -/

/-- `connected_components` answers alike when both runs exit alike: its
fast path reads the forest, its slow path flushes and runs Boruvka in
lockstep. -/
theorem BackupAlike.connectedComponents (h : g.BackupAlike g') (batches : List (ℕ × List ℕ))
    (cont : Bool) :
    Option.Rel (fun r r' => r'.1.exited = r.1.exited → r.1.ForestAlike r'.1 ∧ r.2 = r'.2)
      (connectedComponents ops conf batches cont g) (connectedComponents ops conf batches cont g') := by
  obtain ⟨c, b, d, x, rfl⟩ := h
  unfold Graph.connectedComponents
  by_cases hfast : (g.dsuValid && cont && !g.failRound2) = true
  · rw [if_pos (show ((g.withBackup c b d x).dsuValid && cont && !(g.withBackup c b d x).failRound2)
      = true from hfast), if_pos hfast]
    obtain ⟨hcc, hans⟩ := (forestAlike_withBackup g c b d x).ccFromDsu
    exact .some fun _ => ⟨hcc, by rw [hans]⟩
  · rw [if_neg (show ¬((g.withBackup c b d x).dsuValid && cont && !(g.withBackup c b d x).failRound2)
      = true from hfast), if_neg hfast]
    dsimp only
    rw [forceFlushPauseWorkers_withBackup]
    have hb : (forceFlushPauseWorkers ops conf batches g).BackupAlike
        ((forceFlushPauseWorkers ops conf batches g).withBackup c b d x) := ⟨c, b, d, x, rfl⟩
    cases cont
    · exact hb.boruvkaEmulation ops conf false
    · exact Loop.option_rel_map (fun r r' hr hx => ⟨(hr hx).1.resumeIngestion ops, (hr hx).2⟩)
        (hb.boruvkaEmulation ops conf true)

/-- `point_query` answers alike when both runs exit alike: the forest it
reads, before its reset, is the same on both. -/
theorem BackupAlike.pointQuery (h : g.BackupAlike g') (batches : List (ℕ × List ℕ)) (u v : ℕ) :
    Option.Rel (fun r r' => r'.1.exited = r.1.exited → r.1.ForestAlike r'.1 ∧ r.2 = r'.2)
      (pointQuery ops conf batches u v g) (pointQuery ops conf batches u v g') := by
  obtain ⟨c, b, d, x, rfl⟩ := h
  unfold Graph.pointQuery
  by_cases hv : g.dsuValid = true
  · rw [if_pos (show (g.withBackup c b d x).dsuValid = true from hv), if_pos hv]
    obtain ⟨hs, hans⟩ := (forestAlike_withBackup g c b d x).sameRoot u v
    exact .some fun _ => ⟨hs, by rw [hans]⟩
  · rw [if_neg (show ¬(g.withBackup c b d x).dsuValid = true from hv), if_neg hv]
    dsimp only
    rw [forceFlushPauseWorkers_withBackup]
    have hb : (forceFlushPauseWorkers ops conf batches g).BackupAlike
        ((forceFlushPauseWorkers ops conf batches g).withBackup c b d x) := ⟨c, b, d, x, rfl⟩
    refine Loop.option_rel_map (fun r r' hr => ?_) (hb.boruvkaEmulation ops conf true)
    obtain ⟨g1, e⟩ := r
    obtain ⟨g1', e'⟩ := r'
    -- the answer of Boruvka's forest, or its exception; the two agree
    cases e <;> cases e' <;> dsimp only at hr ⊢ <;> intro hx <;> obtain ⟨hfa, he⟩ := hr hx
    · cases he
      exact ⟨hfa.resetDsu.resumeIngestion ops, rfl⟩
    · cases he
    · cases he
    · obtain ⟨hs, hans⟩ := hfa.sameRoot u v
      exact ⟨hs.resetDsu.resumeIngestion ops, by rw [hans]⟩

/-- **Every operation answers alike when both runs exit alike**: an update
and `write_binary` never read the backups, and the queries run Boruvka in
lockstep. -/
theorem BackupAlike.exec (h : g.BackupAlike g') (failFactor : UInt64)
    (batches : List (ℕ × List ℕ)) (o : Op) :
    Option.Rel (fun r r' => r'.1.exited = r.1.exited → r.1.ForestAlike r'.1 ∧ r.2 = r'.2)
      (exec ops conf failFactor batches o g) (exec ops conf failFactor batches o g') := by
  cases o with
  | update upd =>
    obtain ⟨c, b, d, x, rfl⟩ := h
    simp only [Graph.exec]
    rw [update_withBackup]
    cases g.update upd with
    | ok g1 => exact .some fun _ => ⟨⟨c, b, d, x, g1.supernodes, rfl⟩, rfl⟩
    | error e => exact .some fun _ => ⟨⟨c, b, d, x, g.supernodes, rfl⟩, rfl⟩
  | connectedComponents cont =>
    exact Loop.option_rel_map (fun r r' hr hx => ⟨(hr hx).1, by rw [(hr hx).2]⟩)
      (h.connectedComponents ops conf batches cont)
  | pointQuery u v =>
    exact Loop.option_rel_map (fun r r' hr hx => ⟨(hr hx).1, by rw [(hr hx).2]⟩)
      (h.pointQuery ops conf batches u v)
  | writeBinary =>
    obtain ⟨c, b, d, x, rfl⟩ := h
    have hw : (writeBinary ops conf batches failFactor (g.withBackup c b d x)).1
        = (forceFlushPauseWorkers ops conf batches g).withBackup c b d x :=
      forceFlushPauseWorkers_withBackup c b d x ops conf batches g
    exact .some fun _ => ⟨⟨c, b, d, x, _, by rw [hw]; rfl⟩, rfl⟩

/-! ## Backups that cannot end the process -/

/-- **Backups that cannot end the process**: copies in memory, or the
backup file in a directory that lets it be written and already holds it. -/
def BackupSafe (g : Graph σ) : Prop :=
  g.config.backupInMem = true ∨ g.config.diskDir.writable = true ∧ g.backupOnDisk = true

instance (g : Graph σ) : Decidable g.BackupSafe := inferInstanceAs (Decidable (_ ∨ _))

/-- The fields the backups read and write: the configuration, whether the
backup file exists, and the exit mark. -/
def exitFields (g : Graph σ) : GraphConfiguration × Bool × Bool :=
  (g.config, g.backupOnDisk, g.exited)

@[simp] theorem exitFields_with_supernodes (g : Graph σ) (S : ℕ → Supernode σ) :
    ({ g with supernodes := S } : Graph σ).exitFields = g.exitFields := rfl

theorem BackupSafe.of_exitFields (h : g.BackupSafe) (he : g'.exitFields = g.exitFields) :
    g'.BackupSafe := by
  simp only [exitFields, Prod.mk.injEq] at he
  unfold BackupSafe
  rw [he.1, he.2.1]
  exact h

/-- On safe backups to the disk, the directory lets the file be written. -/
theorem BackupSafe.writable (h : g.BackupSafe) (hm : g.config.backupInMem = false) :
    g.config.diskDir.writable = true ∧ g.backupOnDisk = true := by
  rcases h with h | h
  · rw [hm] at h
    cases h
  · exact h

/-- Safe backups to the disk write the file over, and exit not. -/
theorem BackupSafe.exitFields_backupToDisk (h : g.BackupSafe) (hm : g.config.backupInMem = false)
    (ids : List ℕ) : (backupToDisk ids g).exitFields = g.exitFields := by
  obtain ⟨hw, hd⟩ := h.writable hm
  rw [backupToDisk_eq]
  simp only [exitFields, hw, hd, Bool.or_true, Bool.not_true, Bool.false_or]

/-- Safe backups on the disk are read back from a file that is there. -/
theorem BackupSafe.exitFields_restoreFromDisk (h : g.BackupSafe)
    (hm : g.config.backupInMem = false) (ids : List ℕ) :
    (restoreFromDisk ops conf ids g).exitFields = g.exitFields := by
  obtain ⟨-, hd⟩ := h.writable hm
  unfold restoreFromDisk
  rw [if_pos hd, exitFields_with_supernodes]

theorem BackupSafe.exitFields_cleanupCopy {st : BoruvkaState σ} (h : st.graph.BackupSafe)
    (makeCopy : Bool) : (cleanupCopy ops conf makeCopy st).exitFields = st.graph.exitFields := by
  unfold cleanupCopy
  split
  · split
    · rfl
    · rename_i hm
      exact h.exitFields_restoreFromDisk ops conf (Bool.eq_false_iff.mpr hm) _
  · rfl

/-- **A round on safe backups keeps the fields of the backups**: sampling,
the unions and the merges never touch them, and the backup of the first
round writes a file that is already there. -/
theorem BackupSafe.exitFields_round {st : BoruvkaState σ} (h : st.graph.BackupSafe)
    (makeCopy : Bool) : (round ops makeCopy st).1.graph.exitFields = st.graph.exitFields := by
  have hs : (sampleSupernodes ops st.query st.reps { st.graph with modified := false }).1.exitFields
      = st.graph.exitFields := by
    rw [sampleSupernodes_fst]
    rfl
  cases hS : (sampleSupernodes ops st.query st.reps { st.graph with modified := false }).2.2 with
  | some e =>
    simp only [round, hS]
    exact hs
  | none =>
    rw [round_of_none _ hS, roundMerge_graph, exitFields_with_supernodes]
    set m := supernodesToMerge (sampleSupernodes ops st.query st.reps
      { st.graph with modified := false }).2.1 st.reps
      (sampleSupernodes ops st.query st.reps { st.graph with modified := false }).1
    -- the unions move the forest only
    have hm : m.1.exitFields = st.graph.exitFields := by
      rw [supernodesToMerge_fst, foldl_toMergeStep_frame]
      exact hs
    split
    · rename_i hc
      simp only [Bool.and_eq_true, Bool.not_eq_true'] at hc
      rw [(h.of_exitFields hm).exitFields_backupToDisk hc.2, hm]
    · exact hm

/-- **A run on safe backups keeps the fields of the backups**, round after
round. -/
theorem BackupSafe.exitFields_boruvkaLoop (h : g.BackupSafe) {makeCopy : Bool} {k : ℕ}
    {r : BoruvkaState σ × Option Exception}
    (hl : boruvkaLoop ops makeCopy k (boruvkaStart g) = some r) :
    r.1.graph.exitFields = g.exitFields := by
  have hround : ∀ st : BoruvkaState σ, st.graph.exitFields = g.exitFields →
      (round ops makeCopy st).1.graph.exitFields = g.exitFields := fun st hst =>
    ((h.of_exitFields hst).exitFields_round ops makeCopy).trans hst
  obtain ⟨a, ha, hbody⟩ := Loop.iterate_induction
    (fun st : BoruvkaState σ => st.graph.exitFields = g.exitFields)
    (fun a a' ha hb => by
      have hr : (round ops makeCopy a).1 = a' := congrArg Prod.fst (boruvkaBody_eq_inl ops hb).1
      rw [← hr]
      exact hround a ha) k _ r rfl hl
  rw [boruvkaBody_eq_inr ops hbody]
  exact hround a ha

theorem BackupSafe.exitFields_boruvkaEmulation (h : g.BackupSafe) {makeCopy : Bool}
    {r : Graph σ × Except Exception (List (Finset ℕ))}
    (hr : boruvkaEmulation ops conf makeCopy g = some r) : r.1.exitFields = g.exitFields := by
  obtain ⟨s, hl, hs⟩ := boruvkaEmulation_graph ops conf hr
  have hloop := h.exitFields_boruvkaLoop ops hl
  rw [hs]
  exact ((h.of_exitFields hloop).exitFields_cleanupCopy ops conf makeCopy).trans hloop

@[simp] theorem exitFields_forceFlushPauseWorkers (batches : List (ℕ × List ℕ)) (g : Graph σ) :
    (forceFlushPauseWorkers ops conf batches g).exitFields = g.exitFields := by
  unfold forceFlushPauseWorkers
  split
  · rfl
  · show (batches.foldl (workerBatch ops conf) g).exitFields = g.exitFields
    rw [foldl_workerBatch_frame, exitFields_with_supernodes]

/-- The slow path of a query on safe backups: the flush and the run keep
the fields of the backups. -/
theorem BackupSafe.exitFields_flush_boruvkaEmulation (h : g.BackupSafe)
    {batches : List (ℕ × List ℕ)} {makeCopy : Bool}
    {r : Graph σ × Except Exception (List (Finset ℕ))}
    (hr : boruvkaEmulation ops conf makeCopy (forceFlushPauseWorkers ops conf batches g) = some r) :
    r.1.exitFields = g.exitFields :=
  ((h.of_exitFields (exitFields_forceFlushPauseWorkers ops conf batches g)).exitFields_boruvkaEmulation
    ops conf hr).trans (exitFields_forceFlushPauseWorkers ops conf batches g)

theorem BackupSafe.exitFields_connectedComponents (h : g.BackupSafe)
    {batches : List (ℕ × List ℕ)} {cont : Bool} {r : Graph σ × Except Exception (List (Finset ℕ))}
    (hr : connectedComponents ops conf batches cont g = some r) : r.1.exitFields = g.exitFields := by
  unfold Graph.connectedComponents at hr
  split at hr
  · -- the fast path compresses the forest only
    cases hr
    show (ccFromDsu g).1.exitFields = g.exitFields
    rw [ccFromDsu_frame]
    rfl
  · cases cont
    · simp only [Bool.false_eq_true, if_false] at hr
      exact h.exitFields_flush_boruvkaEmulation ops conf hr
    · simp only [if_true] at hr
      obtain ⟨r0, hr0, rfl⟩ := Option.map_eq_some_iff.mp hr
      -- the reset of the query state moves the supernodes only
      have h0 := h.exitFields_flush_boruvkaEmulation ops conf hr0
      exact h0

theorem BackupSafe.exitFields_pointQuery (h : g.BackupSafe) {batches : List (ℕ × List ℕ)}
    {u v : ℕ} {r : Graph σ × Except Exception Bool}
    (hr : pointQuery ops conf batches u v g = some r) : r.1.exitFields = g.exitFields := by
  unfold Graph.pointQuery at hr
  split at hr
  · -- the fast path compresses the forest only
    cases hr
    rfl
  · obtain ⟨⟨g1, e⟩, hr0, rfl⟩ := Option.map_eq_some_iff.mp hr
    have h1 := h.exitFields_flush_boruvkaEmulation ops conf hr0
    -- the answer read off the forest, or the exception: the forest moves only
    cases e <;> exact h1

/-- **An operation on safe backups keeps the fields of the backups**: it
never exits, and its backups stay safe. -/
theorem BackupSafe.exitFields_exec (h : g.BackupSafe) (failFactor : UInt64)
    (batches : List (ℕ × List ℕ)) (o : Op) {r : Graph σ × Except Exception Ret}
    (hr : exec ops conf failFactor batches o g = some r) : r.1.exitFields = g.exitFields := by
  cases o with
  | update upd =>
    simp only [Graph.exec] at hr
    cases hu : g.update upd with
    | ok g1 =>
      rw [hu] at hr
      cases hr
      rw [(update_eq_ok hu).2.2]
      rfl
    | error e =>
      rw [hu] at hr
      cases hr
      rfl
  | connectedComponents cont =>
    obtain ⟨r0, hr0, rfl⟩ := Option.map_eq_some_iff.mp hr
    exact h.exitFields_connectedComponents ops conf hr0
  | pointQuery u v =>
    obtain ⟨r0, hr0, rfl⟩ := Option.map_eq_some_iff.mp hr
    exact h.exitFields_pointQuery ops conf hr0
  | writeBinary =>
    cases hr
    exact exitFields_forceFlushPauseWorkers ops conf batches g

end Graph

/-- **No answer depends on where Boruvka keeps its backups, when neither
place can end the process.** For any sketches, from any graph with backups
that cannot end the process, an operation with the configuration and the
backup file replaced by other such backups returns exactly when it returns
on the graph, with the same answer or exception; neither run exits, both
leave backups that cannot end the process, and the two graphs differ at
most in their supernodes, configuration and backup file. -/
theorem exec_backup_independent {σ : Type} (ops : SketchOps σ) (conf : SupernodeConfig)
    (failFactor : UInt64) (batches : List (ℕ × List ℕ)) (o : Graph.Op) (g : Graph σ)
    (c : GraphConfiguration) (b : List (Supernode σ)) (d : Bool) (hs : g.BackupSafe)
    (hs' : (g.withBackup c b d g.exited).BackupSafe) :
    Option.Rel (fun r r' => r.1.ForestAlike r'.1 ∧ r.2 = r'.2 ∧
        r.1.exited = g.exited ∧ r'.1.exited = g.exited ∧ r.1.BackupSafe ∧ r'.1.BackupSafe)
      (Graph.exec ops conf failFactor batches o g)
      (Graph.exec ops conf failFactor batches o (g.withBackup c b d g.exited)) := by
  refine Loop.option_rel_of_mem
    (Graph.BackupAlike.exec ops conf ⟨c, b, d, g.exited, rfl⟩ failFactor batches o)
    fun r hr r' hr' hrel => ?_
  -- neither run exits, so the two exit alike
  have he := hs.exitFields_exec ops conf failFactor batches o hr
  have he' := hs'.exitFields_exec ops conf failFactor batches o hr'
  have hx : r.1.exited = g.exited := congrArg (·.2.2) he
  have hx' : r'.1.exited = g.exited := congrArg (·.2.2) he'
  obtain ⟨hfa, hans⟩ := hrel (hx'.trans hx.symm)
  exact ⟨hfa, hans, hx, hx', hs.of_exitFields he, hs'.of_exitFields he'⟩

/-- The slow continuing query after an edge is toggled out of the forest
and back: copies in memory on one side, and on the other the backup file in
a directory that already holds one, where the query runs Boruvka and
returns its components without an exit. -/
theorem exec_backup_independent_toggle :
    (Graph.applyUpdates (Graph.init (VecSketch.ops minOracle) ⟨2, 3⟩ 3 0 {})
        [⟨⟨0, 1⟩, .insert⟩, ⟨⟨0, 1⟩, .delete⟩, ⟨⟨0, 1⟩, .insert⟩]).BackupSafe ∧
      ((Graph.applyUpdates (Graph.init (VecSketch.ops minOracle) ⟨2, 3⟩ 3 0 {})
        [⟨⟨0, 1⟩, .insert⟩, ⟨⟨0, 1⟩, .delete⟩, ⟨⟨0, 1⟩, .insert⟩]).withBackup
          { backupInMem := false, diskDir := { holdsBackup := true } } [] true false).BackupSafe ∧
      (Graph.exec (VecSketch.ops minOracle) ⟨2, 3⟩ 4 [(0, [1, 1, 1]), (1, [0, 0, 0])]
        (.connectedComponents true)
        ((Graph.applyUpdates (Graph.init (VecSketch.ops minOracle) ⟨2, 3⟩ 3 0 {})
          [⟨⟨0, 1⟩, .insert⟩, ⟨⟨0, 1⟩, .delete⟩, ⟨⟨0, 1⟩, .insert⟩]).withBackup
            { backupInMem := false, diskDir := { holdsBackup := true } } [] true false)).map
        (fun r => (r.1.exited, r.2.isOk)) = some (false, true) ∧
      Option.Rel (fun r r' => r.1.ForestAlike r'.1 ∧ r.2 = r'.2 ∧ r.1.exited = false ∧
          r'.1.exited = false ∧ r.1.BackupSafe ∧ r'.1.BackupSafe)
        (Graph.exec (VecSketch.ops minOracle) ⟨2, 3⟩ 4 [(0, [1, 1, 1]), (1, [0, 0, 0])]
          (.connectedComponents true)
          (Graph.applyUpdates (Graph.init (VecSketch.ops minOracle) ⟨2, 3⟩ 3 0 {})
            [⟨⟨0, 1⟩, .insert⟩, ⟨⟨0, 1⟩, .delete⟩, ⟨⟨0, 1⟩, .insert⟩]))
        (Graph.exec (VecSketch.ops minOracle) ⟨2, 3⟩ 4 [(0, [1, 1, 1]), (1, [0, 0, 0])]
          (.connectedComponents true)
          ((Graph.applyUpdates (Graph.init (VecSketch.ops minOracle) ⟨2, 3⟩ 3 0 {})
            [⟨⟨0, 1⟩, .insert⟩, ⟨⟨0, 1⟩, .delete⟩, ⟨⟨0, 1⟩, .insert⟩]).withBackup
              { backupInMem := false, diskDir := { holdsBackup := true } } [] true false)) :=
  ⟨by decide, by decide, by decide +kernel,
    exec_backup_independent (VecSketch.ops minOracle) ⟨2, 3⟩ 4 [(0, [1, 1, 1]), (1, [0, 0, 0])]
      (.connectedComponents true) (Graph.applyUpdates (Graph.init (VecSketch.ops minOracle) ⟨2, 3⟩ 3 0 {})
        [⟨⟨0, 1⟩, .insert⟩, ⟨⟨0, 1⟩, .delete⟩, ⟨⟨0, 1⟩, .insert⟩])
      { backupInMem := false, diskDir := { holdsBackup := true } } [] true (by decide) (by decide)⟩

end GraphZeppelin

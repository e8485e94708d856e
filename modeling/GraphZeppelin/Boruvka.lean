import GraphZeppelin.Graph
import GraphZeppelin.Loop

/-!
# Boruvka emulation

`Graph::boruvka_emulation` runs rounds until one changes nothing. A round
samples every representative (`sample_supernodes`), turns the answers into
unions of the disjoint-set forest and lists of supernodes to merge
(`supernodes_to_merge`), and merges them (`merge_supernodes`). A continuing
query backs up the supernodes the first round merges into, in memory or in
the backup file, and restores them when the run ends, whether it returns or
throws (`cleanup_copy`).

`sample_supernodes` and `merge_supernodes` are parallel loops whose
iterations each write the entries of their own representative, so they are
modelled as simultaneous updates of every entry; of the exceptions of a
parallel loop the model rethrows that of the last representative in the
list. `supernodes_to_merge` is sequential and is a left fold.

The do-while loop has no bound in the source; the model gives it fuel, and
the termination theorem of `BoruvkaTermination` says how much is enough.

`backup_to_disk` and `restore_from_disk` call `exit(EXIT_FAILURE)` when the
backup file cannot be opened: for writing when the directory does not let it
be created, for reading when it does not exist, as when a first round throws
before anything was backed up. The model marks the graph `exited` there and
lets the run go on to its end, where `boruvka_emulation` reports the exit in
place of its result; nothing the run computes after the mark is observable,
and the mark is never cleared.
-/

namespace GraphZeppelin

open ParentForest

/-- **The state of a run of `boruvka_emulation`** between its rounds. -/
structure BoruvkaState (σ : Type) where
  /-- The graph. -/
  graph : Graph σ
  /-- `reps`: the supernodes sampled in the next round. -/
  reps : List Nat
  /-- `query`: the last answer of each supernode. -/
  query : Nat → Edge × SampleSketchRet
  /-- `copy_supernodes`. -/
  copySupernodes : Nat → Option (Supernode σ)
  /-- `backed_up`: the supernodes the first round merges into. -/
  backedUp : List Nat
  /-- `first_round`. -/
  firstRound : Bool

namespace Graph

section Rounds

variable {σ : Type} (ops : SketchOps σ) (conf : SupernodeConfig)

/-- `Graph::sample_supernodes`: every representative sampled, its answer
stored; an exception of one of them is rethrown after the loop. -/
def sampleSupernodes (query : Nat → Edge × SampleSketchRet) (reps : List Nat) (g : Graph σ) :
    Graph σ × (Nat → Edge × SampleSketchRet) × Option Exception :=
  let sampled := fun i => Supernode.sample ops (g.supernodes i)
  let errors := reps.filterMap fun i =>
    match (sampled i).2 with
    | .ok _ => none
    | .error e => some e
  ({ g with supernodes := fun i => if i ∈ reps then (sampled i).1 else g.supernodes i },
    fun i =>
      if i ∈ reps then
        match (sampled i).2 with
        | .ok q => q
        | .error _ => query i
      else query i,
    errors.getLast?)

/-- One iteration of the loop of `supernodes_to_merge` on the graph,
`to_merge` and `new_reps`. -/
def toMergeStep (query : Nat → Edge × SampleSketchRet)
    (acc : Graph σ × (Nat → List Nat) × List Nat) (i : Nat) :
    Graph σ × (Nat → List Nat) × List Nat :=
  let g := acc.1
  let toMerge := acc.2.1
  let newReps := acc.2.2
  let edge := (query i).1
  match (query i).2 with
  | .fail =>
    -- try this query again next round as it failed this round
    ({ g with modified := true }, toMerge, newReps ++ [i])
  | .zero => acc
  | .good =>
    -- query dsu
    let ra := g.getParent edge.src.toNat
    let rb := ra.1.getParent edge.dst.toNat
    if ra.2 = rb.2 then (rb.1, toMerge, newReps)
    else
      let u := rb.1.unionBySize ra.2 rb.2
      let a := u.2.1
      let b := u.2.2
      -- add b and any of the nodes to merge with it to a's vector
      let toMerge := Function.update (Function.update toMerge a (toMerge a ++ b :: toMerge b)) b []
      let src := min edge.src.toNat edge.dst.toNat
      let dst := max edge.src.toNat edge.dst.toNat
      ({ u.1 with
          modified := true
          spanningForest := Function.update u.1.spanningForest src
            (insert dst (u.1.spanningForest src)) },
        toMerge, newReps)

/-- `Graph::supernodes_to_merge`: the graph after the unions, the new
representatives, and `to_merge`. -/
def supernodesToMerge (query : Nat → Edge × SampleSketchRet) (reps : List Nat) (g : Graph σ) :
    Graph σ × List Nat × (Nat → List Nat) :=
  let res := reps.foldl (toMergeStep query) (g, fun _ => [], [])
  let toMerge := res.2.1
  -- remove nodes added to new_reps due to sketch failures that did end up
  -- being able to merge after all
  let newReps := res.2.2.filter fun a => (toMerge a).isEmpty
  -- add to new_reps all the nodes we will merge into
  let newReps := newReps ++ (List.range g.numNodes).filter fun a => !(toMerge a).isEmpty
  (res.1, newReps, toMerge)

/-- `Graph::merge_supernodes`: each new representative, copied first when
asked, merged with every supernode of its list. -/
def mergeSupernodes (copySupernodes : Nat → Option (Supernode σ)) (newReps : List Nat)
    (toMerge : Nat → List Nat) (makeCopy : Bool) (g : Graph σ) :
    Graph σ × (Nat → Option (Supernode σ)) :=
  ({ g with
      supernodes := fun a =>
        if a ∈ newReps then
          (toMerge a).foldl (fun s b => Supernode.merge ops s (g.supernodes b)) (g.supernodes a)
        else g.supernodes a },
    fun a =>
      if a ∈ newReps ∧ makeCopy ∧ g.config.backupInMem then
        some (Supernode.copy ops (g.supernodes a))
      else copySupernodes a)

/-- `Graph::backup_to_disk`: the backup file, created or truncated, holds the
listed supernodes; the process exits when it cannot be opened for writing. -/
def backupToDisk (idsToBackup : List Nat) (g : Graph σ) : Graph σ :=
  if g.config.diskDir.writable then
    { g with backupFile := idsToBackup.map g.supernodes, backupOnDisk := true }
  else { g with exited := true }

/-- The backup changes the backup file and the exit mark only. -/
theorem backupToDisk_eq (idsToBackup : List Nat) (g : Graph σ) :
    backupToDisk idsToBackup g = { g with
      backupFile := if g.config.diskDir.writable then idsToBackup.map g.supernodes else g.backupFile
      backupOnDisk := g.config.diskDir.writable || g.backupOnDisk
      exited := !g.config.diskDir.writable || g.exited } := by
  unfold backupToDisk
  cases g.config.diskDir.writable <;> rfl

section BackupFields

variable (ids : List Nat) (g : Graph σ)

@[simp] theorem backupToDisk_numNodes : (backupToDisk ids g).numNodes = g.numNodes := by
  rw [backupToDisk_eq]
@[simp] theorem backupToDisk_seed : (backupToDisk ids g).seed = g.seed := by
  rw [backupToDisk_eq]
@[simp] theorem backupToDisk_config : (backupToDisk ids g).config = g.config := by
  rw [backupToDisk_eq]
@[simp] theorem backupToDisk_supernodes : (backupToDisk ids g).supernodes = g.supernodes := by
  rw [backupToDisk_eq]
@[simp] theorem backupToDisk_parent : (backupToDisk ids g).parent = g.parent := by
  rw [backupToDisk_eq]
@[simp] theorem backupToDisk_spanningForest :
    (backupToDisk ids g).spanningForest = g.spanningForest := by
  rw [backupToDisk_eq]
@[simp] theorem backupToDisk_modified : (backupToDisk ids g).modified = g.modified := by
  rw [backupToDisk_eq]
@[simp] theorem backupToDisk_failRound2 : (backupToDisk ids g).failRound2 = g.failRound2 := by
  rw [backupToDisk_eq]

/-- The backup can mark an exit, never clear one. -/
theorem exited_ite_backupToDisk (c : Bool) (h : g.exited = true) :
    (if c = true then backupToDisk ids g else g).exited = true := by
  split
  · rw [backupToDisk_eq]
    simp only [h, Bool.or_true]
  · exact h

/-- A backup made or not keeps what every backup keeps. -/
theorem ite_backupToDisk_of {β : Type} (f : Graph σ → β)
    (hf : ∀ ids g, f (backupToDisk ids g) = f g) (c : Bool) :
    f (if c = true then backupToDisk ids g else g) = f g := by
  split
  · exact hf ids g
  · rfl

end BackupFields

/-- `Graph::restore_from_disk`: each listed supernode read back, in order,
from the backup file; the process exits when the file cannot be opened for
reading. -/
def restoreFromDisk (idsToRestore : List Nat) (g : Graph σ) : Graph σ :=
  if g.backupOnDisk then
    { g with
      supernodes := (idsToRestore.zip g.backupFile).foldl
        (fun sn r => Function.update sn r.1
          (Supernode.reload ops conf g.numNodes.toUInt64 g.seed r.2))
        g.supernodes }
  else { g with exited := true }

/-- The lambda `cleanup_copy` of `boruvka_emulation`: with a continuing
query, the backed-up supernodes put back from their copies or from the
backup file. -/
def cleanupCopy (makeCopy : Bool) (st : BoruvkaState σ) : Graph σ :=
  if makeCopy then
    if st.graph.config.backupInMem then
      -- restore original supernodes
      { st.graph with
        supernodes := st.backedUp.foldl
          (fun sn i => Function.update sn i ((st.copySupernodes i).getD (sn i)))
          st.graph.supernodes }
    else restoreFromDisk ops conf st.backedUp st.graph
  else st.graph

/-- The part of a round after sampling, when no sample threw: the unions,
the backup in the first round of a continuing query, and the merges. -/
def roundMerge (makeCopy : Bool) (st : BoruvkaState σ) (g : Graph σ)
    (query : Nat → Edge × SampleSketchRet) : BoruvkaState σ × Option Exception :=
  let m := supernodesToMerge query st.reps g
  let reps := m.2.1
  -- make a copy if necessary
  let backedUp := if makeCopy && st.firstRound then reps else st.backedUp
  let g := if makeCopy && st.firstRound && !m.1.config.backupInMem then
    backupToDisk reps m.1 else m.1
  let merged := mergeSupernodes ops st.copySupernodes reps m.2.2 (st.firstRound && makeCopy) g
  ({ graph := merged.1, reps := reps, query := query, copySupernodes := merged.2,
      backedUp := backedUp, firstRound := false },
    -- the failure injected by `should_fail_CC` in the verifying build
    if !st.firstRound && merged.1.failRound2 then some .outOfQueries else none)

/-- **One round** of the do-while loop of `boruvka_emulation`, and the
exception it throws. -/
def round (makeCopy : Bool) (st : BoruvkaState σ) : BoruvkaState σ × Option Exception :=
  let sampled := sampleSupernodes ops st.query st.reps { st.graph with modified := false }
  match sampled.2.2 with
  | some e => ({ st with graph := sampled.1, query := sampled.2.1 }, some e)
  | none => roundMerge ops makeCopy st sampled.1 sampled.2.1

/-- The body of the do-while loop: a round, then stop with the exception
it threw, go on if it modified the graph, or stop. -/
def boruvkaBody (makeCopy : Bool) (st : BoruvkaState σ) :
    BoruvkaState σ ⊕ (BoruvkaState σ × Option Exception) :=
  let r := round ops makeCopy st
  match r.2 with
  | some e => .inr (r.1, some e)
  | none => if r.1.graph.modified then .inl r.1 else .inr (r.1, none)

/-- The do-while loop of `boruvka_emulation` with `fuel` rounds at most:
the state it ends in and the exception it throws, or `none` when the fuel
runs out first. -/
def boruvkaLoop (makeCopy : Bool) (fuel : Nat) (st : BoruvkaState σ) :
    Option (BoruvkaState σ × Option Exception) :=
  Loop.iterate (boruvkaBody ops makeCopy) fuel st

/-- The state `boruvka_emulation` starts its loop in: updates locked, every
node its own root of size one, no forest edge, every node a representative. -/
def boruvkaStart (g : Graph σ) : BoruvkaState σ :=
  { graph := { g with
      updateLocked := true
      size := fun _ => 1
      parent := fun i => i
      spanningForest := fun _ => ∅ }
    reps := List.range g.numNodes
    query := fun _ => ({}, .good)
    copySupernodes := fun _ => none
    backedUp := []
    firstRound := true }

/-- The number of rounds the model allows a run. -/
def boruvkaFuel (g : Graph σ) : Nat := max 1 (g.numNodes * (conf.maxSketches + 1))

/-- **`Graph::boruvka_emulation`**: the graph after the run and its backups
are cleaned up, and the components or the exception of the run; `none` only
if the run needs more rounds than `boruvkaFuel`. -/
def boruvkaEmulation (makeCopy : Bool) (g : Graph σ) :
    Option (Graph σ × Except Exception (List (Finset Nat))) :=
  (boruvkaLoop ops makeCopy (boruvkaFuel conf g) (boruvkaStart g)).map fun r =>
    let g := cleanupCopy ops conf makeCopy r.1
    -- a backup or restore that could not open the file ended the process
    if g.exited then (g, .error .exitFailure) else
    match r.2 with
    | some e => (g, .error e)
    | none =>
      let cc := ccFromDsu { g with dsuValid := true }
      (cc.1, .ok cc.2)

/-- **A run of Boruvka that returns components**: the loop ended without
an exception, the process did not exit, and the components are those of the
forest of the cleaned-up graph. -/
theorem boruvkaEmulation_eq_ok {makeCopy : Bool} {g g' : Graph σ} {cc : List (Finset Nat)}
    (h : boruvkaEmulation ops conf makeCopy g = some (g', .ok cc)) :
    ∃ st, boruvkaLoop ops makeCopy (boruvkaFuel conf g) (boruvkaStart g) = some (st, none) ∧
      (cleanupCopy ops conf makeCopy st).exited = false ∧
      g' = (ccFromDsu { cleanupCopy ops conf makeCopy st with dsuValid := true }).1 ∧
      cc = (ccFromDsu { cleanupCopy ops conf makeCopy st with dsuValid := true }).2 := by
  obtain ⟨⟨st, e⟩, hl, hr⟩ := Option.map_eq_some_iff.mp h
  dsimp only at hr
  split at hr
  · simp only [Prod.mk.injEq, reduceCtorEq, and_false] at hr
  · rename_i hx
    cases e with
    | some e => simp only [Prod.mk.injEq, reduceCtorEq, and_false] at hr
    | none =>
      simp only [Prod.mk.injEq, Except.ok.injEq] at hr
      exact ⟨st, hl, Bool.of_not_eq_true hx, hr.1.symm, hr.2.symm⟩

/-- **A run of Boruvka that throws** leaves the cleaned-up graph: the
process exited, or the loop threw the exception. -/
theorem boruvkaEmulation_eq_error {makeCopy : Bool} {g g' : Graph σ} {e : Exception}
    (h : boruvkaEmulation ops conf makeCopy g = some (g', .error e)) :
    ∃ r, boruvkaLoop ops makeCopy (boruvkaFuel conf g) (boruvkaStart g) = some r ∧
      g' = cleanupCopy ops conf makeCopy r.1 ∧
      ((cleanupCopy ops conf makeCopy r.1).exited = true ∧ e = .exitFailure ∨
        (cleanupCopy ops conf makeCopy r.1).exited = false ∧ r.2 = some e) := by
  obtain ⟨r, hl, hr⟩ := Option.map_eq_some_iff.mp h
  dsimp only at hr
  split at hr
  · rename_i hx
    simp only [Prod.mk.injEq, Except.error.injEq] at hr
    exact ⟨r, hl, hr.1.symm, .inl ⟨hx, hr.2.symm⟩⟩
  · rename_i hx
    split at hr
    · rename_i e' he
      simp only [Prod.mk.injEq, Except.error.injEq] at hr
      exact ⟨r, hl, hr.1.symm, .inr ⟨Bool.of_not_eq_true hx, by rw [he, hr.2]⟩⟩
    · simp only [Prod.mk.injEq, reduceCtorEq, and_false] at hr

/-- **The graph a run of Boruvka leaves**: the cleaned-up graph, with the
forest that `cc_from_dsu` compressed and trusted when the run returned. -/
theorem boruvkaEmulation_graph {makeCopy : Bool} {g : Graph σ}
    {r : Graph σ × Except Exception (List (Finset Nat))}
    (h : boruvkaEmulation ops conf makeCopy g = some r) :
    ∃ s, boruvkaLoop ops makeCopy (boruvkaFuel conf g) (boruvkaStart g) = some s ∧
      r.1 = { cleanupCopy ops conf makeCopy s.1 with
        parent := r.1.parent, dsuValid := r.1.dsuValid } := by
  obtain ⟨g', e⟩ := r
  cases e with
  | error e =>
    obtain ⟨s, hl, rfl, -⟩ := boruvkaEmulation_eq_error ops conf h
    exact ⟨s, hl, rfl⟩
  | ok cc =>
    obtain ⟨st, hl, -, rfl, -⟩ := boruvkaEmulation_eq_ok ops conf h
    refine ⟨(st, none), hl, ?_⟩
    rw [ccFromDsu_frame]

/-- **A run that ended the process reports it**: when the graph it leaves
is marked exited, the outcome is the exit. -/
theorem boruvkaEmulation_exit_of_exited {makeCopy : Bool} {g : Graph σ}
    {r : Graph σ × Except Exception (List (Finset Nat))}
    (h : boruvkaEmulation ops conf makeCopy g = some r) (hx : r.1.exited = true) :
    r.2 = .error .exitFailure := by
  obtain ⟨g', e⟩ := r
  cases e with
  | ok cc =>
    -- the components are read off a cleaned-up graph the process still runs in
    obtain ⟨st, -, hx', rfl, -⟩ := boruvkaEmulation_eq_ok ops conf h
    rw [ccFromDsu_frame] at hx
    dsimp only at hx
    rw [hx'] at hx
    cases hx
  | error e =>
    obtain ⟨s, -, rfl, ⟨-, rfl⟩ | ⟨hx', -⟩⟩ := boruvkaEmulation_eq_error ops conf h
    · rfl
    · dsimp only at hx
      rw [hx'] at hx
      cases hx

end Rounds

end Graph

end GraphZeppelin

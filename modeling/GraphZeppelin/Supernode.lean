import GraphZeppelin.SketchLinearity
import Mathlib.Data.Finset.Max

/-!
# Supernodes

A `Supernode` is the node sketch of Boruvka: `max_sketches` L0 sketches of
one vector, each with its own seed, of which the first `sample_idx` have
been used up by queries and only those below `merged_sketches` may still
be queried. `sample` queries the next sketch, `merge` adds the sketches of
another supernode into the unused ones, and a delta supernode carries a
batch of updates to be added in.

The supernode code uses its sketches through six operations, which
`SketchOps` names. The supernode model is generic in them, so that it runs
both on the concrete `Sketch` (`Sketch.ops`) and on the abstract sketch of
the Boruvka analysis, `VecSketch`: the GF(2) vector a sketch summarises,
queried through an oracle that may answer `ZERO` only for the zero vector
and `GOOD` only with an index of the vector (`OracleSound`).

`Sketch.ops` refines `VecSketch.ops` (`Sketch.toSketch` and the lemmas
after it): the concrete sketch of a vector behaves as the abstract one,
with the concrete query as its oracle, for every operation except
`operator+=` of a sketch whose level-0 bucket is zero.
-/

open scoped symmDiff

namespace GraphZeppelin

/-- **The sketch operations a supernode calls.** -/
structure SketchOps (σ : Type) where
  /-- `Sketch::makeSketch(loc, seed)`: the empty sketch with a seed. -/
  make : UInt64 → σ
  /-- `Sketch::update`. -/
  update : σ → UInt64 → σ
  /-- `Sketch::query`. -/
  query : σ → Except Exception (σ × UInt64 × SampleSketchRet)
  /-- `operator+=`. -/
  add : σ → σ → σ
  /-- The copy constructor, through `makeSketch(loc, s)`. -/
  copy : σ → σ
  /-- `Sketch::reset_queried`. -/
  resetQueried : σ → σ
  /-- `Sketch(seed, binary_in)` reading back what `write_binary` wrote:
  the given seed and the written buckets, not queried. -/
  reload : UInt64 → σ → σ

/-- The concrete sketch operations. -/
def Sketch.ops (cfg : SketchConfig) (xxh : UInt64 → UInt64 → UInt64) : SketchOps Sketch where
  make := Sketch.makeSketch
  update := Sketch.update cfg xxh
  query := Sketch.query cfg xxh
  add := Sketch.add cfg
  copy := Sketch.copy
  resetQueried := Sketch.resetQueried
  reload seed s := { s with seed := seed, alreadyQueried := false }

/-! ## The abstract sketch -/

/-- **The abstract sketch**: the vector a sketch summarises, its seed and
its queried flag. -/
structure VecSketch where
  seed : UInt64
  vec : Finset UInt64
  alreadyQueried : Bool
  deriving DecidableEq

/-- **What a query may answer for a vector**: `ZERO` only for the zero
vector, `GOOD` only with one of its indices, and `FAIL` always. -/
def Answers (v : Finset UInt64) : UInt64 × SampleSketchRet → Prop
  | (_, .zero) => v = ∅
  | (x, .good) => x ∈ v
  | (_, .fail) => True

instance (v : Finset UInt64) : DecidablePred (Answers v)
  | (_, .zero) => inferInstanceAs (Decidable (v = ∅))
  | (x, .good) => inferInstanceAs (Decidable (x ∈ v))
  | (_, .fail) => inferInstanceAs (Decidable True)

/-- An oracle is **sound** when all its answers are allowed. -/
def OracleSound (oracle : UInt64 → Finset UInt64 → UInt64 × SampleSketchRet) : Prop :=
  ∀ seed v, Answers v (oracle seed v)

/-- The oracle of a sketch that never fails: the smallest index of a
non-zero vector, or zero. -/
def minOracle (_ : UInt64) (v : Finset UInt64) : UInt64 × SampleSketchRet :=
  if h : (v.image UInt64.toNat).Nonempty then (((v.image UInt64.toNat).min' h).toUInt64, .good)
  else (0, .zero)

theorem minOracle_sound : OracleSound minOracle := by
  intro seed v
  unfold minOracle
  split
  · rename_i h
    obtain ⟨y, hy, hmin⟩ := Finset.mem_image.mp (Finset.min'_mem _ h)
    show ((v.image UInt64.toNat).min' h).toUInt64 ∈ v
    have hround : y.toNat.toUInt64 = y := UInt64.ofNat_toNat
    rw [← hmin, hround]
    exact hy
  · rename_i h
    show v = ∅
    rwa [Finset.image_nonempty, Finset.not_nonempty_iff_eq_empty] at h

/-- The abstract sketch operations, with the answers of an oracle that sees
the seed and the vector. -/
def VecSketch.ops (oracle : UInt64 → Finset UInt64 → UInt64 × SampleSketchRet) :
    SketchOps VecSketch where
  make seed := ⟨seed, ∅, false⟩
  update s x := { s with vec := s.vec ∆ {x} }
  query s :=
    if s.alreadyQueried then .error .multipleQuery
    else .ok ({ s with alreadyQueried := true }, oracle s.seed s.vec)
  add s t := { s with vec := s.vec ∆ t.vec, alreadyQueried := s.alreadyQueried || t.alreadyQueried }
  copy s := { s with alreadyQueried := false }
  resetQueried s := { s with alreadyQueried := false }
  reload seed s := { s with seed := seed, alreadyQueried := false }

/-! ## The concrete sketch refines the abstract one -/

namespace Sketch

section Refine

variable (cfg : SketchConfig) (xxh : UInt64 → UInt64 → UInt64)

/-- The concrete sketch of an abstract one. -/
def toSketch (a : VecSketch) : Sketch :=
  { ofVector cfg xxh a.seed a.vec with alreadyQueried := a.alreadyQueried }

@[simp] theorem bucket_toSketch (a : VecSketch) (k : Nat) :
    (toSketch cfg xxh a).bucket k = bucketOf cfg xxh a.seed a.vec k := rfl

@[simp] theorem seed_toSketch (a : VecSketch) : (toSketch cfg xxh a).seed = a.seed := rfl

@[simp] theorem alreadyQueried_toSketch (a : VecSketch) :
    (toSketch cfg xxh a).alreadyQueried = a.alreadyQueried := rfl

/-- **The oracle of the concrete sketches**: the answer the concrete query
gives for the sketch of a vector. -/
def concreteOracle (seed : UInt64) (v : Finset UInt64) : UInt64 × SampleSketchRet :=
  match (ofVector cfg xxh seed v).query cfg xxh with
  | .ok (_, x, r) => (x, r)
  | .error _ => (0, .fail)

theorem make_toSketch (seed : UInt64) :
    (ops cfg xxh).make seed
      = toSketch cfg xxh ((VecSketch.ops (concreteOracle cfg xxh)).make seed) :=
  makeSketch_eq_ofVector cfg xxh seed

theorem update_toSketch (a : VecSketch) (x : UInt64) :
    (ops cfg xxh).update (toSketch cfg xxh a) x
      = toSketch cfg xxh ((VecSketch.ops (concreteOracle cfg xxh)).update a x) := by
  refine ext_bucket (seed_update cfg xxh _ x) (fun k => ?_) (alreadyQueried_update cfg xxh _ x)
  -- the buckets of an update depend on the seed and the buckets only
  have h := congrArg (fun s => s.bucket k) (update_ofVector cfg xxh a.seed x a.vec)
  simp only [bucket_update, bucket_ofVector, seed_ofVector] at h
  simp only [ops, VecSketch.ops, bucket_update, bucket_toSketch, seed_toSketch]
  exact h

/-- `operator+=` of concrete sketches refines the sum of vectors when the
added vector has a non-zero level-0 bucket. -/
theorem add_toSketch (a b : VecSketch) (hseed : a.seed = b.seed)
    (h0 : bucketOf cfg xxh b.seed b.vec (cfg.numElems - 1) ≠ (0, 0)) :
    (ops cfg xxh).add (toSketch cfg xxh a) (toSketch cfg xxh b)
      = toSketch cfg xxh ((VecSketch.ops (concreteOracle cfg xxh)).add a b) := by
  refine ext_bucket (seed_add cfg _ _) (fun k => ?_) (alreadyQueried_add cfg _ _)
  simp only [ops, VecSketch.ops, bucket_toSketch]
  by_cases hk : k < cfg.numElems
  · rw [bucket_add_of_last_ne_zero cfg (toSketch cfg xxh a) (toSketch cfg xxh b) h0 hk,
      bucket_toSketch, bucket_toSketch, hseed, bucketOf_symmDiff]
  · have hle : cfg.numElems ≤ k := Nat.not_lt.mp hk
    rw [bucket_add_of_numElems_le cfg _ _ hle, bucket_toSketch,
      bucketOf_of_numElems_le cfg xxh _ _ hle, bucketOf_of_numElems_le cfg xxh _ _ hle]

/-- The concrete query of the sketch of a vector is the abstract query with
the concrete oracle. -/
theorem query_toSketch (a : VecSketch) :
    (ops cfg xxh).query (toSketch cfg xxh a)
      = ((VecSketch.ops (concreteOracle cfg xxh)).query a).map
          (fun r => (toSketch cfg xxh r.1, r.2)) := by
  cases hq : a.alreadyQueried
  · -- not queried: the sketch is the sketch of the vector the oracle queries
    have ha : toSketch cfg xxh a = ofVector cfg xxh a.seed a.vec := by
      simp only [toSketch, hq]
      rfl
    obtain ⟨hq', -⟩ | ⟨-, x, r, h⟩ := query_eq cfg xxh (ofVector cfg xxh a.seed a.vec)
    · simp only [alreadyQueried_ofVector, Bool.false_eq_true] at hq'
    · simp only [ops, VecSketch.ops, hq, Bool.false_eq_true, if_false, concreteOracle, ha, h]
      rfl
  · simp only [ops, VecSketch.ops, hq, if_true, query, alreadyQueried_toSketch]
    rfl

theorem copy_toSketch (a : VecSketch) :
    (ops cfg xxh).copy (toSketch cfg xxh a)
      = toSketch cfg xxh ((VecSketch.ops (concreteOracle cfg xxh)).copy a) := rfl

theorem resetQueried_toSketch (a : VecSketch) :
    (ops cfg xxh).resetQueried (toSketch cfg xxh a)
      = toSketch cfg xxh ((VecSketch.ops (concreteOracle cfg xxh)).resetQueried a) := rfl

/-- Reading back keeps the buckets, so it refines the abstract reload with
the sketch's own seed. -/
theorem reload_toSketch (a : VecSketch) :
    (ops cfg xxh).reload a.seed (toSketch cfg xxh a)
      = toSketch cfg xxh ((VecSketch.ops (concreteOracle cfg xxh)).reload a.seed a) := rfl

end Refine

end Sketch

/-! ## Supernodes -/

/-- The static variables of `Supernode` that the model reads. -/
structure SupernodeConfig where
  /-- `max_sketches`. -/
  maxSketches : Nat
  /-- The seed stride between the sketches of a supernode,
  `Sketch::column_gen(Sketch::get_failure_factor())`. -/
  sketchWidth : UInt64

/-- `Supernode::configure`: `max_sketches = log2(n) / (log2(3) - 1)` in
double precision, and the stride of `Sketch::configure(n * n, factor)`. -/
def SupernodeConfig.configure (n factor : UInt64) : SupernodeConfig where
  maxSketches := (Float.log2 n.toFloat / (Float.log2 3 - 1)).toUInt64.toNat
  sketchWidth := columnGen factor

/-- **A supernode**: its sketches and the query bookkeeping. -/
structure Supernode (σ : Type) where
  /-- `sample_idx`: the next sketch to query. -/
  sampleIdx : Nat
  /-- `n`. -/
  n : UInt64
  /-- `seed`. -/
  seed : UInt64
  /-- `num_sketches`. -/
  numSketches : Nat
  /-- `merged_sketches`: sketches from here on were not merged and may not
  be queried. -/
  mergedSketches : Nat
  /-- The sketch buffer. -/
  sketches : Nat → σ

namespace Supernode

section Ops

variable {σ : Type} (ops : SketchOps σ) (conf : SupernodeConfig)

/-- `Supernode::Supernode(n, seed)` through `makeSupernode`: `max_sketches`
empty sketches, seeded `seed`, `seed + width`, … -/
def makeSupernode (n seed : UInt64) : Supernode σ where
  sampleIdx := 0
  n := n
  seed := seed
  numSketches := conf.maxSketches
  mergedSketches := conf.maxSketches
  sketches i := ops.make (seed + i.toUInt64 * conf.sketchWidth)

/-- `Supernode::out_of_queries`. -/
def outOfQueries (s : Supernode σ) : Prop := s.mergedSketches ≤ s.sampleIdx

instance (s : Supernode σ) : Decidable s.outOfQueries :=
  inferInstanceAs (Decidable (_ ≤ _))

/-- `Supernode::samples_remaining`, as a natural number: none once out of
queries. -/
def samplesRemaining (s : Supernode σ) : Nat := s.mergedSketches - s.sampleIdx

/-- `Supernode::sample`. The index moves on before the sketch is queried,
so it moves on even when the query throws; the state is returned with the
outcome. -/
def sample (s : Supernode σ) : Supernode σ × Except Exception (Edge × SampleSketchRet) :=
  if s.outOfQueries then (s, .error .outOfQueries)
  else
    let i := s.sampleIdx
    let s := { s with sampleIdx := i + 1 }
    match ops.query (s.sketches i) with
    | .error e => (s, .error e)
    | .ok (sk, non_zero, ret_code) =>
      ({ s with sketches := Function.update s.sketches i sk },
        .ok (invConcatPairingFn non_zero, ret_code))

/-- `Supernode::exhaustive_sample`, given the sketch's `exhaustive_query`:
as `sample`, with every index of the answer decoded. -/
def exhaustiveSample
    (exhaustiveQuery : σ → Except Exception (σ × Finset UInt64 × SampleSketchRet))
    (s : Supernode σ) : Supernode σ × Except Exception (Finset Edge × SampleSketchRet) :=
  if s.outOfQueries then (s, .error .outOfQueries)
  else
    let i := s.sampleIdx
    let s := { s with sampleIdx := i + 1 }
    match exhaustiveQuery (s.sketches i) with
    | .error e => (s, .error e)
    | .ok (sk, query_ret, ret_code) =>
      ({ s with sketches := Function.update s.sketches i sk },
        .ok (query_ret.image invConcatPairingFn, ret_code))

/-- `Supernode::merge`: the larger sample index, the smaller merge bound,
and the other's sketches added into those in between. -/
def merge (s other : Supernode σ) : Supernode σ :=
  let sampleIdx := max s.sampleIdx other.sampleIdx
  let mergedSketches := min s.mergedSketches other.mergedSketches
  { s with
    sampleIdx := sampleIdx
    mergedSketches := mergedSketches
    sketches := fun i =>
      if sampleIdx ≤ i ∧ i < mergedSketches then ops.add (s.sketches i) (other.sketches i)
      else s.sketches i }

/-- `Supernode::range_merge`: the larger sample index, the merge bound
`start_idx + num_merge` as the caller gives it, and the other's sketches
added into those from the sample index up to that bound. -/
def rangeMerge (s other : Supernode σ) (startIdx numMerge : Nat) : Supernode σ :=
  let sampleIdx := max s.sampleIdx other.sampleIdx
  -- we trust the caller so whatever they tell us goes here
  let mergedSketches := startIdx + numMerge
  { s with
    sampleIdx := sampleIdx
    mergedSketches := mergedSketches
    sketches := fun i =>
      if sampleIdx ≤ i ∧ i < mergedSketches then ops.add (s.sketches i) (other.sketches i)
      else s.sketches i }

/-- `Supernode::update`: every sketch. -/
def update (s : Supernode σ) (upd : UInt64) : Supernode σ :=
  { s with
    sketches := fun i => if i < s.numSketches then ops.update (s.sketches i) upd else s.sketches i }

/-- `Supernode::apply_delta_update`: every sketch of the delta added in. -/
def applyDeltaUpdate (s delta : Supernode σ) : Supernode σ :=
  { s with
    sketches := fun i =>
      if i < s.numSketches then ops.add (s.sketches i) (delta.sketches i) else s.sketches i }

/-- `Supernode::delta_supernode`: a fresh supernode with the batch applied
to each sketch by `Sketch::batch_update`. -/
def deltaSupernode (n seed : UInt64) (updates : List UInt64) : Supernode σ :=
  let d := makeSupernode ops conf n seed
  { d with
    sketches := fun i =>
      if i < d.numSketches then updates.foldl ops.update (d.sketches i) else d.sketches i }

/-- `Supernode::reset_query_state`: the used sketches unqueried, and the
index back to 0. -/
def resetQueryState (s : Supernode σ) : Supernode σ :=
  { s with
    sampleIdx := 0
    sketches := fun i => if i < s.sampleIdx then ops.resetQueried (s.sketches i) else s.sketches i }

/-- The copy constructor `Supernode(const Supernode&)`: the bookkeeping,
and a copy of each sketch. -/
def copy (s : Supernode σ) : Supernode σ :=
  { s with sketches := fun i => if i < s.numSketches then ops.copy (s.sketches i) else s.sketches i }

/-- `Supernode(n, seed, binary_in)` reading back what `write_binary` wrote
for `written`, which has `max_sketches` sketches (`FULL`): nothing used,
every sketch reseeded from `seed` and its buckets read back. -/
def reload (n seed : UInt64) (written : Supernode σ) : Supernode σ where
  sampleIdx := 0
  n := n
  seed := seed
  numSketches := conf.maxSketches
  mergedSketches := conf.maxSketches
  sketches i := ops.reload (seed + i.toUInt64 * conf.sketchWidth) (written.sketches i)

/-! ### What each operation changes -/

@[simp] theorem merge_sampleIdx (s t : Supernode σ) :
    (merge ops s t).sampleIdx = max s.sampleIdx t.sampleIdx := rfl

@[simp] theorem merge_mergedSketches (s t : Supernode σ) :
    (merge ops s t).mergedSketches = min s.mergedSketches t.mergedSketches := rfl

@[simp] theorem merge_numSketches (s t : Supernode σ) :
    (merge ops s t).numSketches = s.numSketches := rfl

theorem merge_sketches (s t : Supernode σ) (i : Nat) :
    (merge ops s t).sketches i
      = if max s.sampleIdx t.sampleIdx ≤ i ∧ i < min s.mergedSketches t.mergedSketches
        then ops.add (s.sketches i) (t.sketches i) else s.sketches i := rfl

@[simp] theorem rangeMerge_sampleIdx (s t : Supernode σ) (startIdx numMerge : Nat) :
    (rangeMerge ops s t startIdx numMerge).sampleIdx = max s.sampleIdx t.sampleIdx := rfl

/-- The merge bound is overwritten, also upwards. -/
@[simp] theorem rangeMerge_mergedSketches (s t : Supernode σ) (startIdx numMerge : Nat) :
    (rangeMerge ops s t startIdx numMerge).mergedSketches = startIdx + numMerge := rfl

theorem rangeMerge_sketches (s t : Supernode σ) (startIdx numMerge i : Nat) :
    (rangeMerge ops s t startIdx numMerge).sketches i
      = if max s.sampleIdx t.sampleIdx ≤ i ∧ i < startIdx + numMerge
        then ops.add (s.sketches i) (t.sketches i) else s.sketches i := rfl

@[simp] theorem resetQueryState_sampleIdx (s : Supernode σ) :
    (resetQueryState ops s).sampleIdx = 0 := rfl

@[simp] theorem resetQueryState_mergedSketches (s : Supernode σ) :
    (resetQueryState ops s).mergedSketches = s.mergedSketches := rfl

@[simp] theorem resetQueryState_numSketches (s : Supernode σ) :
    (resetQueryState ops s).numSketches = s.numSketches := rfl

@[simp] theorem copy_sampleIdx (s : Supernode σ) : (copy ops s).sampleIdx = s.sampleIdx := rfl

@[simp] theorem copy_mergedSketches (s : Supernode σ) :
    (copy ops s).mergedSketches = s.mergedSketches := rfl

@[simp] theorem copy_numSketches (s : Supernode σ) :
    (copy ops s).numSketches = s.numSketches := rfl

@[simp] theorem sample_mergedSketches (s : Supernode σ) :
    (sample ops s).1.mergedSketches = s.mergedSketches := by
  unfold sample
  split
  · rfl
  · dsimp only
    split <;> rfl

@[simp] theorem sample_numSketches (s : Supernode σ) :
    (sample ops s).1.numSketches = s.numSketches := by
  unfold sample
  split
  · rfl
  · dsimp only
    split <;> rfl

/-- Merging in a list of supernodes only lowers the merge bound. -/
theorem mergedSketches_foldl_merge_le (f : Nat → Supernode σ) (l : List Nat) (s : Supernode σ) :
    (l.foldl (fun s b => merge ops s (f b)) s).mergedSketches ≤ s.mergedSketches := by
  induction l generalizing s with
  | nil => exact le_refl _
  | cons b l ih => exact (ih _).trans (min_le_left _ _)

/-- **What a successful `sample` did**: there was a query left, the sketch
at the index answered, and only the index and that sketch changed. -/
theorem sample_eq_ok {s s' : Supernode σ} {r : Edge × SampleSketchRet}
    (h : sample ops s = (s', .ok r)) :
    s.sampleIdx < s.mergedSketches ∧
      ∃ sk x, ops.query (s.sketches s.sampleIdx) = .ok (sk, x, r.2) ∧
        r.1 = invConcatPairingFn x ∧
        s' = { s with sampleIdx := s.sampleIdx + 1,
                      sketches := Function.update s.sketches s.sampleIdx sk } := by
  unfold sample at h
  by_cases hq : s.outOfQueries
  · simp only [hq, if_true, Prod.mk.injEq, reduceCtorEq, and_false] at h
  · simp only [hq, if_false] at h
    refine ⟨Nat.lt_of_not_le hq, ?_⟩
    split at h
    · simp only [Prod.mk.injEq, reduceCtorEq, and_false] at h
    · rename_i sk x ret hquery
      simp only [Prod.mk.injEq, Except.ok.injEq] at h
      obtain ⟨rfl, rfl⟩ := h
      exact ⟨sk, x, hquery, rfl, rfl⟩

/-- The converse: with a query left, `sample` decodes what the sketch at the
index answers. -/
theorem sample_of_query_eq_ok {s : Supernode σ} {sk : σ} {x : UInt64} {ret : SampleSketchRet}
    (hq : ¬s.outOfQueries) (h : ops.query (s.sketches s.sampleIdx) = .ok (sk, x, ret)) :
    sample ops s = ({ s with sampleIdx := s.sampleIdx + 1,
                             sketches := Function.update s.sketches s.sampleIdx sk },
                    .ok (invConcatPairingFn x, ret)) := by
  unfold sample
  rw [if_neg hq]
  dsimp only
  rw [h]

/-- `exhaustive_sample` likewise stores the sketch its query leaves. -/
theorem exhaustiveSample_of_query_eq_ok
    {exhaustiveQuery : σ → Except Exception (σ × Finset UInt64 × SampleSketchRet)}
    {s : Supernode σ} {sk : σ} {R : Finset UInt64} {ret : SampleSketchRet}
    (hq : ¬s.outOfQueries) (h : exhaustiveQuery (s.sketches s.sampleIdx) = .ok (sk, R, ret)) :
    exhaustiveSample exhaustiveQuery s
      = ({ s with sampleIdx := s.sampleIdx + 1,
                  sketches := Function.update s.sketches s.sampleIdx sk },
          .ok (R.image invConcatPairingFn, ret)) := by
  unfold exhaustiveSample
  rw [if_neg hq]
  dsimp only
  rw [h]

/-- A successful `sample` uses up one query. -/
theorem samplesRemaining_lt_of_sample_eq_ok {s s' : Supernode σ} {r : Edge × SampleSketchRet}
    (h : sample ops s = (s', .ok r)) : s'.samplesRemaining < s.samplesRemaining := by
  obtain ⟨hlt, -, -, -, -, rfl⟩ := sample_eq_ok ops h
  show s.mergedSketches - (s.sampleIdx + 1) < s.mergedSketches - s.sampleIdx
  omega

/-- **What a failed `sample` did**: nothing, when out of queries; otherwise
the index moved on past the sketch whose query threw. -/
theorem sample_eq_error {s s' : Supernode σ} {e : Exception}
    (h : sample ops s = (s', .error e)) :
    (s.outOfQueries ∧ e = .outOfQueries ∧ s' = s) ∨
      (¬s.outOfQueries ∧ ops.query (s.sketches s.sampleIdx) = .error e ∧
        s' = { s with sampleIdx := s.sampleIdx + 1 }) := by
  unfold sample at h
  by_cases hq : s.outOfQueries
  · simp only [hq, if_true, Prod.mk.injEq, Except.error.injEq] at h
    exact .inl ⟨hq, h.2.symm, h.1.symm⟩
  · simp only [hq, if_false] at h
    split at h
    · rename_i e' hquery
      simp only [Prod.mk.injEq, Except.error.injEq] at h
      obtain ⟨rfl, rfl⟩ := h
      exact .inr ⟨hq, hquery, rfl⟩
    · simp only [Prod.mk.injEq, reduceCtorEq, and_false] at h

end Ops

/-- **`range_merge` merges below `start_idx` too**: its loop starts at the
larger sample index, not at `start_idx`, so a sketch between the two is
merged, and is no longer bucket-equal to what it was once the other's
sketch there has a non-zero level-0 bucket. -/
theorem rangeMerge_changes_below_start (cfg : SketchConfig) (xxh : UInt64 → UInt64 → UInt64)
    {s other : Supernode Sketch} {startIdx numMerge i : Nat}
    (hi : max s.sampleIdx other.sampleIdx ≤ i) (hlt : i < startIdx)
    (hnz : (other.sketches i).bucket (cfg.numElems - 1) ≠ (0, 0)) :
    ¬Sketch.BucketEq cfg ((rangeMerge (Sketch.ops cfg xxh) s other startIdx numMerge).sketches i)
      (s.sketches i) := by
  rintro ⟨-, hb⟩
  have hlast : cfg.numElems - 1 < cfg.numElems := Nat.sub_lt (Nat.succ_pos _) Nat.one_pos
  have hmerged : (rangeMerge (Sketch.ops cfg xxh) s other startIdx numMerge).sketches i
      = (s.sketches i).add cfg (other.sketches i) := by
    rw [rangeMerge_sketches, if_pos ⟨hi, by omega⟩]
    rfl
  have hlevel0 := hb _ hlast
  rw [hmerged, Sketch.bucket_add_of_last_ne_zero cfg _ _ hnz hlast] at hlevel0
  exact hnz (eq_zero_of_bucketXor_eq_self hlevel0)

/-- Two supernodes of three nodes under `Supernode::configure(3, 4)`, two
sketches each, both sample indices 0 and `start_idx = 1`: sketch 0 is
merged. -/
theorem rangeMerge_changes_below_start_zero :
    ¬Sketch.BucketEq ⟨4, 9, 3, 1⟩
      ((rangeMerge (Sketch.ops ⟨4, 9, 3, 1⟩ fun _ _ => 0)
        ⟨0, 3, 0, 2, 2, fun _ => Sketch.makeSketch 0⟩
        ⟨0, 3, 0, 2, 2, fun _ => { Sketch.makeSketch 0 with bucketA := fun _ => 1 }⟩ 1 1).sketches 0)
      (Sketch.makeSketch 0) :=
  rangeMerge_changes_below_start ⟨4, 9, 3, 1⟩ (fun _ _ => 0) (by decide) (by decide)
    (by decide)

/-- **`exhaustive_query` may be repeated**: on a sketch not yet queried whose
level-0 bucket is zero or good, it returns before it sets the flag, so the
sketch it leaves is the one it was given. A second `exhaustive_query` of it,
or a `query`, answers again, and `exhaustive_sample` leaves it unqueried in
the supernode. -/
theorem exhaustiveQuery_leaves_unqueried (cfg : SketchConfig) (xxh : UInt64 → UInt64 → UInt64)
    {s : Sketch} (hq : s.alreadyQueried = false)
    (hearly : s.bucket (cfg.numElems - 1) = (0, 0) ∨
      isGood xxh (s.bucketA (cfg.numElems - 1)) (s.bucketC (cfg.numElems - 1)) s.checksumSeed) :
    (∃ R r, s.exhaustiveQuery cfg xxh = .ok (s, R, r)) ∧
      (∃ x r, s.query cfg xxh = .ok ({ s with alreadyQueried := true }, x, r)) ∧
      ∀ n : Supernode Sketch, ¬n.outOfQueries → n.sketches n.sampleIdx = s →
        ∃ n' E r, exhaustiveSample (Sketch.exhaustiveQuery cfg xxh) n = (n', .ok (E, r)) ∧
          n'.sketches n.sampleIdx = s := by
  have hex : ∃ R r, s.exhaustiveQuery cfg xxh = .ok (s, R, r) := by
    rcases Sketch.exhaustiveQuery_eq cfg xxh s with ⟨hq', -⟩ | ⟨-, -, hok⟩ | ⟨-, hlate, -⟩
    · exact absurd (hq.symm.trans hq') Bool.false_ne_true
    · exact hok
    · exact absurd hearly hlate
  have hquery : ∃ x r, s.query cfg xxh = .ok ({ s with alreadyQueried := true }, x, r) := by
    rcases Sketch.query_eq cfg xxh s with ⟨hq', -⟩ | ⟨-, hok⟩
    · exact absurd (hq.symm.trans hq') Bool.false_ne_true
    · exact hok
  refine ⟨hex, hquery, fun n hn hs => ?_⟩
  obtain ⟨R, r, hR⟩ := hex
  rw [← hs] at hR
  refine ⟨_, _, _, exhaustiveSample_of_query_eq_ok hn hR, ?_⟩
  show Function.update n.sketches n.sampleIdx (n.sketches n.sampleIdx) n.sampleIdx = s
  rw [Function.update_self, hs]

/-- The empty sketch, whose level-0 bucket is zero, under the configuration
`Sketch::configure(9, 4)` sets up for three nodes. -/
theorem exhaustiveQuery_leaves_unqueried_empty :
    (Sketch.makeSketch 0).alreadyQueried = false ∧
      (∃ R r, (Sketch.makeSketch 0).exhaustiveQuery ⟨4, 9, 3, 1⟩ (fun _ _ => 0)
          = .ok (Sketch.makeSketch 0, R, r)) ∧
      (∃ x r, (Sketch.makeSketch 0).query ⟨4, 9, 3, 1⟩ (fun _ _ => 0)
          = .ok ({ Sketch.makeSketch 0 with alreadyQueried := true }, x, r)) ∧
      ∀ n : Supernode Sketch, ¬n.outOfQueries → n.sketches n.sampleIdx = Sketch.makeSketch 0 →
        ∃ n' E r, exhaustiveSample (Sketch.exhaustiveQuery ⟨4, 9, 3, 1⟩ fun _ _ => 0) n
            = (n', .ok (E, r)) ∧ n'.sketches n.sampleIdx = Sketch.makeSketch 0 :=
  ⟨rfl, exhaustiveQuery_leaves_unqueried ⟨4, 9, 3, 1⟩ (fun _ _ => 0) rfl (.inl rfl)⟩

end Supernode

end GraphZeppelin

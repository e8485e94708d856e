import GraphZeppelin.Bytes
import GraphZeppelin.Loop
import GraphZeppelin.Sketch

/-!
# Serialized sketches

A sketch is written in one of two forms. `write_binary` writes the array
`bucket_a` and then the array `bucket_c`, eight and four bytes a bucket.
`write_sparse_binary` writes only the buckets below the level-0 bucket that
are not zero, each as its position in sixteen bits followed by its two
values. It then always writes the level-0 bucket with its position
`num_elems - 1`, which marks the end of the sketch. The loop of the sparse
writer counts in sixteen bits: with more than 65536 buckets it never ends
(`writeSparseBinary_eq_none`).

The reader `Sketch(seed, binary_in, sparse)` reads either form back. The
dense form is two reads of whole arrays. The sparse form is a loop: it
zeroes the buckets and reads a position; while the position is below the
level-0 bucket, it reads that bucket and the next position. Both forms
read back what was written, and the sparse reader consumes exactly the
bytes of its sketch (`ofStream_writeBinary`, `ofStream_writeSparseBinary`),
so the sketches of a record follow one another.

The reader trusts its input. Its loop ends only on a position at or past
the level-0 bucket. A stream that fails inside a sparse sketch keeps the
position it had, and the loop never ends (`readSparse_eq_none_of_not_good`).
A position past the level-0 bucket ends the loop, and the bucket at it is
then written, outside the arrays.
-/

namespace GraphZeppelin

open Bytes

namespace Sketch

variable (cfg : SketchConfig)

/-! ## Writing -/

/-- `Sketch::write_binary`: the array `bucket_a`, then the array
`bucket_c`. -/
def writeBinary (s : Sketch) : List UInt8 :=
  encodeWords 8 (fun i => (s.bucketA i).toNat) cfg.numElems ++
    encodeWords 4 (fun i => (s.bucketC i).toNat) cfg.numElems

/-- The values of bucket `i`: `bucket_a[i]`, then `bucket_c[i]`. -/
def bucketBytes (s : Sketch) (i : ℕ) : List UInt8 :=
  toBytesLE 8 (s.bucketA i).toNat ++ toBytesLE 4 (s.bucketC i).toNat

/-- Bucket `i` in the sparse form: its position in sixteen bits, then its
values. -/
def sparseEntry (s : Sketch) (i : ℕ) : List UInt8 :=
  toBytesLE 2 i ++ bucketBytes s i

/-- One iteration of the loop of `write_sparse_binary` over its counter
`uint16_t i`: a bucket that is zero is skipped. -/
def writeSparseStep (s : Sketch) (st : UInt16 × List UInt8) :
    (UInt16 × List UInt8) ⊕ List UInt8 :=
  if st.1.toNat < cfg.numElems - 1 then
    .inl (st.1 + 1, if s.bucketA st.1.toNat = 0 ∧ s.bucketC st.1.toNat = 0 then st.2
      else st.2 ++ sparseEntry s st.1.toNat)
  else .inr st.2

/-- `Sketch::write_sparse_binary`: the loop over the buckets below the
level-0 bucket, then the level-0 bucket. A loop that ends takes at most
65536 iterations; `none` means that it does not end. -/
def writeSparseBinary (s : Sketch) : Option (List UInt8) :=
  (Loop.iterate (writeSparseStep cfg s) 65537 (0, [])).map fun out =>
    -- always write down the deterministic bucket to mark the end of the sketch
    out ++ sparseEntry s (cfg.numElems - 1)

/-! ## Reading -/

/-- The state of the sparse reader: the position `idx` last read, the two
bucket arrays, and the stream. -/
structure SparseRead where
  /-- `idx`. -/
  idx : ℕ
  /-- `bucket_a`, and the memory after it. -/
  bucketA : ℕ → UInt64
  /-- `bucket_c`, and the memory after it. -/
  bucketC : ℕ → UInt32
  /-- `binary_in`. -/
  binIn : InStream

/-- The reads into `bucket_a[idx]` and `bucket_c[idx]`. -/
def SparseRead.readBucket (st : SparseRead) : SparseRead :=
  let a := st.binIn.readLE 8 (st.bucketA st.idx).toNat
  let c := a.2.readLE 4 (st.bucketC st.idx).toNat
  { st with
    bucketA := Function.update st.bucketA st.idx a.1.toUInt64
    bucketC := Function.update st.bucketC st.idx c.1.toUInt32
    binIn := c.2 }

/-- The read into `idx`. -/
def SparseRead.readIdx (st : SparseRead) : SparseRead :=
  let i := st.binIn.readLE 2 st.idx
  { st with idx := i.1, binIn := i.2 }

/-- One iteration of `while (idx < num_elems - 1)`. -/
def readSparseStep (st : SparseRead) : SparseRead ⊕ SparseRead :=
  if st.idx < cfg.numElems - 1 then .inl st.readBucket.readIdx else .inr st

/-- The sparse branch of the reader, over the memory of `mem`: the buckets
zeroed, the first position, at most `fuel` iterations of the loop, and the
bucket of the position the loop stopped on; `none` when the fuel runs
out. -/
def readSparse (binIn : InStream) (mem : Sketch) (fuel : ℕ) : Option SparseRead :=
  let st : SparseRead :=
    -- `uint16_t idx` starts indeterminate; it is read over zero here
    { idx := 0
      bucketA := fun i => if i < cfg.numElems then 0 else mem.bucketA i
      bucketC := fun i => if i < cfg.numElems then 0 else mem.bucketC i
      binIn := binIn }
  (Loop.iterate (readSparseStep cfg) fuel st.readIdx).map SparseRead.readBucket

/-- `Sketch::Sketch(seed, binary_in, sparse)`, built over the memory of
`mem`: the dense form read by two reads of whole arrays, or the sparse
form. Not queried. -/
def ofStream (seed : UInt64) (binIn : InStream) (sparse : Bool) (mem : Sketch) (fuel : ℕ) :
    Option (Sketch × InStream) :=
  if sparse then
    (readSparse cfg binIn mem fuel).map fun st => (⟨seed, st.bucketA, st.bucketC, false⟩, st.binIn)
  else
    let a := binIn.readWords 8 cfg.numElems fun i => (mem.bucketA i).toNat
    let c := a.2.readWords 4 cfg.numElems fun i => (mem.bucketC i).toNat
    some (⟨seed, fun i => (a.1 i).toUInt64, fun i => (c.1 i).toUInt32, false⟩, c.2)

/-! ## The dense form read back -/

/-- **The dense form is read back**: the given seed and the written
buckets, with the stream after them. -/
theorem ofStream_writeBinary (s mem : Sketch) (seed : UInt64) (more : List UInt8) (fuel : ℕ) :
    ∃ r, ofStream cfg seed ⟨writeBinary cfg s ++ more, false, false⟩ false mem fuel
        = some (r, ⟨more, false, false⟩) ∧
      r.seed = seed ∧ ∀ k < cfg.numElems, r.bucket k = s.bucket k := by
  have ha := InStream.readWords_encodeWords (n := cfg.numElems) (fun i => (s.bucketA i).toNat)
    (fun i => (mem.bucketA i).toNat)
    (encodeWords 4 (fun i => (s.bucketC i).toNat) cfg.numElems ++ more)
    (fun i _ => show (s.bucketA i).toNat < 256 ^ 8 from (s.bucketA i).toNat_lt)
  have hc := InStream.readWords_encodeWords (n := cfg.numElems) (fun i => (s.bucketC i).toNat)
    (fun i => (mem.bucketC i).toNat) more
    (fun i _ => show (s.bucketC i).toNat < 256 ^ 4 from (s.bucketC i).toNat_lt)
  rw [ofStream, if_neg Bool.false_ne_true, writeBinary, List.append_assoc, ha]
  dsimp only
  rw [hc]
  refine ⟨_, rfl, rfl, fun k hk => ?_⟩
  simp only [bucket, if_pos hk, UInt64.ofNat_toNat, UInt32.ofNat_toNat, Nat.toUInt64_eq,
    Nat.toUInt32_eq]

/-! ## The sparse writer -/

/-- The buckets below the level-0 bucket that are not zero, in order. -/
def nonzeroBuckets (s : Sketch) : List ℕ :=
  (List.range (cfg.numElems - 1)).filter fun i => !(s.bucketA i = 0 ∧ s.bucketC i = 0)

/-- The first `j` iterations of the sparse writer: the counter at `j`, and
the entries of the buckets below `j` that are not zero. -/
def WrittenUpTo (s : Sketch) (st : UInt16 × List UInt8) : Prop :=
  st.1.toNat ≤ cfg.numElems - 1 ∧
    st.2 = ((List.range st.1.toNat).filter fun i => !(s.bucketA i = 0 ∧ s.bucketC i = 0)).flatMap
      (sparseEntry s)

/-- An iteration of the sparse writer moves the counter on by one and
writes the entry of its bucket if it is not zero. -/
theorem writtenUpTo_writeSparseStep {s : Sketch} (hcfg : cfg.numElems - 1 ≤ 65535)
    {st st' : UInt16 × List UInt8} (h : WrittenUpTo cfg s st)
    (hstep : writeSparseStep cfg s st = .inl st') :
    WrittenUpTo cfg s st' ∧ cfg.numElems - 1 - st'.1.toNat < cfg.numElems - 1 - st.1.toNat := by
  obtain ⟨i, out⟩ := st
  unfold writeSparseStep at hstep
  split at hstep
  · rename_i hi
    cases hstep
    have hsucc : (i + 1).toNat = i.toNat + 1 := by
      rw [UInt16.toNat_add, UInt16.toNat_one]
      exact Nat.mod_eq_of_lt (by dsimp only at hi; omega)
    dsimp only at hi ⊢
    refine ⟨⟨by rw [hsucc]; exact hi, ?_⟩, by rw [hsucc]; omega⟩
    rw [hsucc, List.range_succ, List.filter_append, List.flatMap_append, ← h.2,
      List.filter_singleton]
    by_cases hz : s.bucketA i.toNat = 0 ∧ s.bucketC i.toNat = 0
    · rw [if_pos hz, decide_eq_true hz]
      simp
    · rw [if_neg hz, decide_eq_false hz]
      simp
  · cases hstep

/-- **The sparse writer** writes the entries of the buckets that are not
zero, in order, and the level-0 bucket, as long as the positions fit its
sixteen-bit counter. -/
theorem writeSparseBinary_eq {s : Sketch} (hcfg : cfg.numElems - 1 ≤ 65535) :
    writeSparseBinary cfg s
      = some ((nonzeroBuckets cfg s).flatMap (sparseEntry s) ++ sparseEntry s (cfg.numElems - 1)) := by
  have hinit : WrittenUpTo cfg s (0, []) := ⟨Nat.zero_le _, rfl⟩
  obtain ⟨out, hout⟩ := Option.isSome_iff_exists.mp
    (Loop.isSome_iterate (WrittenUpTo cfg s) (fun st => cfg.numElems - 1 - st.1.toNat)
      (fun _ _ h hs => writtenUpTo_writeSparseStep cfg hcfg h hs) 65537 (0, []) hinit
      (by dsimp only; omega))
  obtain ⟨⟨i, out'⟩, ⟨hle, hw⟩, hstop⟩ := Loop.iterate_induction (WrittenUpTo cfg s)
    (fun _ _ h hs => (writtenUpTo_writeSparseStep cfg hcfg h hs).1) 65537 (0, []) out hinit hout
  -- the loop stops once the counter reaches the level-0 bucket
  unfold writeSparseStep at hstop
  split at hstop
  · cases hstop
  · rename_i hi
    cases hstop
    have hi' : i.toNat = cfg.numElems - 1 := by
      simp only at hi hle
      omega
    rw [writeSparseBinary, hout, Option.map_some, hw, hi']
    rfl

/-- With more than 65536 buckets the counter of the sparse writer wraps
around before reaching the level-0 bucket: the loop never ends. -/
theorem writeSparseBinary_eq_none {s : Sketch} (hcfg : 65535 < cfg.numElems - 1) :
    writeSparseBinary cfg s = none := by
  rw [writeSparseBinary, Loop.iterate_eq_none (fun _ => True) (fun st _ => ?_) 65537 (0, [])
    trivial, Option.map_none]
  have hlt : st.1.toNat < cfg.numElems - 1 := by
    have := st.1.toNat_lt
    omega
  exact ⟨_, by rw [writeSparseStep, if_pos hlt], trivial⟩

/-! ## The sparse reader -/

section SparseReader

variable {cfg} {s : Sketch} {more : List UInt8}

/-- Reading the values of a bucket stores them at `idx`. -/
theorem SparseRead.readBucket_mk (i : ℕ) (A : ℕ → UInt64) (C : ℕ → UInt32) :
    SparseRead.readBucket ⟨i, A, C, ⟨bucketBytes s i ++ more, false, false⟩⟩
      = ⟨i, Function.update A i (s.bucketA i), Function.update C i (s.bucketC i),
          ⟨more, false, false⟩⟩ := by
  have ha := InStream.readLE_toBytesLE (A i).toNat (toBytesLE 4 (s.bucketC i).toNat ++ more)
    (show (s.bucketA i).toNat < 256 ^ 8 from (s.bucketA i).toNat_lt)
  have hc := InStream.readLE_toBytesLE (C i).toNat more
    (show (s.bucketC i).toNat < 256 ^ 4 from (s.bucketC i).toNat_lt)
  rw [SparseRead.readBucket, bucketBytes, List.append_assoc, ha]
  dsimp only
  rw [hc]
  simp only [Nat.toUInt64_eq, Nat.toUInt32_eq, UInt64.ofNat_toNat, UInt32.ofNat_toNat]

/-- Reading a position from a good stream that starts with it. -/
theorem SparseRead.readIdx_mk {i : ℕ} (j : ℕ) (A : ℕ → UInt64) (C : ℕ → UInt32)
    (hi : i < 256 ^ 2) :
    SparseRead.readIdx ⟨j, A, C, ⟨toBytesLE 2 i ++ more, false, false⟩⟩
      = ⟨i, A, C, ⟨more, false, false⟩⟩ := by
  rw [SparseRead.readIdx, InStream.readLE_toBytesLE _ _ hi]

/-- A bucket written with its value joins the written positions. -/
theorem update_ite_mem {α : Type} (f g : ℕ → α) (W : List ℕ) (i : ℕ) :
    Function.update (fun k => if k ∈ W then f k else g k) i (f i)
      = fun k => if k ∈ i :: W then f k else g k := by
  funext k
  by_cases hk : k = i
  · subst hk
    simp
  · simp [hk]

/-- **The loop reads the sparse entries back.** From a stream holding the
entries of the positions `P` and then the level-0 entry, the loop, started
by reading a position, writes the values of every position of `P` and stops
on the level-0 position, with its values next. -/
theorem iterate_readSparseStep (hcfg : cfg.numElems - 1 ≤ 65535) (more : List UInt8)
    (A0 : ℕ → UInt64) (C0 : ℕ → UInt32) :
    ∀ (P W : List ℕ) (j fuel : ℕ) (A : ℕ → UInt64) (C : ℕ → UInt32),
      (∀ p ∈ P, p < cfg.numElems - 1) → P.length < fuel →
      A = (fun k => if k ∈ W then s.bucketA k else A0 k) →
      C = (fun k => if k ∈ W then s.bucketC k else C0 k) →
      Loop.iterate (readSparseStep cfg) fuel (SparseRead.readIdx ⟨j, A, C,
          ⟨P.flatMap (sparseEntry s) ++ (sparseEntry s (cfg.numElems - 1) ++ more), false, false⟩⟩)
        = some ⟨cfg.numElems - 1, fun k => if k ∈ P.reverse ++ W then s.bucketA k else A0 k,
            fun k => if k ∈ P.reverse ++ W then s.bucketC k else C0 k,
            ⟨bucketBytes s (cfg.numElems - 1) ++ more, false, false⟩⟩
  | [], W, j, fuel, A, C, _, hfuel, hA, hC => by
    -- the level-0 position: the loop stops at once
    obtain ⟨k, rfl⟩ : ∃ k, fuel = k + 1 := ⟨fuel - 1, by simp at hfuel; omega⟩
    rw [List.flatMap_nil, List.nil_append, sparseEntry, List.append_assoc,
      SparseRead.readIdx_mk j A C (by omega),
      Loop.iterate_of_inr (by rw [readSparseStep, if_neg (Nat.lt_irrefl _)]), hA, hC]
    rfl
  | p :: P, W, j, fuel, A, C, hP, hfuel, hA, hC => by
    have hp := hP p (List.mem_cons_self ..)
    obtain ⟨k, rfl⟩ : ∃ k, fuel = k + 1 := ⟨fuel - 1, by simp at hfuel; omega⟩
    -- the position `p` is read, then its values, then the next position
    have hstream : (p :: P).flatMap (sparseEntry s) ++ (sparseEntry s (cfg.numElems - 1) ++ more)
        = toBytesLE 2 p ++ (bucketBytes s p ++
          (P.flatMap (sparseEntry s) ++ (sparseEntry s (cfg.numElems - 1) ++ more))) := by
      rw [List.flatMap_cons, show sparseEntry s p = toBytesLE 2 p ++ bucketBytes s p from rfl,
        List.append_assoc, List.append_assoc]
    rw [hstream, SparseRead.readIdx_mk j A C (by omega),
      Loop.iterate_of_inl (by rw [readSparseStep, if_pos hp]), SparseRead.readBucket_mk,
      iterate_readSparseStep hcfg more A0 C0 P (p :: W) p k _ _
        (fun q hq => hP q (List.mem_cons_of_mem p hq)) (by simp at hfuel; omega)
        (by rw [hA, update_ite_mem]) (by rw [hC, update_ite_mem]),
      List.reverse_cons, List.append_assoc, List.singleton_append]

/-- **The sparse form is read back**: with enough fuel, the reader stores
the value of every bucket, zero where the entry was left out, and leaves
the stream after the sketch. -/
theorem readSparse_writeSparse (hcfg : cfg.numElems - 1 ≤ 65535) (mem : Sketch) {fuel : ℕ}
    (hfuel : cfg.numElems ≤ fuel) :
    ∃ st, readSparse cfg ⟨(nonzeroBuckets cfg s).flatMap (sparseEntry s) ++
        sparseEntry s (cfg.numElems - 1) ++ more, false, false⟩ mem fuel = some st ∧
      st.binIn = ⟨more, false, false⟩ ∧
      ∀ k < cfg.numElems, st.bucketA k = s.bucketA k ∧ st.bucketC k = s.bucketC k := by
  have hZ : ∀ p ∈ nonzeroBuckets cfg s, p < cfg.numElems - 1 := fun p hp =>
    List.mem_range.mp (List.mem_of_mem_filter hp)
  have hlen : (nonzeroBuckets cfg s).length ≤ cfg.numElems - 1 :=
    (List.length_filter_le _ _).trans_eq (List.length_range ..)
  have hpos : 0 < cfg.numElems := Nat.succ_pos _
  have hloop := iterate_readSparseStep (s := s) hcfg more
    (fun i => if i < cfg.numElems then 0 else mem.bucketA i)
    (fun i => if i < cfg.numElems then 0 else mem.bucketC i) (nonzeroBuckets cfg s) [] 0 fuel
    (fun i => if i < cfg.numElems then 0 else mem.bucketA i)
    (fun i => if i < cfg.numElems then 0 else mem.bucketC i) hZ (by omega)
    (by funext k; simp) (by funext k; simp)
  rw [readSparse, List.append_assoc]
  rw [hloop, Option.map_some, SparseRead.readBucket_mk]
  refine ⟨_, rfl, rfl, fun k hk => ?_⟩
  dsimp only
  by_cases hlast : k = cfg.numElems - 1
  · subst hlast
    simp
  · -- a bucket below the level-0 bucket: written if it was not zero
    rw [Function.update_of_ne hlast, Function.update_of_ne hlast]
    simp only [List.append_nil, List.mem_reverse]
    by_cases hmem : k ∈ nonzeroBuckets cfg s
    · simp only [if_pos hmem, and_self]
    · have hzero : s.bucketA k = 0 ∧ s.bucketC k = 0 := by
        simpa [nonzeroBuckets, List.mem_filter, List.mem_range, show k < cfg.numElems - 1 by
          omega] using hmem
      simp only [if_neg hmem, if_pos hk, hzero, and_self]

end SparseReader

/-- **The sparse form is read back**, and exactly its bytes are
consumed. -/
theorem ofStream_writeSparseBinary (hcfg : cfg.numElems - 1 ≤ 65535) (s mem : Sketch)
    (seed : UInt64) (more : List UInt8) :
    ∃ out, writeSparseBinary cfg s = some out ∧ ∀ fuel, cfg.numElems ≤ fuel →
      ∃ r, ofStream cfg seed ⟨out ++ more, false, false⟩ true mem fuel
          = some (r, ⟨more, false, false⟩) ∧
        r.seed = seed ∧ ∀ k < cfg.numElems, r.bucket k = s.bucket k := by
  refine ⟨_, writeSparseBinary_eq cfg hcfg, fun fuel hfuel => ?_⟩
  obtain ⟨st, hst, hin, hbuckets⟩ := @readSparse_writeSparse cfg s more hcfg mem fuel hfuel
  rw [ofStream, if_pos rfl, hst, Option.map_some, hin]
  exact ⟨_, rfl, rfl, fun k hk => Prod.ext (hbuckets k hk).1 (hbuckets k hk).2⟩

/-- **Both serialized forms of a sketch are read back.** For every
configuration whose positions fit sixteen bits, the dense reader given the
bytes of `write_binary`, and the sparse reader given the bytes of
`write_sparse_binary` and enough fuel, build a sketch with the given seed
and the buckets of the sketch written, and leave the stream just after
those bytes. -/
theorem sketch_serialization_round_trip {cfg : SketchConfig} (hcfg : cfg.numElems - 1 ≤ 65535)
    (s mem : Sketch) (seed : UInt64) (more : List UInt8) :
    (∀ fuel, ∃ r, ofStream cfg seed ⟨writeBinary cfg s ++ more, false, false⟩ false mem fuel
        = some (r, ⟨more, false, false⟩) ∧
      r.seed = seed ∧ ∀ k < cfg.numElems, r.bucket k = s.bucket k) ∧
    ∃ out, writeSparseBinary cfg s = some out ∧ ∀ fuel, cfg.numElems ≤ fuel →
      ∃ r, ofStream cfg seed ⟨out ++ more, false, false⟩ true mem fuel
          = some (r, ⟨more, false, false⟩) ∧
        r.seed = seed ∧ ∀ k < cfg.numElems, r.bucket k = s.bucket k :=
  ⟨ofStream_writeBinary cfg s mem seed more, ofStream_writeSparseBinary cfg hcfg s mem seed more⟩

/-- The configuration `Sketch::configure(9, 4)` sets up for three nodes
(three columns of one guess and the level-0 bucket): the empty sketch of
seed 7 read back over the empty sketch of seed 0. -/
theorem sketch_serialization_round_trip_three :
    (⟨4, 9, 3, 1⟩ : SketchConfig).numElems - 1 ≤ 65535 ∧
    (∀ fuel, ∃ r, ofStream ⟨4, 9, 3, 1⟩ 7
        ⟨writeBinary ⟨4, 9, 3, 1⟩ (makeSketch 7) ++ [], false, false⟩ false (makeSketch 0) fuel
        = some (r, ⟨[], false, false⟩) ∧
      r.seed = 7 ∧ ∀ k < (⟨4, 9, 3, 1⟩ : SketchConfig).numElems, r.bucket k = (makeSketch 7).bucket k) ∧
    ∃ out, writeSparseBinary ⟨4, 9, 3, 1⟩ (makeSketch 7) = some out ∧
      ∀ fuel, (⟨4, 9, 3, 1⟩ : SketchConfig).numElems ≤ fuel →
      ∃ r, ofStream ⟨4, 9, 3, 1⟩ 7 ⟨out ++ [], false, false⟩ true (makeSketch 0) fuel
          = some (r, ⟨[], false, false⟩) ∧
        r.seed = 7 ∧ ∀ k < (⟨4, 9, 3, 1⟩ : SketchConfig).numElems, r.bucket k = (makeSketch 7).bucket k :=
  ⟨by decide, sketch_serialization_round_trip (by decide) _ _ _ _⟩

/-! ## Untrusted input -/

/-- **A stream that fails inside a sparse sketch never lets the loop
stop.** The reads of a stream that is not good store nothing, so the
position stays below the level-0 bucket. -/
theorem readSparse_eq_none_of_not_good {st : SparseRead} (hidx : st.idx < cfg.numElems - 1)
    (hidx' : st.idx < 256 ^ 2) (hg : st.binIn.good = false) (fuel : ℕ) :
    Loop.iterate (readSparseStep cfg) fuel st = none := by
  refine Loop.iterate_eq_none
    (fun st => st.idx < cfg.numElems - 1 ∧ st.idx < 256 ^ 2 ∧ st.binIn.good = false)
    (fun st ⟨hi, hi', hg⟩ => ⟨_, by rw [readSparseStep, if_pos hi], ?_⟩) fuel st ⟨hidx, hidx', hg⟩
  -- the reads into the bucket leave the stream failed, and the read of the
  -- position then keeps it
  have hb : st.readBucket.binIn.good = false := by
    simp only [SparseRead.readBucket, InStream.readLE_snd]
    rw [InStream.read_of_not_good 4 (by rw [InStream.read_of_not_good 8 hg]; rfl)]
    rfl
  have hkeep : st.readBucket.binIn.readLE 2 st.readBucket.idx
      = (st.readBucket.idx, { st.readBucket.binIn with fail := true }) :=
    InStream.readLE_of_not_good hb hi'
  refine ⟨?_, ?_, ?_⟩ <;> simp only [SparseRead.readIdx, hkeep]
  · exact hi
  · exact hi'
  · rfl

/-- **A sparse sketch cut off after a position** below the level-0 bucket:
the read of its values fails, the position stays, and the reader never
returns, whatever its fuel. -/
theorem ofStream_sparse_truncated {p : ℕ} (hp : p < cfg.numElems - 1) (hp' : p < 256 ^ 2)
    (seed : UInt64) (mem : Sketch) (fuel : ℕ) :
    ofStream cfg seed ⟨toBytesLE 2 p, false, false⟩ true mem fuel = none := by
  rw [ofStream, if_pos rfl, readSparse, ← List.append_nil (toBytesLE 2 p),
    SparseRead.readIdx_mk 0 _ _ hp']
  cases fuel with
  | zero => rfl
  | succ k =>
    rw [Loop.iterate_of_inl (by rw [readSparseStep, if_pos hp])]
    -- the values find the end of the file: the stream fails, and stays failed
    generalize hst : (SparseRead.readBucket ⟨p, fun i => if i < cfg.numElems then 0 else
      mem.bucketA i, fun i => if i < cfg.numElems then 0 else mem.bucketC i,
      ⟨[], false, false⟩⟩) = st
    have hg : st.binIn.good = false := by
      rw [← hst]
      simp only [SparseRead.readBucket, InStream.readLE_snd]
      rw [InStream.read_of_not_good 4 (by rw [InStream.read_of_lt rfl (by decide)]; rfl)]
      rfl
    have hidx : st.idx = p := by rw [← hst]; rfl
    have hkeep : st.binIn.readLE 2 st.idx = (st.idx, { st.binIn with fail := true }) :=
      InStream.readLE_of_not_good hg (by rw [hidx]; exact hp')
    rw [readSparse_eq_none_of_not_good cfg (by simp only [SparseRead.readIdx, hkeep]; omega)
      (by simp only [SparseRead.readIdx, hkeep]; omega) (by simp only [SparseRead.readIdx, hkeep]; rfl) k]
    rfl

end Sketch

end GraphZeppelin

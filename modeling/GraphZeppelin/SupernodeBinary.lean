import GraphZeppelin.SketchBinary
import GraphZeppelin.Supernode

/-!
# Serialized supernodes

A supernode record starts with a `SerialType` in four bytes. `FULL` is
followed by every sketch of the supernode. `PARTIAL` and `SPARSE` are
followed by the first index `beg` and the count `num` of the sketches
written, in thirty-two bits each, and then by those sketches, dense or
sparse. `write_binary_range` clamps the range it is asked for into the
sketches there are. The reader `Supernode(n, seed, binary_in)` rebuilds
every sketch slot: empty sketches before the range, the sketches of the
record, and empty sketches after it, their seeds spaced
`column_gen(failure_factor)` apart from `seed`. It samples only from the
range it read.

A full record is read back (`ofStream_writeBinary`): every sketch has the
seed of its slot and the buckets written, nothing has been sampled, and
every sketch may be. So is a partial or sparse record of a range inside the
supernode (`ofStream_writeBinaryRange`): the slots of the range get the
sketches written, the others empty sketches, each with the seed of its slot,
and the reader samples in the range only.

Both sides compute `beg + num` in thirty-two bits. A range whose end
passes `2^32` wraps around: it passes the clamp and no sketch is written;
the reader then believes in no sketch at all, and seeds every slot one
place off (`write_binary_range_wraps`). The reader does not compare the
range with `max_sketches` either, and from a record whose range passes it
builds sketches past the end of the supernode (`deserializers_unchecked`).
-/

namespace GraphZeppelin

open Bytes

/-- `SerialType`: how a supernode record holds its sketches. -/
inductive SerialType
  /-- `FULL`. -/
  | full
  /-- `PARTIAL`, whose name is a keyword of Lean. -/
  | part
  /-- `SPARSE`. -/
  | sparse
  deriving DecidableEq, Repr

/-- The value of a `SerialType` in its four bytes. -/
def SerialType.toNat : SerialType → ℕ
  | .full => 0
  | .part => 1
  | .sparse => 2

namespace Supernode

variable (cfg : SketchConfig) (conf : SupernodeConfig)

/-! ## Writing -/

/-- One sketch of a record, dense or sparse. -/
def sketchBytes (sparse : Bool) (sk : Sketch) : Option (List UInt8) :=
  if sparse then Sketch.writeSparseBinary cfg sk else some (Sketch.writeBinary cfg sk)

/-- The sketches `i` with `beg ≤ i < stop`, one after another. -/
def sketchesBytes (s : Supernode Sketch) (sparse : Bool) (beg stop : ℕ) : Option (List UInt8) :=
  ((List.range' beg (stop - beg)).mapM fun i => sketchBytes cfg sparse (s.sketches i)).map
    List.flatten

/-- `Supernode::write_binary`: the type `FULL`, then every sketch. -/
def writeBinary (s : Supernode Sketch) (sparse : Bool) : Option (List UInt8) :=
  (sketchesBytes cfg s sparse 0 s.numSketches).map (toBytesLE 4 SerialType.full.toNat ++ ·)

/-- `Supernode::write_binary_range`: the range `[beg, beg + num)` clamped
into the sketches, then the type, the bounds and the sketches of the
range. The sums `beg + num` are computed in thirty-two bits, and
`num_sketches - 1` and `num_sketches - beg` in sixty-four. -/
def writeBinaryRange (s : Supernode Sketch) (beg num : UInt32) (sparse : Bool) :
    Option (List UInt8) :=
  let beg := if s.numSketches ≤ beg.toNat then (s.numSketches.toUInt64 - 1).toUInt32 else beg
  let num := if s.numSketches < (beg + num).toNat then
      (s.numSketches.toUInt64 - beg.toUInt64).toUInt32 else num
  let num := if num = 0 then 1 else num
  let type := if sparse then SerialType.sparse else SerialType.part
  (sketchesBytes cfg s sparse beg.toNat (beg + num).toNat).map fun l =>
    toBytesLE 4 type.toNat ++ toBytesLE 4 beg.toNat ++ toBytesLE 4 num.toNat ++ l

/-! ## Reading -/

/-- What the reader takes from the start of a record: the range
`[beg, beg + num)` of the sketches it holds, whether they are sparse, and
the stream after. -/
structure RecordHeader where
  /-- `beg`. -/
  beg : UInt32
  /-- `num`. -/
  num : UInt32
  /-- `sparse`. -/
  sparse : Bool
  /-- `binary_in`. -/
  binIn : InStream
  deriving DecidableEq, Repr

/-- The start of the reader: the type, read over zero since it starts
indeterminate, and the bounds of a `PARTIAL` or `SPARSE` record, read over
their defaults `0` and `max_sketches`. Any other type is read as `FULL`. -/
def readHeader (binIn : InStream) : RecordHeader :=
  let t := binIn.readLE 4 0
  let b := t.2.readLE 4 0
  let m := b.2.readLE 4 conf.maxSketches.toUInt32.toNat
  if t.1 = SerialType.part.toNat then ⟨b.1.toUInt32, m.1.toUInt32, false, m.2⟩
  else if t.1 = SerialType.sparse.toNat then ⟨b.1.toUInt32, m.1.toUInt32, true, m.2⟩
  else ⟨0, conf.maxSketches.toUInt32, false, t.2⟩

/-- A loop `for (size_t i = lo; i < hi; ++i)` that makes the sketch of each
slot empty, with the seed running on by `sketch_width`. -/
def makeEmpty (sketches : ℕ → Sketch) (seed : UInt64) (lo hi : ℕ) : (ℕ → Sketch) × UInt64 :=
  (List.range' lo (hi - lo)).foldl
    (fun acc i => (Function.update acc.1 i (Sketch.makeSketch acc.2), acc.2 + conf.sketchWidth))
    (sketches, seed)

/-- The loop that builds the sketch of each slot from the stream, each over
the memory of its slot; `none` if a sparse sketch runs out of fuel. -/
def readSketches (sparse : Bool) (fuel : ℕ) (sketches : ℕ → Sketch) (seed : UInt64)
    (binIn : InStream) (lo hi : ℕ) : Option ((ℕ → Sketch) × UInt64 × InStream) :=
  (List.range' lo (hi - lo)).foldlM
    (fun acc i => (Sketch.ofStream cfg acc.2.1 acc.2.2 sparse (acc.1 i) fuel).map fun r =>
      (Function.update acc.1 i r.1, acc.2.1 + conf.sketchWidth, r.2))
    (sketches, seed, binIn)

/-- `Supernode::Supernode(n, seed, binary_in)` through `makeSupernode`, in the
memory `mem` of its sketch buffer: it samples in `[beg, beg + num)`, with
`beg + num` computed in thirty-two bits. -/
def ofStream (n seed : UInt64) (binIn : InStream) (mem : ℕ → Sketch) (fuel : ℕ) :
    Option (Supernode Sketch × InStream) :=
  let h := readHeader conf binIn
  let numSketches := (h.beg + h.num).toNat
  -- create empty sketches, if any
  let e := makeEmpty conf mem seed 0 h.beg.toNat
  -- build sketches from serialized data
  (readSketches cfg conf h.sparse fuel e.1 e.2 h.binIn h.beg.toNat numSketches).map fun r =>
    -- create empty sketches at end, if any
    let e' := makeEmpty conf r.1 r.2.1 numSketches conf.maxSketches
    ({ sampleIdx := h.beg.toNat
       n := n
       seed := seed
       numSketches := numSketches
       mergedSketches := numSketches
       sketches := e'.1 }, r.2.2)

/-! ## A full record read back -/

/-- The seed after one more sketch slot. -/
theorem seed_add_stride (seed w : UInt64) (k : ℕ) :
    seed + w + k.toUInt64 * w = seed + (k + 1).toUInt64 * w := by
  rw [Nat.toUInt64_eq, Nat.toUInt64_eq, UInt64.ofNat_add, UInt64.ofNat_one, UInt64.add_mul,
    UInt64.one_mul, UInt64.add_assoc, UInt64.add_comm w]

/-- Dense sketches are always written. -/
theorem sketchesBytes_dense (s : Supernode Sketch) (beg stop : ℕ) :
    sketchesBytes cfg s false beg stop
      = some ((List.range' beg (stop - beg)).flatMap fun i => Sketch.writeBinary cfg (s.sketches i)) := by
  rw [sketchesBytes, show (fun i => sketchBytes cfg false (s.sketches i))
      = fun i => pure (Sketch.writeBinary cfg (s.sketches i)) from rfl, List.mapM_pure,
    List.flatMap_def]
  rfl

/-- The `FULL` record of a supernode, dense. -/
theorem writeBinary_dense (s : Supernode Sketch) :
    writeBinary cfg s false = some (toBytesLE 4 SerialType.full.toNat ++
      (List.range' 0 s.numSketches).flatMap fun i => Sketch.writeBinary cfg (s.sketches i)) := by
  rw [writeBinary, sketchesBytes_dense, Nat.sub_zero]
  rfl

/-- **The dense sketches of a range are read back**, one after another:
each slot of the range gets the buckets written and the running seed, the
other slots are kept, and the stream is left after the last sketch. The
induction is on the number of sketches, from the first slot. -/
theorem readSketches_dense (s : Supernode Sketch) (fuel : ℕ) (more : List UInt8) :
    ∀ (k lo : ℕ) (sketches : ℕ → Sketch) (seed : UInt64),
      ∃ sk, readSketches cfg conf false fuel sketches seed
          ⟨(List.range' lo k).flatMap (fun i => Sketch.writeBinary cfg (s.sketches i)) ++ more,
            false, false⟩ lo (lo + k)
        = some (sk, seed + k.toUInt64 * conf.sketchWidth, ⟨more, false, false⟩) ∧
        (∀ i, i < lo ∨ lo + k ≤ i → sk i = sketches i) ∧
        ∀ i, lo ≤ i → i < lo + k →
          Sketch.BucketEq cfg (sk i)
            { s.sketches i with seed := seed + (i - lo).toUInt64 * conf.sketchWidth }
  | 0, lo, sketches, seed => by
    refine ⟨sketches, ?_, fun _ _ => rfl, fun i h1 h2 => absurd h2 (by omega)⟩
    simp [readSketches]
  | k + 1, lo, sketches, seed => by
    -- the first slot is read, then the rest of the range from the next one
    obtain ⟨r, hr, hseed, hbuckets⟩ := Sketch.ofStream_writeBinary cfg (s.sketches lo)
      (sketches lo) seed
      ((List.range' (lo + 1) k).flatMap (fun i => Sketch.writeBinary cfg (s.sketches i)) ++ more)
      fuel
    obtain ⟨sk, hsk, hout, hin⟩ := readSketches_dense s fuel more k (lo + 1)
      (Function.update sketches lo r) (seed + conf.sketchWidth)
    refine ⟨sk, ?_, fun i hi => ?_, fun i h1 h2 => ?_⟩
    · rw [readSketches, Nat.add_sub_cancel_left, List.range'_succ, List.foldlM_cons,
        List.flatMap_cons, List.append_assoc, hr]
      rw [readSketches, Nat.add_sub_cancel_left, seed_add_stride] at hsk
      exact hsk
    · rw [hout i (by omega), Function.update_of_ne (by omega)]
    · by_cases hlo : i = lo
      · -- the first slot holds the sketch just read
        subst hlo
        rw [hout i (Or.inl (Nat.lt_succ_self i)), Function.update_self, Nat.sub_self]
        exact ⟨by rw [hseed]; simp, hbuckets⟩
      · have hi := hin i (by omega) (by omega)
        rwa [seed_add_stride, show i - (lo + 1) + 1 = i - lo by omega] at hi

/-- **A full record is read back.** A supernode with all of its
`max_sketches` sketches, written densely, is read back with every slot
bucket-equal to its reload: the buckets written and the seed of the slot,
`seed + i * sketch_width`. Nothing is sampled, every sketch may be merged,
and the stream is left after the record. The count `max_sketches` must fit
the thirty-two bits of `num`. -/
theorem ofStream_writeBinary (xxh : UInt64 → UInt64 → UInt64) (s : Supernode Sketch)
    (hnum : s.numSketches = conf.maxSketches) (hmax : conf.maxSketches < 2 ^ 32)
    (n seed : UInt64) (mem : ℕ → Sketch) (more : List UInt8) (fuel : ℕ) :
    ∃ out, writeBinary cfg s false = some out ∧
      ∃ r, ofStream cfg conf n seed ⟨out ++ more, false, false⟩ mem fuel
          = some (r, ⟨more, false, false⟩) ∧
        r.sampleIdx = 0 ∧ r.n = n ∧ r.seed = seed ∧ r.numSketches = conf.maxSketches ∧
        r.mergedSketches = conf.maxSketches ∧
        ∀ i < conf.maxSketches, Sketch.BucketEq cfg (r.sketches i)
          ((reload (Sketch.ops cfg xxh) conf n seed s).sketches i) := by
  have hnum32 : (0 + conf.maxSketches.toUInt32).toNat = conf.maxSketches := by
    rw [UInt32.zero_add, Nat.toUInt32_eq, UInt32.toNat_ofNat', Nat.mod_eq_of_lt hmax]
  -- the type `FULL` is read, and the record holds the sketches `0 … max_sketches - 1`
  have hheader : readHeader conf ⟨toBytesLE 4 SerialType.full.toNat ++
      ((List.range' 0 conf.maxSketches).flatMap fun i => Sketch.writeBinary cfg (s.sketches i)) ++
        more, false, false⟩
      = ⟨0, conf.maxSketches.toUInt32, false, ⟨(List.range' 0 conf.maxSketches).flatMap
          (fun i => Sketch.writeBinary cfg (s.sketches i)) ++ more, false, false⟩⟩ := by
    rw [readHeader, List.append_assoc, InStream.readLE_toBytesLE _ _ (by decide)]
    rfl
  obtain ⟨sk, hsk, hout, hin⟩ := readSketches_dense cfg conf s fuel more conf.maxSketches 0 mem seed
  rw [Nat.zero_add] at hsk
  refine ⟨_, by rw [writeBinary_dense, hnum], ?_⟩
  rw [ofStream, hheader]
  dsimp only
  rw [hnum32]
  simp only [makeEmpty, UInt32.toNat_zero, Nat.sub_self, List.range'_zero, List.foldl_nil]
  rw [hsk]
  refine ⟨_, rfl, rfl, rfl, rfl, rfl, rfl, fun i hi => ?_⟩
  have h := hin i (Nat.zero_le i) (by rw [Nat.zero_add]; exact hi)
  rw [Nat.sub_zero] at h
  exact h

/-! ## A partial or sparse record read back -/

/-- The seed after `a` slots and then `b` more. -/
theorem seed_add_strides (seed w : UInt64) (a b : ℕ) :
    seed + a.toUInt64 * w + b.toUInt64 * w = seed + (a + b).toUInt64 * w := by
  rw [UInt64.add_assoc, ← UInt64.add_mul, Nat.toUInt64_eq, Nat.toUInt64_eq, Nat.toUInt64_eq,
    UInt64.ofNat_add]

/-- **The empty sketches of a loop of `makeSketch`**: the slots `lo … lo + k - 1`
get the empty sketches of the running seed, the others are kept, and the seed
runs on by `k` strides. The induction is on the number of slots. -/
theorem makeEmpty_spec (sketches : ℕ → Sketch) (seed : UInt64) (lo k : ℕ) :
    (makeEmpty conf sketches seed lo (lo + k)).2 = seed + k.toUInt64 * conf.sketchWidth ∧
      ∀ i, (makeEmpty conf sketches seed lo (lo + k)).1 i =
        if lo ≤ i ∧ i < lo + k then Sketch.makeSketch (seed + (i - lo).toUInt64 * conf.sketchWidth)
        else sketches i := by
  induction k generalizing lo sketches seed with
  | zero =>
    refine ⟨by simp [makeEmpty], fun i => ?_⟩
    rw [if_neg (by omega)]
    simp [makeEmpty]
  | succ k ih =>
    -- the first slot is made empty, then the rest of the range from the next one
    have hstep : makeEmpty conf sketches seed lo (lo + (k + 1)) = makeEmpty conf
        (Function.update sketches lo (Sketch.makeSketch seed)) (seed + conf.sketchWidth)
        (lo + 1) (lo + 1 + k) := by
      simp only [makeEmpty, show lo + (k + 1) - lo = k + 1 by omega,
        show lo + 1 + k - (lo + 1) = k by omega, List.range'_succ, List.foldl_cons]
    obtain ⟨hseed, hslots⟩ := ih (Function.update sketches lo (Sketch.makeSketch seed))
      (seed + conf.sketchWidth) (lo + 1)
    rw [hstep]
    refine ⟨by rw [hseed, seed_add_stride], fun i => ?_⟩
    rw [hslots i]
    by_cases hlo : i = lo
    · subst hlo
      rw [if_neg (by omega), if_pos (by omega), Function.update_self, Nat.sub_self]
      simp
    · rw [Function.update_of_ne hlo]
      by_cases hin : lo + 1 ≤ i ∧ i < lo + 1 + k
      · rw [if_pos hin, if_pos (by omega), seed_add_stride, show i - (lo + 1) + 1 = i - lo by omega]
      · rw [if_neg hin, if_neg (by omega)]

/-- **The sketches of a range are read back**, in either form, when each
is read back from the bytes `w i` written for it: each slot of the range
gets the buckets written and the running seed, the other slots are kept,
and the stream is left after the last sketch. The induction is on the
number of sketches, from the first slot. -/
theorem readSketches_range (sparse : Bool) (fuel : ℕ) (s : Supernode Sketch)
    (w : ℕ → List UInt8)
    (hread : ∀ i (mem : Sketch) (seed : UInt64) (more : List UInt8), ∃ r,
      Sketch.ofStream cfg seed ⟨w i ++ more, false, false⟩ sparse mem fuel
          = some (r, ⟨more, false, false⟩) ∧
        Sketch.BucketEq cfg r { s.sketches i with seed := seed })
    (more : List UInt8) :
    ∀ (k lo : ℕ) (sketches : ℕ → Sketch) (seed : UInt64),
      ∃ sk, readSketches cfg conf sparse fuel sketches seed
          ⟨(List.range' lo k).flatMap w ++ more, false, false⟩ lo (lo + k)
        = some (sk, seed + k.toUInt64 * conf.sketchWidth, ⟨more, false, false⟩) ∧
        (∀ i, i < lo ∨ lo + k ≤ i → sk i = sketches i) ∧
        ∀ i, lo ≤ i → i < lo + k →
          Sketch.BucketEq cfg (sk i)
            { s.sketches i with seed := seed + (i - lo).toUInt64 * conf.sketchWidth }
  | 0, lo, sketches, seed => by
    refine ⟨sketches, ?_, fun _ _ => rfl, fun i h1 h2 => absurd h2 (by omega)⟩
    simp [readSketches]
  | k + 1, lo, sketches, seed => by
    -- the first slot is read, then the rest of the range from the next one
    obtain ⟨r, hr, hbuckets⟩ := hread lo (sketches lo) seed
      ((List.range' (lo + 1) k).flatMap w ++ more)
    obtain ⟨sk, hsk, hout, hin⟩ := readSketches_range sparse fuel s w hread more k (lo + 1)
      (Function.update sketches lo r) (seed + conf.sketchWidth)
    refine ⟨sk, ?_, fun i hi => ?_, fun i h1 h2 => ?_⟩
    · rw [readSketches, Nat.add_sub_cancel_left, List.range'_succ, List.foldlM_cons,
        List.flatMap_cons, List.append_assoc, hr]
      rw [readSketches, Nat.add_sub_cancel_left, seed_add_stride] at hsk
      exact hsk
    · rw [hout i (by omega), Function.update_of_ne (by omega)]
    · by_cases hlo : i = lo
      · -- the first slot holds the sketch just read
        subst hlo
        rw [hout i (Or.inl (Nat.lt_succ_self i)), Function.update_self, Nat.sub_self]
        exact ⟨by rw [hbuckets.1]; simp, hbuckets.2⟩
      · have hi := hin i (by omega) (by omega)
        rwa [seed_add_stride, show i - (lo + 1) + 1 = i - lo by omega] at hi

/-- The sketches of a range are written when each of them is. -/
theorem sketchesBytes_of_forall (s : Supernode Sketch) (sparse : Bool) (w : ℕ → List UInt8)
    (hw : ∀ i, sketchBytes cfg sparse (s.sketches i) = some (w i)) (beg stop : ℕ) :
    sketchesBytes cfg s sparse beg stop = some ((List.range' beg (stop - beg)).flatMap w) := by
  have hmap : ∀ l : List ℕ, (l.mapM fun i => sketchBytes cfg sparse (s.sketches i))
      = some (l.map w) := by
    intro l
    induction l with
    | nil => rfl
    | cons i l ih => simp [List.mapM_cons, hw i, ih]
  rw [sketchesBytes, hmap, Option.map_some, List.flatMap_def]

/-- What a record holds of one sketch, and how it is read back: the dense
form with any fuel, the sparse form with enough fuel for every bucket when
positions fit sixteen bits. -/
theorem sketchBytes_read (sparse : Bool) (hcfg : sparse = true → cfg.numElems - 1 ≤ 65535)
    (sk : Sketch) : ∃ out, sketchBytes cfg sparse sk = some out ∧
      ∀ fuel, (sparse = true → cfg.numElems ≤ fuel) → ∀ (mem : Sketch) (seed : UInt64)
        (more : List UInt8), ∃ r,
        Sketch.ofStream cfg seed ⟨out ++ more, false, false⟩ sparse mem fuel
            = some (r, ⟨more, false, false⟩) ∧
          Sketch.BucketEq cfg r { sk with seed := seed } := by
  cases sparse with
  | false =>
    refine ⟨_, rfl, fun fuel _ mem seed more => ?_⟩
    obtain ⟨r, hr, hseed, hbuckets⟩ := Sketch.ofStream_writeBinary cfg sk mem seed more fuel
    exact ⟨r, hr, hseed, hbuckets⟩
  | true =>
    have hcfg' := hcfg rfl
    refine ⟨_, Sketch.writeSparseBinary_eq cfg hcfg', fun fuel hfuel mem seed more => ?_⟩
    obtain ⟨out, hout, hread⟩ := Sketch.ofStream_writeSparseBinary cfg hcfg' sk mem seed more
    rw [Sketch.writeSparseBinary_eq cfg hcfg', Option.some.injEq] at hout
    subst hout
    obtain ⟨r, hr, hseed, hbuckets⟩ := hread fuel (hfuel rfl)
    exact ⟨r, hr, hseed, hbuckets⟩

/-- The header of a partial or sparse record is read back: the range and
the form it gives. -/
theorem readHeader_range (beg num : UInt32) (sparse : Bool) (body : List UInt8) :
    readHeader conf ⟨toBytesLE 4 (if sparse then SerialType.sparse else SerialType.part).toNat ++
        toBytesLE 4 beg.toNat ++ toBytesLE 4 num.toNat ++ body, false, false⟩
      = ⟨beg, num, sparse, ⟨body, false, false⟩⟩ := by
  have htype : (if sparse then SerialType.sparse else SerialType.part).toNat < 256 ^ 4 := by
    cases sparse <;> decide
  simp only [readHeader, List.append_assoc]
  rw [InStream.readLE_toBytesLE _ _ htype, InStream.readLE_toBytesLE _ _ beg.toNat_lt,
    InStream.readLE_toBytesLE _ _ num.toNat_lt]
  cases sparse <;> simp [SerialType.toNat]

/-- **A partial or sparse record is read back.** The sketches of a range
`[beg, beg + num)` inside a supernode of `max_sketches` sketches, written by
`write_binary_range` densely or sparsely, are read back with every slot of
the range bucket-equal to the sketch written, reseeded for its slot, and
every other slot an empty sketch with the seed of its slot; the reader
samples from `beg` up to `beg + num`, and the stream is left after the
record. The sparse form needs its positions to fit sixteen bits and enough
fuel for every bucket. -/
theorem ofStream_writeBinaryRange (s : Supernode Sketch) (hnum : s.numSketches = conf.maxSketches)
    (hmax : conf.maxSketches < 2 ^ 32) {beg num : UInt32} (hpos : 0 < num.toNat)
    (hend : beg.toNat + num.toNat ≤ conf.maxSketches) (sparse : Bool)
    (hcfg : sparse = true → cfg.numElems - 1 ≤ 65535) (n seed : UInt64) (mem : ℕ → Sketch)
    (more : List UInt8) :
    ∃ out, writeBinaryRange cfg s beg num sparse = some out ∧
      ∀ fuel, (sparse = true → cfg.numElems ≤ fuel) →
        ∃ r, ofStream cfg conf n seed ⟨out ++ more, false, false⟩ mem fuel
            = some (r, ⟨more, false, false⟩) ∧
          r.sampleIdx = beg.toNat ∧ r.n = n ∧ r.seed = seed ∧
          r.numSketches = beg.toNat + num.toNat ∧ r.mergedSketches = beg.toNat + num.toNat ∧
          (∀ i, beg.toNat ≤ i → i < beg.toNat + num.toNat → Sketch.BucketEq cfg (r.sketches i)
            { s.sketches i with seed := seed + i.toUInt64 * conf.sketchWidth }) ∧
          ∀ i < conf.maxSketches, i < beg.toNat ∨ beg.toNat + num.toNat ≤ i →
            r.sketches i = Sketch.makeSketch (seed + i.toUInt64 * conf.sketchWidth) := by
  -- the bytes of each sketch of the record, and how they are read back
  choose w hw hread using fun i => sketchBytes_read cfg sparse hcfg (s.sketches i)
  have hsum : (beg + num).toNat = beg.toNat + num.toNat := by
    rw [UInt32.toNat_add]
    exact Nat.mod_eq_of_lt (by omega)
  -- the range is inside the sketches, so `write_binary_range` clamps nothing
  have hwrite : writeBinaryRange cfg s beg num sparse = some
      (toBytesLE 4 (if sparse then SerialType.sparse else SerialType.part).toNat ++
        toBytesLE 4 beg.toNat ++ toBytesLE 4 num.toNat ++
        (List.range' beg.toNat num.toNat).flatMap w) := by
    have hbeg : ¬ s.numSketches ≤ beg.toNat := by omega
    have hnum' : ¬ s.numSketches < (beg + num).toNat := by omega
    have hne : num ≠ 0 := fun h => by simp [h] at hpos
    simp only [writeBinaryRange, if_neg hbeg, if_neg hnum', if_neg hne]
    rw [sketchesBytes_of_forall cfg s sparse w hw, hsum, Nat.add_sub_cancel_left, Option.map_some]
  refine ⟨_, hwrite, fun fuel hfuel => ?_⟩
  -- the empty sketches before the range, the range, and the empty sketches after it
  obtain ⟨hseed0, hslots0⟩ := makeEmpty_spec conf mem seed 0 beg.toNat
  rw [Nat.zero_add] at hseed0 hslots0
  obtain ⟨sk, hsk, hout, hin⟩ := readSketches_range cfg conf sparse fuel s w
    (fun i => hread i fuel hfuel) more num.toNat beg.toNat (makeEmpty conf mem seed 0 beg.toNat).1
    (makeEmpty conf mem seed 0 beg.toNat).2
  obtain ⟨k, hk⟩ := Nat.exists_eq_add_of_le hend
  obtain ⟨-, hslots1⟩ := makeEmpty_spec conf sk
    ((makeEmpty conf mem seed 0 beg.toNat).2 + num.toNat.toUInt64 * conf.sketchWidth)
    (beg.toNat + num.toNat) k
  rw [← hk] at hslots1
  rw [List.append_assoc _ ((List.range' beg.toNat num.toNat).flatMap w) more, ofStream,
    readHeader_range, hsum, hsk]
  refine ⟨_, rfl, rfl, rfl, rfl, rfl, rfl, fun i h1 h2 => ?_, fun i hi hout' => ?_⟩
  · -- a slot of the range holds the sketch read, with the seed of its slot
    show Sketch.BucketEq cfg ((makeEmpty conf sk _ (beg.toNat + num.toNat) conf.maxSketches).1 i) _
    rw [hslots1 i, if_neg (by omega)]
    have hb := hin i h1 h2
    rwa [hseed0, seed_add_strides, Nat.add_sub_cancel' h1] at hb
  · show (makeEmpty conf sk _ (beg.toNat + num.toNat) conf.maxSketches).1 i = _
    rw [hslots1 i]
    rcases hout' with hlt | hge
    · -- before the range: the empty sketch of the first loop
      rw [if_neg (by omega), hout i (.inl hlt), hslots0 i, if_pos ⟨Nat.zero_le i, hlt⟩,
        Nat.sub_zero]
    · -- after the range: the empty sketch of the last loop
      rw [if_pos ⟨hge, by omega⟩, hseed0, seed_add_strides, seed_add_strides,
        show beg.toNat + (num.toNat + (i - (beg.toNat + num.toNat))) = i by omega]

/-- Under `Supernode::configure(3, 4)`, the second of the two sketches of a
supernode, of stride three, written sparsely and read back into the slot 1
of seed `7 + 3`, the slot 0 left empty. -/
theorem ofStream_writeBinaryRange_sparse :
    (makeSupernode (Sketch.ops ⟨4, 9, 3, 1⟩ fun _ _ => 0) ⟨2, 3⟩ 3 7).numSketches = 2 ∧ 2 < 2 ^ 32 ∧ 0 < (1 : UInt32).toNat ∧
      (1 : UInt32).toNat + (1 : UInt32).toNat ≤ 2 ∧
      (true = true → (⟨4, 9, 3, 1⟩ : SketchConfig).numElems - 1 ≤ 65535) ∧
      ∃ out, writeBinaryRange ⟨4, 9, 3, 1⟩ (makeSupernode (Sketch.ops ⟨4, 9, 3, 1⟩ fun _ _ => 0) ⟨2, 3⟩ 3 7) 1 1 true = some out ∧
        ∀ fuel, (true = true → (⟨4, 9, 3, 1⟩ : SketchConfig).numElems ≤ fuel) →
          ∃ r, ofStream ⟨4, 9, 3, 1⟩ ⟨2, 3⟩ 3 7 ⟨out ++ [], false, false⟩
              (fun _ => Sketch.makeSketch 0) fuel = some (r, ⟨[], false, false⟩) ∧
            r.sampleIdx = (1 : UInt32).toNat ∧ r.n = 3 ∧ r.seed = 7 ∧
            r.numSketches = (1 : UInt32).toNat + (1 : UInt32).toNat ∧
            r.mergedSketches = (1 : UInt32).toNat + (1 : UInt32).toNat ∧
            (∀ i, (1 : UInt32).toNat ≤ i → i < (1 : UInt32).toNat + (1 : UInt32).toNat →
              Sketch.BucketEq ⟨4, 9, 3, 1⟩ (r.sketches i)
                { (makeSupernode (Sketch.ops ⟨4, 9, 3, 1⟩ fun _ _ => 0) ⟨2, 3⟩ 3 7).sketches i with seed := 7 + i.toUInt64 * 3 }) ∧
            ∀ i < 2, i < (1 : UInt32).toNat ∨ (1 : UInt32).toNat + (1 : UInt32).toNat ≤ i →
              r.sketches i = Sketch.makeSketch (7 + i.toUInt64 * 3) :=
  ⟨rfl, by decide, by decide, by decide, fun _ => by decide,
    ofStream_writeBinaryRange ⟨4, 9, 3, 1⟩ ⟨2, 3⟩ (makeSupernode (Sketch.ops ⟨4, 9, 3, 1⟩ fun _ _ => 0) ⟨2, 3⟩ 3 7) rfl (by decide) (by decide) (by decide)
      true (fun _ => by decide) 3 7 _ []⟩

/-! ## Ranges past `2^32` and past the supernode -/

/-- **A range that wraps around.** Under `Supernode::configure(3, 4)`, with
two sketches of stride three, the range of one sketch from 1 and `2^32 - 1`
sketches long ends at 0 in thirty-two bits: it passes the clamp, and only
the header is written. The reader then has no sketch, samples from 1, and
seeds the slots 0 and 1 with `seed + 3` and `seed + 6` instead of `seed`
and `seed + 3`. -/
theorem write_binary_range_wraps :
    writeBinaryRange ⟨4, 9, 3, 1⟩
        (makeSupernode (Sketch.ops ⟨4, 9, 3, 1⟩ fun _ _ => 0) ⟨2, 3⟩ 3 7) 1 4294967295 false
      = some (toBytesLE 4 1 ++ toBytesLE 4 1 ++ toBytesLE 4 4294967295) ∧
    (ofStream ⟨4, 9, 3, 1⟩ ⟨2, 3⟩ 3 7
        ⟨toBytesLE 4 1 ++ toBytesLE 4 1 ++ toBytesLE 4 4294967295, false, false⟩
        (fun _ => Sketch.makeSketch 0) 3).map
        (fun r => (r.1.sampleIdx, r.1.numSketches, r.1.mergedSketches, (r.1.sketches 0).seed,
          (r.1.sketches 1).seed))
      = some (1, 0, 0, 10, 13) := by
  constructor <;> decide

set_option maxRecDepth 8192 in
/-- **The deserializers trust their input.** With the configuration
`Supernode::configure(3, 4)` sets up (four buckets, two sketch slots of
stride three): a sparse sketch cut off after the position 0 is never done
reading; a sparse sketch whose first position is 7, past the four buckets,
has its values written to bucket 7; and a `PARTIAL` record of three
sketches from 0 builds a third sketch, with the seed `seed + 6` and the
buckets of the stream, in the slot after the two of the supernode. -/
theorem deserializers_unchecked :
    (∀ fuel, Sketch.ofStream ⟨4, 9, 3, 1⟩ 7 ⟨toBytesLE 2 0, false, false⟩ true
      (Sketch.makeSketch 0) fuel = none) ∧
    (Sketch.ofStream ⟨4, 9, 3, 1⟩ 7 ⟨toBytesLE 2 7 ++ toBytesLE 8 5 ++ toBytesLE 4 6, false, false⟩
        true (Sketch.makeSketch 0) 1).map (fun r => (r.1.bucketA 7, r.1.bucketC 7)) = some (5, 6) ∧
    (ofStream ⟨4, 9, 3, 1⟩ ⟨2, 3⟩ 3 7
        ⟨toBytesLE 4 1 ++ toBytesLE 4 0 ++ toBytesLE 4 3 ++
          Sketch.writeBinary ⟨4, 9, 3, 1⟩ (Sketch.makeSketch 0) ++
          Sketch.writeBinary ⟨4, 9, 3, 1⟩ (Sketch.makeSketch 0) ++
          Sketch.writeBinary ⟨4, 9, 3, 1⟩ ⟨0, fun _ => 5, fun _ => 6, false⟩, false, false⟩
        (fun _ => Sketch.makeSketch 0) 1).map
        (fun r => (r.1.numSketches, (r.1.sketches 2).seed, (r.1.sketches 2).bucketA 0))
      = some (3, 13, 5) :=
  ⟨Sketch.ofStream_sparse_truncated ⟨4, 9, 3, 1⟩ (by decide) (by decide) 7 _, by decide,
    by decide⟩

end Supernode

end GraphZeppelin

import GraphZeppelin.Types
import GraphZeppelin.Parity
import Mathlib.Data.Finset.Image

/-!
# L0 sketches

A `Sketch` summarises a vector over GF(2) indexed by 64-bit edge
identifiers. It keeps `num_elems` buckets, each a pair of an index XOR
`bucket_a` and a checksum XOR `bucket_c`: `num_columns` columns of
`num_guesses` buckets, laid out row-major as `i * num_guesses + depth`, and
one more bucket at the end, `num_elems - 1`, that every update touches – the
"deterministic" or "level-0" bucket.

An update of index `x` XORs `(x, vec_hash(x, seed))` into the level-0
bucket and, in each column `i`, into the bucket at the depth that
`col_hash(x, seed + 5 i)` selects: the number of trailing zeros of the hash,
capped at `num_guesses` by OR-ing that bit in, where the cap means "not
stored in this column". A query returns the first bucket whose checksum is
the hash of its index XOR.

The hashes are `XXH3_64bits_withSeed` of the eight bytes of the index, from
the external xxHash library; here they are the parameter `xxh`, an arbitrary
function of index and seed. The sizes come from `Sketch::configure`, which
computes them in double precision; every result below holds for every
configuration, so the floating-point formulas never have to be evaluated.

The one fact proved here is `Sketch.bucket_update`: an update XORs its pair
into exactly the buckets it is `Routed` to. The layout lemmas
`bucketId_lt` and `bucketId_inj` are what make "exactly": two columns never
share a bucket and no column reaches the level-0 bucket.
-/

namespace GraphZeppelin

/-! ## Configuration -/

/-- `double_to_ull`: cast a double to `unsigned long long` after adding
`epsilon`. The cast of a value below zero is undefined in C++; the x86-64
code compilers emit for it truncates to a signed 64-bit integer
(`cvttsd2si`, which gives `-2^63` below its range) and keeps the bits, so
`guess_gen(1)` is `2^64 - 1` and `guess_gen(0)` is `2^63`. -/
def doubleToUll (d epsilon : Float) : UInt64 :=
  let x := d + epsilon
  if x < 0 then x.toInt64.toUInt64 else x.toUInt64

/-- `Sketch::guess_gen`: the number of guesses, `⌊log₂ x - 2⌋`. -/
def guessGen (x : UInt64) : UInt64 := doubleToUll (Float.log2 x.toFloat - 2) 0.00000001

/-- `Sketch::column_gen`: the number of columns, `⌊log₂ d + 1⌋`. -/
def columnGen (d : UInt64) : UInt64 := doubleToUll (Float.log2 d.toFloat + 1) 0.00000001

/-- The static variables of `Sketch`. -/
structure SketchConfig where
  /-- `failure_factor`. -/
  failureFactor : UInt64
  /-- `n`, the length of the sketched vector. -/
  n : UInt64
  /-- `num_columns`. -/
  numColumns : Nat
  /-- `num_guesses`. -/
  numGuesses : Nat

/-- `num_elems`: the buckets of all columns, and the level-0 bucket. -/
def SketchConfig.numElems (cfg : SketchConfig) : Nat :=
  cfg.numColumns * cfg.numGuesses + 1

/-- `Sketch::configure`. -/
def SketchConfig.configure (n factor : UInt64) : SketchConfig where
  n := n
  failureFactor := factor
  numColumns := (columnGen factor).toNat
  numGuesses := (guessGen n).toNat

/-! ## Buckets -/

/-- `__builtin_ctzll`: the number of trailing zero bits of a word. The
builtin is undefined on zero; every call below ORs a bit in first. -/
def ctzll (x : UInt64) : UInt64 :=
  (((List.range 64).find? (fun i => x.toNat.testBit i)).getD 64).toUInt64

/-- A word has no trailing zero exactly when its lowest bit is set. -/
theorem toNat_ctzll_eq_zero_iff (y : UInt64) :
    (ctzll y).toNat = 0 ↔ y.toNat.testBit 0 = true := by
  unfold ctzll
  rw [List.range_succ_eq_map]
  by_cases h0 : y.toNat.testBit 0 = true
  · rw [List.find?_cons_of_pos h0]
    exact ⟨fun _ => h0, fun _ => rfl⟩
  · rw [List.find?_cons_of_neg h0]
    refine ⟨fun h => ?_, fun h => absurd h h0⟩
    -- the search resumes at bit 1, so it cannot end at 0
    cases hf : (List.map Nat.succ (List.range 63)).find? (fun i => y.toNat.testBit i) with
    | none =>
      rw [hf] at h
      exact absurd h (by decide)
    | some j =>
      rw [hf] at h
      obtain ⟨i, hi, rfl⟩ := List.mem_map.mp (List.mem_of_find?_eq_some hf)
      have hi' : i < 63 := List.mem_range.mp hi
      rw [Option.getD_some, Nat.toUInt64_eq, UInt64.toNat_ofNat'] at h
      omega

section Bucket

variable (xxh : UInt64 → UInt64 → UInt64)

/-- `Bucket_Boruvka::get_index_depth`: the depth at which a column stores
an index; `max_depth` means the column does not store it. -/
def getIndexDepth (update_idx seed_and_col : UInt64) (max_depth : UInt32) : UInt64 :=
  let depth_hash := xxh update_idx seed_and_col
  -- assert not > max_depth by ORing
  ctzll (depth_hash ||| ((1 : UInt64) <<< max_depth.toUInt64))

/-- `Bucket_Boruvka::get_index_hash`: the 64-bit hash, kept in the 32 bits
of `vec_hash_t`. -/
def getIndexHash (update_idx sketch_seed : UInt64) : UInt32 :=
  (xxh update_idx sketch_seed).toUInt32

/-- `Bucket_Boruvka::is_good`: the checksum is the hash of the index. -/
def isGood (a : UInt64) (c : UInt32) (sketch_seed : UInt64) : Bool :=
  c == getIndexHash xxh a sketch_seed

end Bucket

/-- A bucket's pair of XORs, combined componentwise as
`Bucket_Boruvka::update` does. -/
def bucketXor (p q : UInt64 × UInt32) : UInt64 × UInt32 := (p.1 ^^^ q.1, p.2 ^^^ q.2)

instance : Std.Commutative bucketXor :=
  ⟨fun p q => by rw [bucketXor, bucketXor, UInt64.xor_comm, UInt32.xor_comm]⟩

instance : Std.Associative bucketXor :=
  ⟨fun p q r => by
    simp only [bucketXor, UInt64.xor_assoc, UInt32.xor_assoc]⟩

@[simp] theorem zero_bucketXor (p : UInt64 × UInt32) : bucketXor (0, 0) p = p := by
  rw [bucketXor, UInt64.zero_xor, UInt32.zero_xor]

@[simp] theorem bucketXor_zero (p : UInt64 × UInt32) : bucketXor p (0, 0) = p := by
  rw [bucketXor, UInt64.xor_zero, UInt32.xor_zero]

@[simp] theorem bucketXor_self (p : UInt64 × UInt32) : bucketXor p p = (0, 0) := by
  rw [bucketXor, UInt64.xor_self, UInt32.xor_self]

/-- Only the zero bucket leaves a bucket as it was. -/
theorem eq_zero_of_bucketXor_eq_self {p q : UInt64 × UInt32} (h : bucketXor p q = p) :
    q = (0, 0) :=
  calc q = bucketXor (bucketXor p p) q := by rw [bucketXor_self, zero_bucketXor]
    _ = bucketXor p (bucketXor p q) := @Std.Associative.assoc _ bucketXor _ p p q
    _ = (0, 0) := by rw [h, bucketXor_self]

/-! ## Sketches -/

/-- `Sketch`: a seed, the two bucket arrays, and whether it has been
queried. -/
structure Sketch where
  /-- `seed`. -/
  seed : UInt64
  /-- `bucket_a`: the XOR of the indices in each bucket. -/
  bucketA : Nat → UInt64
  /-- `bucket_c`: the XOR of their checksums. -/
  bucketC : Nat → UInt32
  /-- `already_queried`. -/
  alreadyQueried : Bool

namespace Sketch

/-- `Sketch::Sketch(seed)`, through `makeSketch`: every bucket zero. -/
def makeSketch (seed : UInt64) : Sketch where
  seed := seed
  bucketA := fun _ => 0
  bucketC := fun _ => 0
  alreadyQueried := false

/-- `Sketch::column_seed`. -/
def columnSeed (s : Sketch) (column_idx : Nat) : UInt64 := s.seed + column_idx.toUInt64 * 5

/-- `Sketch::checksum_seed`. -/
def checksumSeed (s : Sketch) : UInt64 := s.seed

/-- Bucket `k` as the pair `(bucket_a[k], bucket_c[k])`. -/
def bucket (s : Sketch) (k : Nat) : UInt64 × UInt32 := (s.bucketA k, s.bucketC k)

/-- `Bucket_Boruvka::update` applied to bucket `k`. -/
def updateBucket (s : Sketch) (k : Nat) (update_idx : UInt64) (update_hash : UInt32) :
    Sketch :=
  { s with
    bucketA := Function.update s.bucketA k (s.bucketA k ^^^ update_idx)
    bucketC := Function.update s.bucketC k (s.bucketC k ^^^ update_hash) }

@[simp] theorem seed_updateBucket (s : Sketch) (k : Nat) (x : UInt64) (h : UInt32) :
    (s.updateBucket k x h).seed = s.seed := rfl

@[simp] theorem alreadyQueried_updateBucket (s : Sketch) (k : Nat) (x : UInt64) (h : UInt32) :
    (s.updateBucket k x h).alreadyQueried = s.alreadyQueried := rfl

theorem bucket_updateBucket (s : Sketch) (k j : Nat) (x : UInt64) (h : UInt32) :
    (s.updateBucket k x h).bucket j
      = if j = k then bucketXor (s.bucket j) (x, h) else s.bucket j := by
  by_cases hj : j = k
  · subst hj
    simp only [bucket, updateBucket, Function.update_self, if_true, bucketXor]
  · simp only [bucket, updateBucket, Function.update_of_ne hj, hj, if_false]

/-- Sketches with the same seed, buckets and flag are equal. -/
theorem ext_bucket {s t : Sketch} (hseed : s.seed = t.seed)
    (hbucket : ∀ k, s.bucket k = t.bucket k) (hq : s.alreadyQueried = t.alreadyQueried) :
    s = t := by
  obtain ⟨seed, A, C, q⟩ := s
  obtain ⟨seed', A', C', q'⟩ := t
  have hA : A = A' := funext fun k => congrArg Prod.fst (hbucket k)
  have hC : C = C' := funext fun k => congrArg Prod.snd (hbucket k)
  rw [Sketch.mk.injEq]
  exact ⟨hseed, hA, hC, hq⟩

/-- `Sketch::reset_queried`. -/
def resetQueried (s : Sketch) : Sketch := { s with alreadyQueried := false }

/-- The copy constructor `Sketch::Sketch(const Sketch&)`: seed and buckets;
`already_queried` takes its default, `false`. -/
def copy (s : Sketch) : Sketch := { s with alreadyQueried := false }

section Ops

variable (cfg : SketchConfig) (xxh : UInt64 → UInt64 → UInt64)

/-- The depth at which column `i` of a sketch with seed `seed` stores `x`,
as the number the update compares and adds. -/
def depthIn (seed : UInt64) (i : Nat) (x : UInt64) : Nat :=
  (getIndexDepth xxh x (seed + i.toUInt64 * 5) cfg.numGuesses.toUInt32).toNat

/-- One iteration of the column loop of `Sketch::update`. -/
def updateColumn (update_idx : UInt64) (checksum : UInt32) (s : Sketch) (i : Nat) :
    Sketch :=
  let depth := getIndexDepth xxh update_idx (s.columnSeed i) cfg.numGuesses.toUInt32
  let bucket_id := i * cfg.numGuesses + depth.toNat
  if depth.toNat < cfg.numGuesses then s.updateBucket bucket_id update_idx checksum else s

/-- `Sketch::update`: the level-0 bucket, then one bucket per column that
stores the index. -/
def update (s : Sketch) (update_idx : UInt64) : Sketch :=
  let checksum := getIndexHash xxh update_idx s.checksumSeed
  -- Update depth 0 bucket
  let s := s.updateBucket (cfg.numElems - 1) update_idx checksum
  -- Update higher depth buckets
  (List.range cfg.numColumns).foldl (updateColumn cfg xxh update_idx checksum) s

/-- `Sketch::batch_update`: the updates one after the other. -/
def batchUpdate (s : Sketch) (updates : List UInt64) : Sketch :=
  updates.foldl (update cfg xxh) s

/-- The bucket ids of the query loops, in their order: column by column,
depth by depth. -/
def scanIds : List Nat :=
  (List.range cfg.numColumns).flatMap
    (fun i => (List.range cfg.numGuesses).map (fun j => i * cfg.numGuesses + j))

/-- `Sketch::query`. The flag is set before anything is read, and a zero
level-0 bucket is taken to mean a zero vector. -/
def query (s : Sketch) : Except Exception (Sketch × UInt64 × SampleSketchRet) :=
  if s.alreadyQueried then .error .multipleQuery
  else
    let s := { s with alreadyQueried := true }
    let last := cfg.numElems - 1
    if s.bucketA last = 0 ∧ s.bucketC last = 0 then
      -- the "first" bucket is deterministic so if all zero then no edges to return
      .ok (s, 0, .zero)
    else if isGood xxh (s.bucketA last) (s.bucketC last) s.checksumSeed then
      .ok (s, s.bucketA last, .good)
    else
      match (scanIds cfg).find? (fun id => isGood xxh (s.bucketA id) (s.bucketC id)
          s.checksumSeed) with
      | some id => .ok (s, s.bucketA id, .good)
      | none => .ok (s, 0, .fail)

/-- `Sketch::exhaustive_query`. The two early returns come before the flag
is set. -/
def exhaustiveQuery (s : Sketch) :
    Except Exception (Sketch × Finset UInt64 × SampleSketchRet) :=
  if s.alreadyQueried then .error .multipleQuery
  else
    let last := cfg.numElems - 1
    if s.bucketA last = 0 ∧ s.bucketC last = 0 then .ok (s, ∅, .zero)
    else if isGood xxh (s.bucketA last) (s.bucketC last) s.checksumSeed then
      .ok (s, {s.bucketA last}, .good)
    else
      let ret := (((scanIds cfg).filter (fun id => isGood xxh (s.bucketA id) (s.bucketC id)
          s.checksumSeed)).map s.bucketA).toFinset
      let s := { s with alreadyQueried := true }
      if ret.card = 0 then .ok (s, ret, .fail) else .ok (s, ret, .good)

/-- `operator+=`: the queried flags are combined, and then, unless the
level-0 bucket of `sketch2` is zero, every bucket is XOR-ed in. -/
def add (sketch1 sketch2 : Sketch) : Sketch :=
  let sketch1 := { sketch1 with
    alreadyQueried := sketch1.alreadyQueried || sketch2.alreadyQueried }
  if sketch2.bucketA (cfg.numElems - 1) = 0 ∧ sketch2.bucketC (cfg.numElems - 1) = 0 then
    sketch1
  else
    { sketch1 with
      bucketA := fun i =>
        if i < cfg.numElems then sketch1.bucketA i ^^^ sketch2.bucketA i else sketch1.bucketA i
      bucketC := fun i =>
        if i < cfg.numElems then sketch1.bucketC i ^^^ sketch2.bucketC i else sketch1.bucketC i }

/-- **Bucket equality**, what the tests compare with `operator==` apart from
the queried flag: the same seed and the same buckets. -/
def BucketEq (s t : Sketch) : Prop :=
  s.seed = t.seed ∧ ∀ k < cfg.numElems, s.bucket k = t.bucket k

/-! ## Where an update goes -/

/-- **An update of `x` reaches bucket `k`**: `k` is the level-0 bucket, or
the bucket of a column that stores `x`. -/
def Routed (seed : UInt64) (x : UInt64) (k : Nat) : Prop :=
  k = cfg.numElems - 1 ∨
    ∃ i < cfg.numColumns, depthIn cfg xxh seed i x < cfg.numGuesses ∧
      k = i * cfg.numGuesses + depthIn cfg xxh seed i x

instance (seed x : UInt64) (k : Nat) : Decidable (Routed cfg xxh seed x k) :=
  inferInstanceAs (Decidable (_ ∨ _))

/-- The bucket of depth `d` in column `i` lies before the level-0 bucket. -/
theorem bucketId_lt {i d : Nat} (hi : i < cfg.numColumns) (hd : d < cfg.numGuesses) :
    i * cfg.numGuesses + d < cfg.numElems - 1 :=
  calc i * cfg.numGuesses + d < i * cfg.numGuesses + cfg.numGuesses :=
        Nat.add_lt_add_left hd _
    _ = (i + 1) * cfg.numGuesses := (Nat.add_one_mul i _).symm
    _ ≤ cfg.numColumns * cfg.numGuesses := Nat.mul_le_mul_right _ hi
    _ = cfg.numElems - 1 := (Nat.add_sub_cancel _ 1).symm

/-- **Columns do not overlap**: a bucket id determines its column and
depth. -/
theorem bucketId_inj {i i' d d' g : Nat} (hd : d < g) (hd' : d' < g)
    (h : i * g + d = i' * g + d') : i = i' ∧ d = d' := by
  have hg : 0 < g := Nat.lt_of_le_of_lt (Nat.zero_le d) hd
  have hdiv : (i * g + d) / g = i := by
    rw [Nat.add_comm, Nat.add_mul_div_right _ _ hg, Nat.div_eq_of_lt hd, Nat.zero_add]
  have hdiv' : (i' * g + d') / g = i' := by
    rw [Nat.add_comm, Nat.add_mul_div_right _ _ hg, Nat.div_eq_of_lt hd', Nat.zero_add]
  have hi : i = i' := by rw [← hdiv, ← hdiv', h]
  subst hi
  exact ⟨rfl, Nat.add_left_cancel h⟩

/-- Every bucket an update reaches is one of the `num_elems` buckets. -/
theorem lt_numElems_of_routed {seed x : UInt64} {k : Nat}
    (h : Routed cfg xxh seed x k) : k < cfg.numElems := by
  have hpos : 0 < cfg.numElems := Nat.succ_pos _
  rcases h with rfl | ⟨i, hi, hd, rfl⟩
  · omega
  · have := bucketId_lt cfg hi hd
    omega

/-- The column loop's body, with the depth named. -/
theorem updateColumn_eq (x : UInt64) (h : UInt32) (s : Sketch) (i : Nat) :
    updateColumn cfg xxh x h s i
      = if depthIn cfg xxh s.seed i x < cfg.numGuesses
        then s.updateBucket (i * cfg.numGuesses + depthIn cfg xxh s.seed i x) x h else s :=
  rfl

@[simp] theorem seed_updateColumn (x : UInt64) (h : UInt32) (s : Sketch) (i : Nat) :
    (updateColumn cfg xxh x h s i).seed = s.seed := by
  rw [updateColumn_eq]
  split <;> rfl

@[simp] theorem alreadyQueried_updateColumn (x : UInt64) (h : UInt32) (s : Sketch) (i : Nat) :
    (updateColumn cfg xxh x h s i).alreadyQueried = s.alreadyQueried := by
  rw [updateColumn_eq]
  split <;> rfl

/-- The column loop changes buckets only. -/
theorem foldl_updateColumn_frame (x : UInt64) (h : UInt32) (L : List Nat) (s : Sketch) :
    (L.foldl (updateColumn cfg xxh x h) s).seed = s.seed ∧
      (L.foldl (updateColumn cfg xxh x h) s).alreadyQueried = s.alreadyQueried := by
  induction L generalizing s with
  | nil => exact ⟨rfl, rfl⟩
  | cons i L ih =>
    rw [List.foldl_cons, (ih _).1, (ih _).2, seed_updateColumn, alreadyQueried_updateColumn]
    exact ⟨rfl, rfl⟩

/-- One column touches bucket `k` exactly when it stores `x` there. -/
theorem bucket_updateColumn (x : UInt64) (h : UInt32) (s : Sketch) (i k : Nat) :
    (updateColumn cfg xxh x h s i).bucket k
      = if depthIn cfg xxh s.seed i x < cfg.numGuesses ∧
            k = i * cfg.numGuesses + depthIn cfg xxh s.seed i x
        then bucketXor (s.bucket k) (x, h) else s.bucket k := by
  rw [updateColumn_eq]
  by_cases hlt : depthIn cfg xxh s.seed i x < cfg.numGuesses
  · rw [if_pos hlt, bucket_updateBucket]
    by_cases hk : k = i * cfg.numGuesses + depthIn cfg xxh s.seed i x
    · rw [if_pos hk, if_pos ⟨hlt, hk⟩]
    · rw [if_neg hk, if_neg (fun hc => hk hc.2)]
  · rw [if_neg hlt, if_neg (fun hc => hlt hc.1)]

/-- **The column loop touches a bucket at most once**: the columns of a
repetition-free list of columns store `x` in different buckets. -/
theorem bucket_foldl_updateColumn (x : UInt64) (h : UInt32) (L : List Nat) (hL : L.Nodup)
    (s : Sketch) (k : Nat) :
    (L.foldl (updateColumn cfg xxh x h) s).bucket k
      = if ∃ i ∈ L, depthIn cfg xxh s.seed i x < cfg.numGuesses ∧
            k = i * cfg.numGuesses + depthIn cfg xxh s.seed i x
        then bucketXor (s.bucket k) (x, h) else s.bucket k := by
  induction L generalizing s with
  | nil => simp
  | cons i L ih =>
    obtain ⟨hiL, hL'⟩ := List.nodup_cons.mp hL
    rw [List.foldl_cons, ih hL', seed_updateColumn, bucket_updateColumn]
    by_cases hk : depthIn cfg xxh s.seed i x < cfg.numGuesses ∧
        k = i * cfg.numGuesses + depthIn cfg xxh s.seed i x
    · -- column `i` stores `x` in bucket `k`, so no later column does
      have hnone : ¬∃ j ∈ L, depthIn cfg xxh s.seed j x < cfg.numGuesses ∧
          k = j * cfg.numGuesses + depthIn cfg xxh s.seed j x := by
        rintro ⟨j, hj, hjd, hjk⟩
        have hij := (bucketId_inj hk.1 hjd (hk.2.symm.trans hjk)).1
        exact hiL (hij ▸ hj)
      rw [if_pos hk, if_neg hnone, if_pos ⟨i, List.mem_cons_self, hk⟩]
    · rw [if_neg hk]
      refine if_congr ⟨fun ⟨j, hj, hjk⟩ => ⟨j, List.mem_cons_of_mem i hj, hjk⟩, ?_⟩ rfl rfl
      rintro ⟨j, hj, hjk⟩
      rcases List.mem_cons.mp hj with rfl | hj'
      · exact absurd hjk hk
      · exact ⟨j, hj', hjk⟩

/-- **What an update does** (`Sketch::update`): it XORs
`(x, vec_hash(x, seed))` into every bucket it is routed to and leaves the
others alone. -/
theorem bucket_update (s : Sketch) (x : UInt64) (k : Nat) :
    (s.update cfg xxh x).bucket k
      = if Routed cfg xxh s.seed x k
        then bucketXor (s.bucket k) (x, getIndexHash xxh x s.seed) else s.bucket k := by
  unfold update
  simp only []
  rw [bucket_foldl_updateColumn cfg xxh _ _ _ List.nodup_range, bucket_updateBucket,
    seed_updateBucket]
  simp only [List.mem_range, checksumSeed]
  by_cases hcol : ∃ i < cfg.numColumns, depthIn cfg xxh s.seed i x < cfg.numGuesses ∧
      k = i * cfg.numGuesses + depthIn cfg xxh s.seed i x
  · -- a column bucket is never the level-0 bucket
    obtain ⟨i, hi, hd, hk⟩ := hcol
    have hne : k ≠ cfg.numElems - 1 := by
      have := bucketId_lt cfg hi hd
      omega
    rw [if_pos ⟨i, hi, hd, hk⟩, if_neg hne,
      if_pos (show Routed cfg xxh s.seed x k from Or.inr ⟨i, hi, hd, hk⟩)]
  · rw [if_neg hcol]
    by_cases hk : k = cfg.numElems - 1
    · rw [if_pos hk, if_pos (show Routed cfg xxh s.seed x k from Or.inl hk)]
    · rw [if_neg hk, if_neg (show ¬Routed cfg xxh s.seed x k from fun hr => Or.elim hr hk hcol)]

@[simp] theorem seed_update (s : Sketch) (x : UInt64) : (s.update cfg xxh x).seed = s.seed := by
  unfold update
  simp only []
  rw [(foldl_updateColumn_frame cfg xxh _ _ _ _).1, seed_updateBucket]

@[simp] theorem alreadyQueried_update (s : Sketch) (x : UInt64) :
    (s.update cfg xxh x).alreadyQueried = s.alreadyQueried := by
  unfold update
  simp only []
  rw [(foldl_updateColumn_frame cfg xxh _ _ _ _).2, alreadyQueried_updateBucket]

/-- A batch of updates keeps the seed and the flag. -/
theorem batchUpdate_frame (s : Sketch) (U : List UInt64) :
    (s.batchUpdate cfg xxh U).seed = s.seed ∧
      (s.batchUpdate cfg xxh U).alreadyQueried = s.alreadyQueried := by
  induction U generalizing s with
  | nil => exact ⟨rfl, rfl⟩
  | cons x U ih =>
    obtain ⟨hseed, hq⟩ := ih (s.update cfg xxh x)
    exact ⟨hseed.trans (seed_update cfg xxh s x), hq.trans (alreadyQueried_update cfg xxh s x)⟩

/-- A query of a sketch not yet queried answers, and marks it queried;
one already queried throws `MultipleQueryException`. -/
theorem query_eq (s : Sketch) :
    (s.alreadyQueried = true ∧ s.query cfg xxh = .error .multipleQuery) ∨
      (s.alreadyQueried = false ∧
        ∃ x r, s.query cfg xxh = .ok ({ s with alreadyQueried := true }, x, r)) := by
  cases hq : s.alreadyQueried
  · refine .inr ⟨rfl, ?_⟩
    unfold query
    simp only [hq, Bool.false_eq_true, if_false]
    split
    · exact ⟨_, _, rfl⟩
    · split
      · exact ⟨_, _, rfl⟩
      · split <;> exact ⟨_, _, rfl⟩
  · exact .inl ⟨rfl, by simp only [query, hq, if_true]⟩

/-- **What `exhaustive_query` does**: on a sketch already queried it throws;
otherwise it answers, and it marks the sketch queried only past its two
early returns, a zero or a good level-0 bucket. -/
theorem exhaustiveQuery_eq (s : Sketch) :
    (s.alreadyQueried = true ∧ s.exhaustiveQuery cfg xxh = .error .multipleQuery) ∨
      (s.alreadyQueried = false ∧
        (s.bucket (cfg.numElems - 1) = (0, 0) ∨
          isGood xxh (s.bucketA (cfg.numElems - 1)) (s.bucketC (cfg.numElems - 1))
            s.checksumSeed) ∧
        ∃ R r, s.exhaustiveQuery cfg xxh = .ok (s, R, r)) ∨
      (s.alreadyQueried = false ∧
        ¬(s.bucket (cfg.numElems - 1) = (0, 0) ∨
          isGood xxh (s.bucketA (cfg.numElems - 1)) (s.bucketC (cfg.numElems - 1))
            s.checksumSeed) ∧
        ∃ R r, s.exhaustiveQuery cfg xxh = .ok ({ s with alreadyQueried := true }, R, r)) := by
  cases hq : s.alreadyQueried
  · by_cases h0 : s.bucket (cfg.numElems - 1) = (0, 0)
    · -- the ZERO return
      have ha : s.bucketA (cfg.numElems - 1) = 0 := congrArg Prod.fst h0
      have hc : s.bucketC (cfg.numElems - 1) = 0 := congrArg Prod.snd h0
      refine .inr (.inl ⟨rfl, .inl h0, ∅, .zero, ?_⟩)
      simp only [exhaustiveQuery, hq, Bool.false_eq_true, if_false, ha, hc, and_self, if_true]
    have hne : ¬(s.bucketA (cfg.numElems - 1) = 0 ∧ s.bucketC (cfg.numElems - 1) = 0) :=
      fun h => h0 (Prod.ext h.1 h.2)
    by_cases hg : isGood xxh (s.bucketA (cfg.numElems - 1)) (s.bucketC (cfg.numElems - 1))
        s.checksumSeed
    · -- the GOOD return of the level-0 bucket
      refine .inr (.inl ⟨rfl, .inr hg, {s.bucketA (cfg.numElems - 1)}, .good, ?_⟩)
      simp only [exhaustiveQuery, hq, Bool.false_eq_true, if_false, hne, hg, if_true]
    · -- the scan of every column, after which the flag is set
      refine .inr (.inr ⟨rfl, not_or.mpr ⟨h0, hg⟩, ?_⟩)
      unfold exhaustiveQuery
      simp only [hq, Bool.false_eq_true, if_false, hne, hg]
      split <;> exact ⟨_, _, rfl⟩
  · exact .inl ⟨rfl, by simp only [exhaustiveQuery, hq, if_true]⟩

end Ops

end Sketch

end GraphZeppelin

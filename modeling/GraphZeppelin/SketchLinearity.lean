import GraphZeppelin.Sketch
import Mathlib.Data.FinEnum
import Mathlib.Data.Fintype.Prod

/-!
# What a sketch summarises

A sketch built by updates stores, in each bucket, the XOR of the pairs
`(x, vec_hash(x, seed))` over the indices `x` that are routed to that bucket
and occur an odd number of times. This module makes that precise in
three layers.

* **The abstract vector.** A GF(2) vector over the 64-bit indices is a
  `Finset UInt64`, with symmetric difference as addition. `bucketOf`
  evaluates a vector at one bucket, and `ofVector` is the sketch whose
  buckets are those values. `bucketOf` is linear (`bucketOf_symmDiff`).
* **Refinement.** `Sketch::update` of `x` moves the sketch of `v` to the
  sketch of `v ∆ {x}` (`update_ofVector`), so a batch of updates from an
  empty sketch gives the sketch of the parity set of the batch
  (`batchUpdate_makeSketch`). The reasoning is that of `Parity`: every bucket
  is a left fold of XORs, and a left fold sees only the parity set.
* **The level-0 shortcut.** Both `query` and `operator+=` test the level-0
  bucket alone to decide that a vector is zero. That bucket is a fold over
  the whole vector into the 96 bits of `UInt64 × UInt32`, so it has
  non-trivial kernels: `Parity.exists_fold_eq_of_card_lt` finds a non-zero
  vector among any 97 indices whose level-0 bucket is zero, and
  `Parity.exists_fold_eq_fold_ne_of_card_lt` finds one that still has a
  non-zero column bucket, as soon as column 0 has many indices at depth 0
  and many elsewhere.
-/

open scoped symmDiff
open Parity

namespace GraphZeppelin

namespace Sketch

section Linear

variable (cfg : SketchConfig) (xxh : UInt64 → UInt64 → UInt64)

/-- The pair an update of `x` XORs into each bucket it reaches. -/
def entry (seed x : UInt64) : UInt64 × UInt32 := (x, getIndexHash xxh x seed)

/-- **The value of a vector at bucket `k`**: the XOR of the entries of its
indices that are routed to `k`. -/
def bucketOf (seed : UInt64) (v : Finset UInt64) (k : Nat) : UInt64 × UInt32 :=
  (v.filter (fun x => Routed cfg xxh seed x k)).fold bucketXor (0, 0) (entry xxh seed)

/-- **The sketch of a vector**: unqueried, with the buckets `bucketOf`
gives. -/
def ofVector (seed : UInt64) (v : Finset UInt64) : Sketch where
  seed := seed
  bucketA k := (bucketOf cfg xxh seed v k).1
  bucketC k := (bucketOf cfg xxh seed v k).2
  alreadyQueried := false

@[simp] theorem bucket_ofVector (seed : UInt64) (v : Finset UInt64) (k : Nat) :
    (ofVector cfg xxh seed v).bucket k = bucketOf cfg xxh seed v k := rfl

@[simp] theorem seed_ofVector (seed : UInt64) (v : Finset UInt64) :
    (ofVector cfg xxh seed v).seed = seed := rfl

@[simp] theorem alreadyQueried_ofVector (seed : UInt64) (v : Finset UInt64) :
    (ofVector cfg xxh seed v).alreadyQueried = false := rfl

/-! ### The buckets of a vector -/

@[simp] theorem bucketOf_empty (seed : UInt64) (k : Nat) :
    bucketOf cfg xxh seed ∅ k = (0, 0) := rfl

/-- **Buckets are linear** in the vector. -/
theorem bucketOf_symmDiff (seed : UInt64) (v w : Finset UInt64) (k : Nat) :
    bucketOf cfg xxh seed (v ∆ w) k
      = bucketXor (bucketOf cfg xxh seed v k) (bucketOf cfg xxh seed w k) := by
  unfold bucketOf
  rw [filter_symmDiff, fold_symmDiff bucketXor zero_bucketXor bucketXor_self]

theorem bucketOf_singleton (seed x : UInt64) (k : Nat) :
    bucketOf cfg xxh seed {x} k
      = if Routed cfg xxh seed x k then entry xxh seed x else (0, 0) := by
  unfold bucketOf
  rw [Finset.filter_singleton]
  split
  · rw [Finset.fold_singleton, bucketXor_zero]
  · rfl

/-- A vector's buckets are the fold of its one-index buckets. -/
theorem fold_bucketOf_singleton (seed : UInt64) (v : Finset UInt64) (k : Nat) :
    v.fold bucketXor (0, 0) (fun x => bucketOf cfg xxh seed {x} k)
      = bucketOf cfg xxh seed v k := by
  simp only [bucketOf_singleton]
  exact fold_ite_eq_fold_filter bucketXor zero_bucketXor _ _ v

/-- The level-0 bucket holds the fold over the whole vector. -/
theorem bucketOf_last (seed : UInt64) (v : Finset UInt64) :
    bucketOf cfg xxh seed v (cfg.numElems - 1) = v.fold bucketXor (0, 0) (entry xxh seed) := by
  unfold bucketOf
  rw [Finset.filter_true_of_mem
    (fun x _ => show Routed cfg xxh seed x (cfg.numElems - 1) from Or.inl rfl)]

/-- Column `i` stores `x` at depth `j` exactly when `x` has depth `j`
there. -/
theorem routed_bucketId_iff {seed x : UInt64} {i j : Nat} (hi : i < cfg.numColumns)
    (hj : j < cfg.numGuesses) :
    Routed cfg xxh seed x (i * cfg.numGuesses + j) ↔ depthIn cfg xxh seed i x = j := by
  constructor
  · rintro (hlast | ⟨i', hi', hd', hk⟩)
    · exact absurd hlast (Nat.ne_of_lt (bucketId_lt cfg hi hj))
    · obtain ⟨rfl, hdj⟩ := bucketId_inj hj hd' hk
      exact hdj.symm
  · intro hd
    exact Or.inr ⟨i, hi, hd ▸ hj, by rw [hd]⟩

/-- Bucket `(i, j)` holds the fold over the indices column `i` puts at
depth `j`. -/
theorem bucketOf_bucketId (seed : UInt64) (v : Finset UInt64) {i j : Nat}
    (hi : i < cfg.numColumns) (hj : j < cfg.numGuesses) :
    bucketOf cfg xxh seed v (i * cfg.numGuesses + j)
      = (v.filter (fun x => depthIn cfg xxh seed i x = j)).fold bucketXor (0, 0)
          (entry xxh seed) := by
  unfold bucketOf
  rw [Finset.filter_congr (fun x _ => routed_bucketId_iff cfg xxh hi hj)]

/-- No index reaches a bucket past the `num_elems` buckets. -/
theorem bucketOf_of_numElems_le (seed : UInt64) (v : Finset UInt64) {k : Nat}
    (hk : cfg.numElems ≤ k) : bucketOf cfg xxh seed v k = (0, 0) := by
  unfold bucketOf
  rw [Finset.filter_false_of_mem
    (fun x _ hr => Nat.not_lt.mpr hk (lt_numElems_of_routed cfg xxh hr))]
  rfl

/-! ### Updates refine toggles -/

/-- The empty sketch is the sketch of the zero vector. -/
theorem makeSketch_eq_ofVector (seed : UInt64) : makeSketch seed = ofVector cfg xxh seed ∅ :=
  ext_bucket rfl (fun _ => rfl) rfl

/-- A bucket after updates is the left fold of the one-index buckets. -/
theorem bucket_foldl_update (U : List UInt64) (s : Sketch) (k : Nat) :
    (U.foldl (update cfg xxh) s).bucket k
      = U.foldl (fun b x => bucketXor b (bucketOf cfg xxh s.seed {x} k)) (s.bucket k) := by
  induction U generalizing s with
  | nil => rfl
  | cons x U ih =>
    rw [List.foldl_cons, List.foldl_cons, ih, seed_update, bucket_update, bucketOf_singleton]
    by_cases hr : Routed cfg xxh s.seed x k
    · rw [if_pos hr, if_pos hr]
      rfl
    · rw [if_neg hr, if_neg hr, bucketXor_zero]

/-- **A batch XORs in the buckets of its parity set**, whatever the sketch
it starts from. -/
theorem bucket_batchUpdate (s : Sketch) (U : List UInt64) (k : Nat) :
    (s.batchUpdate cfg xxh U).bucket k
      = bucketXor (s.bucket k) (bucketOf cfg xxh s.seed (oddSet U) k) := by
  rw [batchUpdate, bucket_foldl_update,
    foldl_eq_fold_oddSet bucketXor zero_bucketXor bucketXor_self
      (fun x => bucketOf cfg xxh s.seed {x} k),
    fold_bucketOf_singleton]

/-- **`Sketch::update` toggles one index** of the summarised vector. -/
theorem update_ofVector (seed x : UInt64) (v : Finset UInt64) :
    (ofVector cfg xxh seed v).update cfg xxh x = ofVector cfg xxh seed (v ∆ {x}) := by
  refine ext_bucket (seed_update cfg xxh _ x) (fun k => ?_) (alreadyQueried_update cfg xxh _ x)
  have hbatch := bucket_batchUpdate cfg xxh (ofVector cfg xxh seed v) [x] k
  rw [oddSet_cons, oddSet_nil, ← Finset.bot_eq_empty, symmDiff_bot] at hbatch
  rw [bucket_ofVector, bucketOf_symmDiff]
  exact hbatch

/-- A batch of updates adds its parity set to the summarised vector. -/
theorem batchUpdate_ofVector (seed : UInt64) (v : Finset UInt64) (U : List UInt64) :
    (ofVector cfg xxh seed v).batchUpdate cfg xxh U = ofVector cfg xxh seed (v ∆ oddSet U) := by
  obtain ⟨hseed, hq⟩ := batchUpdate_frame cfg xxh (ofVector cfg xxh seed v) U
  refine ext_bucket hseed (fun k => ?_) hq
  rw [bucket_batchUpdate, bucket_ofVector, bucket_ofVector, bucketOf_symmDiff, seed_ofVector]

/-- **A sketch built from empty is the sketch of the parity set** of its
updates. -/
theorem batchUpdate_makeSketch (seed : UInt64) (U : List UInt64) :
    (makeSketch seed).batchUpdate cfg xxh U = ofVector cfg xxh seed (oddSet U) := by
  rw [makeSketch_eq_ofVector cfg xxh, batchUpdate_ofVector, ← Finset.bot_eq_empty,
    bot_symmDiff]

/-- **The buckets of a sketch built by updates** (`Sketch::update`,
`Sketch::batch_update`). From an empty sketch with seed `seed`, the
level-0 bucket holds the XOR of `(x, vec_hash(x, seed))` over the indices of
odd multiplicity; bucket `i * num_guesses + j` holds the same XOR over those
that column `i` puts at depth `j`; no update ever changes a bucket at or
past `num_elems`; so the sketch depends only on the parity set, in
particular not on the order of the updates or on pairs of equal updates;
and a batch is the updates one after the other. -/
theorem batchUpdate_makeSketch_buckets (seed : UInt64) (U : List UInt64) :
    ((makeSketch seed).batchUpdate cfg xxh U).bucket (cfg.numElems - 1)
        = (oddSet U).fold bucketXor (0, 0) (entry xxh seed) ∧
      (∀ i < cfg.numColumns, ∀ j < cfg.numGuesses,
        ((makeSketch seed).batchUpdate cfg xxh U).bucket (i * cfg.numGuesses + j)
          = ((oddSet U).filter (fun x => depthIn cfg xxh seed i x = j)).fold bucketXor (0, 0)
              (entry xxh seed)) ∧
      (∀ (t : Sketch) (x : UInt64) (k : Nat),
        cfg.numElems ≤ k → (t.update cfg xxh x).bucket k = t.bucket k) ∧
      (∀ U' : List UInt64, oddSet U' = oddSet U →
        (makeSketch seed).batchUpdate cfg xxh U' = (makeSketch seed).batchUpdate cfg xxh U) ∧
      (∀ U' : List UInt64, U'.Perm U →
        (makeSketch seed).batchUpdate cfg xxh U' = (makeSketch seed).batchUpdate cfg xxh U) ∧
      (∀ (U₁ U₂ : List UInt64) (x : UInt64), U = U₁ ++ U₂ →
        (makeSketch seed).batchUpdate cfg xxh (U₁ ++ x :: x :: U₂)
          = (makeSketch seed).batchUpdate cfg xxh U) ∧
      (makeSketch seed).batchUpdate cfg xxh U = U.foldl (update cfg xxh) (makeSketch seed) := by
  have honly : ∀ U' : List UInt64, oddSet U' = oddSet U →
      (makeSketch seed).batchUpdate cfg xxh U' = (makeSketch seed).batchUpdate cfg xxh U := by
    intro U' hU'
    rw [batchUpdate_makeSketch, batchUpdate_makeSketch, hU']
  refine ⟨?_, ?_, ?_, honly, fun U' hU' => honly U' (oddSet_perm hU'), ?_, rfl⟩
  · rw [batchUpdate_makeSketch, bucket_ofVector, bucketOf_last]
  · intro i hi j hj
    rw [batchUpdate_makeSketch, bucket_ofVector, bucketOf_bucketId cfg xxh _ _ hi hj]
  · intro t x k hk
    rw [bucket_update, if_neg (fun hr => Nat.not_lt.mpr hk (lt_numElems_of_routed cfg xxh hr))]
  · -- a pair of equal updates cancels in the parity set
    intro U₁ U₂ x hU
    apply honly
    rw [hU, oddSet_append, oddSet_append, oddSet_cons_cons]

/-! ### The level-0 shortcut -/

/-- `query` on a fresh sketch whose level-0 bucket is zero answers `ZERO`
without looking further. -/
theorem query_of_last_eq_zero (s : Sketch) (hq : s.alreadyQueried = false)
    (h0 : s.bucket (cfg.numElems - 1) = (0, 0)) :
    s.query cfg xxh = .ok ({ s with alreadyQueried := true }, 0, .zero) := by
  have ha : s.bucketA (cfg.numElems - 1) = 0 := congrArg Prod.fst h0
  have hc : s.bucketC (cfg.numElems - 1) = 0 := congrArg Prod.snd h0
  simp only [query, hq, Bool.false_eq_true, if_false, ha, hc, and_self, if_true]

/-- `exhaustive_query` likewise, and it returns before setting the flag. -/
theorem exhaustiveQuery_of_last_eq_zero (s : Sketch) (hq : s.alreadyQueried = false)
    (h0 : s.bucket (cfg.numElems - 1) = (0, 0)) :
    s.exhaustiveQuery cfg xxh = .ok (s, ∅, .zero) := by
  have ha : s.bucketA (cfg.numElems - 1) = 0 := congrArg Prod.fst h0
  have hc : s.bucketC (cfg.numElems - 1) = 0 := congrArg Prod.snd h0
  simp only [exhaustiveQuery, hq, Bool.false_eq_true, if_false, ha, hc, and_self, if_true]

/-- The bucket values: 96 bits. -/
theorem card_bucket : Fintype.card (UInt64 × UInt32) = 2 ^ 96 := by
  rw [Fintype.card_prod, ← FinEnum.card_eq_fintypeCard, FinEnum.card_UInt64,
    ← FinEnum.card_eq_fintypeCard, FinEnum.card_UInt32, ← pow_add]

/-- **Among any 97 indices there is a non-zero vector with a zero level-0
bucket**: 97 indices have `2^97` subsets, and the level-0 bucket takes only
`2^96` values. -/
theorem exists_last_eq_zero (seed : UInt64) (T : Finset UInt64) (hT : 97 ≤ T.card) :
    ∃ v ⊆ T, v.Nonempty ∧ bucketOf cfg xxh seed v (cfg.numElems - 1) = (0, 0) := by
  have hcard : Fintype.card (UInt64 × UInt32) < 2 ^ T.card := by
    rw [card_bucket]
    exact Nat.pow_lt_pow_right (by decide) (by omega)
  obtain ⟨v, hvT, hv, hfold⟩ :=
    exists_fold_eq_of_card_lt bucketXor zero_bucketXor bucketXor_self (entry xxh seed) T hcard
  exact ⟨v, hvT, hv, (bucketOf_last cfg xxh seed v).trans hfold⟩

/-- `N` indices given by an injective formula below `2^64`. -/
theorem card_image_toUInt64 {N : Nat} (f : Nat → Nat) (hf : ∀ n < N, f n < 2 ^ 64)
    (hinj : ∀ m < N, ∀ n < N, f m = f n → m = n) :
    ((Finset.range N).image (fun n => (f n).toUInt64)).card = N := by
  rw [Finset.card_image_of_injOn, Finset.card_range]
  intro a ha b hb hab
  have ha' : a < N := Finset.mem_range.mp ha
  have hb' : b < N := Finset.mem_range.mp hb
  have h := congrArg UInt64.toNat hab
  simp only [Nat.toUInt64_eq, UInt64.toNat_ofNat', Nat.mod_eq_of_lt (hf a ha'),
    Nat.mod_eq_of_lt (hf b hb')] at h
  exact hinj a ha' b hb' h

/-- The indices `1, …, 97`. -/
def smallIndices : Finset UInt64 := (Finset.range 97).image (fun n => (n + 1).toUInt64)

theorem card_smallIndices : smallIndices.card = 97 :=
  card_image_toUInt64 (fun n => n + 1) (fun _ hn => by omega) (fun _ _ _ _ h => by omega)

/-- **`query` and `exhaustive_query` answer `ZERO` for a non-zero vector.**
For every configuration, hash and seed, some update sequence over the
indices `1, …, 97` leaves an index of odd multiplicity, yet both queries of
the sketch it builds answer `ZERO`: the level-0 bucket is zero although the
vector is not. -/
theorem query_zero_of_nonzero_vector (seed : UInt64) :
    ∃ U : List UInt64, (∀ x ∈ U, x ∈ smallIndices) ∧ (∃ x, U.count x % 2 = 1) ∧
      ((makeSketch seed).batchUpdate cfg xxh U).query cfg xxh
        = .ok ({ (makeSketch seed).batchUpdate cfg xxh U with alreadyQueried := true }, 0,
            .zero) ∧
      ((makeSketch seed).batchUpdate cfg xxh U).exhaustiveQuery cfg xxh
        = .ok ((makeSketch seed).batchUpdate cfg xxh U, ∅, .zero) := by
  obtain ⟨v, hvT, ⟨x, hx⟩, hlast⟩ :=
    exists_last_eq_zero cfg xxh seed smallIndices card_smallIndices.ge
  have hodd : oddSet v.toList = v := by
    rw [oddSet_of_nodup (Finset.nodup_toList v), Finset.toList_toFinset]
  have hq : ((makeSketch seed).batchUpdate cfg xxh v.toList).alreadyQueried = false := by
    rw [batchUpdate_makeSketch]
    rfl
  have h0 : ((makeSketch seed).batchUpdate cfg xxh v.toList).bucket (cfg.numElems - 1)
      = (0, 0) := by
    rw [batchUpdate_makeSketch, hodd, bucket_ofVector, hlast]
  refine ⟨v.toList, fun y hy => hvT (Finset.mem_toList.mp hy), ⟨x, ?_⟩,
    query_of_last_eq_zero cfg xxh _ hq h0, exhaustiveQuery_of_last_eq_zero cfg xxh _ hq h0⟩
  rw [← mem_oddSet, hodd]
  exact hx

/-! ### `operator+=` -/

@[simp] theorem seed_add (s t : Sketch) : (s.add cfg t).seed = s.seed := by
  unfold add
  split <;> rfl

@[simp] theorem alreadyQueried_add (s t : Sketch) :
    (s.add cfg t).alreadyQueried = (s.alreadyQueried || t.alreadyQueried) := by
  unfold add
  split <;> rfl

/-- A sketch whose level-0 bucket is zero is not added at all; only the
flags are combined. -/
theorem add_of_last_eq_zero (s t : Sketch) (h0 : t.bucket (cfg.numElems - 1) = (0, 0)) :
    s.add cfg t = { s with alreadyQueried := s.alreadyQueried || t.alreadyQueried } := by
  have ha : t.bucketA (cfg.numElems - 1) = 0 := congrArg Prod.fst h0
  have hc : t.bucketC (cfg.numElems - 1) = 0 := congrArg Prod.snd h0
  simp only [add, ha, hc, and_self, if_true]

/-- Otherwise every bucket below `num_elems` is XOR-ed in. -/
theorem bucket_add_of_last_ne_zero (s t : Sketch) (h0 : t.bucket (cfg.numElems - 1) ≠ (0, 0))
    {k : Nat} (hk : k < cfg.numElems) :
    (s.add cfg t).bucket k = bucketXor (s.bucket k) (t.bucket k) := by
  have hne : ¬(t.bucketA (cfg.numElems - 1) = 0 ∧ t.bucketC (cfg.numElems - 1) = 0) :=
    fun h => h0 (Prod.ext h.1 h.2)
  simp only [add, hne, if_false, bucket, hk, if_true, bucketXor]

/-- Past `num_elems` the buckets of the first sketch are kept. -/
theorem bucket_add_of_numElems_le (s t : Sketch) {k : Nat} (hk : cfg.numElems ≤ k) :
    (s.add cfg t).bucket k = s.bucket k := by
  have hk' : ¬k < cfg.numElems := Nat.not_lt.mpr hk
  unfold add
  split <;> simp only [bucket, hk', if_false]

/-- The entries are injective: an entry starts with its index. -/
theorem entry_injective (seed : UInt64) : Function.Injective (entry xxh seed) :=
  fun _ _ h => congrArg Prod.fst h

/-- **A non-zero vector with a zero level-0 bucket and a non-zero bucket
`(0, 0)`**, as soon as column 0 puts more than `2^48` indices at depth 0
and more than `2^48` elsewhere. A subset `P` of the first kind and a subset
`Q` of the second with the same non-zero fold cancel in the level-0 bucket
of `P ∆ Q`, while bucket `(0, 0)` only sees `P`. -/
theorem exists_last_eq_zero_bucket_ne_zero (seed : UInt64) (hcol : 0 < cfg.numColumns)
    (hg : 0 < cfg.numGuesses) (TA TB : Finset UInt64) (hTA : 2 ^ 48 < TA.card)
    (hTB : 2 ^ 48 < TB.card) (hA : ∀ x ∈ TA, depthIn cfg xxh seed 0 x = 0)
    (hB : ∀ x ∈ TB, depthIn cfg xxh seed 0 x ≠ 0) :
    ∃ v : Finset UInt64, bucketOf cfg xxh seed v (cfg.numElems - 1) = (0, 0) ∧
      bucketOf cfg xxh seed v 0 ≠ (0, 0) := by
  have hcard : Fintype.card (UInt64 × UInt32) < TA.card * TB.card := by
    rw [card_bucket, show (2 : Nat) ^ 96 = 2 ^ 48 * 2 ^ 48 by rw [← pow_add]]
    exact Nat.mul_lt_mul'' hTA hTB
  obtain ⟨P, hP, Q, hQ, hPQ, hne⟩ :=
    exists_fold_eq_fold_ne_of_card_lt bucketXor zero_bucketXor bucketXor_self (entry xxh seed)
      TA TB (entry_injective xxh seed).injOn (entry_injective xxh seed).injOn hcard
  -- bucket `(0, 0)` keeps `P` and drops `Q`
  have hfilter : (P ∆ Q).filter (fun x => depthIn cfg xxh seed 0 x = 0) = P := by
    rw [filter_symmDiff, Finset.filter_true_of_mem (fun x hx => hA x (hP hx)),
      Finset.filter_false_of_mem (fun x hx => hB x (hQ hx)), ← Finset.bot_eq_empty,
      symmDiff_bot]
  refine ⟨P ∆ Q, ?_, ?_⟩
  · rw [bucketOf_last, fold_symmDiff bucketXor zero_bucketXor bucketXor_self, hPQ,
      bucketXor_self]
  · have hbucket := bucketOf_bucketId cfg xxh seed (P ∆ Q) hcol hg
    rw [Nat.zero_mul, Nat.zero_add, hfilter] at hbucket
    rw [hbucket]
    exact hne

/-- **`operator+=` is not bucketwise XOR.** Whenever column 0 of the
sketches with seed `seed` puts more than `2^48` indices at depth 0 and more
than `2^48` elsewhere (for a hash that spreads indices as the header
promises, about `2^63` each), some update sequence `U₂` leaves a non-zero
vector whose level-0 bucket is zero. Adding its sketch to the empty sketch
(`U₁ = []`) leaves the empty sketch unchanged, although the sketch of
`U₁ ++ U₂` has a non-zero bucket `0`. -/
theorem add_ne_batchUpdate_append (seed : UInt64) (hcol : 0 < cfg.numColumns)
    (hg : 0 < cfg.numGuesses) (TA TB : Finset UInt64) (hTA : 2 ^ 48 < TA.card)
    (hTB : 2 ^ 48 < TB.card) (hA : ∀ x ∈ TA, depthIn cfg xxh seed 0 x = 0)
    (hB : ∀ x ∈ TB, depthIn cfg xxh seed 0 x ≠ 0) :
    ∃ U₂ : List UInt64,
      ((makeSketch seed).batchUpdate cfg xxh []).add cfg ((makeSketch seed).batchUpdate cfg xxh U₂)
        = (makeSketch seed).batchUpdate cfg xxh [] ∧
      ¬BucketEq cfg
        (((makeSketch seed).batchUpdate cfg xxh []).add cfg
          ((makeSketch seed).batchUpdate cfg xxh U₂))
        ((makeSketch seed).batchUpdate cfg xxh ([] ++ U₂)) := by
  obtain ⟨v, hlast, hbucket⟩ :=
    exists_last_eq_zero_bucket_ne_zero cfg xxh seed hcol hg TA TB hTA hTB hA hB
  have hodd : oddSet v.toList = v := by
    rw [oddSet_of_nodup (Finset.nodup_toList v), Finset.toList_toFinset]
  have hs₂ : (makeSketch seed).batchUpdate cfg xxh v.toList = ofVector cfg xxh seed v := by
    rw [batchUpdate_makeSketch, hodd]
  have hadd : (makeSketch seed).add cfg (ofVector cfg xxh seed v) = makeSketch seed :=
    add_of_last_eq_zero cfg _ _ hlast
  have hs₁ : (makeSketch seed).batchUpdate cfg xxh [] = makeSketch seed := rfl
  refine ⟨v.toList, ?_, ?_⟩
  · rw [hs₂, hs₁]
    exact hadd
  · rw [hs₂, List.nil_append, hs₂, hs₁]
    rintro ⟨-, hb⟩
    have h0 := hb 0 (Nat.succ_pos _)
    rw [hadd, bucket_ofVector] at h0
    exact hbucket h0.symm

end Linear

/-! ### A hash that spreads indices -/

/-- One column of one guess. -/
def oneGuessConfig : SketchConfig where
  failureFactor := 0
  n := 0
  numColumns := 1
  numGuesses := 1

/-- With the identity as hash, column 0 puts the odd indices at depth 0. -/
theorem depthIn_id_eq_zero_iff (x : UInt64) :
    depthIn oneGuessConfig (fun x _ => x) 0 0 x = 0 ↔ x.toNat % 2 = 1 := by
  have hbit : ((1 : UInt64) <<< oneGuessConfig.numGuesses.toUInt32.toUInt64).toNat.testBit 0
      = false := by decide
  unfold depthIn getIndexDepth
  rw [toNat_ctzll_eq_zero_iff, UInt64.toNat_or, Nat.testBit_or, hbit, Bool.or_false,
    Nat.testBit_zero, decide_eq_true_iff]

/-- `2^48 + 1` odd indices. -/
def oddIndices : Finset UInt64 := (Finset.range (2 ^ 48 + 1)).image (fun n => (2 * n + 1).toUInt64)

/-- `2^48 + 1` even indices. -/
def evenIndices : Finset UInt64 := (Finset.range (2 ^ 48 + 1)).image (fun n => (2 * n + 2).toUInt64)

theorem add_ne_batchUpdate_append_id :
    0 < oneGuessConfig.numColumns ∧ 0 < oneGuessConfig.numGuesses ∧
      2 ^ 48 < oddIndices.card ∧ 2 ^ 48 < evenIndices.card ∧
      (∀ x ∈ oddIndices, depthIn oneGuessConfig (fun x _ => x) 0 0 x = 0) ∧
      (∀ x ∈ evenIndices, depthIn oneGuessConfig (fun x _ => x) 0 0 x ≠ 0) ∧
      ∃ U₂ : List UInt64,
        ((makeSketch 0).batchUpdate oneGuessConfig (fun x _ => x) []).add oneGuessConfig
            ((makeSketch 0).batchUpdate oneGuessConfig (fun x _ => x) U₂)
          = (makeSketch 0).batchUpdate oneGuessConfig (fun x _ => x) [] ∧
        ¬BucketEq oneGuessConfig
          (((makeSketch 0).batchUpdate oneGuessConfig (fun x _ => x) []).add oneGuessConfig
            ((makeSketch 0).batchUpdate oneGuessConfig (fun x _ => x) U₂))
          ((makeSketch 0).batchUpdate oneGuessConfig (fun x _ => x) ([] ++ U₂)) := by
  have hodd : 2 ^ 48 < oddIndices.card := by
    rw [oddIndices, card_image_toUInt64 (fun n => 2 * n + 1) (fun _ hn => by omega)
      (fun _ _ _ _ h => by omega)]
    omega
  have heven : 2 ^ 48 < evenIndices.card := by
    rw [evenIndices, card_image_toUInt64 (fun n => 2 * n + 2) (fun _ hn => by omega)
      (fun _ _ _ _ h => by omega)]
    omega
  have hA : ∀ x ∈ oddIndices, depthIn oneGuessConfig (fun x _ => x) 0 0 x = 0 := by
    intro x hx
    obtain ⟨n, hn, rfl⟩ := Finset.mem_image.mp hx
    have hn' : n < 2 ^ 48 + 1 := Finset.mem_range.mp hn
    rw [depthIn_id_eq_zero_iff, Nat.toUInt64_eq, UInt64.toNat_ofNat']
    omega
  have hB : ∀ x ∈ evenIndices, depthIn oneGuessConfig (fun x _ => x) 0 0 x ≠ 0 := by
    intro x hx h0
    obtain ⟨n, hn, rfl⟩ := Finset.mem_image.mp hx
    have hn' : n < 2 ^ 48 + 1 := Finset.mem_range.mp hn
    rw [depthIn_id_eq_zero_iff, Nat.toUInt64_eq, UInt64.toNat_ofNat'] at h0
    omega
  exact ⟨by decide, by decide, hodd, heven, hA, hB,
    add_ne_batchUpdate_append oneGuessConfig (fun x _ => x) 0 (by decide) (by decide)
      oddIndices evenIndices hodd heven hA hB⟩

end Sketch

end GraphZeppelin

import Mathlib.Data.UInt
import Mathlib.Order.MinMax

/-!
# Edges, updates and edge identifiers

The vocabulary every other module of GraphZeppelin speaks: node ids are
`node_id_t`, 32-bit unsigned, and an edge update names two of them and
says whether it inserts or deletes. The sketches do not store edges but
64-bit *edge identifiers* (`edge_id_t`, `vec_t`): `concat_pairing_fn`
puts the smaller endpoint in the high word and the larger in the low
word, and `inv_concat_pairing_fn` reads the two words back.

Both widths come from `graph_zeppelin_common.h` of the external GutterTree
dependency; `util.cpp` presupposes them through its shift by
`sizeof(node_id_t) * 8` and its mask `0xFFFFFFFF`, and the binary stream
header (four bytes of node count, eight of update count) fixes them too.

`nondirectional_non_self_edge_pairing_fn`, the triangular numbering
`i + j*(j-1)/2`, is modelled with the widths its variables have: its
product is kept in the 32-bit `j`, which the last section shows.

The round trip `invConcatPairingFn_concatPairingFn` is what lets a
sampled identifier be read back as the edge that produced it: the
Boruvka emulation relies on it every time it decodes a sample.
-/

namespace GraphZeppelin

/-- `UpdateType`: an insertion, a deletion, or the marker a stream reader
returns at a break point. -/
inductive UpdateType
  | insert
  | delete
  | breakpoint
  deriving DecidableEq, Repr

/-- `SampleSketchRet`: what a sketch query reports. -/
inductive SampleSketchRet
  /-- A single non-zero index was recovered. -/
  | good
  /-- The sketched vector was found to be zero. -/
  | zero
  /-- No bucket could be decoded. -/
  | fail
  deriving DecidableEq, Repr

/-- `Edge`: two node ids. -/
structure Edge where
  src : UInt32 := 0
  dst : UInt32 := 0
  deriving DecidableEq, Repr

/-- `GraphUpdate`: an edge and the kind of update. -/
structure GraphUpdate where
  edge : Edge
  type : UpdateType
  deriving DecidableEq, Repr

/-- The exceptions the modelled code throws. -/
inductive Exception
  /-- `OutOfQueriesException`: a supernode has no unqueried sketch left. -/
  | outOfQueries
  /-- `MultipleQueryException`: a sketch was queried a second time. -/
  | multipleQuery
  /-- `UpdateLockedException`: an update after the final query. -/
  | updateLocked
  /-- Not an exception: `exit(EXIT_FAILURE)` in `backup_to_disk` or
  `restore_from_disk` when the backup file cannot be opened. The process
  ends; the model reports it as the outcome of the query that made it. -/
  | exitFailure
  deriving DecidableEq, Repr

/-! ## Edge identifiers -/

/-- `concat_pairing_fn`: the smaller id in the high 32 bits, the larger
in the low 32 bits. -/
def concatPairingFn (i j : UInt32) : UInt64 :=
  -- swap i,j if necessary
  let (i, j) := if i > j then (j, i) else (i, j)
  (i.toUInt64 <<< 32) ||| j.toUInt64

/-- `inv_concat_pairing_fn`: the high word as `src`, the low word as `dst`. -/
def invConcatPairingFn (idx : UInt64) : Edge :=
  { src := (idx >>> 32).toUInt32, dst := (idx &&& 0xFFFFFFFF).toUInt32 }

/-- Shifting a 32-bit id into the high word and OR-ing the low word in is
placing two base-`2^32` digits. -/
theorem toNat_shiftLeft_or (i j : UInt32) :
    ((i.toUInt64 <<< 32) ||| j.toUInt64).toNat = i.toNat * 2 ^ 32 + j.toNat := by
  have hi : i.toNat < 2 ^ 32 := i.toNat_lt
  have hj : j.toNat < 2 ^ 32 := j.toNat_lt
  have hshl : (i.toUInt64 <<< 32).toNat = i.toNat <<< 32 := by
    rw [UInt64.toNat_shiftLeft, UInt32.toNat_toUInt64]
    have h32 : (32 : UInt64).toNat % 64 = 32 := rfl
    rw [h32, Nat.shiftLeft_eq]
    exact Nat.mod_eq_of_lt (by omega)
  rw [UInt64.toNat_or, hshl, UInt32.toNat_toUInt64,
    ← Nat.shiftLeft_add_eq_or_of_lt hj, Nat.shiftLeft_eq]

/-- **The identifier of an edge**, as a number: `min * 2^32 + max`. -/
theorem toNat_concatPairingFn (i j : UInt32) :
    (concatPairingFn i j).toNat
      = min i.toNat j.toNat * 2 ^ 32 + max i.toNat j.toNat := by
  unfold concatPairingFn
  by_cases h : i > j
  · have hlt : j.toNat < i.toNat := UInt32.lt_iff_toNat_lt.mp h
    rw [if_pos h, toNat_shiftLeft_or, Nat.min_eq_right hlt.le, Nat.max_eq_left hlt.le]
  · have hle : i.toNat ≤ j.toNat :=
      Nat.not_lt.mp (fun hlt => h (UInt32.lt_iff_toNat_lt.mpr hlt))
    rw [if_neg h, toNat_shiftLeft_or, Nat.min_eq_left hle, Nat.max_eq_right hle]

/-- The identifier does not depend on the order of the endpoints. -/
theorem concatPairingFn_comm (i j : UInt32) : concatPairingFn i j = concatPairingFn j i := by
  apply UInt64.toNat_inj.mp
  rw [toNat_concatPairingFn, toNat_concatPairingFn, Nat.min_comm, Nat.max_comm]

theorem toNat_invConcatPairingFn_src (idx : UInt64) :
    (invConcatPairingFn idx).src.toNat = idx.toNat / 2 ^ 32 := by
  show (idx >>> 32).toUInt32.toNat = _
  rw [UInt64.toNat_toUInt32, UInt64.toNat_shiftRight, Nat.shiftRight_eq_div_pow]
  have hlt := idx.toNat_lt
  have h32 : (32 : UInt64).toNat % 64 = 32 := rfl
  rw [h32]
  exact Nat.mod_eq_of_lt (by omega)

theorem toNat_invConcatPairingFn_dst (idx : UInt64) :
    (invConcatPairingFn idx).dst.toNat = idx.toNat % 2 ^ 32 := by
  show (idx &&& 0xFFFFFFFF).toUInt32.toNat = _
  rw [UInt64.toNat_toUInt32, UInt64.toNat_and]
  have hmask : (0xFFFFFFFF : UInt64).toNat = 2 ^ 32 - 1 := rfl
  rw [hmask, Nat.and_two_pow_sub_one_eq_mod, Nat.mod_mod]

/-- **Decoding inverts encoding**: the identifier of `{i, j}` reads back
as the edge from the smaller endpoint to the larger. -/
theorem invConcatPairingFn_concatPairingFn (i j : UInt32) :
    (invConcatPairingFn (concatPairingFn i j)).src.toNat = min i.toNat j.toNat ∧
      (invConcatPairingFn (concatPairingFn i j)).dst.toNat = max i.toNat j.toNat := by
  have hmax : max i.toNat j.toNat < 2 ^ 32 := max_lt i.toNat_lt j.toNat_lt
  rw [toNat_invConcatPairingFn_src, toNat_invConcatPairingFn_dst, toNat_concatPairingFn]
  constructor <;> omega

/-- **Decoding inverts encoding**, as edges: `{min(i, j), max(i, j)}`. -/
theorem invConcatPairingFn_concatPairingFn_eq (i j : UInt32) :
    invConcatPairingFn (concatPairingFn i j) = ⟨min i j, max i j⟩ := by
  obtain ⟨hsrc, hdst⟩ := invConcatPairingFn_concatPairingFn i j
  generalize invConcatPairingFn (concatPairingFn i j) = e at hsrc hdst
  obtain ⟨a, b⟩ := e
  rw [Edge.mk.injEq]
  exact ⟨UInt32.toNat_inj.mp (hsrc.trans (UInt32.toNat_min i j).symm),
    UInt32.toNat_inj.mp (hdst.trans (UInt32.toNat_max i j).symm)⟩

/-- **Two pairs with one identifier are one pair**: the decoder tells them
apart. -/
theorem concatPairingFn_inj {i j i' j' : UInt32} (h : concatPairingFn i j = concatPairingFn i' j') :
    min i j = min i' j' ∧ max i j = max i' j' := by
  have hdec := congrArg invConcatPairingFn h
  rwa [invConcatPairingFn_concatPairingFn_eq, invConcatPairingFn_concatPairingFn_eq,
    Edge.mk.injEq] at hdec

/-! ## The triangular pairing function -/

/-- `nondirectional_non_self_edge_pairing_fn`, documented as `i + j*(j-1)/2`
for `i < j`. Of `j` and `j - 1` the even one is halved first so that the
64-bit product is exact, but `j *= jm` stores it back into the 32-bit
`node_id_t` `j`, and `i + j` is a 32-bit sum widened on return. -/
def nondirectionalNonSelfEdgePairingFn (i j : UInt32) : UInt64 :=
  -- swap i,j if necessary
  let (i, j) := if i > j then (j, i) else (i, j)
  let jm : UInt64 := j.toUInt64 - 1
  let (j, jm) := if j.toUInt64 &&& 1 = 0 then (j >>> 1, jm) else (j, jm >>> 1)
  let j : UInt32 := (j.toUInt64 * jm).toUInt32
  (i + j).toUInt64

theorem toUInt64_and_one_eq_zero (j : UInt32) : j.toUInt64 &&& 1 = 0 ↔ j.toNat % 2 = 0 := by
  rw [← UInt64.toNat_inj, UInt64.toNat_and, UInt32.toNat_toUInt64]
  show j.toNat &&& 1 = 0 ↔ _
  rw [Nat.and_one_is_mod]

theorem toNat_toUInt64_sub_one (j : UInt32) (hj : 0 < j.toNat) :
    (j.toUInt64 - 1).toNat = j.toNat - 1 := by
  rw [UInt64.toNat_sub_of_le _ _ (UInt64.le_iff_toNat_le.mpr (by rw [UInt32.toNat_toUInt64]; exact hj)),
    UInt32.toNat_toUInt64]
  rfl

/-- Halving whichever of `j` and `j - 1` is even keeps the 64-bit product
exact, and storing it in `node_id_t` keeps its low 32 bits. -/
theorem toNat_halvedProduct (j : UInt32) (hj : 0 < j.toNat) :
    (match (if j.toUInt64 &&& 1 = 0 then (j >>> 1, j.toUInt64 - 1)
        else (j, (j.toUInt64 - 1) >>> 1)) with
      | (j, jm) => (j.toUInt64 * jm).toUInt32).toNat = j.toNat * (j.toNat - 1) / 2 % 2 ^ 32 := by
  have hwide : ∀ x : ℕ, x % 2 ^ 64 % 2 ^ 32 = x % 2 ^ 32 :=
    fun x => Nat.mod_mod_of_dvd x (Nat.pow_dvd_pow 2 (by omega))
  by_cases hpar : j.toUInt64 &&& 1 = 0
  · -- `j` even: `j >>= 1`
    rw [if_pos hpar]
    have heven := (toUInt64_and_one_eq_zero j).mp hpar
    show ((j >>> 1).toUInt64 * (j.toUInt64 - 1)).toUInt32.toNat = _
    rw [UInt64.toNat_toUInt32, UInt64.toNat_mul, hwide, UInt32.toNat_toUInt64,
      toNat_toUInt64_sub_one j hj, UInt32.toNat_shiftRight, Nat.shiftRight_eq_div_pow]
    rw [show (1 : UInt32).toNat % 32 = 1 from rfl, pow_one,
      Nat.div_mul_right_comm (Nat.dvd_of_mod_eq_zero heven)]
  · -- `j` odd: `jm >>= 1`
    rw [if_neg hpar]
    have hodd : j.toNat % 2 = 1 := by
      have := (toUInt64_and_one_eq_zero j).not.mp hpar
      omega
    show (j.toUInt64 * ((j.toUInt64 - 1) >>> 1)).toUInt32.toNat = _
    rw [UInt64.toNat_toUInt32, UInt64.toNat_mul, hwide, UInt32.toNat_toUInt64,
      UInt64.toNat_shiftRight, toNat_toUInt64_sub_one j hj, Nat.shiftRight_eq_div_pow]
    rw [show (1 : UInt64).toNat % 64 = 1 from rfl, pow_one,
      Nat.mul_div_assoc _ (show 2 ∣ j.toNat - 1 by omega)]

/-- **What the pairing function computes** for distinct ids: the documented
`min + max * (max - 1) / 2`, with the product and then the sum reduced
modulo `2^32`. -/
theorem toNat_nondirectionalNonSelfEdgePairingFn (i j : UInt32) (hne : i ≠ j) :
    (nondirectionalNonSelfEdgePairingFn i j).toNat
      = (min i.toNat j.toNat
          + max i.toNat j.toNat * (max i.toNat j.toNat - 1) / 2 % 2 ^ 32) % 2 ^ 32 := by
  have hne' : i.toNat ≠ j.toNat := fun h => hne (UInt32.toNat_inj.mp h)
  -- after the swap the pair is `(min, max)`, and `max` is positive
  obtain ⟨a, b, hswap, hmin, hmax⟩ : ∃ a b : UInt32, (if i > j then (j, i) else (i, j)) = (a, b) ∧
      min i.toNat j.toNat = a.toNat ∧ max i.toNat j.toNat = b.toNat := by
    by_cases h : i > j
    · have hlt := UInt32.lt_iff_toNat_lt.mp h
      exact ⟨j, i, if_pos h, by omega, by omega⟩
    · have hle := UInt32.le_iff_toNat_le.mp (UInt32.not_lt.mp h)
      exact ⟨i, j, if_neg h, by omega, by omega⟩
  have hb : 0 < b.toNat := by omega
  unfold nondirectionalNonSelfEdgePairingFn
  rw [hswap, hmin, hmax]
  dsimp only
  rw [UInt32.toNat_toUInt64, UInt32.toNat_add, toNat_halvedProduct b hb]

/-- Below `2^32` the documented value is what is returned. -/
theorem toNat_nondirectionalNonSelfEdgePairingFn_of_lt {i j : UInt32} (hne : i ≠ j)
    (hlt : min i.toNat j.toNat + max i.toNat j.toNat * (max i.toNat j.toNat - 1) / 2 < 2 ^ 32) :
    (nondirectionalNonSelfEdgePairingFn i j).toNat
      = min i.toNat j.toNat + max i.toNat j.toNat * (max i.toNat j.toNat - 1) / 2 := by
  rw [toNat_nondirectionalNonSelfEdgePairingFn i j hne,
    Nat.mod_eq_of_lt (show max i.toNat j.toNat * (max i.toNat j.toNat - 1) / 2 < 2 ^ 32 by omega),
    Nat.mod_eq_of_lt hlt]

/-- The swap makes the function symmetric, wrapped or not. -/
theorem nondirectionalNonSelfEdgePairingFn_comm (i j : UInt32) :
    nondirectionalNonSelfEdgePairingFn i j = nondirectionalNonSelfEdgePairingFn j i := by
  by_cases h : i = j
  · rw [h]
  · apply UInt64.toNat_inj.mp
    rw [toNat_nondirectionalNonSelfEdgePairingFn i j h,
      toNat_nondirectionalNonSelfEdgePairingFn j i (Ne.symm h), Nat.min_comm, Nat.max_comm]

/-- From `max = 92683` on the product no longer fits `node_id_t`: the
documented `4295022903` comes back as `55607`, the identifier of
`{329, 333}`. -/
theorem nondirectionalNonSelfEdgePairingFn_wraps :
    (nondirectionalNonSelfEdgePairingFn 0 92683).toNat = 55607 ∧
      0 + 92683 * (92683 - 1) / 2 = 4295022903 ∧
      nondirectionalNonSelfEdgePairingFn 0 92683 = nondirectionalNonSelfEdgePairingFn 329 333 := by
  have hwrap : (nondirectionalNonSelfEdgePairingFn 0 92683).toNat = 55607 := by
    rw [toNat_nondirectionalNonSelfEdgePairingFn 0 92683 (by decide)]
    rfl
  have hsmall : (nondirectionalNonSelfEdgePairingFn 329 333).toNat = 55607 := by
    rw [toNat_nondirectionalNonSelfEdgePairingFn 329 333 (by decide)]
    rfl
  exact ⟨hwrap, rfl, UInt64.toNat_inj.mp (hwrap.trans hsmall.symm)⟩

end GraphZeppelin

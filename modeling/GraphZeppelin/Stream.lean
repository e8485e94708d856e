import GraphZeppelin.Connectivity
import GraphZeppelin.Parity
import GraphZeppelin.Types

/-!
# The graph a stream of updates describes

An edge is present when the stream updated it an odd number of times; an
update of a self-loop is ignored, and so is whether it was an insertion or
a deletion (`presentEdges`). An edge is kept smaller node first, and the
present edges of a stream on the nodes below `n` are edges below `n`
(`edgesBelow_presentEdges`).

In the sketches an edge is the index `concat_pairing_fn` makes of its ends
(`edgeId`). On edges below `2^32` it is injective (`edgeId_injOn`), and
`inv_concat_pairing_fn` reads it back (`invConcatPairingFn_edgeId`).
-/

open scoped symmDiff

namespace GraphZeppelin

open Connectivity Parity

/-- The edge an update toggles, smaller node first. -/
def GraphUpdate.pair (upd : GraphUpdate) : ℕ × ℕ :=
  (min upd.edge.src.toNat upd.edge.dst.toNat, max upd.edge.src.toNat upd.edge.dst.toNat)

/-- **The present edges** after a stream of updates: those updated an odd
number of times, self-loops aside. -/
def presentEdges (stream : List GraphUpdate) : Finset (ℕ × ℕ) :=
  oddSet ((stream.filter fun upd => upd.edge.src ≠ upd.edge.dst).map GraphUpdate.pair)

/-- The edges an update toggles: its edge, unless it is a self-loop. -/
def GraphUpdate.toggled (upd : GraphUpdate) : Finset (ℕ × ℕ) :=
  if upd.edge.src = upd.edge.dst then ∅ else {upd.pair}

@[simp] theorem presentEdges_nil : presentEdges [] = ∅ := rfl

theorem presentEdges_append (s t : List GraphUpdate) :
    presentEdges (s ++ t) = presentEdges s ∆ presentEdges t := by
  rw [presentEdges, List.filter_append, List.map_append, oddSet_append]
  rfl

/-- An update toggles its edge, unless it is a self-loop. -/
theorem presentEdges_singleton (upd : GraphUpdate) : presentEdges [upd] = upd.toggled := by
  unfold presentEdges GraphUpdate.toggled
  by_cases hloop : upd.edge.src = upd.edge.dst
  · rw [List.filter_cons_of_neg (by simpa using hloop), if_pos hloop]
    rfl
  · rw [List.filter_cons_of_pos (by simpa using hloop), if_neg hloop, List.filter_nil,
      List.map_singleton, oddSet_of_nodup (List.nodup_singleton _), List.toFinset_cons,
      List.toFinset_nil, insert_empty_eq]

theorem presentEdges_cons (upd : GraphUpdate) (stream : List GraphUpdate) :
    presentEdges (upd :: stream) = upd.toggled ∆ presentEdges stream := by
  rw [← List.singleton_append, presentEdges_append, presentEdges_singleton]

/-- The edges of a graph on the nodes below `n`, smaller node first. -/
def EdgesBelow (n : ℕ) (E : Finset (ℕ × ℕ)) : Prop := ∀ e ∈ E, e.1 < e.2 ∧ e.2 < n

/-- The edge of an update that is not a self-loop has its smaller end first. -/
theorem GraphUpdate.pair_lt (upd : GraphUpdate) (hloop : upd.edge.src ≠ upd.edge.dst) :
    upd.pair.1 < upd.pair.2 := by
  have hne : upd.edge.src.toNat ≠ upd.edge.dst.toNat := fun h => hloop (UInt32.toNat_inj.mp h)
  simp only [GraphUpdate.pair]
  omega

theorem GraphUpdate.eq_pair_of_mem_toggled {upd : GraphUpdate} {e : ℕ × ℕ}
    (he : e ∈ upd.toggled) : e = upd.pair := by
  unfold GraphUpdate.toggled at he
  split at he
  · exact absurd he (Finset.notMem_empty e)
  · exact Finset.mem_singleton.mp he

/-- An update whose ends differ toggles its edge. -/
theorem GraphUpdate.toggled_of_ne {upd : GraphUpdate} (hne : upd.pair.1 ≠ upd.pair.2) :
    upd.toggled = {upd.pair} := by
  refine if_neg fun hloop => hne ?_
  simp only [GraphUpdate.pair, hloop, min_self, max_self]

theorem edgesBelow_presentEdges {n : ℕ} {stream : List GraphUpdate}
    (hstream : ∀ upd ∈ stream, upd.edge.src.toNat < n ∧ upd.edge.dst.toNat < n) :
    EdgesBelow n (presentEdges stream) := by
  intro e he
  obtain ⟨upd, hupd, rfl⟩ := List.mem_map.mp (mem_of_mem_oddSet he)
  obtain ⟨hmem, hloop⟩ := List.mem_filter.mp hupd
  obtain ⟨hs, hd⟩ := hstream upd hmem
  exact ⟨upd.pair_lt (of_decide_eq_true hloop), by simp only [GraphUpdate.pair]; omega⟩

/-- Node identifiers are 32-bit, so every present edge is below `2^32`. -/
theorem edgesBelow_two_pow_presentEdges (stream : List GraphUpdate) :
    EdgesBelow (2 ^ 32) (presentEdges stream) :=
  edgesBelow_presentEdges fun upd _ => ⟨upd.edge.src.toNat_lt, upd.edge.dst.toNat_lt⟩

/-! ## Edge identifiers -/

/-- **The index of an edge** in the sketches: `concat_pairing_fn` of its
ends. -/
def edgeId (e : ℕ × ℕ) : UInt64 := concatPairingFn e.1.toUInt32 e.2.toUInt32

section EdgeId

variable {e : ℕ × ℕ}

theorem toNat_edgeId (h : e.1 < e.2) (h2 : e.2 < 2 ^ 32) :
    (edgeId e).toNat = e.1 * 2 ^ 32 + e.2 := by
  have h1 : e.1.toUInt32.toNat = e.1 := UInt32.toNat_ofNat_of_lt' (lt_trans h h2)
  have h2' : e.2.toUInt32.toNat = e.2 := UInt32.toNat_ofNat_of_lt' h2
  rw [edgeId, toNat_concatPairingFn, h1, h2', Nat.min_eq_left h.le, Nat.max_eq_right h.le]

/-- **Edge identifiers are distinct** for distinct edges below `2^32`. -/
theorem edgeId_injOn {n : ℕ} (hn : n ≤ 2 ^ 32) :
    Set.InjOn edgeId {e | e.1 < e.2 ∧ e.2 < n} := by
  intro e he e' he' heq
  have h := congrArg UInt64.toNat heq
  rw [toNat_edgeId he.1 (by have := he.2; omega), toNat_edgeId he'.1 (by have := he'.2; omega)]
    at h
  have hd : e.2 = e'.2 := by
    have := he.2
    have := he'.2
    omega
  have hs : e.1 = e'.1 := by
    rw [hd] at h
    omega
  exact Prod.ext hs hd

/-- **Decoding reads an edge back**, smaller node as `src`. -/
theorem invConcatPairingFn_edgeId (h : e.1 < e.2) (h2 : e.2 < 2 ^ 32) :
    (invConcatPairingFn (edgeId e)).src.toNat = e.1 ∧
      (invConcatPairingFn (edgeId e)).dst.toNat = e.2 := by
  rw [toNat_invConcatPairingFn_src, toNat_invConcatPairingFn_dst, toNat_edgeId h h2]
  constructor <;> omega

end EdgeId

end GraphZeppelin

import GraphZeppelin.Supernode
import GraphZeppelin.Parity

/-!
# What the sketches of a supernode summarise

With abstract sketches (`VecSketch`), the state of a supernode that
matters to Boruvka is the vector its unqueried sketches summarise: the
sketches from `sample_idx` up to `merged_sketches`, which all hold the same
vector (`Summarises`). The operations act on it as on the vector:

* `Summarises.sample`: sampling uses up a sketch and changes no vector;
* `Summarises.merge`, `Summarises.foldl_merge`: merging adds the vectors,
  over the sketches both supernodes still have;
* `Summarises.answers`: the answer of a sample is one the oracle may give
  for the vector.
-/

open scoped symmDiff

namespace GraphZeppelin

section VecOps

variable (oracle : UInt64 → Finset UInt64 → UInt64 × SampleSketchRet)

@[simp] theorem vec_add (s t : VecSketch) : ((VecSketch.ops oracle).add s t).vec = s.vec ∆ t.vec :=
  rfl

@[simp] theorem vec_update (s : VecSketch) (x : UInt64) :
    ((VecSketch.ops oracle).update s x).vec = s.vec ∆ {x} := rfl

@[simp] theorem vec_make (seed : UInt64) : ((VecSketch.ops oracle).make seed).vec = ∅ := rfl

@[simp] theorem alreadyQueried_ops_add (s t : VecSketch) :
    ((VecSketch.ops oracle).add s t).alreadyQueried = (s.alreadyQueried || t.alreadyQueried) := rfl

@[simp] theorem alreadyQueried_ops_make (seed : UInt64) :
    ((VecSketch.ops oracle).make seed).alreadyQueried = false := rfl

/-- Updates never mark a sketch queried. -/
theorem alreadyQueried_ops_foldl_update (l : List UInt64) (s : VecSketch) :
    (l.foldl (VecSketch.ops oracle).update s).alreadyQueried = s.alreadyQueried := by
  induction l generalizing s with
  | nil => rfl
  | cons x l ih => exact ih _

/-- A batch of updates toggles the indices it holds an odd number of times. -/
theorem vec_foldl_update (l : List UInt64) (s : VecSketch) :
    (l.foldl (VecSketch.ops oracle).update s).vec = s.vec ∆ Parity.oddSet l := by
  induction l generalizing s with
  | nil => rw [List.foldl_nil, Parity.oddSet_nil, ← Finset.bot_eq_empty, symmDiff_bot]
  | cons x l ih =>
    rw [List.foldl_cons, ih, vec_update, Parity.oddSet_cons, symmDiff_assoc]

/-- **What a successful query did**: the sketch is marked queried, and the
answer is the oracle's for its vector. -/
theorem VecSketch.query_eq_ok {s s' : VecSketch} {x : UInt64} {r : SampleSketchRet}
    (h : (VecSketch.ops oracle).query s = .ok (s', x, r)) :
    s' = { s with alreadyQueried := true } ∧ (x, r) = oracle s.seed s.vec := by
  simp only [VecSketch.ops] at h
  split at h
  · cases h
  · simp only [Except.ok.injEq, Prod.mk.injEq] at h
    obtain ⟨rfl, hans⟩ := h
    exact ⟨rfl, hans.symm⟩

end VecOps

/-! ## The vector of a supernode -/

/-- **The unqueried sketches of `s` all summarise `v`.** -/
def Summarises (s : Supernode VecSketch) (v : Finset UInt64) : Prop :=
  ∀ j, s.sampleIdx ≤ j → j < s.mergedSketches → (s.sketches j).vec = v

namespace Summarises

variable {oracle : UInt64 → Finset UInt64 → UInt64 × SampleSketchRet}
  {s t : Supernode VecSketch} {v w : Finset UInt64}

/-- Sampling uses up a sketch and changes no vector. -/
theorem sample (h : Summarises s v) :
    Summarises (Supernode.sample (VecSketch.ops oracle) s).1 v := by
  rcases hs : Supernode.sample (VecSketch.ops oracle) s with ⟨s', r⟩
  intro j hj hjm
  dsimp only at hj hjm ⊢
  cases r with
  | error e =>
    rcases Supernode.sample_eq_error _ hs with ⟨-, -, rfl⟩ | ⟨-, -, rfl⟩
    · exact h j hj hjm
    · exact h j (Nat.le_of_succ_le hj) hjm
  | ok r =>
    obtain ⟨-, sk, x, hq, -, rfl⟩ := Supernode.sample_eq_ok _ hs
    obtain ⟨rfl, -⟩ := VecSketch.query_eq_ok oracle hq
    -- the queried sketch lies below the new index
    have hne : j ≠ s.sampleIdx := Nat.ne_of_gt hj
    show (Function.update s.sketches s.sampleIdx _ j).vec = v
    rw [Function.update_of_ne hne]
    exact h j (Nat.le_of_succ_le hj) hjm

/-- **Merging adds the vectors.** -/
theorem merge (hs : Summarises s v) (ht : Summarises t w) :
    Summarises (Supernode.merge (VecSketch.ops oracle) s t) (v ∆ w) := by
  intro j hj hjm
  rw [Supernode.merge_sampleIdx] at hj
  rw [Supernode.merge_mergedSketches] at hjm
  rw [Supernode.merge_sketches, if_pos ⟨hj, hjm⟩, vec_add,
    hs j (le_of_max_le_left hj) (lt_of_lt_of_le hjm (min_le_left _ _)),
    ht j (le_of_max_le_right hj) (lt_of_lt_of_le hjm (min_le_right _ _))]

theorem foldl_merge {f : ℕ → Supernode VecSketch} {w : ℕ → Finset UInt64} (l : List ℕ)
    (hf : ∀ b ∈ l, Summarises (f b) (w b)) (hs : Summarises s v) :
    Summarises (l.foldl (fun s b => Supernode.merge (VecSketch.ops oracle) s (f b)) s)
      (l.foldl (fun v b => v ∆ w b) v) := by
  induction l generalizing s v with
  | nil => exact hs
  | cons b l ih =>
    exact ih (fun b' hb' => hf b' (List.mem_cons_of_mem _ hb'))
      (hs.merge (hf b List.mem_cons_self))

/-- **A delta supernode adds its batch**: each of its sketches holds the
batch as a vector, and applying it adds that vector to every sketch the
supernode may still query. -/
theorem applyDeltaUpdate (conf : SupernodeConfig) (h : Summarises s v)
    (hle : s.mergedSketches ≤ s.numSketches) (hM : s.mergedSketches ≤ conf.maxSketches)
    (n seed : UInt64) (U : List UInt64) :
    Summarises (Supernode.applyDeltaUpdate (VecSketch.ops oracle) s
      (Supernode.deltaSupernode (VecSketch.ops oracle) conf n seed U)) (v ∆ Parity.oddSet U) := by
  intro j hj hjm
  have hjn : j < s.numSketches := lt_of_lt_of_le hjm hle
  have hjM : j < conf.maxSketches := lt_of_lt_of_le hjm hM
  simp only [Supernode.applyDeltaUpdate, Supernode.deltaSupernode, Supernode.makeSupernode,
    hjn, hjM, if_true, vec_add, vec_foldl_update, vec_make]
  rw [h j hj hjm, ← Finset.bot_eq_empty, bot_symmDiff]

/-- **A sample answers for the vector**, as a sound oracle may. -/
theorem answers (hsound : OracleSound oracle) (h : Summarises s v) {s' : Supernode VecSketch}
    {r : Edge × SampleSketchRet} (hs : Supernode.sample (VecSketch.ops oracle) s = (s', .ok r)) :
    ∃ x, r.1 = invConcatPairingFn x ∧ Answers v (x, r.2) := by
  obtain ⟨hlt, sk, x, hq, hx, -⟩ := Supernode.sample_eq_ok _ hs
  obtain ⟨-, hans⟩ := VecSketch.query_eq_ok oracle hq
  refine ⟨x, hx, ?_⟩
  rw [hans, ← h _ le_rfl hlt]
  exact hsound _ _

end Summarises

end GraphZeppelin

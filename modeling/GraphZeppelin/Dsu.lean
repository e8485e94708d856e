import GraphZeppelin.Graph
import GraphZeppelin.Connectivity
import GraphZeppelin.Loop

/-!
# The disjoint-set unions of `dsu.h`

`DisjointSetUnion<T>` keeps a parent and a size for each of its `n`
elements. `find_root` walks up with path halving while
`parent[parent[u]] != u`. In a forest only a root is its own grandparent
(`isRoot_of_parent_parent_eq`), so the loop stops exactly at the root;
halving keeps every node's root (`sameRoots_halve`) and shortens the path
still to walk, so the loop ends (`iterate_findRootStep`). `merge` links the
root of the smaller set under the root of the larger one.

Against the pairs merged since the last `reset`, `DsuInv` holds after
every sequence of calls on ids below `n`: the parents form a forest, two
elements have one root exactly when the merged pairs connect them, and the
size of a root is the number of elements under it
(`disjointSetUnion_correct`).

The ids of `T` are natural numbers here: every call indexes `parent` and
`size`, vectors of `n` entries, so its callers pass ids below `n`, and
those never wrap.

`MT_DisjoinSetUnion<T>` is not modelled. Its `find_root` assigns one
element of `std::vector<std::atomic<T>> parent` to another
(`parent[u] = parent[parent[u]]`), a copy assignment that `std::atomic`
deletes, so neither `find_root` nor `merge`, which calls it, compiles once
instantiated, and nothing in the repository instantiates them.
-/

namespace GraphZeppelin

open ParentForest Connectivity

/-! ## The model -/

/-- `DisjointSetUnion<T>` over `n` elements. -/
structure DisjointSetUnion where
  /-- `parent.size()`. -/
  n : ℕ
  /-- `parent`. -/
  parent : ℕ → ℕ
  /-- `size`. -/
  size : ℕ → ℕ

/-- `DSUMergeRet<T>`. -/
structure DSUMergeRet where
  /-- A merge actually occurred. -/
  merged : Bool
  /-- The new root. -/
  root : ℕ
  /-- The new child of the root. -/
  child : ℕ
  deriving DecidableEq, Repr

namespace DisjointSetUnion

/-- The constructor: every element its own root, of size one. -/
def init (n : ℕ) : DisjointSetUnion := ⟨n, fun i => i, fun _ => 1⟩

/-- One iteration of the loop of `find_root`: while `parent[parent[u]] != u`,
point `u` at its grandparent and go there. -/
def findRootStep (s : (ℕ → ℕ) × ℕ) : ((ℕ → ℕ) × ℕ) ⊕ ((ℕ → ℕ) × ℕ) :=
  if s.1 (s.1 s.2) ≠ s.2 then
    let parent := Function.update s.1 s.2 (s.1 (s.1 s.2))
    .inl (parent, parent s.2)
  else .inr s

/-- `find_root(u)`, with at most `n` iterations of its loop (enough, by
`findRoot_eq`): the structure with its halved parents, and the root. -/
def findRoot (d : DisjointSetUnion) (u : ℕ) : Option (DisjointSetUnion × ℕ) :=
  (Loop.iterate findRootStep d.n (d.parent, u)).map fun r => ({ d with parent := r.1 }, r.2)

/-- The end of `merge`, on the roots `a` and `b` of its arguments: unless
they are one, make the root of the larger set the parent of the other. -/
def mergeRoots (d : DisjointSetUnion) (a b : ℕ) : DisjointSetUnion × DSUMergeRet :=
  if a = b then (d, ⟨false, 0, 0⟩)
  else
    let (a, b) := if d.size a < d.size b then (b, a) else (a, b)
    ({ d with
        parent := Function.update d.parent b a
        size := Function.update d.size a (d.size a + d.size b) }, ⟨true, a, b⟩)

/-- `merge(u, v)`. -/
def merge (d : DisjointSetUnion) (u v : ℕ) : Option (DisjointSetUnion × DSUMergeRet) :=
  (d.findRoot u).bind fun ra => (ra.1.findRoot v).map fun rb => rb.1.mergeRoots ra.2 rb.2

/-- `reset()`: every element its own root again, of size one. -/
def reset (d : DisjointSetUnion) : DisjointSetUnion :=
  { d with
    parent := fun i => if i < d.n then i else d.parent i
    size := fun i => if i < d.n then 1 else d.size i }

end DisjointSetUnion

/-- The calls on a disjoint-set union. -/
inductive DsuOp
  | merge (u v : ℕ)
  | findRoot (u : ℕ)
  | reset
  deriving DecidableEq, Repr

namespace DsuOp

/-- The ids a call names are elements. -/
def Below (n : ℕ) : DsuOp → Prop
  | merge u v => u < n ∧ v < n
  | findRoot u => u < n
  | reset => True

instance (n : ℕ) : DecidablePred (Below n)
  | merge u v => inferInstanceAs (Decidable (u < n ∧ v < n))
  | findRoot u => inferInstanceAs (Decidable (u < n))
  | reset => inferInstanceAs (Decidable True)

/-- One call, and the structure after it. -/
def exec (d : DisjointSetUnion) : DsuOp → Option DisjointSetUnion
  | merge u v => (d.merge u v).map Prod.fst
  | findRoot u => (d.findRoot u).map Prod.fst
  | reset => some d.reset

/-- The pairs merged since the last reset, after one more call. -/
def pairs (E : Finset (ℕ × ℕ)) : DsuOp → Finset (ℕ × ℕ)
  | merge u v => insert (u, v) E
  | findRoot _ => E
  | reset => ∅

end DsuOp

/-- A sequence of calls, one at a time. -/
def runDsu : List DsuOp → DisjointSetUnion → Option DisjointSetUnion
  | [], d => some d
  | op :: ops, d => (DsuOp.exec d op).bind (runDsu ops)

/-- The pairs merged since the last reset, after a sequence of calls. -/
def mergedSinceReset (ops : List DsuOp) : Finset (ℕ × ℕ) := ops.foldl DsuOp.pairs ∅

/-! ## `find_root` -/

namespace DisjointSetUnion

/-- **The loop of `find_root`** from a node whose root is `k` steps up,
given more than `k` iterations: it stops at the root, with halved parents
that keep every node's root. The induction is on `k`: halving `u` and
moving to its grandparent leaves a shorter way up. -/
theorem iterate_findRootStep {n : ℕ} :
    ∀ (k fuel : ℕ) {p : ℕ → ℕ} {u : ℕ}, IsForest p n → u < n → IsRoot p (p^[k] u) → k < fuel →
      ∃ q, Loop.iterate findRootStep fuel (p, u) = some (q, root p n u) ∧ SameRoots p q n := by
  intro k
  induction k using Nat.strong_induction_on with
  | _ k ih =>
    intro fuel p u hf hu hk hfuel
    obtain ⟨fuel, rfl⟩ : ∃ f, fuel = f + 1 := ⟨fuel - 1, by omega⟩
    rw [Loop.iterate_succ]
    by_cases hgp : p (p u) = u
    · -- `u` is its own grandparent, so a root: the loop stops
      have hroot := isRoot_of_parent_parent_eq hf hu hgp
      have hstep : findRootStep (p, u) = .inr (p, u) := by
        rw [findRootStep, if_neg (not_not.mpr hgp)]
      rw [hstep, root_of_isRoot hroot]
      exact ⟨p, rfl, SameRoots.refl hf⟩
    · have hnr : ¬IsRoot p u := fun h => hgp (by rw [h, h])
      have hstep : findRootStep (p, u) = .inl (halve p u, p (p u)) := by
        rw [findRootStep, if_pos hgp]
        exact congrArg Sum.inl (Prod.ext rfl (Function.update_self _ _ _))
      rw [hstep]
      dsimp only
      have hsr := sameRoots_halve hf hu hnr
      have hgu : p (p u) < n := hf.parent_lt _ (hf.parent_lt u hu)
      -- the halved path from `u` reaches the root in `j + 1 ≤ k` steps
      obtain ⟨j, hjk, hj⟩ := exists_iterate_halve hnr k u hk
      obtain _ | j := j
      · have hj0 : u = p^[k] u := hj
        rw [← hj0] at hk
        exact absurd hk hnr
      · rw [Function.iterate_succ_apply, show halve p u u = p (p u) from Function.update_self _ _ _]
          at hj
        have hroot' : IsRoot (halve p u) ((halve p u)^[j] (p (p u))) :=
          hj ▸ (isRoot_halve_iff hf hu hnr).mpr hk
        obtain ⟨q, hq, hsq⟩ := ih j (by omega) fuel hsr.isForest hgu hroot' (by omega)
        refine ⟨q, ?_, hsr.trans hsq⟩
        rw [hq, hsr.root_eq _ hgu, root_parent hf (hf.parent_lt u hu), root_parent hf hu]

/-- **`find_root` returns the root** of its element, and leaves a forest
that gives every element the same root. -/
theorem findRoot_eq {d : DisjointSetUnion} (hf : IsForest d.parent d.n) {u : ℕ} (hu : u < d.n) :
    ∃ q, d.findRoot u = some ({ d with parent := q }, root d.parent d.n u) ∧
      SameRoots d.parent q d.n := by
  obtain ⟨k, hkn, hk⟩ := exists_isRoot_iterate_lt hf hu
  obtain ⟨q, hq, hs⟩ := iterate_findRootStep k d.n hf hu hk hkn
  refine ⟨q, ?_, hs⟩
  rw [findRoot, hq]
  rfl

/-- The end of `merge` on one root twice: no merge. -/
theorem mergeRoots_of_eq {d : DisjointSetUnion} {a b : ℕ} (hab : a = b) :
    d.mergeRoots a b = (d, ⟨false, 0, 0⟩) := by
  unfold mergeRoots
  rw [if_pos hab]

/-- The end of `merge` on two different roots: the root of the larger set
becomes the parent of the other. -/
theorem mergeRoots_of_ne {d : DisjointSetUnion} {a b : ℕ} (hab : a ≠ b) :
    ∃ r c, ({r, c} : Finset ℕ) = {a, b} ∧ r ≠ c ∧
      d.mergeRoots a b = ({ d with
        parent := ParentForest.link d.parent r c
        size := Function.update d.size r (d.size r + d.size c) }, ⟨true, r, c⟩) := by
  unfold mergeRoots
  rw [if_neg hab]
  by_cases hsz : d.size a < d.size b
  · exact ⟨b, a, Finset.pair_comm b a, Ne.symm hab, by rw [if_pos hsz]; rfl⟩
  · exact ⟨a, b, rfl, hab, by rw [if_neg hsz]; rfl⟩

end DisjointSetUnion

/-! ## The invariant -/

/-- The class of a root after a link: the root `r` gathers the class of
`c`, and every other root keeps its own. -/
theorem classOf_link {p : ℕ → ℕ} {n r c ρ : ℕ} (hf : IsForest p n) (hr : r ∈ roots p n)
    (hc : c ∈ roots p n) (hne : r ≠ c) (hρ : ρ ≠ c) :
    Graph.classOf (link p r c) n ρ
      = if ρ = r then Graph.classOf p n r ∪ Graph.classOf p n c else Graph.classOf p n ρ := by
  ext y
  by_cases hy : y < n
  · rw [Graph.mem_classOf, root_link hf (mem_roots.mp hr).1 (mem_roots.mp hr).2
      (mem_roots.mp hc).2 hne hy]
    by_cases hρr : ρ = r
    · subst hρr
      rw [if_pos rfl, Finset.mem_union, Graph.mem_classOf, Graph.mem_classOf]
      by_cases hyc : root p n y = c <;> simp [hy, hyc]
    · rw [if_neg hρr, Graph.mem_classOf]
      by_cases hyc : root p n y = c
      · simp [hy, hyc, Ne.symm hρr, Ne.symm hρ]
      · simp [hy, hyc]
  · split_ifs <;> simp [Graph.mem_classOf, hy]

/-- **What a disjoint-set union keeps**, against the pairs `E` merged since
the last reset: a forest on its `n` elements whose classes are those the
pairs connect, with the size of each class at its root. -/
structure DsuInv (n : ℕ) (E : Finset (ℕ × ℕ)) (d : DisjointSetUnion) : Prop where
  n_eq : d.n = n
  forest : IsForest d.parent n
  pairs_lt : ∀ e ∈ E, e.1 < n ∧ e.2 < n
  closed : ∀ e ∈ E, root d.parent n e.1 = root d.parent n e.2
  connected : ∀ u < n, ∀ v < n, root d.parent n u = root d.parent n v → Connected E u v
  size_eq : ∀ r ∈ roots d.parent n, d.size r = (Graph.classOf d.parent n r).card

/-- **What `merge(u, v)` answers** from `d`, leaving `d'`: it merged exactly
when the two roots differed, and then the new root is one of them and still
a root, and the child is the other one, now under it. -/
def MergeAnswer (n : ℕ) (d : DisjointSetUnion) (u v : ℕ) (d' : DisjointSetUnion)
    (ret : DSUMergeRet) : Prop :=
  (ret.merged = true ↔ root d.parent n u ≠ root d.parent n v) ∧
    (ret.merged = true →
      ({ret.root, ret.child} : Finset ℕ) = {root d.parent n u, root d.parent n v} ∧
        IsRoot d'.parent ret.root ∧ d'.parent ret.child = ret.root)

namespace DsuInv

variable {n : ℕ} {E : Finset (ℕ × ℕ)} {d : DisjointSetUnion}

/-- **Two elements have one root exactly when the merged pairs connect
them.** -/
theorem root_eq_iff (h : DsuInv n E d) {u v : ℕ} (hu : u < n) (hv : v < n) :
    root d.parent n u = root d.parent n v ↔ Connected E u v :=
  ⟨h.connected u hu v hv, eq_of_connected h.closed⟩

/-- Every element its own root, of size one: nothing is merged. -/
theorem of_singletons (hn : d.n = n) (hp : ∀ i < n, d.parent i = i)
    (hs : ∀ i < n, d.size i = 1) : DsuInv n ∅ d := by
  have hroot : ∀ i < n, root d.parent n i = i := fun i hi => root_of_isRoot (hp i hi)
  refine ⟨hn, ⟨fun x hx => by rw [hp x hx]; exact hx, fun x hx => ⟨0, hp x hx⟩⟩,
    fun e he => absurd he (Finset.notMem_empty e), fun e he => absurd he (Finset.notMem_empty e),
    fun u hu v hv huv => ?_, fun r hr => ?_⟩
  · rw [hroot u hu, hroot v hv] at huv
    subst huv
    exact Relation.EqvGen.refl u
  · have hr' := (mem_roots.mp hr).1
    have hclass : Graph.classOf d.parent n r = {r} := by
      ext u
      rw [Graph.mem_classOf, Finset.mem_singleton]
      constructor
      · exact fun hu => (hroot u hu.1).symm.trans hu.2
      · rintro rfl
        exact ⟨hr', hroot u hr'⟩
    rw [hclass, Finset.card_singleton, hs r hr']

theorem init (n : ℕ) : DsuInv n ∅ (DisjointSetUnion.init n) :=
  of_singletons rfl (fun _ _ => rfl) (fun _ _ => rfl)

/-- `reset()` forgets every merged pair. -/
theorem reset (h : DsuInv n E d) : DsuInv n ∅ d.reset :=
  of_singletons h.n_eq (fun _ hi => if_pos (by rw [h.n_eq]; exact hi))
    (fun _ hi => if_pos (by rw [h.n_eq]; exact hi))

/-- A forest that gives every element the same root keeps the invariant. -/
theorem sameRoots (h : DsuInv n E d) {q : ℕ → ℕ} (hq : SameRoots d.parent q n) :
    DsuInv n E { d with parent := q } := by
  have hroot := hq.root_eq
  refine ⟨h.n_eq, hq.isForest, h.pairs_lt, fun e he => ?_, fun u hu v hv huv => ?_,
    fun r hr => ?_⟩
  · obtain ⟨h1, h2⟩ := h.pairs_lt e he
    show root q n e.1 = root q n e.2
    rw [hroot _ h1, hroot _ h2]
    exact h.closed e he
  · have huv' : root q n u = root q n v := huv
    rw [hroot u hu, hroot v hv] at huv'
    exact h.connected u hu v hv huv'
  · have hr' : r ∈ roots d.parent n := by
      rw [← hq.roots_eq h.forest]
      exact hr
    have hclass : Graph.classOf q n r = Graph.classOf d.parent n r :=
      Finset.filter_congr fun u hu => by rw [hroot u (Finset.mem_range.mp hu)]
    show d.size r = (Graph.classOf q n r).card
    rw [hclass]
    exact h.size_eq r hr'

/-- **`find_root` returns the root** and keeps the invariant. -/
theorem findRoot (h : DsuInv n E d) {u : ℕ} (hu : u < n) :
    ∃ d', d.findRoot u = some (d', root d.parent n u) ∧ DsuInv n E d' ∧
      SameRoots d.parent d'.parent n ∧ d'.size = d.size := by
  have hn := h.n_eq
  subst hn
  obtain ⟨q, hq, hs⟩ := DisjointSetUnion.findRoot_eq h.forest hu
  exact ⟨_, hq, h.sameRoots hs, hs, rfl⟩

/-- **Linking the roots of `u` and `v`** keeps the invariant, with the pair
`(u, v)` merged and the sizes added at the new root. -/
theorem link (h : DsuInv n E d) {u v : ℕ} (hu : u < n) (hv : v < n) {r c : ℕ}
    (hrc : ({r, c} : Finset ℕ) = {root d.parent n u, root d.parent n v}) (hne : r ≠ c) :
    DsuInv n (insert (u, v) E) { d with
      parent := ParentForest.link d.parent r c
      size := Function.update d.size r (d.size r + d.size c) } := by
  have hf := h.forest
  -- both linked nodes are the roots of `u` and `v`
  have hends : ∀ y, y ∈ ({r, c} : Finset ℕ) → y ∈ roots d.parent n := by
    intro y hy
    rw [hrc, Finset.mem_insert, Finset.mem_singleton] at hy
    rcases hy with rfl | rfl
    · exact root_mem_roots hf hu
    · exact root_mem_roots hf hv
  have hr := hends r (by simp)
  have hc := hends c (by simp)
  have hlink : ∀ y < n, root (ParentForest.link d.parent r c) n y
      = if root d.parent n y = c then r else root d.parent n y :=
    fun y hy => root_link hf (mem_roots.mp hr).1 (mem_roots.mp hr).2 (mem_roots.mp hc).2 hne hy
  -- the nodes under `r` or `c` end up under `r`, and are connected to `u`
  have hjoin : ∀ y < n, root d.parent n y ∈ ({r, c} : Finset ℕ) →
      root (ParentForest.link d.parent r c) n y = r := by
    intro y hy hyrc
    rw [hlink y hy]
    split_ifs with hyc
    · rfl
    · simpa [hyc] using hyrc
  have hconn : ∀ y < n, root d.parent n y ∈ ({r, c} : Finset ℕ) → Connected (insert (u, v) E) y u := by
    intro y hy hyrc
    have hsub : E ⊆ insert (u, v) E := Finset.subset_insert _ _
    rw [hrc, Finset.mem_insert, Finset.mem_singleton] at hyrc
    rcases hyrc with hyu | hyv
    · exact (h.connected y hy u hu hyu).mono hsub
    · refine Relation.EqvGen.trans _ _ _ ((h.connected y hy v hv hyv).mono hsub) ?_
      exact Relation.EqvGen.rel _ _ (.inr (Finset.mem_insert_self _ _))
  refine ⟨h.n_eq, link_isForest hf (mem_roots.mp hr).1 (mem_roots.mp hr).2 (mem_roots.mp hc).2 hne,
    fun e he => ?_, fun e he => ?_, fun x hx y hy hxy => ?_, fun ρ hρ => ?_⟩
  · rcases Finset.mem_insert.mp he with rfl | he
    · exact ⟨hu, hv⟩
    · exact h.pairs_lt e he
  · rcases Finset.mem_insert.mp he with rfl | he
    · show root (ParentForest.link d.parent r c) n u = root (ParentForest.link d.parent r c) n v
      rw [hjoin u hu (by simp [hrc]), hjoin v hv (by simp [hrc])]
    · obtain ⟨h1, h2⟩ := h.pairs_lt e he
      exact root_link_congr hf hr hc hne h1 h2 (h.closed e he)
  · have hxy' : root (ParentForest.link d.parent r c) n x
        = root (ParentForest.link d.parent r c) n y := hxy
    by_cases hxy0 : root d.parent n x = root d.parent n y
    · exact (h.connected x hx y hy hxy0).mono (Finset.subset_insert _ _)
    · -- two classes that the link joined: those of `r` and `c`
      rw [hlink x hx, hlink y hy] at hxy'
      have hin : ∀ a b : ℕ, a ≠ b → (if a = c then r else a) = (if b = c then r else b) →
          a ∈ ({r, c} : Finset ℕ) := by
        intro a b hab heq
        by_cases hac : a = c
        · simp [hac]
        · by_cases hbc : b = c
          · rw [if_neg hac, if_pos hbc] at heq
            simp [heq]
          · rw [if_neg hac, if_neg hbc] at heq
            exact absurd heq hab
      exact Relation.EqvGen.trans _ _ _ (hconn x hx (hin _ _ hxy0 hxy'))
        (Relation.EqvGen.symm _ _ (hconn y hy (hin _ _ (Ne.symm hxy0) hxy'.symm)))
  · -- the sizes add up at `r`, and stay at every other root
    have hρ' : ρ ∈ (roots d.parent n).erase c := by
      rw [← roots_link hne]
      exact hρ
    obtain ⟨hρc, hρ0⟩ := Finset.mem_erase.mp hρ'
    show Function.update d.size r (d.size r + d.size c) ρ
      = (Graph.classOf (ParentForest.link d.parent r c) n ρ).card
    rw [classOf_link hf hr hc hne hρc]
    by_cases hρr : ρ = r
    · subst hρr
      rw [Function.update_self, if_pos rfl,
        Finset.card_union_of_disjoint (Graph.classOf_disjoint hne), h.size_eq _ hr,
        h.size_eq c hc]
    · rw [Function.update_of_ne hρr, if_neg hρr]
      exact h.size_eq ρ hρ0

/-- Merging a pair already in one set keeps the invariant. -/
theorem insert_of_root_eq (h : DsuInv n E d) {u v : ℕ} (hu : u < n) (hv : v < n)
    (huv : root d.parent n u = root d.parent n v) : DsuInv n (insert (u, v) E) d := by
  refine ⟨h.n_eq, h.forest, fun e he => ?_, fun e he => ?_,
    fun x hx y hy hxy => (h.connected x hx y hy hxy).mono (Finset.subset_insert _ _), h.size_eq⟩
  · rcases Finset.mem_insert.mp he with rfl | he
    · exact ⟨hu, hv⟩
    · exact h.pairs_lt e he
  · rcases Finset.mem_insert.mp he with rfl | he
    · exact huv
    · exact h.closed e he

/-- **`merge` answers whether the two sets differed**, names the surviving
and the absorbed root, and keeps the invariant with the pair merged. -/
theorem merge (h : DsuInv n E d) {u v : ℕ} (hu : u < n) (hv : v < n) :
    ∃ d' ret, d.merge u v = some (d', ret) ∧ MergeAnswer n d u v d' ret ∧
      DsuInv n (insert (u, v) E) d' := by
  obtain ⟨d1, h1eq, h1, hs1, -⟩ := h.findRoot hu
  obtain ⟨d2, h2eq, h2, hs2, -⟩ := h1.findRoot hv
  -- the two finds return the roots, and keep every root
  have hs := hs1.trans hs2
  have hru : root d2.parent n u = root d.parent n u := hs.root_eq u hu
  have hrv : root d2.parent n v = root d.parent n v := hs.root_eq v hv
  have hmerge : d.merge u v = some (d2.mergeRoots (root d.parent n u) (root d.parent n v)) := by
    rw [DisjointSetUnion.merge, h1eq, Option.bind_some, h2eq, Option.map_some,
      hs1.root_eq v hv]
  by_cases hab : root d.parent n u = root d.parent n v
  · -- one set: only the paths were halved
    rw [DisjointSetUnion.mergeRoots_of_eq hab] at hmerge
    refine ⟨_, _, hmerge, ⟨⟨fun h => absurd h Bool.false_ne_true, fun h => absurd hab h⟩,
      fun h => absurd h Bool.false_ne_true⟩, ?_⟩
    exact h2.insert_of_root_eq hu hv (by rw [hru, hrv, hab])
  · -- two sets: the larger one's root becomes the parent of the other
    obtain ⟨r, c, hrc, hne, heq⟩ := DisjointSetUnion.mergeRoots_of_ne (d := d2) hab
    have hrc2 : ({r, c} : Finset ℕ) = {root d2.parent n u, root d2.parent n v} := by
      rw [hru, hrv, hrc]
    have hr : IsRoot d2.parent r := by
      have hmem : r ∈ ({root d2.parent n u, root d2.parent n v} : Finset ℕ) := by
        rw [← hrc2]
        exact Finset.mem_insert_self r _
      rcases Finset.mem_insert.mp hmem with hru' | hrv'
      · exact hru' ▸ isRoot_root h2.forest hu
      · exact (Finset.mem_singleton.mp hrv') ▸ isRoot_root h2.forest hv
    rw [heq] at hmerge
    refine ⟨_, _, hmerge, ⟨⟨fun _ => hab, fun _ => rfl⟩,
      fun _ => ⟨hrc, ?_, Function.update_self _ _ _⟩⟩, h2.link hu hv hrc2 hne⟩
    show Function.update d2.parent c r r = r
    rw [Function.update_of_ne hne]
    exact hr

/-- One call keeps the invariant, with the pairs merged since the last
reset updated. -/
theorem exec (h : DsuInv n E d) {op : DsuOp} (hop : op.Below n) :
    ∃ d', DsuOp.exec d op = some d' ∧ DsuInv n (DsuOp.pairs E op) d' := by
  cases op with
  | merge u v =>
    obtain ⟨d', ret, hm, -, h'⟩ := h.merge hop.1 hop.2
    exact ⟨d', by rw [DsuOp.exec, hm, Option.map_some], h'⟩
  | findRoot u =>
    obtain ⟨d', hf, h', -⟩ := h.findRoot hop
    exact ⟨d', by rw [DsuOp.exec, hf, Option.map_some], h'⟩
  | reset => exact ⟨d.reset, rfl, h.reset⟩

/-- **Every sequence of calls** on elements keeps the invariant. -/
theorem run (h : DsuInv n E d) {ops : List DsuOp} (hops : ∀ op ∈ ops, op.Below n) :
    ∃ d', runDsu ops d = some d' ∧ DsuInv n (ops.foldl DsuOp.pairs E) d' := by
  induction ops generalizing E d with
  | nil => exact ⟨d, rfl, h⟩
  | cons op ops ih =>
    obtain ⟨d1, h1eq, h1⟩ := h.exec (hops op List.mem_cons_self)
    obtain ⟨d', h'eq, h'⟩ := ih h1 fun o ho => hops o (List.mem_cons_of_mem op ho)
    exact ⟨d', by rw [runDsu, h1eq, Option.bind_some, h'eq], h'⟩

end DsuInv

/-! ## Every sequence of calls -/

/-- **`DisjointSetUnion` is correct.** After any sequence of `merge`,
`find_root` and `reset` calls on elements below `n`, the parents form a
forest whose classes are those the pairs merged since the last reset
connect, with the size of each class at its root; `find_root` returns the
root of its element, two elements have one root exactly when those pairs
connect them, and `merge` answers whether their sets differed and names the
surviving and the absorbed root. -/
theorem disjointSetUnion_correct (n : ℕ) {ops : List DsuOp} (hops : ∀ op ∈ ops, op.Below n) :
    ∃ d, runDsu ops (DisjointSetUnion.init n) = some d ∧ DsuInv n (mergedSinceReset ops) d ∧
      (∀ u < n, ∃ d', d.findRoot u = some (d', root d.parent n u) ∧
        IsRoot d.parent (root d.parent n u) ∧ DsuInv n (mergedSinceReset ops) d') ∧
      (∀ u < n, ∀ v < n,
        root d.parent n u = root d.parent n v ↔ Connected (mergedSinceReset ops) u v) ∧
      (∀ u < n, ∀ v < n, ∃ d' ret, d.merge u v = some (d', ret) ∧ MergeAnswer n d u v d' ret ∧
        DsuInv n (insert (u, v) (mergedSinceReset ops)) d') := by
  obtain ⟨d, hrun, h⟩ := (DsuInv.init n).run hops
  refine ⟨d, hrun, h, fun u hu => ?_, fun u hu v hv => h.root_eq_iff hu hv,
    fun u hu v hv => h.merge hu hv⟩
  obtain ⟨d', hf, h', -⟩ := h.findRoot hu
  exact ⟨d', hf, isRoot_root h.forest hu, h'⟩

/-- Two merges, a find, a reset and a merge on three elements. -/
theorem disjointSetUnion_correct_run :
    (∀ op ∈ [DsuOp.merge 0 1, .findRoot 1, .reset, .merge 1 2], op.Below 3) ∧
      ∃ d, runDsu [.merge 0 1, .findRoot 1, .reset, .merge 1 2] (DisjointSetUnion.init 3)
          = some d ∧
        DsuInv 3 (mergedSinceReset [.merge 0 1, .findRoot 1, .reset, .merge 1 2]) d ∧
        (∀ u < 3, ∃ d', d.findRoot u = some (d', root d.parent 3 u) ∧
          IsRoot d.parent (root d.parent 3 u) ∧
          DsuInv 3 (mergedSinceReset [.merge 0 1, .findRoot 1, .reset, .merge 1 2]) d') ∧
        (∀ u < 3, ∀ v < 3, root d.parent 3 u = root d.parent 3 v ↔
          Connected (mergedSinceReset [.merge 0 1, .findRoot 1, .reset, .merge 1 2]) u v) ∧
        (∀ u < 3, ∀ v < 3, ∃ d' ret, d.merge u v = some (d', ret) ∧ MergeAnswer 3 d u v d' ret ∧
          DsuInv 3 (insert (u, v) (mergedSinceReset [.merge 0 1, .findRoot 1, .reset, .merge 1 2]))
            d') :=
  ⟨by decide, disjointSetUnion_correct 3 (by decide)⟩

end GraphZeppelin

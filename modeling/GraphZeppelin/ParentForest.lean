import Mathlib.Logic.Function.Iterate
import Mathlib.Data.Finset.Card
import Mathlib.Data.Finset.Range
import Mathlib.Data.Nat.Find

/-!
# Parent-pointer forests

A disjoint-set structure over the nodes `0, …, n - 1` kept as one parent
pointer per node, as in an array `parent[]`: a node is a *root* when it is
its own parent, and every node reaches a root by following parents. This
module is about such a pointer function `p : ℕ → ℕ` alone:

* `IsForest p n`: the parents of nodes stay among the nodes, and every node
  reaches a root; `exists_isRoot_iterate_lt` shows it does so in fewer than
  `n` steps, so `n` steps of fuel always suffice;
* `root p n x`: the root of `x`, found by `rootFuel` with `n` steps;
* `findCompress`: the recursive find that points every node of the path at
  the root on its way back. It returns the root and a pointer function
  `Compressed` from the old one, which is again a forest with the same
  roots and the same root of every node;
* `link`: hanging one root below another, which merges their classes and
  removes one root (`root_link`, `roots_link`).
-/

namespace ParentForest

/-- `x` is a root of `p`: its own parent. -/
def IsRoot (p : ℕ → ℕ) (x : ℕ) : Prop := p x = x

instance (p : ℕ → ℕ) : DecidablePred (IsRoot p) :=
  fun x => inferInstanceAs (Decidable (p x = x))

/-- **A parent-pointer forest** on the nodes below `n`: parents stay among
the nodes, and following parents from any node reaches a root. -/
structure IsForest (p : ℕ → ℕ) (n : ℕ) : Prop where
  parent_lt : ∀ x < n, p x < n
  reaches : ∀ x < n, ∃ k, IsRoot p (p^[k] x)

section Iterate

variable {p : ℕ → ℕ} {n : ℕ}

theorem iterate_lt (hp : ∀ x < n, p x < n) (k : ℕ) {x : ℕ} (hx : x < n) : p^[k] x < n := by
  induction k with
  | zero => exact hx
  | succ k ih =>
    rw [Function.iterate_succ_apply']
    exact hp _ ih

/-- Past a root the path stays put. -/
theorem iterate_eq_of_isRoot {k j x : ℕ} (hk : IsRoot p (p^[k] x)) (hkj : k ≤ j) :
    p^[j] x = p^[k] x := by
  obtain ⟨d, rfl⟩ := Nat.exists_eq_add_of_le hkj
  rw [Nat.add_comm, Function.iterate_add_apply, Function.iterate_fixed hk]

/-- A path meets at most one root. -/
theorem iterate_eq_of_isRoot_of_isRoot {k j x : ℕ} (hk : IsRoot p (p^[k] x))
    (hj : IsRoot p (p^[j] x)) : p^[k] x = p^[j] x := by
  rcases le_total k j with h | h
  · exact (iterate_eq_of_isRoot hk h).symm
  · exact iterate_eq_of_isRoot hj h

/-- A path that repeats a node before its root `K` steps away meets that
root earlier. -/
theorem isRoot_iterate_of_eq {i j K x : ℕ} (hjK : j ≤ K) (heq : p^[i] x = p^[j] x)
    (hK : IsRoot p (p^[K] x)) : IsRoot p (p^[K - j + i] x) := by
  have hpath : p^[K] x = p^[K - j + i] x :=
    calc p^[K] x = p^[K - j] (p^[j] x) := by
          rw [← Function.iterate_add_apply, Nat.sub_add_cancel hjK]
      _ = p^[K - j] (p^[i] x) := by rw [heq]
      _ = p^[K - j + i] x := by rw [Function.iterate_add_apply]
  rw [← hpath]
  exact hK

/-- **Paths to the root are short.** The nodes before the first root on a
path are all different, so below `n` there are fewer than `n` of them. -/
theorem exists_isRoot_iterate_lt (hf : IsForest p n) {x : ℕ} (hx : x < n) :
    ∃ k < n, IsRoot p (p^[k] x) := by
  have hex := hf.reaches x hx
  refine ⟨Nat.find hex, ?_, Nat.find_spec hex⟩
  have hinj : Set.InjOn (fun j => p^[j] x) (Finset.range (Nat.find hex + 1)) := by
    intro i hi j hj hij
    have hi' : i ≤ Nat.find hex := Nat.lt_succ_iff.mp (Finset.mem_range.mp hi)
    have hj' : j ≤ Nat.find hex := Nat.lt_succ_iff.mp (Finset.mem_range.mp hj)
    by_contra hne
    -- a repeat before the first root would give an earlier root
    rcases Nat.lt_or_gt_of_ne hne with hlt | hlt
    · exact Nat.find_min hex (by omega) (isRoot_iterate_of_eq hj' hij (Nat.find_spec hex))
    · exact Nat.find_min hex (by omega)
        (isRoot_iterate_of_eq hi' hij.symm (Nat.find_spec hex))
  have hcard := Finset.card_le_card_of_injOn (fun j => p^[j] x)
    (fun j _ => Finset.mem_coe.mpr (Finset.mem_range.mpr (iterate_lt hf.parent_lt j hx))) hinj
  rw [Finset.card_range, Finset.card_range] at hcard
  omega

end Iterate

/-! ## Roots -/

/-- Follow parents from `x` for at most `fuel` steps, stopping at a root. -/
def rootFuel (p : ℕ → ℕ) : ℕ → ℕ → ℕ
  | 0, x => x
  | fuel + 1, x => if p x = x then x else rootFuel p fuel (p x)

/-- **The root of `x`**, with one step of fuel per node. -/
def root (p : ℕ → ℕ) (n x : ℕ) : ℕ := rootFuel p n x

/-- The roots below `n`. -/
def roots (p : ℕ → ℕ) (n : ℕ) : Finset ℕ := (Finset.range n).filter (IsRoot p)

section Root

variable {p : ℕ → ℕ} {n : ℕ}

theorem rootFuel_eq_iterate {k fuel x : ℕ} (hk : IsRoot p (p^[k] x)) (hfuel : k ≤ fuel) :
    rootFuel p fuel x = p^[k] x := by
  induction fuel generalizing k x with
  | zero =>
    rw [Nat.le_zero.mp hfuel]
    rfl
  | succ fuel ih =>
    by_cases hx : p x = x
    · rw [rootFuel, if_pos hx, Function.iterate_fixed hx]
    · rw [rootFuel, if_neg hx]
      cases k with
      | zero => exact absurd hk hx
      | succ k =>
        rw [Function.iterate_succ_apply] at hk ⊢
        exact ih hk (Nat.le_of_succ_le_succ hfuel)

/-- Any root on the path of `x` is the root of `x`. -/
theorem root_eq_iterate (hf : IsForest p n) {x k : ℕ} (hx : x < n)
    (hk : IsRoot p (p^[k] x)) : root p n x = p^[k] x := by
  obtain ⟨k', hk'n, hk'⟩ := exists_isRoot_iterate_lt hf hx
  rw [root, rootFuel_eq_iterate hk' hk'n.le]
  exact iterate_eq_of_isRoot_of_isRoot hk' hk

theorem exists_root_eq_iterate (hf : IsForest p n) {x : ℕ} (hx : x < n) :
    ∃ k, root p n x = p^[k] x ∧ IsRoot p (p^[k] x) := by
  obtain ⟨k, hk⟩ := hf.reaches x hx
  exact ⟨k, root_eq_iterate hf hx hk, hk⟩

theorem isRoot_root (hf : IsForest p n) {x : ℕ} (hx : x < n) : IsRoot p (root p n x) := by
  obtain ⟨k, hroot, hk⟩ := exists_root_eq_iterate hf hx
  rw [hroot]
  exact hk

theorem root_lt (hf : IsForest p n) {x : ℕ} (hx : x < n) : root p n x < n := by
  obtain ⟨k, hroot, -⟩ := exists_root_eq_iterate hf hx
  rw [hroot]
  exact iterate_lt hf.parent_lt k hx

theorem root_of_isRoot {x : ℕ} (hx : IsRoot p x) : root p n x = x :=
  @rootFuel_eq_iterate p 0 n x hx (Nat.zero_le n)

theorem root_root (hf : IsForest p n) {x : ℕ} (hx : x < n) : root p n (root p n x) = root p n x :=
  root_of_isRoot (isRoot_root hf hx)

/-- A node has the root of its parent. -/
theorem root_parent (hf : IsForest p n) {x : ℕ} (hx : x < n) : root p n (p x) = root p n x := by
  obtain ⟨k, hroot, hk⟩ := exists_root_eq_iterate hf hx
  have hk' : IsRoot p (p^[k] (p x)) := by
    rw [← Function.iterate_succ_apply, iterate_eq_of_isRoot hk (Nat.le_succ k)]
    exact hk
  rw [root_eq_iterate hf (hf.parent_lt x hx) hk', hroot, ← Function.iterate_succ_apply,
    iterate_eq_of_isRoot hk (Nat.le_succ k)]

theorem mem_roots {x : ℕ} : x ∈ roots p n ↔ x < n ∧ IsRoot p x := by
  rw [roots, Finset.mem_filter, Finset.mem_range]

theorem root_mem_roots (hf : IsForest p n) {x : ℕ} (hx : x < n) : root p n x ∈ roots p n :=
  mem_roots.mpr ⟨root_lt hf hx, isRoot_root hf hx⟩

/-- A forest on a non-empty set of nodes has a root. -/
theorem card_roots_pos (hf : IsForest p n) (hn : 0 < n) : 0 < (roots p n).card :=
  Finset.card_pos.mpr ⟨_, root_mem_roots hf hn⟩

end Root

/-! ## Every node its own root -/

theorem isForest_id (n : ℕ) : IsForest id n :=
  ⟨fun _ hx => hx, fun _ _ => ⟨0, rfl⟩⟩

@[simp] theorem root_id (n x : ℕ) : root id n x = x := root_of_isRoot rfl

theorem roots_id (n : ℕ) : roots id n = Finset.range n :=
  Finset.filter_true_of_mem (fun _ _ => rfl)

/-! ## Find with path compression -/

/-- **Find with path compression**: the root of `x`, and the pointer
function in which every node on the path from `x` points at that root. -/
def findCompress (p : ℕ → ℕ) : ℕ → ℕ → (ℕ → ℕ) × ℕ
  | 0, x => (p, x)
  | fuel + 1, x =>
    if p x = x then (p, x)
    else
      let r := findCompress p fuel (p x)
      (Function.update r.1 x r.2, r.2)

/-- `q` is `p` with some nodes below `n` pointed straight at their root. -/
def Compressed (p q : ℕ → ℕ) (n : ℕ) : Prop :=
  ∀ y, q y = p y ∨ (y < n ∧ q y = root p n y)

section Compress

variable {p q : ℕ → ℕ} {n : ℕ}

theorem compressed_refl (p : ℕ → ℕ) (n : ℕ) : Compressed p p n := fun _ => Or.inl rfl

/-- Find from a root changes nothing. -/
theorem findCompress_of_isRoot {x : ℕ} (hx : IsRoot p x) (fuel : ℕ) :
    findCompress p fuel x = (p, x) := by
  cases fuel with
  | zero => rfl
  | succ fuel => rw [findCompress, if_pos (show p x = x from hx)]

/-- **What find does**: given enough fuel to reach the root, it returns the
root and a compressed pointer function. -/
theorem findCompress_spec (hf : IsForest p n) {fuel k x : ℕ} (hx : x < n)
    (hk : IsRoot p (p^[k] x)) (hfuel : k ≤ fuel) :
    (findCompress p fuel x).2 = root p n x ∧ Compressed p (findCompress p fuel x).1 n := by
  induction fuel generalizing k x with
  | zero =>
    rw [Nat.le_zero.mp hfuel] at hk
    exact ⟨(root_of_isRoot hk).symm, compressed_refl p n⟩
  | succ fuel ih =>
    by_cases hroot : p x = x
    · rw [findCompress, if_pos hroot]
      exact ⟨(root_of_isRoot hroot).symm, compressed_refl p n⟩
    · rw [findCompress, if_neg hroot]
      dsimp only
      cases k with
      | zero => exact absurd hk hroot
      | succ k =>
        rw [Function.iterate_succ_apply] at hk
        obtain ⟨hr, hc⟩ := ih (hf.parent_lt x hx) hk (Nat.le_of_succ_le_succ hfuel)
        rw [root_parent hf hx] at hr
        refine ⟨hr, fun y => ?_⟩
        -- the node `x` itself now points at the root; the rest is the inner call's
        by_cases hy : y = x
        · subst hy
          exact Or.inr ⟨hx, by rw [Function.update_self, hr]⟩
        · rw [Function.update_of_ne hy]
          exact hc y

/-- With `n` steps of fuel, `findCompress` finds the root of every node. -/
theorem findCompress_spec_of_lt (hf : IsForest p n) {x : ℕ} (hx : x < n) :
    (findCompress p n x).2 = root p n x ∧ Compressed p (findCompress p n x).1 n := by
  obtain ⟨k, hkn, hk⟩ := exists_isRoot_iterate_lt hf hx
  exact findCompress_spec hf hx hk hkn.le

/-- The roots of `p` stay roots after compression. -/
theorem Compressed.isRoot_of_isRoot (hc : Compressed p q n) {r : ℕ}
    (hr : IsRoot p r) : IsRoot q r := by
  rcases hc r with h | ⟨-, h⟩
  · exact h.trans hr
  · exact h.trans (root_of_isRoot hr)

/-- Following `q` from a node below `n` reaches its old root. -/
theorem Compressed.exists_iterate_eq_root (hf : IsForest p n) (hc : Compressed p q n)
    {y : ℕ} (hy : y < n) : ∃ j, q^[j] y = root p n y := by
  obtain ⟨k, -, hk⟩ := exists_root_eq_iterate hf hy
  -- induction on the length of the old path
  induction k generalizing y with
  | zero => exact ⟨0, (root_of_isRoot hk).symm⟩
  | succ k ih =>
    rcases hc y with h | ⟨-, h⟩
    · rw [Function.iterate_succ_apply] at hk
      obtain ⟨j, hj⟩ := ih (hf.parent_lt y hy) hk
      refine ⟨j + 1, ?_⟩
      rw [Function.iterate_succ_apply, h, hj, root_parent hf hy]
    · exact ⟨1, h⟩

/-- **Compression keeps the forest.** -/
theorem Compressed.isForest (hf : IsForest p n) (hc : Compressed p q n) : IsForest q n where
  parent_lt x hx := by
    rcases hc x with h | ⟨-, h⟩
    · rw [h]
      exact hf.parent_lt x hx
    · rw [h]
      exact root_lt hf hx
  reaches x hx := by
    obtain ⟨j, hj⟩ := hc.exists_iterate_eq_root hf hx
    exact ⟨j, hj ▸ hc.isRoot_of_isRoot (isRoot_root hf hx)⟩

/-- **Compression keeps every node's root.** -/
theorem Compressed.root_eq (hf : IsForest p n) (hc : Compressed p q n) {y : ℕ} (hy : y < n) :
    root q n y = root p n y := by
  obtain ⟨j, hj⟩ := hc.exists_iterate_eq_root hf hy
  rw [root_eq_iterate (hc.isForest hf) hy (hj ▸ hc.isRoot_of_isRoot (isRoot_root hf hy)), hj]

/-- Compression keeps the roots. -/
theorem Compressed.isRoot_iff (hf : IsForest p n) (hc : Compressed p q n) {y : ℕ}
    (hy : y < n) : IsRoot q y ↔ IsRoot p y := by
  constructor
  · intro hq
    rw [← root_of_isRoot (n := n) hq, hc.root_eq hf hy]
    exact isRoot_root hf hy
  · exact hc.isRoot_of_isRoot

theorem Compressed.roots_eq (hf : IsForest p n) (hc : Compressed p q n) :
    roots q n = roots p n :=
  Finset.filter_congr (fun _ hy => hc.isRoot_iff hf (Finset.mem_range.mp hy))

theorem Compressed.trans (hf : IsForest p n) (hpq : Compressed p q n) {s : ℕ → ℕ}
    (hqs : Compressed q s n) : Compressed p s n := fun y => by
  rcases hqs y with h | ⟨hy, h⟩
  · rcases hpq y with h' | h'
    · exact Or.inl (h.trans h')
    · exact Or.inr ⟨h'.1, h.trans h'.2⟩
  · exact Or.inr ⟨hy, h.trans (hpq.root_eq hf hy)⟩

end Compress

/-! ## Linking two roots -/

/-- Hang the root `b` below `a`: `parent[b] = a`. -/
def link (p : ℕ → ℕ) (a b : ℕ) : ℕ → ℕ := Function.update p b a

section Link

variable {p : ℕ → ℕ} {n a b : ℕ}

/-- Paths that avoid `b` do not see the link. -/
theorem iterate_link_of_ne {k y : ℕ} (h : ∀ i < k, p^[i] y ≠ b) :
    (link p a b)^[k] y = p^[k] y := by
  induction k generalizing y with
  | zero => rfl
  | succ k ih =>
    have hy : y ≠ b := h 0 (Nat.succ_pos k)
    rw [Function.iterate_succ_apply, Function.iterate_succ_apply, link,
      Function.update_of_ne hy, ← link]
    exact ih (fun i hi => by
      rw [← Function.iterate_succ_apply]
      exact h (i + 1) (Nat.succ_lt_succ hi))

/-- The first root on the path of `y`, with the nodes before it avoiding
every root. -/
theorem exists_first_root (hf : IsForest p n) {y : ℕ} (hy : y < n) :
    ∃ k, root p n y = p^[k] y ∧ IsRoot p (p^[k] y) ∧ ∀ i < k, ¬IsRoot p (p^[i] y) := by
  have hex := hf.reaches y hy
  exact ⟨Nat.find hex, root_eq_iterate hf hy (Nat.find_spec hex), Nat.find_spec hex,
    fun i hi => Nat.find_min hex hi⟩

/-- **Linking moves the class of `b` under `a`**, and keeps the forest. -/
theorem link_spec (hf : IsForest p n) (haroot : IsRoot p a) (hbroot : IsRoot p b)
    (hab : a ≠ b) {y : ℕ} (hy : y < n) :
    ∃ j, (link p a b)^[j] y = (if root p n y = b then a else root p n y) ∧
      IsRoot (link p a b) ((link p a b)^[j] y) := by
  obtain ⟨k, hroot, hk, hmin⟩ := exists_first_root hf hy
  have hpath : (link p a b)^[k] y = p^[k] y :=
    iterate_link_of_ne (fun i hi heq => hmin i hi (heq ▸ hbroot))
  have hqa : IsRoot (link p a b) a := by
    rw [IsRoot, link, Function.update_of_ne hab]
    exact haroot
  by_cases hb : root p n y = b
  · -- the old root `b` now has the parent `a`
    have hlast : (link p a b)^[k + 1] y = a := by
      rw [Function.iterate_succ_apply', hpath, ← hroot, hb, link, Function.update_self]
    refine ⟨k + 1, ?_, ?_⟩
    · rw [hlast, if_pos hb]
    · rw [hlast]
      exact hqa
  · have hne : p^[k] y ≠ b := hroot ▸ hb
    refine ⟨k, by rw [if_neg hb, hpath, hroot], ?_⟩
    rw [hpath, IsRoot, link, Function.update_of_ne hne]
    exact hk

theorem link_isForest (hf : IsForest p n) (ha : a < n) (haroot : IsRoot p a)
    (hbroot : IsRoot p b) (hab : a ≠ b) : IsForest (link p a b) n where
  parent_lt x hx := by
    by_cases hxb : x = b
    · rw [hxb, link, Function.update_self]
      exact ha
    · rw [link, Function.update_of_ne hxb]
      exact hf.parent_lt x hx
  reaches y hy := by
    obtain ⟨j, -, hj⟩ := link_spec hf haroot hbroot hab hy
    exact ⟨j, hj⟩

/-- **The roots after a link.** -/
theorem root_link (hf : IsForest p n) (ha : a < n) (haroot : IsRoot p a) (hbroot : IsRoot p b)
    (hab : a ≠ b) {y : ℕ} (hy : y < n) :
    root (link p a b) n y = if root p n y = b then a else root p n y := by
  obtain ⟨j, hj, hroot⟩ := link_spec hf haroot hbroot hab hy
  rw [root_eq_iterate (link_isForest hf ha haroot hbroot hab) hy hroot, hj]

/-- **A link removes one root.** -/
theorem roots_link (hab : a ≠ b) :
    roots (link p a b) n = (roots p n).erase b := by
  ext y
  rw [Finset.mem_erase, mem_roots, mem_roots, IsRoot, IsRoot]
  by_cases hy : y = b
  · subst hy
    rw [link, Function.update_self]
    exact ⟨fun h => absurd h.2 hab, fun h => absurd rfl h.1⟩
  · rw [link, Function.update_of_ne hy]
    exact ⟨fun h => ⟨hy, h⟩, fun h => h.2⟩

/-- Nodes of one class stay in one class after a link. -/
theorem root_link_congr (hf : IsForest p n) (ha : a ∈ roots p n) (hb : b ∈ roots p n)
    (hab : a ≠ b) {u v : ℕ} (hu : u < n) (hv : v < n) (huv : root p n u = root p n v) :
    root (link p a b) n u = root (link p a b) n v := by
  obtain ⟨han, haroot⟩ := mem_roots.mp ha
  obtain ⟨-, hbroot⟩ := mem_roots.mp hb
  rw [root_link hf han haroot hbroot hab hu, root_link hf han haroot hbroot hab hv, huv]

/-- `(a, b)` are the roots of the two ends `s` and `d` of an edge, in
either order. -/
def LinksEnds (p : ℕ → ℕ) (n s d a b : ℕ) : Prop :=
  (a = root p n s ∧ b = root p n d) ∨ (a = root p n d ∧ b = root p n s)

/-- The roots of the ends of an edge between two classes are two roots. -/
theorem LinksEnds.roots (hf : IsForest p n) {s d : ℕ} (hs : s < n) (hd : d < n)
    (hne : root p n s ≠ root p n d) (hab : LinksEnds p n s d a b) :
    a ∈ roots p n ∧ b ∈ roots p n ∧ a ≠ b := by
  rcases hab with ⟨rfl, rfl⟩ | ⟨rfl, rfl⟩
  · exact ⟨root_mem_roots hf hs, root_mem_roots hf hd, hne⟩
  · exact ⟨root_mem_roots hf hd, root_mem_roots hf hs, Ne.symm hne⟩

/-- **Linking the roots of the ends of an edge** puts the classes of both
ends under `a`. -/
theorem LinksEnds.root_link_eq (hf : IsForest p n) {s d : ℕ} (hs : s < n) (hd : d < n)
    (hne : root p n s ≠ root p n d) (hab : LinksEnds p n s d a b) {y : ℕ} (hy : y < n)
    (hys : root p n y = root p n s ∨ root p n y = root p n d) :
    root (link p a b) n y = a := by
  obtain ⟨ha, hb, hab'⟩ := hab.roots hf hs hd hne
  rw [ParentForest.root_link hf (mem_roots.mp ha).1 (mem_roots.mp ha).2 (mem_roots.mp hb).2
    hab' hy]
  rcases hab with ⟨rfl, rfl⟩ | ⟨rfl, rfl⟩ <;> rcases hys with h | h <;>
    simp [h, hne, Ne.symm hne]

end Link

/-! ## Path halving -/

/-- **Path halving** at `u`: `parent[u] = parent[parent[u]]`. -/
def halve (p : ℕ → ℕ) (u : ℕ) : ℕ → ℕ := Function.update p u (p (p u))

/-- `q` is a forest on the nodes below `n` that gives every node the root
that `p` gives it. -/
structure SameRoots (p q : ℕ → ℕ) (n : ℕ) : Prop where
  isForest : IsForest q n
  root_eq : ∀ y < n, root q n y = root p n y

section Halve

variable {p q : ℕ → ℕ} {n u : ℕ}

theorem SameRoots.refl (hf : IsForest p n) : SameRoots p p n := ⟨hf, fun _ _ => rfl⟩

theorem SameRoots.trans (hpq : SameRoots p q n) {s : ℕ → ℕ} (hqs : SameRoots q s n) :
    SameRoots p s n :=
  ⟨hqs.isForest, fun y hy => (hqs.root_eq y hy).trans (hpq.root_eq y hy)⟩

/-- A node of a forest is a root exactly when it is its own root. -/
theorem isRoot_iff_root_eq (hf : IsForest p n) {y : ℕ} (hy : y < n) :
    IsRoot p y ↔ root p n y = y :=
  ⟨root_of_isRoot, fun h => h ▸ isRoot_root hf hy⟩

theorem SameRoots.isRoot_iff (hf : IsForest p n) (h : SameRoots p q n) {y : ℕ} (hy : y < n) :
    IsRoot q y ↔ IsRoot p y := by
  rw [isRoot_iff_root_eq h.isForest hy, isRoot_iff_root_eq hf hy, h.root_eq y hy]

theorem SameRoots.roots_eq (hf : IsForest p n) (h : SameRoots p q n) : roots q n = roots p n :=
  Finset.filter_congr fun _ hy => h.isRoot_iff hf (Finset.mem_range.mp hy)

/-- In a forest a node whose grandparent is itself is a root: a path going
back and forth between two nodes would never reach one. -/
theorem isRoot_of_parent_parent_eq (hf : IsForest p n) (hu : u < n) (h : p (p u) = u) :
    IsRoot p u := by
  obtain ⟨k, hk⟩ := hf.reaches u hu
  have hper : ∀ j, p^[2 * j] u = u := by
    intro j
    induction j with
    | zero => rfl
    | succ j ih => rw [Nat.mul_succ, Function.iterate_add_apply, show p^[2] u = u from h, ih]
  obtain ⟨j, hj⟩ : ∃ j, k = 2 * j ∨ k = 2 * j + 1 := ⟨k / 2, by omega⟩
  rcases hj with rfl | rfl
  · rwa [hper] at hk
  · rw [Function.iterate_succ_apply', hper] at hk
    exact hk.symm.trans h

/-- **Halving keeps every path's root**: from any node, following the
halved pointers reaches the root that the old path reaches, in no more
steps. -/
theorem exists_iterate_halve (hnr : ¬IsRoot p u) :
    ∀ k y, IsRoot p (p^[k] y) → ∃ j ≤ k, (halve p u)^[j] y = p^[k] y := by
  intro k
  induction k using Nat.strong_induction_on with
  | _ k ih =>
    intro y hk
    by_cases hy : y = u
    · subst hy
      -- `u` now points two steps up its old path
      have hyy : halve p y y = p (p y) := Function.update_self _ _ _
      obtain _ | _ | k := k
      · exact absurd hk hnr
      · exact ⟨1, le_rfl, hyy.trans hk⟩
      · rw [Function.iterate_succ_apply, Function.iterate_succ_apply] at hk
        obtain ⟨j, hj, hjeq⟩ := ih k (by omega) (p (p y)) hk
        refine ⟨j + 1, by omega, ?_⟩
        rw [Function.iterate_succ_apply, hyy, hjeq, Function.iterate_succ_apply,
          Function.iterate_succ_apply]
    · -- elsewhere the pointers are the old ones
      have hyu : halve p u y = p y := Function.update_of_ne hy _ _
      obtain _ | k := k
      · exact ⟨0, le_rfl, rfl⟩
      · rw [Function.iterate_succ_apply] at hk
        obtain ⟨j, hj, hjeq⟩ := ih k (by omega) (p y) hk
        refine ⟨j + 1, by omega, ?_⟩
        rw [Function.iterate_succ_apply, hyu, hjeq, Function.iterate_succ_apply]

/-- Halving at a node that is not a root keeps the roots. -/
theorem isRoot_halve_iff (hf : IsForest p n) (hu : u < n) (hnr : ¬IsRoot p u) {y : ℕ} :
    IsRoot (halve p u) y ↔ IsRoot p y := by
  by_cases hy : y = u
  · subst hy
    -- neither is a root: the grandparent of `y` is not `y`
    have hgp : p (p y) ≠ y := fun h => hnr (isRoot_of_parent_parent_eq hf hu h)
    show Function.update p y (p (p y)) y = y ↔ p y = y
    rw [Function.update_self]
    exact ⟨fun h => absurd h hgp, fun h => absurd h hnr⟩
  · show Function.update p u (p (p u)) y = y ↔ p y = y
    rw [Function.update_of_ne hy]

/-- **Halving keeps the forest and every node's root.** -/
theorem sameRoots_halve (hf : IsForest p n) (hu : u < n) (hnr : ¬IsRoot p u) :
    SameRoots p (halve p u) n := by
  have hpath : ∀ y < n, ∃ j, IsRoot (halve p u) ((halve p u)^[j] y) ∧
      (halve p u)^[j] y = root p n y := by
    intro y hy
    obtain ⟨k, hroot, hk⟩ := exists_root_eq_iterate hf hy
    obtain ⟨j, -, hj⟩ := exists_iterate_halve hnr k y hk
    exact ⟨j, hj ▸ (isRoot_halve_iff hf hu hnr).mpr hk, hj.trans hroot.symm⟩
  have hq : IsForest (halve p u) n := by
    refine ⟨fun x hx => ?_, fun x hx => (hpath x hx).imp fun _ h => h.1⟩
    by_cases hx' : x = u
    · rw [hx', halve, Function.update_self]
      exact hf.parent_lt _ (hf.parent_lt u hu)
    · rw [halve, Function.update_of_ne hx']
      exact hf.parent_lt x hx
  refine ⟨hq, fun y hy => ?_⟩
  obtain ⟨j, hj, hjeq⟩ := hpath y hy
  rw [root_eq_iterate hq hy hj, hjeq]

end Halve

end ParentForest

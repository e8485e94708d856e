import GraphZeppelin.Boruvka
import Mathlib.Algebra.BigOperators.Group.Finset.Piecewise

/-!
# What a round of Boruvka does

The specification of each step of a round, for any sketch operations and
any answers:

* `sampleSupernodes`: each representative sampled once, and when nothing
  threw, every one of them answered (`sampleSupernodes_of_none`);
* the loop of `supernodes_to_merge` keeps `ToMergeInv`
  (`foldl_toMergeStep`): the forest only grows coarser and stays a forest,
  the list of each root holds the roots of the start of the round that are
  now under it (`MergeLists`), the failed representatives are kept in
  order, every good answer ends inside one class, and every forest edge
  added is a good answer that joined two classes;
* `merge_supernodes` folds the supernodes of its list into each new
  representative and changes no other supernode.

`MergeLists` is the part of the invariant about the forest and the lists
alone. The termination and correctness proofs use these facts, never the
bodies of the functions.
-/

namespace GraphZeppelin

open ParentForest

/-! ## The lists of supernodes to merge -/

/-- **The lists of supernodes to merge**, against the forest `p0` of the
start of the round: `p` is a forest whose classes are unions of the old
ones, and the list of each root holds, once each, the old roots now under
it; every other list is empty. -/
structure MergeLists (p0 : ℕ → ℕ) (n : ℕ) (p : ℕ → ℕ) (toMerge : ℕ → List ℕ) : Prop where
  isForest0 : IsForest p0 n
  isForest : IsForest p n
  root_root : ∀ u < n, root p n (root p0 n u) = root p n u
  roots_subset : roots p n ⊆ roots p0 n
  mem_roots_of_ne_nil : ∀ a, toMerge a ≠ [] → a ∈ roots p n
  nodup : ∀ a, (toMerge a).Nodup
  mem_iff : ∀ r ∈ roots p n, ∀ r', r' ∈ toMerge r ↔ r' ∈ roots p0 n ∧ r' ≠ r ∧ root p n r' = r

namespace MergeLists

variable {p0 p q : ℕ → ℕ} {n : ℕ} {toMerge : ℕ → List ℕ}

theorem start (hf : IsForest p0 n) : MergeLists p0 n p0 (fun _ => []) where
  isForest0 := hf
  isForest := hf
  root_root _ hu := ParentForest.root_root hf hu
  roots_subset := Finset.Subset.refl _
  mem_roots_of_ne_nil _ h := absurd rfl h
  nodup _ := List.nodup_nil
  mem_iff r _ r' := by
    simp only [List.not_mem_nil, false_iff]
    rintro ⟨hr', hne, hroot⟩
    exact hne ((root_of_isRoot (mem_roots.mp hr').2).symm.trans hroot)

theorem lt_of_mem_roots {p : ℕ → ℕ} {r : ℕ} (hr : r ∈ roots p n) : r < n :=
  (mem_roots.mp hr).1

/-- Compression changes nothing the lists depend on. -/
theorem compress (h : MergeLists p0 n p toMerge) (hc : Compressed p q n) :
    MergeLists p0 n q toMerge := by
  have hroots : roots q n = roots p n := hc.roots_eq h.isForest
  have hroot : ∀ y < n, root q n y = root p n y := fun y hy => hc.root_eq h.isForest hy
  refine ⟨h.isForest0, hc.isForest h.isForest, fun u hu => ?_, hroots ▸ h.roots_subset,
    fun a ha => hroots ▸ h.mem_roots_of_ne_nil a ha, h.nodup, fun r hr r' => ?_⟩
  · rw [hroot _ (root_lt h.isForest0 hu), hroot u hu, h.root_root u hu]
  · rw [hroots] at hr
    rw [h.mem_iff r hr r']
    constructor
    · rintro ⟨h0, hne, hr'⟩
      exact ⟨h0, hne, (hroot r' (lt_of_mem_roots h0)).trans hr'⟩
    · rintro ⟨h0, hne, hr'⟩
      exact ⟨h0, hne, (hroot r' (lt_of_mem_roots h0)).symm.trans hr'⟩

/-- **A union**: linking the root `b` under the root `a` moves `b` and its
list to the end of the list of `a`. -/
theorem link (h : MergeLists p0 n p toMerge) {a b : ℕ} (ha : a ∈ roots p n)
    (hb : b ∈ roots p n) (hab : a ≠ b) :
    MergeLists p0 n (ParentForest.link p a b)
      (Function.update (Function.update toMerge a (toMerge a ++ b :: toMerge b)) b []) := by
  obtain ⟨han, haroot⟩ := mem_roots.mp ha
  obtain ⟨-, hbroot⟩ := mem_roots.mp hb
  have hrl : ∀ y < n, root (ParentForest.link p a b) n y
      = if root p n y = b then a else root p n y :=
    fun y hy => root_link h.isForest han haroot hbroot hab hy
  have hroots : roots (ParentForest.link p a b) n = (roots p n).erase b := roots_link hab
  -- the members of the two lists, from the invariant at the two roots
  have hmemA := h.mem_iff a ha
  have hmemB := h.mem_iff b hb
  have hb0 : b ∈ roots p0 n := h.roots_subset hb
  have hrootb : root p n b = b := root_of_isRoot hbroot
  refine ⟨h.isForest0, link_isForest h.isForest han haroot hbroot hab, fun u hu => ?_, ?_,
    fun x hx => ?_, fun x => ?_, fun r hr r' => ?_⟩
  · rw [hrl _ (root_lt h.isForest0 hu), hrl u hu, h.root_root u hu]
  · rw [hroots]
    exact (Finset.erase_subset b _).trans h.roots_subset
  · rw [hroots, Finset.mem_erase]
    by_cases hxb : x = b
    · subst hxb
      exact absurd (Function.update_self _ _ _) hx
    · rw [Function.update_of_ne hxb] at hx
      by_cases hxa : x = a
      · exact ⟨hxb, hxa ▸ ha⟩
      · rw [Function.update_of_ne hxa] at hx
        exact ⟨hxb, h.mem_roots_of_ne_nil x hx⟩
  · by_cases hxb : x = b
    · rw [hxb, Function.update_self]
      exact List.nodup_nil
    · rw [Function.update_of_ne hxb]
      by_cases hxa : x = a
      · -- the two lists hold the old roots of two different classes
        rw [hxa, Function.update_self, List.nodup_append]
        refine ⟨h.nodup a, List.nodup_cons.mpr ⟨fun hbb => ((hmemB b).mp hbb).2.1 rfl,
          h.nodup b⟩, fun y hyA z hzB hyz => ?_⟩
        obtain ⟨-, -, hya⟩ := (hmemA y).mp hyA
        subst hyz
        rcases List.mem_cons.mp hzB with rfl | hyB
        · exact hab (hya.symm.trans hrootb)
        · exact hab (hya.symm.trans ((hmemB y).mp hyB).2.2)
      · rw [Function.update_of_ne hxa]
        exact h.nodup x
  · rw [hroots, Finset.mem_erase] at hr
    obtain ⟨hrb, hr⟩ := hr
    rw [Function.update_of_ne hrb]
    by_cases hra : r = a
    · subst hra
      rw [Function.update_self, List.mem_append, List.mem_cons, hmemA, hmemB]
      constructor
      · rintro (⟨h0, hne, hroot⟩ | rfl | ⟨h0, -, hroot⟩)
        · exact ⟨h0, hne, by rw [hrl r' (lt_of_mem_roots h0), hroot, if_neg hab]⟩
        · exact ⟨hb0, Ne.symm hab, by rw [hrl _ (lt_of_mem_roots hb0), hrootb, if_pos rfl]⟩
        · refine ⟨h0, fun hra => hab ((root_of_isRoot haroot).symm.trans (hra ▸ hroot)), ?_⟩
          rw [hrl r' (lt_of_mem_roots h0), hroot, if_pos rfl]
      · rintro ⟨h0, hne, hroot⟩
        rw [hrl r' (lt_of_mem_roots h0)] at hroot
        by_cases hrb' : root p n r' = b
        · by_cases hr'b : r' = b
          · exact .inr (.inl hr'b)
          · exact .inr (.inr ⟨h0, hr'b, hrb'⟩)
        · rw [if_neg hrb'] at hroot
          exact .inl ⟨h0, hne, hroot⟩
    · rw [Function.update_of_ne hra, h.mem_iff r hr r']
      constructor
      · rintro ⟨h0, hne, hroot⟩
        refine ⟨h0, hne, ?_⟩
        rw [hrl r' (lt_of_mem_roots h0), hroot, if_neg hrb]
      · rintro ⟨h0, hne, hroot⟩
        rw [hrl r' (lt_of_mem_roots h0)] at hroot
        by_cases hrb' : root p n r' = b
        · rw [if_pos hrb'] at hroot
          exact absurd hroot.symm hra
        · rw [if_neg hrb'] at hroot
          exact ⟨h0, hne, hroot⟩

/-- **No union, no list**: when no root was lost, every list is empty. -/
theorem eq_nil_of_card_le (h : MergeLists p0 n p toMerge)
    (hcard : (roots p0 n).card ≤ (roots p n).card) (a : ℕ) : toMerge a = [] := by
  by_contra hne
  have heq : roots p n = roots p0 n := Finset.eq_of_subset_of_card_le h.roots_subset hcard
  obtain ⟨r', hr'⟩ := List.exists_mem_of_ne_nil _ hne
  obtain ⟨h0, hne', hroot⟩ := (h.mem_iff a (h.mem_roots_of_ne_nil a hne) r').mp hr'
  rw [← heq] at h0
  exact hne' ((root_of_isRoot (mem_roots.mp h0).2).symm.trans hroot)

end MergeLists

/-! ## The spanning forest -/

/-- Two nodes joined by an edge of the spanning forest, stored at either end. -/
def forestAdj (F : ℕ → Finset ℕ) (u v : ℕ) : Prop := v ∈ F u ∨ u ∈ F v

/-- The members of a node's set after `spanning_forest[a].insert(b)`. -/
theorem mem_update_insert {F : ℕ → Finset ℕ} {a b u v : ℕ} :
    v ∈ Function.update F a (insert b (F a)) u ↔ v ∈ F u ∨ (u = a ∧ v = b) := by
  by_cases hu : u = a
  · subst hu
    rw [Function.update_self, Finset.mem_insert]
    tauto
  · rw [Function.update_of_ne hu]
    tauto

theorem forestAdj_mono {F F' : ℕ → Finset ℕ} (h : ∀ u, F u ⊆ F' u) :
    forestAdj F ≤ forestAdj F' :=
  fun _ _ huv => huv.imp (fun hv => h _ hv) (fun hu => h _ hu)

/-- **The spanning forest agrees with the disjoint-set forest**: each of its
edges is stored at its smaller end and joins two nodes of one class; they
connect every node to its root; and there are as many as there were unions,
so that each joined two classes when it was added. -/
structure SpanningForestInv (n : ℕ) (p : ℕ → ℕ) (F : ℕ → Finset ℕ) : Prop where
  isForest : IsForest p n
  lt_of_mem : ∀ u v, v ∈ F u → u < v ∧ v < n
  root_eq : ∀ u v, v ∈ F u → root p n u = root p n v
  reach : ∀ u < n, Relation.EqvGen (forestAdj F) u (root p n u)
  card : ∑ u ∈ Finset.range n, (F u).card + (roots p n).card = n

namespace SpanningForestInv

variable {n : ℕ} {p q : ℕ → ℕ} {F : ℕ → Finset ℕ}

/-- No edge, every node its own root. -/
theorem start (n : ℕ) : SpanningForestInv n (fun i => i) (fun _ => ∅) where
  isForest := isForest_id n
  lt_of_mem _ _ h := absurd h (Finset.notMem_empty _)
  root_eq _ _ h := absurd h (Finset.notMem_empty _)
  reach u _ := by
    rw [show root (fun i => i) n u = u from root_id n u]
    exact Relation.EqvGen.refl u
  card := by
    rw [show roots (fun i => i) n = Finset.range n from roots_id n]
    simp

theorem compress (h : SpanningForestInv n p F) (hc : Compressed p q n) :
    SpanningForestInv n q F := by
  have hroot : ∀ y < n, root q n y = root p n y := fun y hy => hc.root_eq h.isForest hy
  refine ⟨hc.isForest h.isForest, h.lt_of_mem, fun u v hv => ?_, fun u hu => ?_, ?_⟩
  · obtain ⟨huv, hvn⟩ := h.lt_of_mem u v hv
    rw [hroot u (huv.trans hvn), hroot v hvn]
    exact h.root_eq u v hv
  · rw [hroot u hu]
    exact h.reach u hu
  · rw [hc.roots_eq h.isForest]
    exact h.card

/-- **A union through an edge**: linking the roots of the two ends of an
edge between two classes, and adding the edge to the spanning forest. -/
theorem link (h : SpanningForestInv n p F) {s d : ℕ} (hs : s < n) (hd : d < n)
    (hne : root p n s ≠ root p n d) {a b : ℕ} (hab : LinksEnds p n s d a b) :
    SpanningForestInv n (ParentForest.link p a b)
      (Function.update F (min s d) (insert (max s d) (F (min s d)))) := by
  set F' := Function.update F (min s d) (insert (max s d) (F (min s d)))
  have hsd : s ≠ d := fun h => hne (h ▸ rfl)
  obtain ⟨ha, hb, hab'⟩ := hab.roots h.isForest hs hd hne
  obtain ⟨han, haroot⟩ := mem_roots.mp ha
  obtain ⟨-, hbroot⟩ := mem_roots.mp hb
  have hrl : ∀ y < n, root (ParentForest.link p a b) n y
      = if root p n y = b then a else root p n y :=
    fun y hy => root_link h.isForest han haroot hbroot hab' hy
  -- both ends of the edge end under `a`
  have hends : ∀ y < n, (y = s ∨ y = d) → root (ParentForest.link p a b) n y = a := by
    intro y hy hsd'
    refine hab.root_link_eq h.isForest hs hd hne hy ?_
    rcases hsd' with rfl | rfl
    · exact .inl rfl
    · exact .inr rfl
  have hsub : ∀ u, F u ⊆ F' u := fun _ _ hv => mem_update_insert.mpr (.inl hv)
  have hmem : ∀ u v, v ∈ F' u → v ∈ F u ∨ (u = min s d ∧ v = max s d) :=
    fun _ _ hv => mem_update_insert.mp hv
  have hnew : forestAdj F' s d := by
    rcases le_total s d with hle | hle
    · left
      simp only [F', min_eq_left hle, max_eq_right hle, Function.update_self,
        Finset.mem_insert, true_or]
    · right
      simp only [F', min_eq_right hle, max_eq_left hle, Function.update_self,
        Finset.mem_insert, true_or]
  have hnotin : max s d ∉ F (min s d) := by
    intro hin
    apply hne
    have heq := h.root_eq _ _ hin
    rcases le_total s d with hle | hle
    · rwa [min_eq_left hle, max_eq_right hle] at heq
    · rw [min_eq_right hle, max_eq_left hle] at heq
      exact heq.symm
  refine ⟨link_isForest h.isForest han haroot hbroot hab', fun u v hv => ?_, fun u v hv => ?_,
    fun w hw => ?_, ?_⟩
  · rcases hmem u v hv with hv | ⟨rfl, rfl⟩
    · exact h.lt_of_mem u v hv
    · exact ⟨by omega, by omega⟩
  · rcases hmem u v hv with hv | ⟨rfl, rfl⟩
    · obtain ⟨huv, hvn⟩ := h.lt_of_mem u v hv
      exact root_link_congr h.isForest ha hb hab' (huv.trans hvn) hvn (h.root_eq u v hv)
    · rw [hends _ (by omega) (by omega), hends _ (by omega) (by omega)]
  · have hmono := Relation.EqvGen.mono (forestAdj_mono hsub)
    rw [hrl w hw]
    by_cases hwb : root p n w = b
    · -- `w` reaches `b`, the root of one end; the edge joins it to the other
      rw [if_pos hwb]
      have hs' := hmono _ _ (h.reach s hs)
      have hd' := hmono _ _ (h.reach d hd)
      have hrr : Relation.EqvGen (forestAdj F') (root p n s) (root p n d) :=
        Relation.EqvGen.trans _ _ _ (Relation.EqvGen.symm _ _ hs')
          (Relation.EqvGen.trans _ _ _ (Relation.EqvGen.rel _ _ hnew) hd')
      have hba : Relation.EqvGen (forestAdj F') b a := by
        rcases hab with ⟨rfl, rfl⟩ | ⟨rfl, rfl⟩
        · exact Relation.EqvGen.symm _ _ hrr
        · exact hrr
      have hwb' := hmono _ _ (h.reach w hw)
      rw [hwb] at hwb'
      exact Relation.EqvGen.trans _ _ _ hwb' hba
    · rw [if_neg hwb]
      exact hmono _ _ (h.reach w hw)
  · -- the edge is stored once more, at its smaller end, and one root fewer remains
    have hsum : ∑ u ∈ Finset.range n, (F' u).card = ∑ u ∈ Finset.range n, (F u).card + 1 := by
      have hmin : min s d ∈ Finset.range n := Finset.mem_range.mpr (by omega)
      simp only [F', Function.apply_update (fun _ => Finset.card), Finset.sum_update_of_mem hmin,
        Finset.card_insert_of_notMem hnotin,
        Finset.sum_eq_add_sum_sdiff_singleton_of_mem hmin fun u => (F u).card]
      omega
    have hcard : (roots (ParentForest.link p a b) n).card + 1 = (roots p n).card := by
      rw [roots_link hab', Finset.card_erase_of_mem hb]
      have := Finset.card_pos.mpr ⟨b, hb⟩
      omega
    have := h.card
    omega

end SpanningForestInv

/-! ## The loop of `supernodes_to_merge` -/

namespace Graph

section ToMerge

variable {σ : Type}

/-- The state after a change of the disjoint-set forest, the spanning
forest and `modified` is still the graph the loop started on with those
fields replaced. -/
theorem frame_update {g g1 : Graph σ}
    (h : g = { g1 with
      parent := g.parent, size := g.size, modified := g.modified,
      spanningForest := g.spanningForest })
    (p sz : ℕ → ℕ) (m : Bool) (F : ℕ → Finset ℕ) :
    { g with parent := p, size := sz, modified := m, spanningForest := F }
      = { g1 with parent := p, size := sz, modified := m, spanningForest := F } := by
  rw [h]

/-- **What the loop of `supernodes_to_merge` keeps**, once it has processed
the representatives `done`, from the graph `g1` it started on: only the
forests and `modified` change; `MergeLists` and `SpanningForestInv` hold;
every new forest edge is a good answer; the failed representatives are
listed in order, all of them; `modified` is set by a failure or a union and
by nothing else; and every good answer joins two nodes of one class. -/
structure ToMergeInv (query : ℕ → Edge × SampleSketchRet) (g1 : Graph σ) (done : List ℕ)
    (acc : Graph σ × (ℕ → List ℕ) × List ℕ) : Prop where
  frame : acc.1 = { g1 with
    parent := acc.1.parent, size := acc.1.size, modified := acc.1.modified,
    spanningForest := acc.1.spanningForest }
  lists : MergeLists g1.parent g1.numNodes acc.1.parent acc.2.1
  forest : SpanningForestInv g1.numNodes acc.1.parent acc.1.spanningForest
  forest_mem : ∀ u v, v ∈ acc.1.spanningForest u → v ∈ g1.spanningForest u ∨
    ∃ i ∈ done, (query i).2 = .good ∧ u = min (query i).1.src.toNat (query i).1.dst.toNat ∧
      v = max (query i).1.src.toNat (query i).1.dst.toNat
  failed_sublist : List.Sublist acc.2.2 done
  failed_fail : ∀ i ∈ acc.2.2, (query i).2 = .fail
  fail_mem : ∀ i ∈ done, (query i).2 = .fail → i ∈ acc.2.2
  modified : acc.1.modified = true → g1.modified = true ∨ acc.2.2 ≠ [] ∨
    (roots acc.1.parent g1.numNodes).card < (roots g1.parent g1.numNodes).card
  modified_of : acc.2.2 ≠ [] ∨
      (roots acc.1.parent g1.numNodes).card < (roots g1.parent g1.numNodes).card →
    acc.1.modified = true
  good_root : ∀ i ∈ done, (query i).2 = .good →
    (query i).1.src.toNat < g1.numNodes ∧ (query i).1.dst.toNat < g1.numNodes ∧
      root acc.1.parent g1.numNodes (query i).1.src.toNat
        = root acc.1.parent g1.numNodes (query i).1.dst.toNat

namespace ToMergeInv

variable {query : ℕ → Edge × SampleSketchRet} {g1 g : Graph σ} {done : List ℕ}
  {tm : ℕ → List ℕ} {failed : List ℕ}

theorem numNodes_eq {acc : Graph σ × (ℕ → List ℕ) × List ℕ} (h : ToMergeInv query g1 done acc) :
    acc.1.numNodes = g1.numNodes := by
  have hframe := congrArg Graph.numNodes h.frame
  exact hframe

theorem supernodes_eq {acc : Graph σ × (ℕ → List ℕ) × List ℕ} (h : ToMergeInv query g1 done acc) :
    acc.1.supernodes = g1.supernodes := by
  have hframe := congrArg Graph.supernodes h.frame
  exact hframe

theorem start (hf : SpanningForestInv g1.numNodes g1.parent g1.spanningForest) :
    ToMergeInv query g1 [] (g1, fun _ => [], []) where
  frame := rfl
  lists := MergeLists.start hf.isForest
  forest := hf
  forest_mem _ _ hv := .inl hv
  failed_sublist := List.Sublist.slnil
  failed_fail _ h := absurd h List.not_mem_nil
  fail_mem _ h := absurd h List.not_mem_nil
  modified h := .inl h
  modified_of h := h.elim (fun h => absurd rfl h) (fun h => absurd h (lt_irrefl _))
  good_root _ h := absurd h List.not_mem_nil

/-- A representative whose answer changed nothing, or whose good answer was
already inside a class. -/
theorem snoc (h : ToMergeInv query g1 done (g, tm, failed)) {i : ℕ}
    (hfail : (query i).2 ≠ .fail) (hi : (query i).2 = .good →
      (query i).1.src.toNat < g1.numNodes ∧ (query i).1.dst.toNat < g1.numNodes ∧
        root g.parent g1.numNodes (query i).1.src.toNat
          = root g.parent g1.numNodes (query i).1.dst.toNat) :
    ToMergeInv query g1 (done ++ [i]) (g, tm, failed) where
  frame := h.frame
  lists := h.lists
  forest := h.forest
  forest_mem u v hv := (h.forest_mem u v hv).imp_right fun ⟨j, hj, hjs⟩ =>
    ⟨j, List.mem_append_left _ hj, hjs⟩
  failed_sublist := h.failed_sublist.trans (List.sublist_append_left done [i])
  failed_fail := h.failed_fail
  fail_mem j hj hjf := by
    rcases List.mem_append.mp hj with hj | hj
    · exact h.fail_mem j hj hjf
    · exact absurd (List.mem_singleton.mp hj ▸ hjf) hfail
  modified := h.modified
  modified_of := h.modified_of
  good_root j hj hjg := by
    rcases List.mem_append.mp hj with hj | hj
    · exact h.good_root j hj hjg
    · rw [List.mem_singleton.mp hj]
      exact hi (List.mem_singleton.mp hj ▸ hjg)

/-- `get_parent` only compresses the forest. -/
theorem compress (h : ToMergeInv query g1 done (g, tm, failed)) {q : ℕ → ℕ}
    (hc : Compressed g.parent q g1.numNodes) :
    ToMergeInv query g1 done ({ g with parent := q }, tm, failed) := by
  have hroot : ∀ y < g1.numNodes, root q g1.numNodes y = root g.parent g1.numNodes y :=
    fun y hy => hc.root_eq h.lists.isForest hy
  refine ⟨?_, h.lists.compress hc, h.forest.compress hc, h.forest_mem, h.failed_sublist,
    h.failed_fail, h.fail_mem, ?_, ?_, fun j hj hjg => ?_⟩
  · exact frame_update h.frame q g.size g.modified g.spanningForest
  · rw [hc.roots_eq h.lists.isForest]
    exact h.modified
  · rw [hc.roots_eq h.lists.isForest]
    exact h.modified_of
  · obtain ⟨hs, hd, hsd⟩ := h.good_root j hj hjg
    exact ⟨hs, hd, by rw [hroot _ hs, hroot _ hd, hsd]⟩

/-- A failed answer: the representative is kept for the next round. -/
theorem fail (h : ToMergeInv query g1 done (g, tm, failed)) {i : ℕ} (hi : (query i).2 = .fail) :
    ToMergeInv query g1 (done ++ [i]) ({ g with modified := true }, tm, failed ++ [i]) where
  frame := frame_update h.frame g.parent g.size true g.spanningForest
  lists := h.lists
  forest := h.forest
  forest_mem u v hv := (h.forest_mem u v hv).imp_right fun ⟨j, hj, hjs⟩ =>
    ⟨j, List.mem_append_left _ hj, hjs⟩
  failed_sublist := h.failed_sublist.append (List.Sublist.refl [i])
  failed_fail j hj := by
    rcases List.mem_append.mp hj with hj | hj
    · exact h.failed_fail j hj
    · rw [List.mem_singleton.mp hj]
      exact hi
  fail_mem j hj hjf := by
    rcases List.mem_append.mp hj with hj | hj
    · exact List.mem_append_left _ (h.fail_mem j hj hjf)
    · exact List.mem_append_right _ hj
  modified _ := .inr (.inl (List.append_ne_nil_of_right_ne_nil failed (List.cons_ne_nil i [])))
  modified_of _ := rfl
  good_root j hj hjg := by
    rcases List.mem_append.mp hj with hj | hj
    · exact h.good_root j hj hjg
    · rw [List.mem_singleton.mp hj, hi] at hjg
      cases hjg

/-- **A union**: the roots of the two ends of a good answer linked, its
edge added to the spanning forest, and the lists moved. -/
theorem link (h : ToMergeInv query g1 done (g, tm, failed)) {i s d : ℕ}
    (hi : (query i).2 = .good) (hsrc : (query i).1.src.toNat = s)
    (hdst : (query i).1.dst.toNat = d) (hs : s < g1.numNodes) (hd : d < g1.numNodes)
    (hne : root g.parent g1.numNodes s ≠ root g.parent g1.numNodes d) {a b : ℕ}
    (hab : LinksEnds g.parent g1.numNodes s d a b) :
    ToMergeInv query g1 (done ++ [i])
      ({ g.linkRoots a b with
          modified := true
          spanningForest := Function.update g.spanningForest (min s d)
            (insert (max s d) (g.spanningForest (min s d))) },
        Function.update (Function.update tm a (tm a ++ b :: tm b)) b [], failed) := by
  obtain ⟨ha, hb, hab'⟩ := hab.roots h.lists.isForest hs hd hne
  refine ⟨frame_update h.frame _ _ true _, h.lists.link ha hb hab', h.forest.link hs hd hne hab,
    fun u v hv => ?_, h.failed_sublist.trans (List.sublist_append_left done [i]), h.failed_fail,
    fun j hj hjf => ?_, fun _ => .inr (.inr ?_), fun _ => rfl, fun j hj hjg => ?_⟩
  · -- the new edge is the good answer of `i`
    have hi' : i ∈ done ++ [i] := List.mem_append_right done (List.mem_singleton_self i)
    have hold : v ∈ g.spanningForest u → v ∈ g1.spanningForest u ∨
        ∃ j ∈ done ++ [i], (query j).2 = .good ∧
          u = min (query j).1.src.toNat (query j).1.dst.toNat ∧
          v = max (query j).1.src.toNat (query j).1.dst.toNat := fun hv =>
      (h.forest_mem u v hv).imp_right fun ⟨j, hj, hjs⟩ => ⟨j, List.mem_append_left _ hj, hjs⟩
    rcases mem_update_insert.mp hv with hv | ⟨rfl, rfl⟩
    · exact hold hv
    · exact .inr ⟨i, hi', hi, by rw [hsrc, hdst], by rw [hsrc, hdst]⟩
  · rcases List.mem_append.mp hj with hj | hj
    · exact h.fail_mem j hj hjf
    · rw [List.mem_singleton.mp hj, hi] at hjf
      cases hjf
  · show (roots (ParentForest.link g.parent a b) g1.numNodes).card < _
    rw [roots_link hab']
    exact (Finset.card_erase_lt_of_mem hb).trans_le (Finset.card_le_card h.lists.roots_subset)
  · rcases List.mem_append.mp hj with hj | hj
    · obtain ⟨hjs, hjd, heq⟩ := h.good_root j hj hjg
      exact ⟨hjs, hjd, root_link_congr h.lists.isForest ha hb hab' hjs hjd heq⟩
    · rw [List.mem_singleton.mp hj, hsrc, hdst]
      refine ⟨hs, hd, ?_⟩
      show root (ParentForest.link g.parent a b) g1.numNodes s
        = root (ParentForest.link g.parent a b) g1.numNodes d
      rw [hab.root_link_eq h.lists.isForest hs hd hne hs (.inl rfl),
        hab.root_link_eq h.lists.isForest hs hd hne hd (.inr rfl)]

end ToMergeInv

/-- **One iteration of `supernodes_to_merge` keeps the invariant**, when a
good answer names two nodes of the graph. -/
theorem toMergeInv_toMergeStep {query : ℕ → Edge × SampleSketchRet} {g1 : Graph σ}
    {done : List ℕ} {acc : Graph σ × (ℕ → List ℕ) × List ℕ} (h : ToMergeInv query g1 done acc)
    {i : ℕ} (hgood : (query i).2 = .good →
      (query i).1.src.toNat < g1.numNodes ∧ (query i).1.dst.toNat < g1.numNodes) :
    ToMergeInv query g1 (done ++ [i]) (toMergeStep query acc i) := by
  obtain ⟨g, tm, failed⟩ := acc
  have hn : g.numNodes = g1.numNodes := h.numNodes_eq
  cases hq : (query i).2 with
  | fail =>
    simp only [toMergeStep, hq]
    exact h.fail hq
  | zero =>
    simp only [toMergeStep, hq]
    exact h.snoc (by simp [hq]) fun hg => absurd (hq.symm.trans hg) (by decide)
  | good =>
    obtain ⟨hs, hd⟩ := hgood hq
    have hf : IsForest g.parent g.numNodes := hn ▸ h.lists.isForest
    obtain ⟨hra, hrb, hg2, hc⟩ := getParent_pair hf (hn ▸ hs) (hn ▸ hd)
    rw [hn] at hra hrb hc
    simp only [toMergeStep, hq]
    set ra := g.getParent (query i).1.src.toNat
    set rb := ra.1.getParent (query i).1.dst.toNat
    -- the two `get_parent` calls only compressed the forest
    have h2 : ToMergeInv query g1 done (rb.1, tm, failed) := by
      rw [hg2]
      exact h.compress hc
    have hroot : ∀ y < g1.numNodes, root rb.1.parent g1.numNodes y = root g.parent g1.numNodes y :=
      fun y hy => hc.root_eq h.lists.isForest hy
    split
    · rename_i heq
      refine h2.snoc (by simp [hq]) fun _ => ⟨hs, hd, ?_⟩
      rw [hroot _ hs, hroot _ hd, ← hra, ← hrb, heq]
    · rename_i hne
      have hne' : root rb.1.parent g1.numNodes (query i).1.src.toNat
          ≠ root rb.1.parent g1.numNodes (query i).1.dst.toNat := by
        rw [hroot _ hs, hroot _ hd, ← hra, ← hrb]
        exact hne
      rcases unionBySize_cases rb.1 ra.2 rb.2 with hu | hu
      · rw [hu]
        refine h2.link hq rfl rfl hs hd hne' (.inr ⟨?_, ?_⟩)
        · rw [hroot _ hd, ← hrb]
        · rw [hroot _ hs, ← hra]
      · rw [hu]
        refine h2.link hq rfl rfl hs hd hne' (.inl ⟨?_, ?_⟩)
        · rw [hroot _ hs, ← hra]
        · rw [hroot _ hd, ← hrb]

/-- **The loop of `supernodes_to_merge` keeps its invariant** over all the
representatives, when every good answer names two nodes of the graph. -/
theorem toMergeInv_foldl {query : ℕ → Edge × SampleSketchRet} {g1 : Graph σ} {reps : List ℕ}
    (hforest : SpanningForestInv g1.numNodes g1.parent g1.spanningForest)
    (hgood : ∀ i ∈ reps, (query i).2 = .good →
      (query i).1.src.toNat < g1.numNodes ∧ (query i).1.dst.toNat < g1.numNodes) :
    ToMergeInv query g1 reps (reps.foldl (toMergeStep query) (g1, fun _ => [], [])) :=
  Loop.foldl_invariant (ToMergeInv query g1) (toMergeStep query) reps _
    (ToMergeInv.start hforest) fun _ i _ hpre h =>
      toMergeInv_toMergeStep h (hgood i (hpre.subset (List.mem_append_right _ (List.mem_singleton_self i))))

/-! ### The representatives of the next round -/

variable {query : ℕ → Edge × SampleSketchRet} {g1 : Graph σ} {reps : List ℕ}

/-- The representatives of the next round: the failed ones whose list is
empty, then every node below `num_nodes` whose list is not. -/
theorem mem_supernodesToMerge_reps {i : ℕ} :
    i ∈ (supernodesToMerge query reps g1).2.1 ↔
      (i ∈ (reps.foldl (toMergeStep query) (g1, fun _ => [], [])).2.2 ∧
          (supernodesToMerge query reps g1).2.2 i = []) ∨
        (i < g1.numNodes ∧ (supernodesToMerge query reps g1).2.2 i ≠ []) := by
  simp only [supernodesToMerge, List.mem_append, List.mem_filter, List.mem_range,
    List.isEmpty_iff, Bool.not_eq_true', List.isEmpty_eq_false_iff]

/-- The representatives of the next round are distinct, when those of this
round were. -/
theorem nodup_supernodesToMerge_reps
    (h : ToMergeInv query g1 reps (reps.foldl (toMergeStep query) (g1, fun _ => [], [])))
    (hnd : reps.Nodup) : (supernodesToMerge query reps g1).2.1.Nodup := by
  simp only [supernodesToMerge]
  rw [List.nodup_append]
  refine ⟨(h.failed_sublist.nodup hnd).filter _, List.nodup_range.filter _, ?_⟩
  intro x hx y hy hxy
  subst hxy
  simp only [List.mem_filter, List.isEmpty_iff] at hx
  simp only [List.mem_filter, Bool.not_eq_true', List.isEmpty_eq_false_iff] at hy
  exact hy.2 hx.2

/-- **Without a union**, the representatives of the next round are the
failed ones and every list is empty. -/
theorem supernodesToMerge_of_card_le
    (h : ToMergeInv query g1 reps (reps.foldl (toMergeStep query) (g1, fun _ => [], [])))
    (hcard : (roots g1.parent g1.numNodes).card
      ≤ (roots (supernodesToMerge query reps g1).1.parent g1.numNodes).card) :
    (∀ a, (supernodesToMerge query reps g1).2.2 a = []) ∧
      (supernodesToMerge query reps g1).2.1
        = (reps.foldl (toMergeStep query) (g1, fun _ => [], [])).2.2 := by
  have hnil := h.lists.eq_nil_of_card_le hcard
  refine ⟨hnil, ?_⟩
  simp only [supernodesToMerge]
  rw [List.filter_eq_self.mpr (fun a _ => by simp [hnil a]),
    List.filter_eq_nil_iff.mpr (fun a _ => by simp [hnil a]), List.append_nil]

end ToMerge

/-! ## Sampling, merging, and the round -/

section Round

variable {σ : Type} (ops : SketchOps σ) (conf : SupernodeConfig)

@[simp] theorem sampleSupernodes_fst (query : ℕ → Edge × SampleSketchRet) (reps : List ℕ)
    (g : Graph σ) :
    (sampleSupernodes ops query reps g).1
      = { g with supernodes := fun i =>
          if i ∈ reps then (Supernode.sample ops (g.supernodes i)).1 else g.supernodes i } :=
  rfl

/-- **When no sample threw**, every representative answered, and its answer
is stored. -/
theorem sampleSupernodes_of_none {query : ℕ → Edge × SampleSketchRet} {reps : List ℕ}
    {g : Graph σ} (h : (sampleSupernodes ops query reps g).2.2 = none) {i : ℕ} (hi : i ∈ reps) :
    (Supernode.sample ops (g.supernodes i)).2 = .ok ((sampleSupernodes ops query reps g).2.1 i) := by
  simp only [sampleSupernodes, List.getLast?_eq_none_iff, List.filterMap_eq_nil_iff] at h
  have hi' := h i hi
  simp only [sampleSupernodes, hi, if_true]
  cases hs : (Supernode.sample ops (g.supernodes i)).2 with
  | ok q => rfl
  | error e => simp [hs] at hi'

/-- Each representative's supernode and answer after sampling, when no
sample threw. -/
theorem sampleSupernodes_sample {query : ℕ → Edge × SampleSketchRet} {reps : List ℕ}
    {g : Graph σ} (h : (sampleSupernodes ops query reps g).2.2 = none) {i : ℕ} (hi : i ∈ reps) :
    Supernode.sample ops (g.supernodes i)
      = ((sampleSupernodes ops query reps g).1.supernodes i,
          .ok ((sampleSupernodes ops query reps g).2.1 i)) := by
  refine Prod.ext ?_ (sampleSupernodes_of_none ops h hi)
  simp only [sampleSupernodes_fst, hi, if_true]

/-- **What sampling did**: `g1` is `g` with the supernode of each
representative sampled; each of them answered, with the answer in
`query`. -/
structure Sampled (reps : List ℕ) (g g1 : Graph σ) (query : ℕ → Edge × SampleSketchRet) :
    Prop where
  frame : g1 = { g with supernodes := g1.supernodes }
  sample : ∀ i ∈ reps, Supernode.sample ops (g.supernodes i) = (g1.supernodes i, .ok (query i))
  other : ∀ i ∉ reps, g1.supernodes i = g.supernodes i

theorem sampled_of_none {query : ℕ → Edge × SampleSketchRet} {reps : List ℕ} {g : Graph σ}
    (h : (sampleSupernodes ops query reps g).2.2 = none) :
    Sampled ops reps g (sampleSupernodes ops query reps g).1
      (sampleSupernodes ops query reps g).2.1 where
  frame := rfl
  sample _ hi := sampleSupernodes_sample ops h hi
  other i hi := by simp only [sampleSupernodes_fst, hi, if_false]

namespace Sampled

variable {ops} {reps : List ℕ} {g g1 : Graph σ} {query : ℕ → Edge × SampleSketchRet}

theorem numNodes_eq (h : Sampled ops reps g g1 query) : g1.numNodes = g.numNodes := by
  have hframe := congrArg Graph.numNodes h.frame
  exact hframe

theorem parent_eq (h : Sampled ops reps g g1 query) : g1.parent = g.parent := by
  have hframe := congrArg Graph.parent h.frame
  exact hframe

theorem spanningForest_eq (h : Sampled ops reps g g1 query) :
    g1.spanningForest = g.spanningForest := by
  have hframe := congrArg Graph.spanningForest h.frame
  exact hframe

theorem modified_eq (h : Sampled ops reps g g1 query) : g1.modified = g.modified := by
  have hframe := congrArg Graph.modified h.frame
  exact hframe

end Sampled

/-- `merge_supernodes` changes only the supernodes of the new
representatives, each merged with its list. -/
@[simp] theorem mergeSupernodes_fst (copySupernodes : ℕ → Option (Supernode σ))
    (newReps : List ℕ) (toMerge : ℕ → List ℕ) (makeCopy : Bool) (g : Graph σ) :
    (mergeSupernodes ops copySupernodes newReps toMerge makeCopy g).1
      = { g with supernodes := fun a =>
          if a ∈ newReps then
            (toMerge a).foldl (fun s b => Supernode.merge ops s (g.supernodes b)) (g.supernodes a)
          else g.supernodes a } :=
  rfl

/-- The round when no sample threw. -/
theorem round_of_none {makeCopy : Bool} {st : BoruvkaState σ}
    (h : (sampleSupernodes ops st.query st.reps { st.graph with modified := false }).2.2 = none) :
    round ops makeCopy st = roundMerge ops makeCopy st
      (sampleSupernodes ops st.query st.reps { st.graph with modified := false }).1
      (sampleSupernodes ops st.query st.reps { st.graph with modified := false }).2.1 := by
  simp only [round, h]

/-- **What a round that threw nothing did**: no sample threw, and the rest
of the round is `roundMerge` on the answers. -/
theorem round_eq_none {makeCopy : Bool} {st st' : BoruvkaState σ}
    (h : round ops makeCopy st = (st', none)) :
    (sampleSupernodes ops st.query st.reps { st.graph with modified := false }).2.2 = none ∧
      roundMerge ops makeCopy st
        (sampleSupernodes ops st.query st.reps { st.graph with modified := false }).1
        (sampleSupernodes ops st.query st.reps { st.graph with modified := false }).2.1
        = (st', none) := by
  cases hs : (sampleSupernodes ops st.query st.reps { st.graph with modified := false }).2.2 with
  | some e =>
    simp only [round, hs, Prod.mk.injEq, reduceCtorEq, and_false] at h
  | none => exact ⟨rfl, (round_of_none ops hs).symm.trans h⟩

/-- A round that threw nothing sampled every representative and merged. -/
theorem exists_sampled_of_round {makeCopy : Bool} {st st' : BoruvkaState σ}
    (h : round ops makeCopy st = (st', none)) :
    ∃ g1 query, Sampled ops st.reps { st.graph with modified := false } g1 query ∧
      (roundMerge ops makeCopy st g1 query).1 = st' := by
  obtain ⟨hS, hm⟩ := round_eq_none ops h
  exact ⟨_, _, sampled_of_none ops hS, congrArg Prod.fst hm⟩

@[simp] theorem supernodesToMerge_fst (query : ℕ → Edge × SampleSketchRet) (reps : List ℕ)
    (g : Graph σ) :
    (supernodesToMerge query reps g).1 = (reps.foldl (toMergeStep query) (g, fun _ => [], [])).1 :=
  rfl

/-- **The loop goes on** only after a round that threw nothing and
modified the graph. -/
theorem boruvkaBody_eq_inl {makeCopy : Bool} {st st' : BoruvkaState σ}
    (h : boruvkaBody ops makeCopy st = .inl st') :
    round ops makeCopy st = (st', none) ∧ st'.graph.modified = true := by
  unfold boruvkaBody at h
  dsimp only at h
  split at h
  · cases h
  · rename_i hr
    split at h
    · rename_i hmod
      cases h
      exact ⟨Prod.ext rfl hr, hmod⟩
    · cases h

/-- **The loop stops without an exception** only after a round that threw
nothing and modified nothing. -/
theorem boruvkaBody_eq_inr_none {makeCopy : Bool} {st st' : BoruvkaState σ}
    (h : boruvkaBody ops makeCopy st = .inr (st', none)) :
    round ops makeCopy st = (st', none) ∧ st'.graph.modified = false := by
  unfold boruvkaBody at h
  dsimp only at h
  split at h
  · cases h
  · rename_i hr
    split at h
    · cases h
    · rename_i hmod
      cases h
      exact ⟨Prod.ext rfl hr, Bool.of_not_eq_true hmod⟩

/-- **The loop stops** in the state of the round it has just run. -/
theorem boruvkaBody_eq_inr {makeCopy : Bool} {st : BoruvkaState σ}
    {r : BoruvkaState σ × Option Exception} (h : boruvkaBody ops makeCopy st = .inr r) :
    r.1 = (round ops makeCopy st).1 := by
  unfold boruvkaBody at h
  dsimp only at h
  split at h
  · cases h
    rfl
  · split at h
    · cases h
    · cases h
      rfl

/-- **The graph after the merges**: the graph of `supernodes_to_merge`,
backed up to the disk in the first round of a continuing query, with the
merged supernodes. -/
theorem roundMerge_graph (makeCopy : Bool) (st : BoruvkaState σ) (g : Graph σ)
    (query : ℕ → Edge × SampleSketchRet) :
    (roundMerge ops makeCopy st g query).1.graph =
      { (if makeCopy && st.firstRound && !(supernodesToMerge query st.reps g).1.config.backupInMem
          then backupToDisk (supernodesToMerge query st.reps g).2.1 (supernodesToMerge query st.reps g).1
          else (supernodesToMerge query st.reps g).1) with
        supernodes := fun a =>
          if a ∈ (supernodesToMerge query st.reps g).2.1 then
            ((supernodesToMerge query st.reps g).2.2 a).foldl
              (fun s b => Supernode.merge ops s ((supernodesToMerge query st.reps g).1.supernodes b))
              ((supernodesToMerge query st.reps g).1.supernodes a)
          else (supernodesToMerge query st.reps g).1.supernodes a } := by
  dsimp only [roundMerge]
  split
  · rw [backupToDisk_eq]
    rfl
  · rfl

/-- The supernodes saved in memory: in the first round of a continuing
query, a copy of each new representative. -/
theorem roundMerge_copySupernodes (makeCopy : Bool) (st : BoruvkaState σ) (g : Graph σ)
    (query : ℕ → Edge × SampleSketchRet) (a : ℕ) :
    (roundMerge ops makeCopy st g query).1.copySupernodes a =
      if a ∈ (supernodesToMerge query st.reps g).2.1 ∧ (st.firstRound && makeCopy) = true ∧
          (supernodesToMerge query st.reps g).1.config.backupInMem = true
      then some (Supernode.copy ops ((supernodesToMerge query st.reps g).1.supernodes a))
      else st.copySupernodes a := by
  dsimp only [roundMerge, mergeSupernodes]
  split
  · rw [backupToDisk_config, backupToDisk_supernodes]
  · rfl

@[simp] theorem roundMerge_backedUp (makeCopy : Bool) (st : BoruvkaState σ) (g : Graph σ)
    (query : ℕ → Edge × SampleSketchRet) :
    (roundMerge ops makeCopy st g query).1.backedUp
      = if makeCopy && st.firstRound then (supernodesToMerge query st.reps g).2.1 else st.backedUp :=
  rfl

@[simp] theorem roundMerge_firstRound (makeCopy : Bool) (st : BoruvkaState σ) (g : Graph σ)
    (query : ℕ → Edge × SampleSketchRet) :
    (roundMerge ops makeCopy st g query).1.firstRound = false :=
  rfl

@[simp] theorem roundMerge_reps (makeCopy : Bool) (st : BoruvkaState σ) (g : Graph σ)
    (query : ℕ → Edge × SampleSketchRet) :
    (roundMerge ops makeCopy st g query).1.reps = (supernodesToMerge query st.reps g).2.1 := rfl

section Fields

variable (makeCopy : Bool) (st : BoruvkaState σ) (g : Graph σ) (query : ℕ → Edge × SampleSketchRet)

@[simp] theorem roundMerge_numNodes :
    (roundMerge ops makeCopy st g query).1.graph.numNodes
      = (supernodesToMerge query st.reps g).1.numNodes := by
  rw [roundMerge_graph]
  exact ite_backupToDisk_of _ _ Graph.numNodes (backupToDisk_numNodes) _

@[simp] theorem roundMerge_parent :
    (roundMerge ops makeCopy st g query).1.graph.parent
      = (supernodesToMerge query st.reps g).1.parent := by
  rw [roundMerge_graph]
  exact ite_backupToDisk_of _ _ Graph.parent (backupToDisk_parent) _

@[simp] theorem roundMerge_spanningForest :
    (roundMerge ops makeCopy st g query).1.graph.spanningForest
      = (supernodesToMerge query st.reps g).1.spanningForest := by
  rw [roundMerge_graph]
  exact ite_backupToDisk_of _ _ Graph.spanningForest (backupToDisk_spanningForest) _

@[simp] theorem roundMerge_modified :
    (roundMerge ops makeCopy st g query).1.graph.modified
      = (supernodesToMerge query st.reps g).1.modified := by
  rw [roundMerge_graph]
  exact ite_backupToDisk_of _ _ Graph.modified (backupToDisk_modified) _

@[simp] theorem roundMerge_config :
    (roundMerge ops makeCopy st g query).1.graph.config
      = (supernodesToMerge query st.reps g).1.config := by
  rw [roundMerge_graph]
  exact ite_backupToDisk_of _ _ Graph.config (backupToDisk_config) _

@[simp] theorem roundMerge_seed :
    (roundMerge ops makeCopy st g query).1.graph.seed
      = (supernodesToMerge query st.reps g).1.seed := by
  rw [roundMerge_graph]
  exact ite_backupToDisk_of _ _ Graph.seed (backupToDisk_seed) _

theorem roundMerge_supernodes (a : ℕ) :
    (roundMerge ops makeCopy st g query).1.graph.supernodes a =
      if a ∈ (supernodesToMerge query st.reps g).2.1 then
        ((supernodesToMerge query st.reps g).2.2 a).foldl
          (fun s b => Supernode.merge ops s ((supernodesToMerge query st.reps g).1.supernodes b))
          ((supernodesToMerge query st.reps g).1.supernodes a)
      else (supernodesToMerge query st.reps g).1.supernodes a := by
  rw [roundMerge_graph]

end Fields

/-! ### The state after the merges -/

section Merged

variable {ops} {makeCopy : Bool} {st : BoruvkaState σ} {g1 : Graph σ}
  {query : ℕ → Edge × SampleSketchRet}

/-- Off the new representatives every list is empty: a non-empty list
belongs to a root, and every root with one is a new representative. -/
theorem toMerge_eq_nil_of_not_mem
    (hinv : ToMergeInv query g1 st.reps (st.reps.foldl (toMergeStep query) (g1, fun _ => [], [])))
    {a : ℕ} (ha : a ∉ (supernodesToMerge query st.reps g1).2.1) :
    (supernodesToMerge query st.reps g1).2.2 a = [] := by
  by_contra hne
  have hlt : a < g1.numNodes := (mem_roots.mp (hinv.lists.mem_roots_of_ne_nil a hne)).1
  exact ha (mem_supernodesToMerge_reps.mpr (.inr ⟨hlt, hne⟩))

/-- **Every supernode after the merges** is the sampled one with the
supernodes of its list merged in; the list is empty off the new
representatives. -/
theorem roundMerge_supernodes_foldl
    (hinv : ToMergeInv query g1 st.reps (st.reps.foldl (toMergeStep query) (g1, fun _ => [], [])))
    (a : ℕ) :
    (roundMerge ops makeCopy st g1 query).1.graph.supernodes a =
      ((supernodesToMerge query st.reps g1).2.2 a).foldl
        (fun s b => Supernode.merge ops s (g1.supernodes b)) (g1.supernodes a) := by
  rw [roundMerge_supernodes, supernodesToMerge_fst, hinv.supernodes_eq]
  split
  · rfl
  · rename_i ha
    rw [toMerge_eq_nil_of_not_mem hinv ha, List.foldl_nil]

/-- The new representatives are nodes of the graph, when the old ones
were. -/
theorem roundMerge_reps_lt
    (hinv : ToMergeInv query g1 st.reps (st.reps.foldl (toMergeStep query) (g1, fun _ => [], [])))
    (hreps : ∀ i ∈ st.reps, i < g1.numNodes) {i : ℕ}
    (hi : i ∈ (roundMerge ops makeCopy st g1 query).1.reps) : i < g1.numNodes := by
  -- the failed representatives, and the nodes with something to merge
  rw [roundMerge_reps, mem_supernodesToMerge_reps] at hi
  rcases hi with ⟨hf, -⟩ | ⟨hlt, -⟩
  · exact hreps i (hinv.failed_sublist.subset hf)
  · exact hlt

/-- **A round that modified nothing** had no failure and made no union, so
it leaves no representative. -/
theorem roundMerge_reps_eq_nil
    (hinv : ToMergeInv query g1 st.reps (st.reps.foldl (toMergeStep query) (g1, fun _ => [], [])))
    (hmod : (roundMerge ops makeCopy st g1 query).1.graph.modified = false) :
    (roundMerge ops makeCopy st g1 query).1.reps = [] := by
  rw [roundMerge_modified, supernodesToMerge_fst] at hmod
  have hfailed : (st.reps.foldl (toMergeStep query) (g1, fun _ => [], [])).2.2 = [] := by
    by_contra hne
    rw [hinv.modified_of (.inl hne)] at hmod
    cases hmod
  have hcard : (roots g1.parent g1.numNodes).card
      ≤ (roots (supernodesToMerge query st.reps g1).1.parent g1.numNodes).card := by
    refine Nat.le_of_not_lt fun hlt => ?_
    rw [hinv.modified_of (.inr hlt)] at hmod
    cases hmod
  rw [roundMerge_reps, (supernodesToMerge_of_card_le hinv hcard).2, hfailed]

end Merged

end Round

end Graph

end GraphZeppelin

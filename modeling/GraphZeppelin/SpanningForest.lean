import GraphZeppelin.BoruvkaRound
import GraphZeppelin.Stream

/-!
# Spanning forests of the present graph

What a connectivity query computes, stated over the graph `E` it is asked
of: a disjoint-set forest `p` on the nodes below `n` and a spanning forest
`F` that agree (`SpanningForestInv`), every edge of `F` an edge of `E`, and
no edge of `E` leaving a class of `p` (`SpanningForestOf`). The classes of
`p` are then exactly the connected components of `E`, and `cc_from_dsu`
lists them (`isComponents_components`); `F` joins each class with one edge
fewer than its nodes.

The graph keeps such a forest in two ways. While `dsu_valid` holds, the
eager disjoint-set forest of `update` is one for the edges streamed so far:
toggling an edge inside a class and off `F` keeps it (`symmDiff`), and a
new edge between two classes links them (`link`). And Boruvka builds one
from the sketches.
-/

open scoped symmDiff

namespace GraphZeppelin

open ParentForest Connectivity GraphZeppelin.Graph

/-- **`p` and `F` are a spanning forest of `E`** on the nodes below `n`. -/
structure SpanningForestOf (E : Finset (ℕ × ℕ)) (n : ℕ) (p : ℕ → ℕ) (F : ℕ → Finset ℕ) :
    Prop where
  forest : SpanningForestInv n p F
  present : ∀ u v, v ∈ F u → (u, v) ∈ E
  closed : ∀ e ∈ E, root p n e.1 = root p n e.2

namespace SpanningForestOf

variable {E : Finset (ℕ × ℕ)} {n : ℕ} {p q : ℕ → ℕ} {F : ℕ → Finset ℕ}

/-- Every node is joined to its root by edges of the graph. -/
theorem connected_root (h : SpanningForestOf E n p F) {u : ℕ} (hu : u < n) :
    Connected E u (root p n u) :=
  Relation.EqvGen.mono (fun a b hab => hab.imp (h.present a b) (h.present b a)) _ _
    (h.forest.reach u hu)

/-- Two nodes of one class are connected in the graph. -/
theorem connected_of_root_eq (h : SpanningForestOf E n p F) {u v : ℕ} (hu : u < n) (hv : v < n)
    (huv : root p n u = root p n v) : Connected E u v := by
  have hv' := Relation.EqvGen.symm _ _ (h.connected_root hv)
  rw [← huv] at hv'
  exact Relation.EqvGen.trans _ _ _ (h.connected_root hu) hv'

/-- **Two nodes have one root exactly when they are connected** in the
graph. -/
theorem root_eq_iff (h : SpanningForestOf E n p F) {u v : ℕ} (hu : u < n) (hv : v < n) :
    root p n u = root p n v ↔ Connected E u v :=
  ⟨h.connected_of_root_eq hu hv, eq_of_connected h.closed⟩

/-- **The classes of the forest are the connected components** of the
graph, listed by increasing root as `cc_from_dsu` lists them. -/
theorem isComponents_components (h : SpanningForestOf E n p F) :
    IsComponents E (Finset.range n) (components p n) :=
  isComponents_map h.closed
    (fun _ hu _ hv huv =>
      h.connected_of_root_eq (Finset.mem_range.mp hu) (Finset.mem_range.mp hv) huv)
    (Finset.sort_nodup _ _) fun b => by rw [Finset.mem_sort, Finset.mem_image]

/-- Path compression keeps a spanning forest. -/
theorem compress (h : SpanningForestOf E n p F) (hE : EdgesBelow n E) (hc : Compressed p q n) :
    SpanningForestOf E n q F where
  forest := h.forest.compress hc
  present := h.present
  closed e he := by
    obtain ⟨h12, h2⟩ := hE e he
    rw [hc.root_eq h.forest.isForest (h12.trans h2), hc.root_eq h.forest.isForest h2]
    exact h.closed e he

/-- **Toggling edges inside classes**, none of them an edge of the
spanning forest, keeps it a spanning forest. -/
theorem symmDiff (h : SpanningForestOf E n p F) {T : Finset (ℕ × ℕ)}
    (hT : ∀ e ∈ T, root p n e.1 = root p n e.2) (hF : ∀ u v, v ∈ F u → (u, v) ∉ T) :
    SpanningForestOf (E ∆ T) n p F where
  forest := h.forest
  present u v hv := Finset.mem_symmDiff.mpr (.inl ⟨h.present u v hv, hF u v hv⟩)
  closed e he := by
    rcases Finset.mem_symmDiff.mp he with ⟨he, -⟩ | ⟨he, -⟩
    · exact h.closed e he
    · exact hT e he

/-- **A union through a new edge**: linking the roots of the ends of an
edge between two classes, and adding it to the graph and to the spanning
forest. -/
theorem link (h : SpanningForestOf E n p F) (hE : EdgesBelow n E) {s d : ℕ} (hs : s < n)
    (hd : d < n) (hne : root p n s ≠ root p n d) {a b : ℕ} (hab : LinksEnds p n s d a b) :
    SpanningForestOf (E ∆ {(min s d, max s d)}) n (ParentForest.link p a b)
      (Function.update F (min s d) (insert (max s d) (F (min s d)))) := by
  have hf := h.forest.isForest
  obtain ⟨ha, hb, hab'⟩ := hab.roots hf hs hd hne
  -- each end of the edge is one of `s` and `d`
  have hends : ∀ y, (y = min s d ∨ y = max s d) →
      root p n y = root p n s ∨ root p n y = root p n d := by
    rintro y (rfl | rfl)
    · rcases min_choice s d with h | h <;> rw [h] <;> simp
    · rcases max_choice s d with h | h <;> rw [h] <;> simp
  -- the edge was not present: its ends were in two classes
  have hnew : (min s d, max s d) ∉ E := by
    intro hin
    have heq := h.closed _ hin
    rcases le_total s d with hle | hle
    · rw [min_eq_left hle, max_eq_right hle] at heq
      exact hne heq
    · rw [min_eq_right hle, max_eq_left hle] at heq
      exact hne heq.symm
  have hlink : ∀ y < n, (y = min s d ∨ y = max s d) → root (ParentForest.link p a b) n y = a :=
    fun y hy hys => hab.root_link_eq hf hs hd hne hy (hends y hys)
  refine ⟨h.forest.link hs hd hne hab, fun u v hv => ?_, fun e he => ?_⟩
  · rcases mem_update_insert.mp hv with hv | ⟨rfl, rfl⟩
    · refine Finset.mem_symmDiff.mpr (.inl ⟨h.present u v hv, ?_⟩)
      rw [Finset.mem_singleton]
      intro heq
      exact hnew (heq ▸ h.present u v hv)
    · exact Finset.mem_symmDiff.mpr (.inr ⟨Finset.mem_singleton_self _, hnew⟩)
  · rcases Finset.mem_symmDiff.mp he with ⟨he, -⟩ | ⟨he, -⟩
    · obtain ⟨h12, h2⟩ := hE e he
      exact root_link_congr hf ha hb hab' (h12.trans h2) h2 (h.closed e he)
    · rw [Finset.mem_singleton.mp he]
      rw [hlink _ (by omega) (.inl rfl), hlink _ (by omega) (.inr rfl)]

end SpanningForestOf

end GraphZeppelin

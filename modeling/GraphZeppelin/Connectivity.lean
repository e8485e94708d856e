import Mathlib.Data.Finset.SymmDiff
import Mathlib.Data.Finset.Image
import Mathlib.Logic.Relation

/-!
# Cuts and connectivity

An undirected graph given by a finite set of edges, each an ordered pair
of its ends. Two nodes are **connected** when a path of edges joins them,
and the **cut** of a set of nodes is the set of edges with exactly one end
in it. A connectivity algorithm that summarises the cut of each class
linearly rests on three facts:

* `cut_union`: the cut of a disjoint union is the symmetric difference of
  the cuts, since an edge between the two parts is cut by both and cancels;
* `cut_symmDiff`: toggling edges toggles them in every cut;
* `eq_of_connected`: a labelling of the nodes that no edge crosses is
  constant on every connected component.

`IsComponents` says when a list of sets is the list of the connected
components of the graph on a set of nodes, each once; `isComponents_map`
builds one from a labelling whose classes are closed and connected.
-/

open scoped symmDiff

namespace Connectivity

variable {α : Type*}

/-- Two nodes joined by an edge, in either direction. -/
def Adj (E : Finset (α × α)) (u v : α) : Prop := (u, v) ∈ E ∨ (v, u) ∈ E

/-- Two nodes joined by a path of edges. -/
def Connected (E : Finset (α × α)) : α → α → Prop := Relation.EqvGen (Adj E)

theorem Connected.mono {E F : Finset (α × α)} (h : E ⊆ F) {u v : α} (huv : Connected E u v) :
    Connected F u v :=
  Relation.EqvGen.mono (fun _ _ hab => hab.imp (fun he => h he) (fun he => h he)) _ _ huv

/-- **No edge crosses a labelling**, so it is constant on connected
components. -/
theorem eq_of_connected {β : Type*} {E : Finset (α × α)} {lab : α → β}
    (hE : ∀ e ∈ E, lab e.1 = lab e.2) {u v : α} (h : Connected E u v) : lab u = lab v := by
  induction h with
  | rel a b hab =>
    rcases hab with hab | hab
    · exact hE _ hab
    · exact (hE _ hab).symm
  | refl => rfl
  | symm _ _ _ ih => exact ih.symm
  | trans _ _ _ _ _ ih₁ ih₂ => exact ih₁.trans ih₂

variable [DecidableEq α]

/-- **The cut** of a set of nodes: the edges with exactly one end in it. -/
def cut (E : Finset (α × α)) (S : Finset α) : Finset (α × α) :=
  E.filter fun e => ¬(e.1 ∈ S ↔ e.2 ∈ S)

@[simp] theorem mem_cut {E : Finset (α × α)} {S : Finset α} {e : α × α} :
    e ∈ cut E S ↔ e ∈ E ∧ ¬(e.1 ∈ S ↔ e.2 ∈ S) :=
  Finset.mem_filter

theorem cut_subset (E : Finset (α × α)) (S : Finset α) : cut E S ⊆ E :=
  Finset.filter_subset _ _

/-- **The cut of a disjoint union** is the symmetric difference of the
cuts. -/
theorem cut_union (E : Finset (α × α)) {S T : Finset α} (h : Disjoint S T) :
    cut E (S ∪ T) = cut E S ∆ cut E T := by
  ext e
  have h1 : e.1 ∈ S → e.1 ∉ T := fun hs ht => Finset.disjoint_left.mp h hs ht
  have h2 : e.2 ∈ S → e.2 ∉ T := fun hs ht => Finset.disjoint_left.mp h hs ht
  simp only [Finset.mem_symmDiff, mem_cut, Finset.mem_union]
  grind

/-- Toggling a set of edges toggles them in every cut. -/
theorem cut_symmDiff (E F : Finset (α × α)) (S : Finset α) :
    cut (E ∆ F) S = cut E S ∆ cut F S := by
  ext e
  simp only [Finset.mem_symmDiff, mem_cut]
  grind

/-- A set that no edge leaves has an empty cut. -/
theorem cut_eq_empty_iff {E : Finset (α × α)} {S : Finset α} :
    cut E S = ∅ ↔ ∀ e ∈ E, (e.1 ∈ S ↔ e.2 ∈ S) := by
  rw [cut, Finset.filter_eq_empty_iff]
  exact forall₂_congr fun _ _ => not_not

/-- A union built up one set at a time holds what the first set or one of
the others holds. -/
theorem mem_foldl_union {β : Type*} (T : β → Finset α) (l : List β) (S : Finset α) (u : α) :
    u ∈ l.foldl (fun S b => S ∪ T b) S ↔ u ∈ S ∨ ∃ b ∈ l, u ∈ T b := by
  induction l generalizing S with
  | nil => simp
  | cons b l ih =>
    rw [List.foldl_cons, ih, Finset.mem_union, List.exists_mem_cons_iff]
    exact or_assoc

/-! ## The list of components -/

/-- **`cc` lists the connected components of `E` on the nodes `V`**, each
once: every set in it is the component of one of its nodes, and every
node is in one of them. -/
structure IsComponents (E : Finset (α × α)) (V : Finset α) (cc : List (Finset α)) : Prop where
  component : ∀ S ∈ cc, ∃ u ∈ V, ∀ v, v ∈ S ↔ v ∈ V ∧ Connected E u v
  cover : ∀ u ∈ V, ∃ S ∈ cc, u ∈ S
  nodup : cc.Nodup

section Labels

variable {β : Type*} [DecidableEq β] {E : Finset (α × α)} {V : Finset α} {lab : α → β}

omit [DecidableEq α] in
/-- **The classes of a labelling are the components** when no edge crosses
it and nodes of one label are connected: listed by distinct labels of the
nodes, they are the list of components. -/
theorem isComponents_map (hE : ∀ e ∈ E, lab e.1 = lab e.2)
    (hconn : ∀ u ∈ V, ∀ v ∈ V, lab u = lab v → Connected E u v)
    {L : List β} (hnd : L.Nodup) (hL : ∀ b, b ∈ L ↔ ∃ u ∈ V, lab u = b) :
    IsComponents E V (L.map fun b => V.filter fun u => lab u = b) := by
  refine ⟨fun S hS => ?_, fun u hu => ?_, ?_⟩
  · obtain ⟨b, hb, rfl⟩ := List.mem_map.mp hS
    obtain ⟨u, hu, rfl⟩ := (hL b).mp hb
    refine ⟨u, hu, fun v => ?_⟩
    rw [Finset.mem_filter]
    constructor
    · rintro ⟨hv, hlab⟩
      exact ⟨hv, hconn u hu v hv hlab.symm⟩
    · rintro ⟨hv, huv⟩
      exact ⟨hv, (eq_of_connected hE huv).symm⟩
  · exact ⟨_, List.mem_map_of_mem ((hL (lab u)).mpr ⟨u, hu, rfl⟩),
      Finset.mem_filter.mpr ⟨hu, rfl⟩⟩
  · -- distinct labels of nodes have distinct, non-empty classes
    refine hnd.map_on fun b hb b' hb' heq => ?_
    obtain ⟨u, hu, rfl⟩ := (hL b).mp hb
    have hmem : u ∈ V.filter fun v => lab v = b' := by
      rw [← heq]
      exact Finset.mem_filter.mpr ⟨hu, rfl⟩
    exact (Finset.mem_filter.mp hmem).2

end Labels

namespace IsComponents

variable {E : Finset (α × α)} {V : Finset α} {cc cc' : List (Finset α)}

omit [DecidableEq α] in
/-- A set of a list of components is the component of each of its nodes. -/
theorem mem_iff_of_mem (h : IsComponents E V cc) {S : Finset α} (hS : S ∈ cc) {u : α}
    (hu : u ∈ S) (v : α) : v ∈ S ↔ v ∈ V ∧ Connected E u v := by
  obtain ⟨w, -, hw⟩ := h.component S hS
  have hwu : Connected E w u := ((hw u).mp hu).2
  rw [hw v]
  refine and_congr_right fun _ => ⟨fun hwv => ?_, fun huv => ?_⟩
  · exact Relation.EqvGen.trans _ _ _ (Relation.EqvGen.symm _ _ hwu) hwv
  · exact Relation.EqvGen.trans _ _ _ hwu huv

omit [DecidableEq α] in
/-- A list of the components holds every set of another. -/
theorem mem_of_mem (h : IsComponents E V cc) (h' : IsComponents E V cc') {S : Finset α}
    (hS : S ∈ cc) : S ∈ cc' := by
  obtain ⟨u, hu, hS'⟩ := h.component S hS
  -- the set of `cc'` that holds the node of `S` is `S`
  obtain ⟨T, hT, huT⟩ := h'.cover u hu
  have hST : S = T := by
    ext v
    rw [hS' v, h'.mem_iff_of_mem hT huT v]
  exact hST ▸ hT

omit [DecidableEq α] in
/-- **Two lists of the components of one graph differ only in order.** -/
theorem perm (h : IsComponents E V cc) (h' : IsComponents E V cc') : cc.Perm cc' :=
  (List.perm_ext_iff_of_nodup h.nodup h'.nodup).mpr fun _ => ⟨h.mem_of_mem h', h'.mem_of_mem h⟩

end IsComponents

end Connectivity

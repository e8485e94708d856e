import Mathlib.Data.Finset.Fold
import Mathlib.Data.Finset.SymmDiff
import Mathlib.Data.Finset.Powerset
import Mathlib.Data.Fintype.Card
import Mathlib.Data.Finset.Prod

/-!
# Parity sets and folds in a Boolean group

A stream of toggles `x₁, x₂, …` leaves exactly the elements that occurred
an odd number of times: its **parity set** `oddSet`. Any summary of the
stream that folds each element into an accumulator with an operation in
which every element is its own inverse – XOR on machine words – only sees
the parity set, whatever the order of the stream and however often an
element was toggled twice.

This module states that once, over an arbitrary commutative, associative
operation `op` with neutral element `e` and `op b b = e`:

* `oddSet_cons`, `oddSet_append`, `oddSet_perm`: the parity set of a list
  is a symmetric difference of singletons, so it forgets order and pairs;
* `fold_symmDiff`: folding over a symmetric difference combines the two
  folds, the GF(2)-linearity every XOR summary inherits;
* `foldl_eq_fold_oddSet`: a left fold of a list is the fold of its parity
  set;
* `exists_fold_eq_of_card_lt`: once a set has more subsets than the
  accumulator type has values, some non-empty subset folds to `e` – a
  linear dependency, which no choice of the summary can avoid;
* `exists_fold_eq_fold_ne_of_card_lt`: the same counting across two
  families, which yields a subset of each with one common non-trivial fold.
-/

open scoped symmDiff

variable {α β : Type*} [DecidableEq α]

namespace Parity

/-! ## The parity set of a list -/

/-- **The parity set** of a list: the elements occurring in it an odd
number of times. -/
def oddSet (l : List α) : Finset α :=
  l.toFinset.filter (fun x => l.count x % 2 = 1)

@[simp] theorem mem_oddSet {l : List α} {x : α} :
    x ∈ oddSet l ↔ l.count x % 2 = 1 := by
  unfold oddSet
  rw [Finset.mem_filter, List.mem_toFinset]
  constructor
  · exact fun h => h.2
  · intro h
    refine ⟨List.count_pos_iff.mp ?_, h⟩
    omega

@[simp] theorem oddSet_nil : oddSet ([] : List α) = ∅ := rfl

theorem mem_of_mem_oddSet {l : List α} {x : α} (h : x ∈ oddSet l) : x ∈ l :=
  List.mem_toFinset.mp (Finset.mem_filter.mp h).1

/-- Toggling `x` flips its membership and no other. -/
theorem oddSet_cons (x : α) (l : List α) :
    oddSet (x :: l) = {x} ∆ oddSet l := by
  ext y
  rw [mem_oddSet, Finset.mem_symmDiff, Finset.mem_singleton, mem_oddSet,
    List.count_cons]
  by_cases hy : y = x
  · subst hy
    simp only [beq_self_eq_true, if_true, true_and, not_true_eq_false, and_false,
      or_false]
    omega
  · have hb : (x == y) = false := beq_false_of_ne (Ne.symm hy)
    simp only [hb, Bool.false_eq_true, if_false, Nat.add_zero, hy, false_and,
      false_or, not_false_eq_true, and_true]

theorem oddSet_append (l₁ l₂ : List α) :
    oddSet (l₁ ++ l₂) = oddSet l₁ ∆ oddSet l₂ := by
  induction l₁ with
  | nil => rw [List.nil_append, oddSet_nil, ← Finset.bot_eq_empty, bot_symmDiff]
  | cons x l ih => rw [List.cons_append, oddSet_cons, ih, oddSet_cons, symmDiff_assoc]

/-- The parity set forgets the order of the toggles. -/
theorem oddSet_perm {l₁ l₂ : List α} (h : l₁.Perm l₂) : oddSet l₁ = oddSet l₂ := by
  ext x
  rw [mem_oddSet, mem_oddSet, h.count_eq]

/-- A pair of equal toggles cancels. -/
theorem oddSet_cons_cons (x : α) (l : List α) : oddSet (x :: x :: l) = oddSet l := by
  rw [oddSet_cons, oddSet_cons, ← symmDiff_assoc, symmDiff_self, bot_symmDiff]

/-- Filtering commutes with symmetric difference. -/
theorem filter_symmDiff (p : α → Prop) [DecidablePred p] (s t : Finset α) :
    (s ∆ t).filter p = s.filter p ∆ t.filter p := by
  ext x
  simp only [Finset.mem_filter, Finset.mem_symmDiff]
  grind

/-- A list without repetitions is its own parity set. -/
theorem oddSet_of_nodup {l : List α} (h : l.Nodup) : oddSet l = l.toFinset := by
  ext x
  rw [mem_oddSet, List.mem_toFinset]
  by_cases hx : x ∈ l
  · rw [List.count_eq_one_of_mem h hx]
    exact ⟨fun _ => hx, fun _ => rfl⟩
  · rw [List.count_eq_zero.mpr hx]
    exact ⟨fun h0 => absurd h0 (by decide), fun h1 => absurd h1 hx⟩

/-- A map injective on both sets maps their symmetric difference to the
symmetric difference of the images. -/
theorem image_symmDiff_of_injOn {γ : Type*} [DecidableEq γ] {f : α → γ} {U : Set α}
    (hf : Set.InjOn f U) {s t : Finset α} (hs : (s : Set α) ⊆ U) (ht : (t : Set α) ⊆ U) :
    (s ∆ t).image f = s.image f ∆ t.image f := by
  ext y
  simp only [Finset.mem_image, Finset.mem_symmDiff]
  constructor
  · rintro ⟨x, hx, rfl⟩
    rcases hx with ⟨hxs, hxt⟩ | ⟨hxt, hxs⟩
    · refine .inl ⟨⟨x, hxs, rfl⟩, ?_⟩
      rintro ⟨x', hx't, hx'⟩
      exact hxt (hf (ht hx't) (hs hxs) hx' ▸ hx't)
    · refine .inr ⟨⟨x, hxt, rfl⟩, ?_⟩
      rintro ⟨x', hx's, hx'⟩
      exact hxs (hf (hs hx's) (ht hxt) hx' ▸ hx's)
  · rintro (⟨⟨x, hxs, rfl⟩, hnt⟩ | ⟨⟨x, hxt, rfl⟩, hns⟩)
    · exact ⟨x, .inl ⟨hxs, fun hxt => hnt ⟨x, hxt, rfl⟩⟩, rfl⟩
    · exact ⟨x, .inr ⟨hxt, fun hxs => hns ⟨x, hxs, rfl⟩⟩, rfl⟩

/-! ## Folds in a Boolean group -/

section Fold

variable (op : β → β → β) [Std.Commutative op] [Std.Associative op] {e : β}
variable (hid : ∀ b, op e b = b) (hinv : ∀ b, op b b = e)
include hid hinv

/-- **Folding is linear over GF(2).** The elements of `s ∩ t` are folded
twice into `op (fold s) (fold t)`, and cancel. -/
theorem fold_symmDiff (f : α → β) (s t : Finset α) :
    (s ∆ t).fold op e f = op (s.fold op e f) (t.fold op e f) := by
  have hdisj : Disjoint (s ∆ t) (s ∩ t) := disjoint_symmDiff_inf s t
  have hunion : (s ∆ t).disjUnion (s ∩ t) hdisj = s ∪ t := by
    rw [Finset.disjUnion_eq_union]
    exact symmDiff_sup_inf s t
  have hsplit : (s ∪ t).fold op e f
      = op ((s ∆ t).fold op e f) ((s ∩ t).fold op e f) := by
    rw [← hunion, ← @Finset.fold_disjUnion α β op _ _ f (s ∆ t) (s ∩ t) e e hdisj, hid]
  -- `s ∩ t` is folded in twice on the left of `fold_union_inter`
  have hui := @Finset.fold_union_inter α β op _ _ f _ s t e e
  rw [hsplit, @Std.Associative.assoc _ op, hinv, @Std.Commutative.comm _ op _ _ e,
    hid] at hui
  exact hui

omit hinv in
/-- Elements mapped to the neutral element can be filtered out. -/
theorem fold_ite_eq_fold_filter (p : α → Prop) [DecidablePred p] (f : α → β)
    (s : Finset α) :
    s.fold op e (fun x => if p x then f x else e) = (s.filter p).fold op e f := by
  induction s using Finset.induction_on with
  | empty => rfl
  | insert x s hx ih =>
    rw [Finset.fold_insert hx, ih, Finset.filter_insert]
    by_cases hp : p x
    · rw [if_pos hp, if_pos hp, Finset.fold_insert (fun h => hx (Finset.mem_filter.mp h).1)]
    · rw [if_neg hp, if_neg hp, hid]

/-- **A left fold sees only the parity set** of the list it folds. -/
theorem foldl_eq_fold_oddSet (f : α → β) (l : List α) (b : β) :
    l.foldl (fun acc x => op acc (f x)) b = op b ((oddSet l).fold op e f) := by
  induction l generalizing b with
  | nil => rw [List.foldl_nil, oddSet_nil, Finset.fold_empty,
      @Std.Commutative.comm _ op _ b e, hid]
  | cons x l ih =>
    rw [List.foldl_cons, ih, oddSet_cons, fold_symmDiff op hid hinv,
      Finset.fold_singleton, @Std.Commutative.comm _ op _ (f x) e, hid,
      @Std.Associative.assoc _ op]

/-- **Dependencies are unavoidable.** When `t` has more subsets than `β`
has values, two different subsets fold to the same value, and their
symmetric difference is a non-empty subset folding to `e`. -/
theorem exists_fold_eq_of_card_lt [Fintype β] (f : α → β) (t : Finset α)
    (hcard : Fintype.card β < 2 ^ t.card) :
    ∃ s ⊆ t, s.Nonempty ∧ s.fold op e f = e := by
  have hlt : (Finset.univ : Finset β).card < t.powerset.card := by
    rw [Finset.card_univ, Finset.card_powerset]
    exact hcard
  obtain ⟨a, ha, b, hb, hne, heq⟩ :=
    @Finset.exists_ne_map_eq_of_card_lt_of_maps_to (Finset α) β t.powerset Finset.univ
      hlt (fun s => s.fold op e f) (fun _ _ => Finset.mem_coe.mpr (Finset.mem_univ _))
  refine ⟨a ∆ b, ?_, Finset.symmDiff_nonempty.mpr hne, ?_⟩
  · exact symmDiff_le_sup.trans
      (sup_le (Finset.mem_powerset.mp ha) (Finset.mem_powerset.mp hb))
  · rw [fold_symmDiff op hid hinv]
    exact (congrArg (op _) heq.symm).trans (hinv _)

/-- In a Boolean group two elements combine to `e` only when they are
equal. -/
theorem eq_of_op_eq {a b : β} (h : op a b = e) : a = b :=
  calc a = op e a := (hid a).symm
    _ = op (op b b) a := by rw [hinv]
    _ = op b (op a b) := by
      rw [@Std.Associative.assoc _ op, @Std.Commutative.comm _ op _ b a]
    _ = b := by rw [h, @Std.Commutative.comm _ op _ b e, hid]

/-- Two equal combinations `op h k = op h' k'` differ on both sides by the
same amount. -/
theorem op_eq_op_of_op_eq {h k h' k' : β} (heq : op h k = op h' k') :
    op h h' = op k k' := by
  apply eq_of_op_eq op hid hinv
  have hswap : op (op h h') (op k k') = op (op h k) (op h' k') := by ac_rfl
  rw [hswap, heq, hinv]

/-- **Dependencies across two families.** When `f` is injective on `A` and
on `B`, the subsets of `A` fold to at least `A.card` values and those of
`B` to at least `B.card`; once the pairs of such values outnumber `β`, two
pairs combine to the same value, and their differences are a subset of
`A` and a subset of `B` with the same non-trivial fold. -/
theorem exists_fold_eq_fold_ne_of_card_lt [Fintype β] [DecidableEq β] (f : α → β)
    (A B : Finset α) (hA : Set.InjOn f A) (hB : Set.InjOn f B)
    (hcard : Fintype.card β < A.card * B.card) :
    ∃ P ⊆ A, ∃ Q ⊆ B, P.fold op e f = Q.fold op e f ∧ P.fold op e f ≠ e := by
  have hsingle : ∀ a, ({a} : Finset α).fold op e f = f a := fun a => by
    rw [Finset.fold_singleton, @Std.Commutative.comm _ op _ (f a) e, hid]
  -- the values folds over subsets take, and at least one per element
  have hvalues : ∀ C : Finset α, Set.InjOn f C →
      C.card ≤ (C.powerset.image (fun P : Finset α => P.fold op e f)).card := fun C hC =>
    Finset.card_le_card_of_injOn f (fun a ha => Finset.mem_image.mpr
      ⟨{a}, Finset.mem_powerset.mpr (Finset.singleton_subset_iff.mpr ha), hsingle a⟩) hC
  have hlt : (Finset.univ : Finset β).card
      < ((A.powerset.image (fun P : Finset α => P.fold op e f)) ×ˢ
          (B.powerset.image (fun Q : Finset α => Q.fold op e f))).card := by
    rw [Finset.card_univ, Finset.card_product]
    exact lt_of_lt_of_le hcard (Nat.mul_le_mul (hvalues A hA) (hvalues B hB))
  obtain ⟨⟨h, k⟩, hhk, ⟨h', k'⟩, hhk', hne, heq⟩ :=
    @Finset.exists_ne_map_eq_of_card_lt_of_maps_to (β × β) β _ Finset.univ hlt
      (fun p => op p.1 p.2) (fun _ _ => Finset.mem_coe.mpr (Finset.mem_univ _))
  obtain ⟨hh, hk⟩ := Finset.mem_product.mp hhk
  obtain ⟨hh', hk'⟩ := Finset.mem_product.mp hhk'
  obtain ⟨P, hP, rfl⟩ := Finset.mem_image.mp hh
  obtain ⟨Q, hQ, rfl⟩ := Finset.mem_image.mp hk
  obtain ⟨P', hP', rfl⟩ := Finset.mem_image.mp hh'
  obtain ⟨Q', hQ', rfl⟩ := Finset.mem_image.mp hk'
  have hcross := op_eq_op_of_op_eq op hid hinv heq
  -- equal first components would force equal second components
  have hne' : P.fold op e f ≠ P'.fold op e f := by
    intro hPP
    rw [hPP, hinv] at hcross
    exact hne (Prod.ext hPP (eq_of_op_eq op hid hinv hcross.symm))
  refine ⟨P ∆ P', ?_, Q ∆ Q', ?_, ?_, ?_⟩
  · exact symmDiff_le_sup.trans
      (sup_le (Finset.mem_powerset.mp hP) (Finset.mem_powerset.mp hP'))
  · exact symmDiff_le_sup.trans
      (sup_le (Finset.mem_powerset.mp hQ) (Finset.mem_powerset.mp hQ'))
  · rw [fold_symmDiff op hid hinv, fold_symmDiff op hid hinv]
    exact hcross
  · rw [fold_symmDiff op hid hinv]
    exact fun h0 => hne' (eq_of_op_eq op hid hinv h0)

end Fold

end Parity

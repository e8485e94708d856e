import Mathlib.Data.List.Infix

/-!
# Loops

Two kinds of loop, and the rule that proves things about each.

A loop whose number of iterations is not fixed in advance (a do-while) is
modelled with fuel: `iterate body k a` runs `body` from `a` until it stops,
for at most `k` iterations, and is `none` when the fuel runs out first. A
loop whose continuing iterations keep an invariant and decrease a natural
measure stops within one more iteration than the measure
(`isSome_iterate`); its result is then described by the invariant at the
iteration that stops (`iterate_induction`). A loop whose invariant never
lets it stop is `none` for every fuel (`iterate_eq_none`): the loop of the
source does not end. Two loops compare iteration by iteration: a map of the
states that commutes with the bodies commutes with the loops
(`iterate_map`), and bodies that keep a relation between the states keep it
between the results, the two loops ending alike (`iterate_rel`); related
results stay related through the maps and the binds that follow
(`option_rel_map`, `option_rel_bind`), and by what holds of each of them
(`option_rel_of_mem`).

A loop over the elements of a list is a left fold. Its invariant is stated
of the part of the list processed so far (`foldl_invariant`), so that each
iteration may use that its element comes after the processed ones; a map
that commutes with each iteration on the states of an invariant commutes
with the fold (`foldl_map_of_invariant`).
-/

namespace Loop

section Iterate

variable {α β : Type*} (body : α → α ⊕ β)

/-- At most `k` iterations of `body` from `a`: the result of the iteration
that stops, or `none`. -/
def iterate : ℕ → α → Option β
  | 0, _ => none
  | k + 1, a =>
    match body a with
    | .inl a' => iterate k a'
    | .inr b => some b

@[simp] theorem iterate_zero (a : α) : iterate body 0 a = none := rfl

theorem iterate_succ (k : ℕ) (a : α) :
    iterate body (k + 1) a = match body a with
      | .inl a' => iterate body k a'
      | .inr b => some b := rfl

variable {body}

theorem iterate_of_inl {a a' : α} (h : body a = .inl a') (k : ℕ) :
    iterate body (k + 1) a = iterate body k a' := by
  rw [iterate_succ, h]

theorem iterate_of_inr {a : α} {b : β} (h : body a = .inr b) (k : ℕ) :
    iterate body (k + 1) a = some b := by
  rw [iterate_succ, h]

/-- **Enough fuel.** If every continuing iteration from a state of the
invariant leads to a state of the invariant with a smaller measure, the loop
stops within `μ a + 1` iterations. -/
theorem isSome_iterate (Inv : α → Prop) (μ : α → ℕ)
    (hstep : ∀ a a', Inv a → body a = .inl a' → Inv a' ∧ μ a' < μ a) :
    ∀ k a, Inv a → μ a < k → (iterate body k a).isSome
  | 0, _, _, hk => absurd hk (Nat.not_lt_zero _)
  | k + 1, a, ha, hk => by
    rw [iterate_succ]
    split
    · rename_i a' hbody
      obtain ⟨ha', hlt⟩ := hstep a a' ha hbody
      exact isSome_iterate Inv μ hstep k a' ha' (by omega)
    · rfl

/-- **What the loop returns**: if the invariant is kept by the continuing
iterations, the result is that of a stopping iteration from a state of the
invariant. -/
theorem iterate_induction (Inv : α → Prop)
    (hstep : ∀ a a', Inv a → body a = .inl a' → Inv a') :
    ∀ k a b, Inv a → iterate body k a = some b → ∃ a', Inv a' ∧ body a' = .inr b
  | 0, _, _, _, h => absurd h (by simp)
  | k + 1, a, b, ha, h => by
    rw [iterate_succ] at h
    split at h
    · rename_i a' hbody
      exact iterate_induction Inv hstep k a' b (hstep a a' ha hbody) h
    · rename_i b' hbody
      cases h
      exact ⟨a, ha, hbody⟩

/-- **A loop that never stops**: if every state of the invariant continues
to a state of the invariant, no fuel is enough. -/
theorem iterate_eq_none (Inv : α → Prop)
    (hstep : ∀ a, Inv a → ∃ a', body a = .inl a' ∧ Inv a') :
    ∀ k a, Inv a → iterate body k a = none
  | 0, _, _ => rfl
  | k + 1, a, ha => by
    obtain ⟨a', hbody, ha'⟩ := hstep a ha
    rw [iterate_of_inl hbody]
    exact iterate_eq_none Inv hstep k a' ha'

/-- **A loop commutes with a map of its states** when its body does: if on
every state of an invariant the second body, on the image, does what the
first does, mapped, and the continuing iterations keep the invariant, the
two loops end alike for every fuel. -/
theorem iterate_map {α' β' : Type*} {body' : α' → α' ⊕ β'} (Inv : α → Prop) (f : α → α')
    (g : β → β') (hstep : ∀ a, Inv a → body' (f a) = Sum.map f g (body a))
    (hinv : ∀ a a', Inv a → body a = .inl a' → Inv a') :
    ∀ k a, Inv a → iterate body' k (f a) = (iterate body k a).map g
  | 0, _, _ => rfl
  | k + 1, a, ha => by
    rw [iterate_succ, iterate_succ, hstep a ha]
    cases hb : body a with
    | inl a' => exact iterate_map Inv f g hstep hinv k a' (hinv a a' ha hb)
    | inr b => rfl

/-- **Two loops run in lockstep** on related states: if from related states
the two bodies continue to related states or stop with related results, the
two loops end alike for every fuel, with related results. -/
theorem iterate_rel {α' β' : Type*} {body' : α' → α' ⊕ β'} (R : α → α' → Prop)
    (S : β → β' → Prop) (hstep : ∀ a a', R a a' → Sum.LiftRel R S (body a) (body' a')) :
    ∀ k a a', R a a' → Option.Rel S (iterate body k a) (iterate body' k a')
  | 0, _, _, _ => .none
  | k + 1, a, a', h => by
    have hb := hstep a a' h
    rw [iterate_succ, iterate_succ]
    generalize body a = x, body' a' = x' at hb ⊢
    cases hb with
    | inl hr => exact iterate_rel R S hstep k _ _ hr
    | inr hs => exact .some hs

/-- The results of two related loops stay related under maps that take
related results to related values. -/
theorem option_rel_map {β' γ γ' : Type*} {S : β → β' → Prop} {T : γ → γ' → Prop} {f : β → γ}
    {f' : β' → γ'} (hf : ∀ b b', S b b' → T (f b) (f' b')) :
    ∀ {o : Option β} {o' : Option β'}, Option.Rel S o o' → Option.Rel T (o.map f) (o'.map f')
  | _, _, .none => .none
  | _, _, .some h => .some (hf _ _ h)

/-- Two related results stay related through binds that take them, the
first among the values of its option, to related options. -/
theorem option_rel_bind {β' γ γ' : Type*} {S : β → β' → Prop} {T : γ → γ' → Prop}
    {f : β → Option γ} {f' : β' → Option γ'} :
    ∀ {o : Option β} {o' : Option β'}, Option.Rel S o o' →
      (∀ b ∈ o, ∀ b', S b b' → Option.Rel T (f b) (f' b')) → Option.Rel T (o.bind f) (o'.bind f')
  | _, _, .none, _ => .none
  | _, _, .some h, hf => hf _ rfl _ h

/-- A relation between two results strengthened by what holds of the
values the two options hold. -/
theorem option_rel_of_mem {β' : Type*} {S T : β → β' → Prop} :
    ∀ {o : Option β} {o' : Option β'}, Option.Rel S o o' →
      (∀ b ∈ o, ∀ b' ∈ o', S b b' → T b b') → Option.Rel T o o'
  | _, _, .none, _ => .none
  | _, _, .some h, hT => .some (hT _ rfl _ rfl h)

end Iterate

section Fold

variable {α β : Type*}

/-- **The invariant of a fold**, carried along the processed prefix of the
list: it holds before the first element, and each iteration keeps it. -/
theorem foldl_invariant (P : List α → β → Prop) (f : β → α → β) (l : List α) (b : β)
    (h0 : P [] b) (hstep : ∀ done x b, done ++ [x] <+: l → P done b → P (done ++ [x]) (f b x)) :
    P l (l.foldl f b) := by
  induction l using List.reverseRecOn with
  | nil => exact h0
  | append_singleton l x ih =>
    rw [List.foldl_append, List.foldl_cons, List.foldl_nil]
    refine hstep l x _ (List.prefix_refl _) (ih fun done y c hpre hP => ?_)
    exact hstep done y c (hpre.trans (List.prefix_append l [x])) hP

/-- **A fold commutes with a map of its states** when each iteration does,
on the states of an invariant the iterations keep: the unconditional case
is the library's `List.foldl_hom`. -/
theorem foldl_map_of_invariant {γ : Type*} {f' : γ → α → γ} (Inv : β → Prop) (h : β → γ)
    (f : β → α → β) :
    ∀ l : List α, (∀ x ∈ l, ∀ b, Inv b → f' (h b) x = h (f b x) ∧ Inv (f b x)) →
      ∀ b, Inv b → l.foldl f' (h b) = h (l.foldl f b) ∧ Inv (l.foldl f b)
  | [], _, _, hb => ⟨rfl, hb⟩
  | x :: l, hstep, b, hb => by
    obtain ⟨hx, hinv⟩ := hstep x List.mem_cons_self b hb
    rw [List.foldl_cons, List.foldl_cons, hx]
    exact foldl_map_of_invariant Inv h f l (fun y hy => hstep y (List.mem_cons_of_mem x hy)) _ hinv

end Fold

end Loop

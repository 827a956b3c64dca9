import Mathlib.Data.Finset.Card

/-!
# Machinery/Budget — how many different things a record has been given

A record grows at its head.  `Spends C k l l'` says that what has been added since `l` are elements of
`C`, as often as one likes, and at most `k` others:

    l' = t ++ l        t ⊆ C ∪ T,   |T| ≤ k

`C` is what several steps have in common and pay for once; the others add up (`Spends.trans`).
-/

namespace Budget

variable {α : Type} [DecidableEq α] {C D : Finset α} {k m : ℕ} {l l₁ l' t : List α}

/-- The record grows by elements of `C`, and by `k` others at most. -/
def Spends (C : Finset α) (k : ℕ) (l l' : List α) : Prop :=
  ∃ T : Finset α, T.card ≤ k ∧ ∃ t, l' = t ++ l ∧ ∀ a ∈ t, a ∈ C ∪ T

namespace Spends

/-- Nothing but elements of `C`. -/
theorem of_mem (h : ∀ a ∈ t, a ∈ C) : Spends C 0 l (t ++ l) :=
  ⟨∅, le_rfl, t, rfl, fun a ha => Finset.mem_union_left _ (h a ha)⟩

theorem refl (C : Finset α) (k : ℕ) (l : List α) : Spends C k l l :=
  ⟨∅, Nat.zero_le k, [], rfl, nofun⟩

theorem of_eq (C : Finset α) (k : ℕ) (h : l' = l) : Spends C k l l' := h ▸ refl C k l

theorem mono (h : Spends C k l l') (hC : C ⊆ D) (hk : k ≤ m) : Spends D m l l' := by
  obtain ⟨T, hT, t, ht, hmem⟩ := h
  exact ⟨T, hT.trans hk, t, ht, fun a ha => Finset.union_subset_union_left hC (hmem a ha)⟩

/-- **One step after another.** -/
theorem trans (h : Spends C k l l₁) (h' : Spends C m l₁ l') : Spends C (k + m) l l' := by
  obtain ⟨T, hT, t, rfl, hmem⟩ := h
  obtain ⟨T', hT', t', rfl, hmem'⟩ := h'
  refine ⟨T ∪ T', (Finset.card_union_le T T').trans (Nat.add_le_add hT hT'), t' ++ t, ?_, fun a ha => ?_⟩
  · rw [List.append_assoc]
  · rw [← Finset.union_assoc]
    rcases List.mem_append.mp ha with ha | ha
    · rw [Finset.union_right_comm]
      exact Finset.mem_union_left _ (hmem' a ha)
    · exact Finset.mem_union_left _ (hmem a ha)

/-- What is not to be shared is paid for. -/
theorem pay (h : Spends (C ∪ D) k l l') : Spends C (D.card + k) l l' := by
  obtain ⟨T, hT, t, ht, hmem⟩ := h
  refine ⟨D ∪ T, (Finset.card_union_le D T).trans (Nat.add_le_add_left hT _), t, ht, fun a ha => ?_⟩
  rw [← Finset.union_assoc]
  exact hmem a ha

/-- **The bound.** -/
theorem card_le (h : Spends C k l l') : ∃ t, l' = t ++ l ∧ t.toFinset.card ≤ C.card + k := by
  obtain ⟨T, hT, t, ht, hmem⟩ := h
  refine ⟨t, ht, ?_⟩
  have hsub : t.toFinset ⊆ C ∪ T := fun a ha => hmem a (List.mem_toFinset.mp ha)
  calc t.toFinset.card
      ≤ (C ∪ T).card := Finset.card_le_card hsub
    _ ≤ C.card + T.card := Finset.card_union_le C T
    _ ≤ C.card + k := Nat.add_le_add_left hT _

end Spends

end Budget

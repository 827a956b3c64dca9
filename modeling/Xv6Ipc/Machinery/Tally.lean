import Mathlib.Algebra.Order.BigOperators.Group.Finset
import Mathlib.Data.Fintype.BigOperators

/-!
# Machinery/Tally — counting what places hold

A reference count is right when it is the number of places that hold a reference.  One place changes at a
time, so the sum over all places moves by what that place has gained or lost:

    ∑ (f with i ↦ v)  +  f i   =   ∑ f  +  v

-/

namespace Tally

open Function

variable {ι α : Type*} [Fintype ι] [DecidableEq α]

/-- One, if this is what a place holds. -/
def mark (o : Option α) (a : α) : ℕ := if o = some a then 1 else 0

@[simp] theorem mark_none (a : α) : mark (none : Option α) a = 0 := rfl

@[simp] theorem mark_self (a : α) : mark (some a) a = 1 := if_pos rfl

theorem mark_of_ne {a b : α} (h : a ≠ b) : mark (some a) b = 0 := if_neg fun he => h (Option.some.inj he)

theorem count_cons [BEq α] [LawfulBEq α] (a b : α) (l : List α) :
    (a :: l).count b = l.count b + mark (some a) b := by
  rw [List.count_cons, mark]
  congr 1
  exact if_congr (by simp) rfl rfl

/-- **How many places of a table hold `a`.** -/
def places (g : ι → Option α) (a : α) : ℕ := ∑ i, mark (g i) a

@[simp] theorem places_none (a : α) : places (fun _ : ι => (none : Option α)) a = 0 :=
  Finset.sum_eq_zero fun _ _ => rfl

/-- Some place holds something, if all of them together do. -/
theorem exists_pos {f : ι → ℕ} (h : 0 < ∑ i, f i) : ∃ i, 0 < f i := by
  by_contra hnone
  push Not at hnone
  exact Nat.lt_irrefl 0 (h.trans_eq (Finset.sum_eq_zero fun i _ => Nat.le_zero.mp (hnone i)))

theorem exists_of_places {g : ι → Option α} {a : α} (h : 0 < places g a) : ∃ i, g i = some a := by
  obtain ⟨i, hi⟩ := exists_pos h
  refine ⟨i, ?_⟩
  by_contra hne
  rw [mark, if_neg hne] at hi
  exact Nat.lt_irrefl 0 hi

/-- A place holds no more than all of them. -/
theorem le_sum (f : ι → ℕ) (i : ι) : f i ≤ ∑ j, f j :=
  Finset.single_le_sum (fun _ _ => Nat.zero_le _) (Finset.mem_univ i)

theorem places_pos {g : ι → Option α} {i : ι} {a : α} (h : g i = some a) : 0 < places g a := by
  have := le_sum (fun i => mark (g i) a) i
  rw [h, mark_self] at this
  exact this

theorem exists_of_card {P : ι → Prop} [DecidablePred P] (h : 0 < (Finset.univ.filter P).card) :
    ∃ i, P i := by
  obtain ⟨i, hi⟩ := Finset.card_pos.mp h
  exact ⟨i, (Finset.mem_filter.mp hi).2⟩

/-- …counted as a set. -/
theorem places_eq_card (g : ι → Option α) (a : α) :
    places g a = (Finset.univ.filter fun i => g i = some a).card := (Finset.card_filter _ _).symm

/-- The places of several tables. -/
theorem sum_places {κ : Type*} [Fintype κ] (g : κ → ι → Option α) (a : α) :
    ∑ k, places (g k) a = (Finset.univ.filter fun x : κ × ι => g x.1 x.2 = some a).card := by
  rw [Finset.card_filter, Fintype.sum_prod_type]
  rfl

variable [DecidableEq ι]

/-- **One place changes.** -/
theorem sum_update (f : ι → ℕ) (i : ι) (v : ℕ) :
    ∑ j, update f i v j + f i = ∑ j, f j + v := by
  rw [Finset.sum_update_of_mem (Finset.mem_univ i), ← Finset.sum_sdiff (Finset.subset_univ {i}),
    Finset.sum_singleton]
  omega

/-- …of a table, of whose entries something is counted. -/
theorem sum_apply_update {β : Type*} (g : β → ℕ) (f : ι → β) (i : ι) (v : β) :
    ∑ j, g (update f i v j) + g (f i) = ∑ j, g (f j) + g v := by
  have hfun : (fun j => g (update f i v j)) = update (fun j => g (f j)) i (g v) := by
    funext j
    by_cases hj : j = i
    · rw [hj, update_self, update_self]
    · rw [update_of_ne hj, update_of_ne hj]
  rw [hfun]
  exact sum_update (fun j => g (f j)) i (g v)

/-- Nor do two places. -/
theorem add_le_sum (f : ι → ℕ) {i j : ι} (hij : i ≠ j) : f i + f j ≤ ∑ k, f k := by
  rw [← Finset.sum_pair hij]
  exact Finset.sum_le_sum_of_subset (Finset.subset_univ _)

/-- Two places that hold the same. -/
theorem two_le_places {g : ι → Option α} {i j : ι} {a : α} (hij : i ≠ j) (hi : g i = some a)
    (hj : g j = some a) : 2 ≤ places g a := by
  have := add_le_sum (fun i => mark (g i) a) hij
  rwa [hi, hj, mark_self] at this

/-- A table written in one place, of whose entries a part is counted… -/
theorem places_apply_update {β : Type*} (g : β → Option α) (f : ι → β) (i : ι) (v : β) (a : α) :
    places (fun j => g (update f i v j)) a + mark (g (f i)) a
      = places (fun j => g (f j)) a + mark (g v) a :=
  sum_apply_update (fun b => mark (g b) a) f i v

/-- …or the whole. -/
theorem places_update (g : ι → Option α) (i : ι) (o : Option α) (a : α) :
    places (update g i o) a + mark (g i) a = places g a + mark o a :=
  places_apply_update id g i o a

attribute [irreducible] places

end Tally

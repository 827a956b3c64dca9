import Mathlib.Logic.Basic

/-!
# Machinery/Fuel — loops that run on fuel

A loop or a recursion that need not be bounded by its data is written with a number that goes down by
one with every turn.  It ends with `r` if some number is large enough, and then so is every larger one:

    f 0, f 1, …, f N = f (N + 1) = f (N + 2) = … = r          Settles f r

Calls in a row settle when each of them does, whatever numbers they need.
-/

namespace Fuel

universe u v

variable {α β : Type u} {ε : Type v} {f g : Nat → α} {r r' : α}

/-- **From some number on, the answer is `r`.** -/
def Settles (f : Nat → α) (r : α) : Prop := ∃ N, ∀ n, N ≤ n → f n = r

namespace Settles

theorem const (r : α) : Settles (fun _ => r) r := ⟨0, fun _ _ => rfl⟩

/-- There is one answer. -/
theorem unique (h : Settles f r) (h' : Settles f r') : r = r' := by
  obtain ⟨N, hN⟩ := h
  obtain ⟨N', hN'⟩ := h'
  exact (hN (max N N') (Nat.le_max_left _ _)).symm.trans (hN' (max N N') (Nat.le_max_right _ _))

/-- A turn, and what is left. -/
theorem turn (h : Settles g r) (hturn : ∀ n, f (n + 1) = g n) : Settles f r := by
  obtain ⟨N, hN⟩ := h
  refine ⟨N + 1, fun n hn => ?_⟩
  obtain ⟨k, rfl⟩ : ∃ k, n = k + 1 := ⟨n - 1, by omega⟩
  rw [hturn]
  exact hN k (by omega)

section Calls

variable {F : Nat → Except ε β} {f : Nat → Except ε α} {x : Except ε α} {a : α}
  {k : α → Nat → Except ε β} {b : Except ε β}

/-- **Two calls, one after the other.** -/
theorem bind (h : Settles f (.ok a)) (hk : Settles (k a) b) :
    Settles (fun n => f n >>= fun a => k a n) b := by
  obtain ⟨N, hN⟩ := h
  obtain ⟨N', hN'⟩ := hk
  refine ⟨max N N', fun n hn => ?_⟩
  change (f n >>= fun a => k a n) = b
  rw [hN n (Nat.le_trans (Nat.le_max_left _ _) hn)]
  exact hN' n (Nat.le_trans (Nat.le_max_right _ _) hn)

/-- A turn that begins with a call… -/
theorem call (h : Settles f (.ok a)) (hturn : ∀ n, F (n + 1) = f n >>= fun a => k a n)
    (hk : Settles (k a) b) : Settles F b := (h.bind hk).turn hturn

/-- …or with something that takes no fuel… -/
theorem start (h : x = .ok a) (hturn : ∀ n, F (n + 1) = x >>= fun a => k a n)
    (hk : Settles (k a) b) : Settles F b := call (h ▸ const (Except.ok a)) hturn hk

/-- …and goes on with it. -/
theorem known (h : x = .ok a) (hk : Settles (k a) b) : Settles (fun n => x >>= fun a => k a n) b :=
  bind (h ▸ const (Except.ok a)) hk

end Calls

end Settles

end Fuel

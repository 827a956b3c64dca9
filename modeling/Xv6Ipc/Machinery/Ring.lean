import Mathlib.Data.Int.ModEq
import Mathlib.Data.List.Basic

/-!
# Machinery/Ring — a queue in a ring with free-running counters

`N` cells hold the queue; the two counters are never reset but run modulo `M`, where `N` divides `M`
and is smaller.  Against the whole history of what was put in and what was taken out,

    taken ⊑ put,   tail = |put| mod M,   head = |taken| mod M,   |put| - |taken| ≤ N

the counters alone tell whether the ring is empty or full, however long the history.
-/

namespace Ring

variable {α : Type*} {N M : Nat}

/-- The cells and the two counters. -/
structure Buffer (α : Type*) where
  data : Nat → α
  head : Nat
  tail : Nat

/-- **A ring against its history**: `put` is all that was put in, `taken` all that was taken out. -/
structure Holds (N M : Nat) (b : Buffer α) (put taken : List α) : Prop where
  fifo : taken <+: put
  head : b.head = taken.length % M
  tail : b.tail = put.length % M
  room : put.length ≤ taken.length + N
  cells : ∀ j, taken.length ≤ j → j < put.length → put[j]? = some (b.data (j % N))

/-- Two numbers less than `M` apart are equal if they are so modulo `M`. -/
theorem eq_of_mod_eq {a b : Nat} (hle : a ≤ b) (hlt : b < a + M) (h : a % M = b % M) : a = b := by
  have hdvd : M ∣ b - a := (Nat.modEq_iff_dvd' hle).mp h
  have hzero := Nat.eq_zero_of_dvd_of_lt hdvd (by omega)
  omega

/-- …and their difference modulo `M` is their difference. -/
theorem mod_sub_mod {a b : Nat} (hle : a ≤ b) (hlt : b < a + M) :
    (b % M + M - a % M) % M = b - a := by
  have ha : a % M ≤ M := (Nat.mod_lt _ (by omega)).le
  have hsum : b % M + M - a % M + a ≡ b [MOD M] :=
    calc b % M + M - a % M + a
        ≡ b % M + M - a % M + a % M [MOD M] := Nat.ModEq.add_left _ (Nat.mod_modEq _ _).symm
      _ = b % M + M := by omega
      _ ≡ b % M [MOD M] := Nat.add_modEq_right
      _ ≡ b [MOD M] := Nat.mod_modEq _ _
  have hmod : b % M + M - a % M ≡ b - a [MOD M] := by
    refine Nat.ModEq.add_right_cancel' a ?_
    rwa [Nat.sub_add_cancel hle]
  rw [show (b % M + M - a % M) % M = (b - a) % M from hmod, Nat.mod_eq_of_lt (by omega)]

variable {b : Buffer α} {put taken : List α}

/-- The empty ring. -/
theorem Holds.nil (data : Nat → α) : Holds N M ⟨data, 0, 0⟩ [] [] :=
  ⟨List.prefix_rfl, rfl, rfl, Nat.zero_le _, by simp⟩

section Holds

variable (h : Holds N M b put taken) (hlt : N < M)
include h hlt

/-- **The counters agree just when all was taken.** -/
theorem Holds.empty_iff : b.head = b.tail ↔ taken = put := by
  have hlen := h.fifo.length_le
  have hroom := h.room
  rw [h.head, h.tail]
  constructor
  · intro hmod
    exact h.fifo.eq_of_length (eq_of_mod_eq hlen (by omega) hmod)
  · rintro rfl
    rfl

/-- **The counters are `N` apart just when there is no room.** -/
theorem Holds.full_iff : b.tail = (b.head + N) % M ↔ put.length = taken.length + N := by
  have hlen := h.fifo.length_le
  have hroom := h.room
  rw [h.head, h.tail, Nat.mod_add_mod]
  constructor
  · intro hmod
    exact eq_of_mod_eq hroom (by omega) hmod
  · rintro heq
    rw [heq]

/-- **Their difference modulo `M` is the number of elements in the queue.** -/
theorem Holds.size : (b.tail + M - b.head) % M = put.length - taken.length := by
  have hroom := h.room
  rw [h.head, h.tail]
  exact mod_sub_mod h.fifo.length_le (by omega)

/-- **Putting in**, when there is room. -/
theorem Holds.snoc (hdvd : N ∣ M) (x : α) (hroom : b.tail ≠ (b.head + N) % M) {data : Nat → α}
    (hx : data (b.tail % N) = x) (hdata : ∀ i, i ≠ b.tail % N → data i = b.data i) :
    Holds N M ⟨data, b.head, (b.tail + 1) % M⟩ (put ++ [x]) taken := by
  have hlen := h.fifo.length_le
  have hle := h.room
  have hless : put.length < taken.length + N :=
    lt_of_le_of_ne hle fun heq => hroom ((h.full_iff hlt).mpr heq)
  have hcell : b.tail % N = put.length % N := by
    rw [h.tail, Nat.mod_mod_of_dvd _ hdvd]
  refine ⟨h.fifo.trans (List.prefix_append _ _), h.head, ?_, ?_, fun j hj hj' => ?_⟩
  · rw [List.length_append, List.length_singleton, h.tail, Nat.mod_add_mod]
  · rw [List.length_append, List.length_singleton]
    omega
  · rw [List.length_append, List.length_singleton] at hj'
    rcases Nat.lt_succ_iff_lt_or_eq.mp hj' with hold | rfl
    · rw [List.getElem?_append_left hold, h.cells j hj hold]
      refine congrArg some (hdata _ ?_).symm
      -- A cell in use is not the one after the last.
      rw [hcell]
      intro hsame
      have := eq_of_mod_eq hold.le (by omega) hsame
      omega
    · rw [List.getElem?_concat_length, ← hcell]
      exact congrArg some hx.symm

/-- **Taking out**, when there is something. -/
theorem Holds.uncons (hdvd : N ∣ M) (hsome : b.head ≠ b.tail) :
    Holds N M ⟨b.data, (b.head + 1) % M, b.tail⟩ put (taken ++ [b.data (b.head % N)]) := by
  have hlen := h.fifo.length_le
  have hle := h.room
  have hless : taken.length < put.length := by
    refine lt_of_le_of_ne hlen fun heq => hsome ((h.empty_iff hlt).mpr ?_)
    exact h.fifo.eq_of_length heq
  have hcell : b.head % N = taken.length % N := by
    rw [h.head, Nat.mod_mod_of_dvd _ hdvd]
  refine ⟨?_, ?_, h.tail, ?_, fun j hj hj' => ?_⟩
  · obtain ⟨rest, hrest⟩ := h.fifo
    have hnext := h.cells _ le_rfl hless
    cases rest with
    | nil =>
      rw [List.append_nil] at hrest
      simp [hrest] at hless
    | cons y ys =>
      rw [← hrest, List.getElem?_append_right le_rfl, Nat.sub_self] at hnext
      rw [hcell, ← Option.some.inj hnext, ← hrest]
      exact ⟨ys, by simp⟩
  · rw [List.length_append, List.length_singleton, h.head, Nat.mod_add_mod]
  · rw [List.length_append, List.length_singleton]
    omega
  · rw [List.length_append, List.length_singleton] at hj
    exact h.cells j (by omega) hj'

end Holds

/-- The element last put in, while it is there. -/
theorem Holds.last {x : α} (h : Holds N M b (put ++ [x]) taken) (hdvd : N ∣ M) (hlt : N < M)
    (hfifo : taken <+: put) : b.data ((b.tail + (M - 1)) % M % N) = x := by
  have hcell := h.cells put.length hfifo.length_le (by simp)
  rw [List.getElem?_concat_length] at hcell
  rw [h.tail, List.length_append, List.length_singleton, Nat.mod_add_mod,
    show put.length + 1 + (M - 1) = put.length + M by omega, Nat.add_mod_right,
    Nat.mod_mod_of_dvd _ hdvd]
  exact (Option.some.inj hcell).symm

/-- **Taking back** what was put in last. -/
theorem Holds.unsnoc {x : α} (h : Holds N M b (put ++ [x]) taken) (hlt : N < M)
    (hfifo : taken <+: put) :
    Holds N M ⟨b.data, b.head, (b.tail + (M - 1)) % M⟩ put taken := by
  have hroom := h.room
  rw [List.length_append, List.length_singleton] at hroom
  refine ⟨hfifo, h.head, ?_, by omega, fun j hj hj' => ?_⟩
  · rw [h.tail, List.length_append, List.length_singleton, Nat.mod_add_mod,
      show put.length + 1 + (M - 1) = put.length + M by omega, Nat.add_mod_right]
  · rw [← h.cells j hj (by simp; omega), List.getElem?_append_left hj']

end Ring

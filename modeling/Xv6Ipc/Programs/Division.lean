import Xv6Ipc.Programs.Primes
import Mathlib.Data.Nat.Prime.Nth
import Mathlib.Data.Nat.PrimeFin

/-!
# Programs/Division — which numbers `primecalc` stores

`primecalc` divides `i` by every `j` with `2 ≤ j < i / 2`.  A composite number has a divisor there, with one
exception: for `4` there is no such `j`.

    i       2   3   4   5   6   7   8   9   …
    j       -   -   -   -   2   2   23  23  …
    stored  ✓   ✓   ✗   ✓       ✓                ✗: stored, and not a prime

So the values stored are the primes and `4`, in order, and they are the first primes only as long as there
are two of them at most.
-/

namespace Xv6.Primes

open Runs

variable {s s' : State} {e : Event} {i b : Nat}

/-! ## The loop over `j` -/

theorem flag_iff : flag i = true ↔ ∀ j, 2 ≤ j → j < i / 2 → ¬ j ∣ i := by
  have hrange : ∀ j, j ∈ List.range' 2 (i / 2 - 2) ↔ 2 ≤ j ∧ j < i / 2 := fun j => by
    rw [List.mem_range'_1]
    omega
  rw [flag, List.all_eq_true]
  refine forall_congr' fun j => ?_
  rw [hrange, decide_eq_true_iff, Nat.dvd_iff_mod_eq_zero, and_imp]

/-- A composite number without a divisor below its half is `4`. -/
theorem eq_four_of_flag (hi : 2 ≤ i) (hflag : flag i = true) (hprime : ¬ i.Prime) : i = 4 := by
  obtain ⟨k, hk⟩ := i.minFac_dvd
  have hmin : 2 ≤ i.minFac := (Nat.minFac_prime (by omega)).two_le
  have hsq : i.minFac * i.minFac ≤ i := sq i.minFac ▸ Nat.minFac_sq_le_self (by omega) hprime
  have hle : i / 2 ≤ i.minFac := Nat.le_of_not_lt fun hlt => flag_iff.mp hflag _ hmin hlt i.minFac_dvd
  -- the least factor is half of the number, and its square is no greater than the number
  have htwo : i.minFac * 2 ≤ i.minFac * i.minFac := Nat.mul_le_mul_left _ hmin
  have hthree : ¬ 3 ≤ i.minFac := fun h3 => by
    have := Nat.mul_le_mul_left i.minFac h3
    omega
  have hmin : i.minFac = 2 := by omega
  rw [hmin] at hk hle
  omega

/-- **What passes the loop**: the primes, and `4`. -/
theorem flag_eq_true_iff (hi : 2 ≤ i) : flag i = true ↔ i.Prime ∨ i = 4 := by
  constructor
  · intro hflag
    by_cases hprime : i.Prime
    · exact .inl hprime
    · exact .inr (eq_four_of_flag hi hflag hprime)
  · rintro (hprime | rfl)
    · refine flag_iff.mpr fun j hj hlt hdvd => ?_
      rcases hprime.eq_one_or_self_of_dvd j hdvd with h | h <;> omega
    · decide

/-! ## The loop over `i` -/

/-- The numbers below `b` that pass. -/
def sifted (b : Nat) : List Nat := (List.range' 2 (b - 2)).filter flag

theorem sifted_succ (hb : 2 ≤ b) : sifted (b + 1) = sifted b ++ if flag b then [b] else [] := by
  have hlen : b + 1 - 2 = b - 2 + 1 := by omega
  have hlast : 2 + 1 * (b - 2) = b := by omega
  rw [sifted, sifted, hlen, List.range'_concat, hlast, List.filter_append, List.filter_singleton]
  cases flag b <;> rfl

theorem mem_sifted : i ∈ sifted b ↔ 2 ≤ i ∧ i < b ∧ flag i = true := by
  have hrange : 2 ≤ i ∧ i < 2 + (b - 2) ↔ 2 ≤ i ∧ i < b := by omega
  rw [sifted, List.mem_filter, List.mem_range'_1, hrange, and_assoc]

/-- **The values stored are those that pass**, up to the number `primecalc` is at. -/
structure Sifted (s : State) : Prop where
  two_le : 2 ≤ s.primecalc.i
  flag : s.primecalc.pc = .storeNiz ∨ s.primecalc.pc = .storeIndex → flag s.primecalc.i = true
  stored : s.stored = sifted s.primecalc.i ∨ s.stored = sifted (s.primecalc.i + 1)
  fresh : s.primecalc.Fresh → s.stored = sifted s.primecalc.i
  done : s.primecalc.pc = .readKomanda ∨ s.primecalc.pc = .paused →
    s.stored = sifted (s.primecalc.i + 1)

namespace Sifted

theorem of_start (h : Start s) : Sifted s := by
  have hstored : s.stored = sifted s.primecalc.i := by
    rw [h.stored, h.primecalc]
    rfl
  refine ⟨?_, ?_, .inl hstored, fun _ => hstored, ?_⟩ <;> rw [h.primecalc]
  · rintro (hpc | hpc) <;> exact nomatch hpc
  · rintro (hpc | hpc) <;> exact nomatch hpc

theorem test (h : Sifted s) (hpc : s.primecalc.pc = .test) :
    Sifted { s with primecalc := s.primecalc.tested } := by
  have hstored := h.fresh (.inl hpc)
  rw [Calc.tested]
  cases hflag : Primes.flag s.primecalc.i with
  | true => exact ⟨h.two_le, fun _ => hflag, .inl hstored, fun _ => hstored, by simp⟩
  | false =>
    have hdone : s.stored = sifted (s.primecalc.i + 1) := by
      rw [sifted_succ h.two_le, hflag, if_neg Bool.false_ne_true, List.append_nil, hstored]
    exact ⟨h.two_le, by simp, .inr hdone, by simp [Calc.Fresh], fun _ => hdone⟩

theorem announce (h : Sifted s) (hpc : s.primecalc.pc = .storeIndex) :
    Sifted { s with
      cells := { s.cells with index := s.primecalc.n }
      primecalc := { s.primecalc with pc := .readKomanda, n := s.primecalc.n + 1 }
      stored := s.stored ++ [s.primecalc.i] } := by
  have hdone : s.stored ++ [s.primecalc.i] = sifted (s.primecalc.i + 1) := by
    rw [sifted_succ h.two_le, if_pos (h.flag (.inr hpc)), h.fresh (.inr (.inr hpc))]
  exact ⟨h.two_le, nofun, .inr hdone, nofun, fun _ => hdone⟩

/-- `primecalc` goes on to the next number, pauses or exits. -/
theorem obey (h : Sifted s) (hpc : s.primecalc.pc = .readKomanda ∨ s.primecalc.pc = .paused)
    {k : Calc} (hk : k = s.primecalc.next ∨ k = { s.primecalc with pc := .paused }
      ∨ k = { s.primecalc with pc := .exited }) : Sifted { s with primecalc := k } := by
  have hdone := h.done hpc
  rcases hk with rfl | rfl | rfl
  · exact ⟨h.two_le.trans (Nat.le_succ _), nofun, .inl hdone, fun _ => hdone, nofun⟩
  · exact ⟨h.two_le, nofun, .inr hdone, nofun, fun _ => hdone⟩
  · exact ⟨h.two_le, nofun, .inr hdone, nofun, fun _ => hdone⟩

theorem step (h : Sifted s) (hstep : Step s e s') : Sifted s' := by
  cases hstep with
  | test hpc => exact h.test hpc
  | store hpc =>
    have hstored := h.fresh (.inr (.inl hpc))
    exact ⟨h.two_le, fun _ => h.flag (.inl hpc), .inl hstored, fun _ => hstored, nofun⟩
  | fault hpc =>
    exact ⟨h.two_le, nofun, .inl (h.fresh (.inr (.inl hpc))), nofun, nofun⟩
  | announce hpc => exact h.announce hpc
  | obey hpc => exact h.obey (.inl hpc) (s.primecalc.obey_cases _)
  | poll hpc => exact h.obey (.inr hpc) (s.primecalc.poll_cases _ hpc)
  | _ => exact ⟨h.two_le, h.flag, h.stored, h.fresh, h.done⟩

end Sifted

theorem sifted_of_reach (h : Reach Start Step s) : Sifted s :=
  h.keeps (fun _ => .of_start) fun _ _ _ hs hstep => hs.step hstep

/-! ## Against the primes -/

/-- The first `k` primes. -/
noncomputable def firstPrimes (k : Nat) : List Nat := (List.range k).map (Nat.nth Nat.Prime)

theorem four_notMem_firstPrimes (k : Nat) : 4 ∉ firstPrimes k := fun hfour => by
  obtain ⟨m, -, hm⟩ := List.mem_map.mp hfour
  have hprime : Nat.Prime 4 := hm ▸ Nat.nth_mem_of_infinite Nat.infinite_setOfPred_prime m
  exact absurd hprime (by decide)

/-- The third value is `4`. -/
theorem sifted_eq_firstPrimes_iff (b : Nat) :
    sifted b = firstPrimes (sifted b).length ↔ (sifted b).length ≤ 2 := by
  by_cases hb : b ≤ 4
  · have hsmall : (sifted b).length ≤ 2 ∧ sifted b = firstPrimes (sifted b).length := by
      have htwo : sifted 3 = [2] := rfl
      have hthree : sifted 4 = [2, 3] := rfl
      rcases (by omega : b ≤ 2 ∨ b = 3 ∨ b = 4) with hb | rfl | rfl
      · have hnil : sifted b = [] := by
          rw [sifted, Nat.sub_eq_zero_of_le hb]
          rfl
        rw [hnil]
        exact ⟨Nat.zero_le _, rfl⟩
      · rw [htwo, firstPrimes]
        simp [List.range_succ, Nat.nth_prime_zero_eq_two]
      · rw [hthree, firstPrimes]
        simp [List.range_succ, Nat.nth_prime_zero_eq_two, Nat.nth_prime_one_eq_three]
    exact iff_of_true hsmall.2 hsmall.1
  · obtain ⟨m, rfl⟩ : ∃ m, b = m + 5 := ⟨b - 5, by omega⟩
    have hrange : List.range' 2 (m + 5 - 2) = 2 :: 3 :: 4 :: List.range' 5 m := by
      rw [show m + 5 - 2 = m + 3 from rfl]
      rfl
    have hlong : 2 < (sifted (m + 5)).length := by
      rw [sifted, hrange]
      simp [show Primes.flag 2 = true from rfl, show Primes.flag 3 = true from rfl,
        show Primes.flag 4 = true from rfl]
    refine iff_of_false (fun heq => ?_) (Nat.not_le.mpr hlong)
    have hfour : 4 ∈ sifted (m + 5) := mem_sifted.mpr ⟨by decide, by omega, rfl⟩
    exact four_notMem_firstPrimes _ (heq ▸ hfour)

/-- **`primecalc` stores the first primes as long as it has stored two values at most, and it decides every
number but `4` rightly.** -/
theorem primecalc_primes_iff (h : Reach Start Step s) :
    (s.stored = firstPrimes s.stored.length ↔ s.stored.length ≤ 2)
      ∧ ∀ i, 2 ≤ i → i < s.primecalc.i → ((i ∈ s.stored ↔ i.Prime) ↔ i ≠ 4) := by
  have hs := sifted_of_reach h
  refine ⟨?_, fun i hi hlt => ?_⟩
  · rcases hs.stored with hstored | hstored <;> rw [hstored] <;> exact sifted_eq_firstPrimes_iff _
  · have hmem : i ∈ s.stored ↔ i.Prime ∨ i = 4 := by
      rcases hs.stored with hstored | hstored <;>
        rw [hstored, mem_sifted, flag_eq_true_iff hi] <;> exact ⟨fun h => h.2.2, fun h => ⟨hi, by omega, h⟩⟩
    rw [hmem]
    constructor
    · rintro hiff rfl
      exact absurd (hiff.mp (.inr rfl)) (by decide)
    · intro hne
      exact or_iff_left hne

theorem primecalc_primes_iff_found :
    (found.stored = firstPrimes 1 ↔ 1 ≤ 2) ∧ found.stored = [2] :=
  ⟨(primecalc_primes_iff reach_found).1, rfl⟩

/-- **The third value stored is `4`.** -/
theorem primecalc_stores_four : ∃ s, Reach Start Step s ∧ s.primecalc.i = 5 ∧ s.stored = [2, 3, 4]
    ∧ s.stored ≠ firstPrimes 3 ∧ 4 ∈ s.stored ∧ ¬ Nat.Prime 4 := by
  have hthree := (((reach_found.step (.obey rfl)).step (.test rfl)).step (.store rfl)).step (.announce rfl)
  have hfour := (((hthree.step (.obey rfl)).step (.test rfl)).step (.store rfl)).step (.announce rfl)
  have hmem : 4 ∈ [2, 3, 4] := by decide
  exact ⟨_, hfour.step (.obey rfl), rfl, rfl, fun heq => four_notMem_firstPrimes 3 (heq ▸ hmem), hmem,
    by decide⟩

end Xv6.Primes

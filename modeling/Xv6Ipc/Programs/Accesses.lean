import Xv6Ipc.Programs.Division

/-!
# Programs/Accesses — where `niz` is read and written

`primestart` registers an array of `100000` words.  `primecalc` writes it at `n`, which only grows;
`primecom` reads it at `*idx - 1` and at `n - 1`:

    niz[n]          from 0 on, without an end
    niz[*idx - 1]   at -1 until the second value is announced
    niz[n - 1]      at -1 for number 0

These are the only ways out of the array: as long as every access has been inside, the next one is inside
unless it is one of the three.
-/

namespace Xv6.Primes

open Runs

variable {s s' : State} {e : Event}

/-- The position that `primecalc` is about to write. -/
def State.writes (s : State) : Option Nat :=
  if s.primecalc.pc = .storeNiz then some s.primecalc.n else none

/-- The position that `primecom` is about to read. -/
def ComPc.reads : ComPc → Option Nat
  | .latest _ (some r) none => some (u32 (r.index - 1))
  | .found n _ => some (u32 (u32 n - 1))
  | _ => none

/-- **What is about to be accessed is in the array.** -/
structure InBounds (s : State) : Prop where
  writes : ∀ k ∈ s.writes, k < NIZ
  reads : ∀ k ∈ s.primecom.reads, k < NIZ

/-- **The conditions**: a value is stored while there is room, the latest one is asked for when two have
been announced, and no one asks for number zero. -/
structure Careful (s : State) : Prop where
  room : s.primecalc.pc = .storeNiz → s.stored.length < NIZ
  latest : ∀ number r, s.primecom = .latest number (some r) none → 2 ≤ r.count
  prime : ∀ n r, s.primecom = .found n r → u32 n ≠ 0

/-- A step after an access inside the array. -/
def BoundedStep (s : State) (e : Event) (s' : State) : Prop := Step s e s' ∧ InBounds s

/-- What is announced is in the array. -/
structure Roomy (s : State) : Prop where
  le : s.stored.length ≤ NIZ
  lt : s.primecalc.pc = .storeIndex → s.stored.length < NIZ

theorem Calc.pc_ne_of_cases {k k' : Calc} (h : k' = k.next ∨ k' = { k with pc := .paused }
    ∨ k' = { k with pc := .exited }) : k'.pc ≠ .storeIndex := by
  rcases h with rfl | rfl | rfl <;> exact nofun

theorem Roomy.step (h : Roomy s) (hkept : Kept s) (hstep : BoundedStep s e s') : Roomy s' := by
  obtain ⟨hstep, hin⟩ := hstep
  cases hstep with
  | test =>
    refine ⟨h.le, fun hpc => ?_⟩
    rw [Calc.tested] at hpc
    split at hpc <;> cases hpc
  | store hpc =>
    have hn : s.primecalc.n < NIZ := hin.writes _ (by rw [State.writes, if_pos hpc]; rfl)
    exact ⟨h.le, fun _ => hkept.n ▸ hn⟩
  | fault => exact ⟨h.le, by rintro ⟨⟩⟩
  | announce hpc =>
    refine ⟨?_, by rintro ⟨⟩⟩
    rw [List.length_append, List.length_singleton]
    exact h.lt hpc
  | obey => exact ⟨h.le, fun hpc => absurd hpc (Calc.pc_ne_of_cases (s.primecalc.obey_cases _))⟩
  | poll hp => exact ⟨h.le, fun hpc => absurd hpc (Calc.pc_ne_of_cases (s.primecalc.poll_cases _ hp))⟩
  | _ => exact ⟨h.le, h.lt⟩

theorem roomy_of_reach (h : Reach Start BoundedStep s) : Kept s ∧ Roomy s := by
  refine h.keeps (P := fun s => Kept s ∧ Roomy s) (fun s hs => ⟨.of_start hs, ?_, ?_⟩)
    fun s e s' hs hstep => ⟨hs.1.step hstep.1, hs.2.step hs.1 hstep⟩
  · rw [hs.stored]
    exact Nat.zero_le _
  · rw [hs.primecalc]
    exact nofun

/-! ## An access and its condition -/

end Xv6.Primes

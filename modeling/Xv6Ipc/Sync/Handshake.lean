import Xv6Ipc.Machinery.Runs
import Xv6Ipc.Process.State

/-!
# Sync/Handshake — the `primecom` flag of `sys_get_shared`

One static flag is set by every `get_shared` of a `primecom` and cleared by every `get_shared`.  A
`primecalc` that finds it set goes to sleep, with the address of its `parent` field for a lock:

    struct proc      …  parent  tf    context  …
    struct spinlock     locked  name  cpu      pcs

so that `release` takes the parent for a lock that is held, and the context for the processor that
holds it.  It never is, and `release` panics.
-/

namespace Xv6.Handshake

open Function

/-- `sizeof(struct proc)`. -/
def sizeofProc : Nat := 408

/-- `&curproc->parent`, from the start of the table and the slot. -/
def parentAddr (ptable i : Nat) : Nat := ptable + sizeofProc * i + 24

/-- `curproc`. -/
def procAddr (ptable i : Nat) : Nat := ptable + sizeofProc * i

/-- `holding`. -/
def holding (locked cpu mycpu : Nat) : Prop := locked ≠ 0 ∧ cpu = mycpu

instance (locked cpu mycpu : Nat) : Decidable (holding locked cpu mycpu) :=
  inferInstanceAs (Decidable (_ ∧ _))

/-- The lines of `sys_get_shared`; `found` is what the table lookup will say. -/
inductive Pc where
  | idle
  | set (found : Bool)
  | test (found : Bool)
  | sleep (found : Bool)
  | asleep (found : Bool)
  | look (found : Bool)
  | hit
  | miss
  | wake
  | clear
  deriving DecidableEq

/-- The flag, and of each process its place in the call, the two fields a lock is read from, and the
channel it sleeps on. -/
structure State (n : Nat) where
  primecom : Bool
  pc : Fin n → Pc
  parent : Fin n → Nat
  context : Fin n → Nat
  chan : Fin n → Option Nat
  panicked : Bool

variable {n : Nat} (ptable : Nat) (name : Fin n → List Nat)

def IsCom (p : Fin n) : Prop := strncmp (cstr "primecom") (name p) SHAREDNAME = 0

def IsCalc (p : Fin n) : Prop := strncmp (cstr "primecalc") (name p) SHAREDNAME = 0

instance (p : Fin n) : Decidable (IsCom name p) := inferInstanceAs (Decidable (_ = _))

instance (p : Fin n) : Decidable (IsCalc name p) := inferInstanceAs (Decidable (_ = _))

/-- Go on to another line. -/
def State.goto (s : State n) (p : Fin n) (k : Pc) : State n := { s with pc := update s.pc p k }

/-- `sleep(curproc, &curproc->parent)`, up to the switch. -/
def sleep (s : State n) (p : Fin n) (mycpu : Nat) (found : Bool) : State n :=
  if holding (s.parent p) (s.context p) mycpu then
    { s.goto p (.asleep found) with
      parent := update s.parent p 0, context := update s.context p 0
      chan := update s.chan p (some (procAddr ptable p)) }
  else { s with panicked := true }

/-- The rest of it, once the process runs again. -/
def resume (s : State n) (p : Fin n) (mycpu : Nat) (found : Bool) : State n :=
  if holding (s.parent p) (s.context p) mycpu then { s with panicked := true }
  else
    { s.goto p (.look found) with
      parent := update s.parent p 1, context := update s.context p mycpu }

/-- `wakeup(&curproc->parent)`. -/
def wakeup (s : State n) (p : Fin n) : State n :=
  { s.goto p .clear with
    chan := fun q => if s.chan q = some (parentAddr ptable p) then none else s.chan q }

/-- **One line of `sys_get_shared`.**  The third argument of `strncmp` in the loop is
`SHAREDNAME && primecom`. -/
def line (s : State n) (p : Fin n) (mycpu : Nat) : Pc → State n
  | .idle => s
  | .set found =>
    { s.goto p (.test found) with primecom := if IsCom name p then true else s.primecom }
  | .test found =>
    s.goto p (if IsCalc name p ∧ s.primecom = true then .sleep found else .look found)
  | .sleep found => sleep ptable s p mycpu found
  | .asleep found => resume s p mycpu found
  | .look found => s.goto p (if found then .hit else .miss)
  | .hit =>
    s.goto p (if strncmp (cstr "primecom") (name p) (if s.primecom then 1 else 0) = 0 then .wake
      else .clear)
  | .miss => s.goto p (if IsCom name p ∧ s.primecom = true then .wake else .clear)
  | .wake => wakeup ptable s p
  | .clear => { s.goto p .idle with primecom := false }

/-- A call of `get_shared`, or the next line of one on some processor. -/
inductive Act (n : Nat) where
  | call (p : Fin n) (found : Bool)
  | line (p : Fin n) (mycpu : Nat)

variable (cpus : List Nat)

/-- **One step**, while nothing has panicked.  A process that sleeps, or waits for a lock, has none. -/
inductive Step : State n → Act n → State n → Prop
  | call {s p found} : s.panicked = false → s.pc p = .idle →
    Step s (.call p found) (s.goto p (.set found))
  | line {s p mycpu} : s.panicked = false → mycpu ∈ cpus → s.pc p ≠ .idle → s.chan p = none →
    (∀ found, s.pc p = .asleep found →
      s.parent p = 0 ∨ holding (s.parent p) (s.context p) mycpu) →
    Step s (.line p mycpu) (line ptable name s p mycpu (s.pc p))

/-- Nobody has called yet.  A process's context is on its kernel stack, not among the processors. -/
structure Start (s : State n) : Prop where
  primecom : s.primecom = false
  pc : ∀ p, s.pc p = .idle
  context : ∀ p, s.context p ∉ cpus
  chan : ∀ p, s.chan p = none
  panicked : s.panicked = false

/-- **What the handshake is to keep**: no panic, and every `primecalc` asleep in the call sleeps on a
channel that a `primecom` in the call is to wake. -/
structure Safe (s : State n) : Prop where
  calm : s.panicked = false
  heard : ∀ p found, IsCalc name p → s.pc p = .asleep found → ∀ c, s.chan p = some c →
    ∃ q, IsCom name q ∧ s.pc q ≠ .idle ∧ s.pc q ≠ .clear ∧ c = parentAddr ptable q

/-! ## When it is kept -/

variable {ptable name cpus} {s s' : State n} {a : Act n} {p : Fin n}

/-- Nobody is in `sleep`, and contexts are where they belong. -/
structure Calm (cpus : List Nat) (s : State n) : Prop where
  calm : s.panicked = false
  context : ∀ p, s.context p ∉ cpus
  awake : ∀ p found, s.pc p ≠ .sleep found ∧ s.pc p ≠ .asleep found

theorem Start.calm (h : Start cpus s) : Calm cpus s :=
  ⟨h.panicked, h.context, fun p found => by simp [h.pc p]⟩

/-- Moving to a line other than those of `sleep`. -/
theorem Calm.goto (h : Calm cpus s) {k : Pc} (hk : ∀ found, k ≠ .sleep found ∧ k ≠ .asleep found) :
    Calm cpus (s.goto p k) := by
  refine ⟨h.calm, h.context, fun q found => ?_⟩
  by_cases hq : q = p
  · subst hq
    simpa [State.goto] using hk found
  · simpa [State.goto, update_of_ne hq] using h.awake q found

variable (ptable name cpus) in
/-- A step by which no `primecalc` finds the flag set. -/
def Careful (s : State n) (a : Act n) (s' : State n) : Prop :=
  Step ptable name cpus s a s' ∧ ∀ p mycpu found, a = .line p mycpu → s.pc p = .test found →
    IsCalc name p → s.primecom = false

theorem Calm.step (h : Calm cpus s) (hstep : Careful ptable name cpus s a s') : Calm cpus s' := by
  obtain ⟨hstep, hcare⟩ := hstep
  cases hstep with
  | call => exact h.goto (by simp)
  | @line p mycpu _ hcpu hidle _ _ =>
    cases hpc : s.pc p with
    | idle => exact absurd hpc hidle
    | set found =>
      have hgo := h.goto (p := p) (k := .test found) (by simp)
      exact ⟨hgo.calm, hgo.context, hgo.awake⟩
    | test found =>
      refine h.goto fun found' => ?_
      rw [if_neg]
      · simp
      · rintro ⟨hcalc, hflag⟩
        simp [hcare p mycpu found rfl hpc hcalc] at hflag
    | sleep found => exact absurd hpc (h.awake p found).1
    | asleep found => exact absurd hpc (h.awake p found).2
    | look found => cases found <;> exact h.goto (by simp)
    | hit | miss => exact h.goto (by intro; split_ifs <;> simp)
    | wake =>
      have hgo := h.goto (p := p) (k := .clear) (by simp)
      exact ⟨hgo.calm, hgo.context, hgo.awake⟩
    | clear =>
      have hgo := h.goto (p := p) (k := .idle) (by simp)
      exact ⟨hgo.calm, hgo.context, hgo.awake⟩

/-- **As long as no `primecalc` finds the flag set, the handshake is safe.** -/
theorem handshake_safe (h : Runs.Reach (Start cpus) (Careful ptable name cpus) s) :
    Safe ptable name s := by
  have hcalm : Calm cpus s := h.keeps (fun _ hs => hs.calm) fun _ _ _ hs hstep => hs.step hstep
  exact ⟨hcalm.calm, fun p found _ hpc => absurd hpc (hcalm.awake p found).2⟩

/-- A `primecom` and a `primecalc`, on two processors. -/
def pair : State 2 where
  primecom := false
  pc _ := .idle
  parent _ := 0x80112000
  context _ := 0x8dffff9c
  chan _ := none
  panicked := false

def pairName (p : Fin 2) : List Nat := if p.val = 0 then cstr "primecom" else cstr "primecalc"

/-- Two `struct cpu`. -/
def pairCpus : List Nat := [0x80112780, 0x80112830]

theorem pair_start : Start pairCpus pair :=
  ⟨rfl, fun _ => rfl, fun _ => by simp [pair, pairCpus], fun _ => rfl, rfl⟩

/-- The `primecom` sets the flag. -/
theorem handshake_safe_pair : ∃ s : State 2, s.primecom = true ∧ Safe 0x80112d00 pairName s := by
  have hcall : Careful 0x80112d00 pairName pairCpus pair (.call 0 true) (pair.goto 0 (.set true)) :=
    ⟨.call rfl rfl, fun _ _ _ h => by simp at h⟩
  have hset := ((Runs.Reach.init pair_start).step hcall).step (e := .line 0 0x80112780)
    ⟨.line rfl (by decide) (by decide) rfl (by simp [State.goto]), fun p mycpu found h hpc => by
      obtain ⟨rfl, -⟩ := Act.line.inj h
      simp [State.goto] at hpc⟩
  exact ⟨_, by decide, handshake_safe hset⟩

/-- **A `primecalc` that calls while a `primecom` is in its call panics.** -/
theorem handshake_panics : ¬ ∀ s : State 2,
    Runs.Reach (Start pairCpus) (Step 0x80112d00 pairName pairCpus) s →
      Safe 0x80112d00 pairName s := by
  intro hall
  have hfirst : Step 0x80112d00 pairName pairCpus pair (.call 0 true) (pair.goto 0 (.set true)) :=
    .call rfl rfl
  have hcom := (Runs.Reach.init pair_start).step hfirst
  have hflag := hcom.step (e := .line 0 0x80112780)
    (.line rfl (by decide) (by decide) rfl (by simp [State.goto]))
  have hcalc := hflag.step (e := .call 1 true) (.call rfl (by decide))
  have hset := hcalc.step (e := .line 1 0x80112830)
    (.line rfl (by decide) (by decide) rfl (by simp [State.goto]))
  have htest := hset.step (e := .line 1 0x80112830)
    (.line rfl (by decide) (by decide) rfl (by decide))
  have hsleep := htest.step (e := .line 1 0x80112830)
    (.line rfl (by decide) (by decide) rfl (by decide))
  exact absurd (hall _ hsleep).calm (by decide)

end Xv6.Handshake

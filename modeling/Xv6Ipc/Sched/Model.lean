import Xv6Ipc.Machinery.Runs
import Xv6Ipc.Process.State

/-!
# Sched/Model — `proc.c` on several processors

Processors and processes share the process table under one lock.  A processor is in its scheduler or on
the kernel stack of a process, and the lock goes with it across `swtch`:

    scheduler   acquire ─▸ scan ─▸ pick p ──swtch──▸                    ──▸ kvm ─▸ scan ─▸ release
    process p                                        land ─▸ … ─▸ leave ──swtch──▸

`land` is what a process does with the lock it finds held when it is switched to, `leave` what it does
with the lock it has taken to change its state.  Everything that is done under the lock is done in one
step; `fork` touches its new slot without the lock, in steps of its own.
-/

namespace Xv6.Sched

open Runs
open Function (update)

/-! ## The table -/

/-- What a process sleeps on: a process, for `wait`, or something else. -/
inductive Chan where
  | proc (p : Slot)
  | other (a : Nat)
  deriving DecidableEq, Repr

/-- The fields of `struct proc` that the functions here read.  `regions` counts the entries of the
table of shared regions whose size is not zero. -/
structure Entry where
  state : ProcState
  pid : Int
  parent : Option Slot
  chan : Option Chan
  killed : Bool
  regions : Nat
  deriving DecidableEq, Repr

abbrev Table := Slot → Entry

/-- The first process's slot. -/
def initproc : Slot := ⟨0, NPROC_pos⟩

/-- `wakeup1`. -/
def wakeup1 (T : Table) (chan : Chan) : Table := fun q =>
  if (T q).state = .sleeping ∧ (T q).chan = some chan then { T q with state := .runnable } else T q

/-- `kill`: the answer and the table. -/
def kill (T : Table) (pid : Int) : Int × Table :=
  match (List.finRange NPROC).find? fun q => (T q).pid = pid with
  | none => (-1, T)
  | some q =>
    let state := if (T q).state = .sleeping then .runnable else (T q).state
    (0, update T q { T q with killed := true, state := state })

/-- The loop of `allocproc`. -/
def firstUnused (T : Table) : Option Slot :=
  (List.finRange NPROC).find? fun q => (T q).state = .unused

/-- The value of an `int` counter after `n` increments from zero. -/
def pidOf (n : Nat) : Int := i32 (n % 0x100000000)

/-- A turn of the loop of `exit` over the table. -/
def adoptTurn (p : Slot) (T : Table) (q : Slot) : Table :=
  if (T q).parent = some p then
    let T' := update T q { T q with parent := some initproc }
    if (T q).state = .zombie then wakeup1 T' (.proc initproc) else T'
  else T

/-- The loop. -/
@[irreducible] def adopt (T : Table) (p : Slot) : Table := (List.finRange NPROC).foldl (adoptTurn p) T

theorem adopt_eq (T : Table) (p : Slot) :
    adopt T p = (List.finRange NPROC).foldl (adoptTurn p) T := by
  unfold adopt
  rfl

/-- The wakeup of the parent, which a process without one does not have. -/
def wakeParent (T : Table) (p : Slot) : Table :=
  match (T p).parent with
  | none => T
  | some q => wakeup1 T (.proc q)

/-- `exit`, which clears the table of shared regions before it takes the lock. -/
def exitTable (T : Table) (p : Slot) : Table :=
  let T' := adopt (wakeParent T p) p
  update T' p { T' p with state := .zombie, regions := 0 }

/-- The child that the loop of `wait` finds. -/
def zombieOf (T : Table) (p : Slot) : Option Slot :=
  (List.finRange NPROC).find? fun q => (T q).parent = some p ∧ (T q).state = .zombie

/-- `havekids`. -/
def Havekids (T : Table) (p : Slot) : Prop := ∃ q, (T q).parent = some p

instance (T : Table) (p : Slot) : Decidable (Havekids T p) :=
  inferInstanceAs (Decidable (∃ q, (T q).parent = some p))

/-- What `wait` makes of a child. -/
def Entry.reaped (e : Entry) : Entry :=
  { e with pid := 0, parent := none, killed := false, state := .unused }

/-! ## Control -/

/-- Where a process is while it has a processor and not the lock: anywhere, or in `fork` with a new
slot, before or after it has written the slot's `parent`. -/
inductive Loc where
  | run
  | forking (q : Slot) (linked : Bool)
  deriving DecidableEq, Repr

/-- Where a process goes on when it is switched to: in `forkret`, in `yield`, in `sleep`, in the
`sleep` of `wait`, or nowhere. -/
inductive Cont where
  | enter
  | yielded (l : Loc)
  | slept
  | waited
  | dead
  deriving DecidableEq, Repr

/-- Where a process is: running, in the loop of `wait` with the lock, about to switch to the scheduler,
switched out, or switched to and with the lock still held. -/
inductive Ctl where
  | at (l : Loc)
  | scan
  | leave (k : Cont)
  | out (k : Cont)
  | land (k : Cont)
  deriving DecidableEq, Repr

/-- The saved context is the one to go on with. -/
def Ctl.restore : Ctl → Ctl
  | .out k => .land k
  | k => k

/-- Where a processor is: in the scheduler, outside or inside its loop, on the stack of a process, or
back from one with its page table still loaded. -/
inductive Where where
  | idle
  | scan (i : Nat)
  | on (p : Slot)
  | back (p : Slot)
  deriving DecidableEq, Repr

/-- `struct cpu`; `cr3` is the process whose page table is loaded, if it is not the kernel's. -/
structure Cpu where
  pc : Where
  proc : Option Slot
  cr3 : Option Slot
  deriving DecidableEq, Repr

/-- The system.  `kids` records the children that a process has forked or been given and not waited for,
`hit` whether somebody has killed the process by its own number. -/
structure State (n : Nat) where
  table : Table
  ctl : Slot → Ctl
  cpu : Fin n → Cpu
  lock : Option (Fin n)
  nextpid : Nat
  kids : Slot → List Slot
  hit : Slot → Bool

variable {n : Nat}

namespace State

/-- Write an entry of the table. -/
@[simps -fullyApplied]
def put (s : State n) (q : Slot) (e : Entry) : State n :=
  { s with table := update s.table q e }

/-- A process goes on to another place. -/
@[simps -fullyApplied]
def goto (s : State n) (p : Slot) (k : Ctl) : State n := { s with ctl := update s.ctl p k }

/-- So does a processor. -/
@[simps -fullyApplied]
def place (s : State n) (c : Fin n) (x : Cpu) : State n := { s with cpu := update s.cpu c x }

/-- Processor `c` takes the lock. -/
@[simps -fullyApplied]
def acquire (s : State n) (c : Fin n) : State n := { s with lock := some c }

/-- …and gives it up. -/
@[simps -fullyApplied]
def release (s : State n) : State n := { s with lock := none }

/-- Process `p` runs on processor `c`, without the lock. -/
structure Runs (s : State n) (c : Fin n) (p : Slot) (l : Loc) : Prop where
  pc : (s.cpu c).pc = .on p
  ctl : s.ctl p = .at l

/-- The abandoned children are given to the first process. -/
def adoptKids (s : State n) (p : Slot) : Slot → List Slot := fun q =>
  if q = initproc then s.kids initproc ++ s.kids p else if q = p then [] else s.kids q

end State

/-- What happens. -/
inductive Event where
  | sched
  | land (p : Slot)
  | yield (p : Slot)
  | sleep (p : Slot)
  | wakeup
  | kill (p : Slot) (pid ret : Int)
  | alloc (p q : Slot)
  | link (p q : Slot)
  | fork (p : Slot) (ret : Int)
  | shareMem (p : Slot)
  | exit (p : Slot)
  | wait (p : Slot)
  | reap (p q : Slot) (ret : Int)
  | nokids (p : Slot)
  | doze (p : Slot)
  deriving DecidableEq, Repr

/-- **One step.**  Those of a running process need the lock to be free if they are critical sections. -/
inductive Step : State n → Event → State n → Prop
  -- the scheduler
  | acquire {s c} : (s.cpu c).pc = .idle → s.lock = none →
    Step s .sched ((s.acquire c).place c { s.cpu c with pc := .scan 0 })
  | skip {s c i} (hi : i < NPROC) : (s.cpu c).pc = .scan i → (s.table ⟨i, hi⟩).state ≠ .runnable →
    Step s .sched (s.place c { s.cpu c with pc := .scan (i + 1) })
  | pick {s c i} (hi : i < NPROC) : (s.cpu c).pc = .scan i → (s.table ⟨i, hi⟩).state = .runnable →
    Step s .sched (((s.place c ⟨.on ⟨i, hi⟩, some ⟨i, hi⟩, some ⟨i, hi⟩⟩).put ⟨i, hi⟩
      { s.table ⟨i, hi⟩ with state := .running }).goto ⟨i, hi⟩ (s.ctl ⟨i, hi⟩).restore)
  | release {s c} : (s.cpu c).pc = .scan NPROC →
    Step s .sched (s.release.place c { s.cpu c with pc := .idle })
  | swtch {s c p k} : (s.cpu c).pc = .on p → s.ctl p = .leave k →
    Step s .sched ((s.place c { s.cpu c with pc := .back p }).goto p (.out k))
  | kvm {s c p} : (s.cpu c).pc = .back p → Step s .sched (s.place c ⟨.scan (p.val + 1), none, none⟩)
  -- a process is switched to
  | forkret {s c p} : (s.cpu c).pc = .on p → s.ctl p = .land .enter →
    Step s (.land p) (s.release.goto p (.at .run))
  | yielded {s c p l} : (s.cpu c).pc = .on p → s.ctl p = .land (.yielded l) →
    Step s (.land p) (s.release.goto p (.at l))
  | slept {s c p} : (s.cpu c).pc = .on p → s.ctl p = .land .slept →
    Step s (.land p) ((s.release.put p { s.table p with chan := none }).goto p (.at .run))
  | waited {s c p} : (s.cpu c).pc = .on p → s.ctl p = .land .waited →
    Step s (.land p) ((s.put p { s.table p with chan := none }).goto p .scan)
  -- and leaves
  | yield {s c p l} : s.Runs c p l → s.lock = none →
    Step s (.yield p) (((s.acquire c).put p { s.table p with state := .runnable }).goto p
      (.leave (.yielded l)))
  | sleep {s c p} (a : Nat) : s.Runs c p .run → s.lock = none →
    Step s (.sleep p) (((s.acquire c).put p
      { s.table p with chan := some (.other a), state := .sleeping }).goto p (.leave .slept))
  | exit {s c p} : s.Runs c p .run → s.lock = none → p ≠ initproc →
    Step s (.exit p) ({ s.acquire c with
      table := exitTable s.table p
      kids := s.adoptKids p }.goto p (.leave .dead))
  -- `wait`
  | wait {s c p} : s.Runs c p .run → s.lock = none → Step s (.wait p) ((s.acquire c).goto p .scan)
  | reap {s c p q} : (s.cpu c).pc = .on p → s.ctl p = .scan → zombieOf s.table p = some q →
    Step s (.reap p q (s.table q).pid) ({ s.release.put q (s.table q).reaped with
      kids := update s.kids p ((s.kids p).erase q) }.goto p (.at .run))
  | nokids {s c p} : (s.cpu c).pc = .on p → s.ctl p = .scan → zombieOf s.table p = none →
    ¬ Havekids s.table p ∨ (s.table p).killed = true →
    Step s (.nokids p) (s.release.goto p (.at .run))
  | doze {s c p} : (s.cpu c).pc = .on p → s.ctl p = .scan → zombieOf s.table p = none →
    Havekids s.table p → (s.table p).killed = false →
    Step s (.doze p) ((s.put p { s.table p with chan := some (.proc p), state := .sleeping }).goto p
      (.leave .waited))
  -- `wakeup`, also by interrupts, and `kill`
  | wakeup {s} (a : Nat) : s.lock = none →
    Step s .wakeup { s with table := wakeup1 s.table (.other a) }
  | kill {s c p} (pid : Int) : s.Runs c p .run → s.lock = none →
    Step s (.kill p pid (kill s.table pid).1) { s with
      table := (kill s.table pid).2
      hit := fun q => s.hit q || decide ((s.table q).pid = pid) }
  -- `fork`: the slot is taken, given a parent, and made runnable; it may be given back
  | full {s c p} : s.Runs c p .run → s.lock = none → firstUnused s.table = none →
    Step s (.fork p (-1)) s
  | alloc {s c p q} : s.Runs c p .run → s.lock = none → firstUnused s.table = some q →
    Step s (.alloc p q) ({ s.put q { s.table q with state := .embryo, pid := pidOf s.nextpid } with
      nextpid := s.nextpid + 1
      kids := update s.kids q []
      hit := update s.hit q false }.goto p (.at (.forking q false)))
  | fail {s c p q} : s.Runs c p (.forking q false) →
    Step s (.fork p (-1)) ((s.put q { s.table q with state := .unused }).goto p (.at .run))
  | link {s c p q} : s.Runs c p (.forking q false) →
    Step s (.link p q) (((s.put q { s.table q with parent := some p, regions := 0 }).goto q
      (.out .enter)).goto p (.at (.forking q true)))
  | crowded {s c p q} : s.Runs c p (.forking q true) → MAXSHARED ≤ (s.table p).regions →
    Step s (.fork p (-1)) ((s.put q
      { s.table q with state := .unused, regions := (s.table p).regions }).goto p (.at .run))
  | fork {s c p q} : s.Runs c p (.forking q true) → s.lock = none →
    (s.table p).regions < MAXSHARED →
    Step s (.fork p (s.table q).pid) ({ s.put q
        { s.table q with state := .runnable, regions := (s.table p).regions } with
      kids := update s.kids p (q :: s.kids p) }.goto p (.at .run))
  -- `share_mem`
  | shareMem {s c p} : s.Runs c p .run → (s.table p).regions < MAXSHARED →
    Step s (.shareMem p) (s.put p { s.table p with regions := (s.table p).regions + 1 })

/-- A slot never used. -/
def Entry.zero : Entry := ⟨.unused, 0, none, none, false, 0⟩

/-- `userinit` has made the first process, and every processor is in its scheduler. -/
structure Start (s : State n) : Prop where
  table : s.table = update (fun _ => .zero) initproc
    { Entry.zero with state := .runnable, pid := 1 }
  ctl : s.ctl = update (fun _ => .out .dead) initproc (.out .enter)
  cpu : ∀ c, s.cpu c = ⟨.idle, none, none⟩
  lock : s.lock = none
  nextpid : s.nextpid = 2
  kids : ∀ p, s.kids p = []
  hit : ∀ p, s.hit p = false

end Xv6.Sched

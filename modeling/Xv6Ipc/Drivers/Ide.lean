import Xv6Ipc.Machinery.Chain
import Xv6Ipc.Machinery.Runs
import Mathlib.Algebra.Group.Nat.Defs

/-!
# Drivers/Ide — the disk driver, line by line

`iderw` puts a locked buffer at the end of `idequeue` and sleeps; `ideintr` takes the first off, wakes
its owner and starts the next.  All of it happens under `idelock`, which `sleep` drops:

    iderw     lock ─idelock─▸ walk … ─▸ start ─▸ test ─▸ unlock ─▸
                                                  ▴ │ sleep
                                            woken ┘ └▸ asleep
    ideintr   lock ─idelock─▸ take ─▸ transfer ─▸ wake ─▸ next ─▸ unlock ─▸
    device    ready ─idestart─▸ busy ─▸ ready, and an interrupt

Processes outside of `iderw` lock and unlock buffers and do what they like to those that are theirs.
The memory disk of `memide.c` has the same interface and no queue.
-/

namespace Xv6.Ide

def FSSIZE : Nat := 1000

def BSIZE : Nat := 512

def SECTOR_SIZE : Nat := 512

/-- The parts of `struct buf` that both drivers look at; `D` is what a block of data is. -/
structure Buf (D : Type) where
  valid : Bool
  dirty : Bool
  dev : Nat
  blockno : Nat
  data : D

/-- `(b->flags & (B_VALID|B_DIRTY)) == B_VALID`. -/
def Buf.Synced {D : Type} (b : Buf D) : Prop := b.valid = true ∧ b.dirty = false

instance {D : Type} (b : Buf D) : Decidable b.Synced := inferInstanceAs (Decidable (_ ∧ _))

/-! ## The device -/

/-- What `idestart` writes to the ports `0x1f2` to `0x1f7`. -/
structure Command where
  count : Nat
  low : Nat
  mid : Nat
  high : Nat
  drive : Nat
  cmd : Nat
  deriving DecidableEq

def IDE_CMD_READ : Nat := 0x20

def IDE_CMD_WRITE : Nat := 0x30

def IDE_CMD_RDMUL : Nat := 0xc4

def IDE_CMD_WRMUL : Nat := 0xc5

def sectorPerBlock : Nat := BSIZE / SECTOR_SIZE

variable {P B D : Type}

/-- `idestart`; `none` is its panic, `incorrect blockno`. -/
def idestart (b : Buf D) : Option Command :=
  if FSSIZE ≤ b.blockno then none
  else
    let sector := b.blockno * sectorPerBlock
    let readCmd := if sectorPerBlock = 1 then IDE_CMD_READ else IDE_CMD_RDMUL
    let writeCmd := if sectorPerBlock = 1 then IDE_CMD_WRITE else IDE_CMD_WRMUL
    some
      { count := sectorPerBlock
        low := sector % 256
        mid := sector / 2 ^ 8 % 256
        high := sector / 2 ^ 16 % 256
        drive := 0xe0 ||| (b.dev % 2) <<< 4 ||| sector / 2 ^ 24 % 16
        cmd := if b.dirty = true then writeCmd else readCmd }

/-- The disk a command is for… -/
def Command.disk (c : Command) : Nat := c.drive / 16 % 2

/-- …and the sector… -/
def Command.sector (c : Command) : Nat :=
  c.low + 2 ^ 8 * c.mid + 2 ^ 16 * c.high + 2 ^ 24 * (c.drive % 16)

/-- …and whether it is one that writes. -/
def Command.writes (c : Command) : Prop := c.cmd = IDE_CMD_WRITE ∨ c.cmd = IDE_CMD_WRMUL

instance (c : Command) : Decidable c.writes := inferInstanceAs (Decidable (_ ∨ _))

/-- The device: it is ready, with `data` in its port and perhaps an error, or at a command, with the data
it was given. -/
inductive Device (D : Type) where
  | ready (data : D) (error : Bool)
  | busy (c : Command) (out : D)

/-! ## The driver -/

/-- Where a process is in `iderw`; `pp` in the loop that looks for the end is `&idequeue` (`none`) or
`&x->qnext`. -/
inductive Pc (B : Type) where
  | idle
  | lock (b : B)
  | walk (b : B) (pp : Option B)
  | start (b : B)
  | test (b : B)
  | asleep (b : B)
  | woken (b : B)
  | unlock (b : B)
  deriving DecidableEq

/-- Where the processor that gets the interrupts is in `ideintr`. -/
inductive Intr (B : Type) where
  | idle
  | lock
  | take
  | transfer (b : B)
  | wake (b : B)
  | next
  | unlock
  deriving DecidableEq

/-- Who holds `idelock`. -/
inductive Holder (P : Type) where
  | proc (p : P)
  | intr
  deriving DecidableEq

/-- The driver and the disks; `irq` counts interrupts raised and not yet taken. -/
structure State (P B D : Type) where
  idelock : Option (Holder P)
  idequeue : Option B
  qnext : B → Option B
  buf : B → Buf D
  holder : B → Option P
  pc : P → Pc B
  intr : Intr B
  irq : Nat
  device : Device D
  disk : Nat → Nat → D

/-- What is seen of a step. -/
inductive Event (P B D : Type) where
  | acquiresleep (p : P) (b : B)
  | releasesleep (p : P) (b : B)
  | edit (b : B) (x : Buf D)
  | call (p : P) (b : B)
  | append (p : P) (b : B)
  | start (b : B)
  | complete (error : Bool)
  | serve (b : B)
  | ret (p : P) (b : B)
  | tau

namespace State

/-- `*pp`. -/
def deref (s : State P B D) : Option B → Option B
  | none => s.idequeue
  | some x => s.qnext x

/-- `*pp = b`. -/
def assign [DecidableEq B] (s : State P B D) (b : B) : Option B → State P B D
  | none => { s with idequeue := some b }
  | some x => { s with qnext := Function.update s.qnext x (some b) }

end State

open Function (update)

variable [DecidableEq P] [DecidableEq B]

/-- **One step.**  A process that waits for a lock or for the device, or whose next line would panic, has
none. -/
inductive Step (havedisk1 : Bool) : State P B D → Event P B D → State P B D → Prop
  | acquiresleep {s p b} : s.pc p = .idle → s.holder b = none →
    Step havedisk1 s (.acquiresleep p b) { s with holder := update s.holder b (some p) }
  | releasesleep {s p b} : s.pc p = .idle → s.holder b = some p →
    Step havedisk1 s (.releasesleep p b) { s with holder := update s.holder b none }
  | edit {s b x} : (∀ p, s.holder b = some p → s.pc p = .idle) →
    Step havedisk1 s (.edit b x) { s with buf := update s.buf b x }
  | call {s p b} : s.pc p = .idle → s.holder b = some p → ¬ (s.buf b).Synced →
    ((s.buf b).dev ≠ 0 → havedisk1 = true) →
    Step havedisk1 s (.call p b) { s with pc := update s.pc p (.lock b) }
  | acquire {s p b} : s.pc p = .lock b → s.idelock = none →
    Step havedisk1 s .tau
      { s with
        idelock := some (.proc p), qnext := update s.qnext b none
        pc := update s.pc p (.walk b none) }
  | hop {s p b pp x} : s.pc p = .walk b pp → s.deref pp = some x →
    Step havedisk1 s .tau { s with pc := update s.pc p (.walk b (some x)) }
  | append {s p b pp} : s.pc p = .walk b pp → s.deref pp = none →
    Step havedisk1 s (.append p b) { s.assign b pp with pc := update s.pc p (.start b) }
  | start {s p b c x e} : s.pc p = .start b → s.idequeue = some b → s.device = .ready x e →
    idestart (s.buf b) = some c →
    Step havedisk1 s (.start b)
      { s with device := .busy c (s.buf b).data, pc := update s.pc p (.test b) }
  | skip {s p b} : s.pc p = .start b → s.idequeue ≠ some b →
    Step havedisk1 s .tau { s with pc := update s.pc p (.test b) }
  | sleep {s p b} : s.pc p = .test b → ¬ (s.buf b).Synced →
    Step havedisk1 s .tau { s with idelock := none, pc := update s.pc p (.asleep b) }
  | kill {s p b} : s.pc p = .asleep b →
    Step havedisk1 s .tau { s with pc := update s.pc p (.woken b) }
  | regain {s p b} : s.pc p = .woken b → s.idelock = none →
    Step havedisk1 s .tau { s with idelock := some (.proc p), pc := update s.pc p (.test b) }
  | leave {s p b} : s.pc p = .test b → (s.buf b).Synced →
    Step havedisk1 s .tau { s with pc := update s.pc p (.unlock b) }
  | ret {s p b} : s.pc p = .unlock b →
    Step havedisk1 s (.ret p b) { s with idelock := none, pc := update s.pc p .idle }
  | write {s c out e} : s.device = .busy c out → c.writes →
    Step havedisk1 s (.complete e)
      { s with
        device := .ready out e, irq := s.irq + 1
        disk := if e = true then s.disk
          else update s.disk c.disk (update (s.disk c.disk) c.sector out) }
  | read {s c out e} : s.device = .busy c out → ¬ c.writes →
    Step havedisk1 s (.complete e)
      { s with device := .ready (s.disk c.disk c.sector) e, irq := s.irq + 1 }
  | trap {s n} : s.intr = .idle → s.irq = n + 1 →
    Step havedisk1 s .tau { s with irq := n, intr := .lock }
  | intrAcquire {s} : s.intr = .lock → s.idelock = none →
    Step havedisk1 s .tau { s with idelock := some .intr, intr := .take }
  | empty {s} : s.intr = .take → s.idequeue = none →
    Step havedisk1 s .tau { s with intr := .unlock }
  | take {s b} : s.intr = .take → s.idequeue = some b →
    Step havedisk1 s .tau { s with idequeue := s.qnext b, intr := .transfer b }
  | served {s b} : s.intr = .transfer b → (s.buf b).dirty = true →
    Step havedisk1 s (.serve b)
      { s with buf := update s.buf b { s.buf b with valid := true, dirty := false }, intr := .wake b }
  | filled {s b x e} : s.intr = .transfer b → (s.buf b).dirty = false → s.device = .ready x e →
    Step havedisk1 s (.serve b)
      { s with
        buf := update s.buf b
          { s.buf b with valid := true, data := if e = true then (s.buf b).data else x }
        intr := .wake b }
  | wakeup {s b} : s.intr = .wake b →
    Step havedisk1 s .tau
      { s with pc := fun p => if s.pc p = .asleep b then .woken b else s.pc p, intr := .next }
  | next {s b c x e} : s.intr = .next → s.idequeue = some b → s.device = .ready x e →
    idestart (s.buf b) = some c →
    Step havedisk1 s (.start b) { s with device := .busy c (s.buf b).data, intr := .unlock }
  | last {s} : s.intr = .next → s.idequeue = none →
    Step havedisk1 s .tau { s with intr := .unlock }
  | intrRelease {s} : s.intr = .unlock →
    Step havedisk1 s .tau { s with idelock := none, intr := .idle }

/-- Before the first request. -/
structure Init (s : State P B D) : Prop where
  idelock : s.idelock = none
  idequeue : s.idequeue = none
  pc : ∀ p, s.pc p = .idle
  intr : s.intr = .idle
  irq : s.irq = 0
  device : ∃ x e, s.device = .ready x e

/-! ## The memory disk -/

/-- `memdisk` with the buffers; the image in it has `FSSIZE` blocks. -/
structure Mem (P B D : Type) where
  disk : Nat → D
  buf : B → Buf D
  holder : B → Option P

namespace Mem

/-- `iderw` of `memide.c`, called by `p`; `none` is a panic. -/
def iderw (m : Mem P B D) (p : P) (b : B) : Option (Mem P B D) :=
  if m.holder b ≠ some p then none
  else if (m.buf b).Synced then none
  else if (m.buf b).dev ≠ 1 then none
  else if FSSIZE ≤ (m.buf b).blockno then none
  else if (m.buf b).dirty = true then
    some
      { m with
        buf := update m.buf b { m.buf b with valid := true, dirty := false }
        disk := update m.disk (m.buf b).blockno (m.buf b).data }
  else
    some { m with
      buf := update m.buf b { m.buf b with valid := true, data := m.disk (m.buf b).blockno } }

/-- The same processes over the memory disk: a request is done when `ideintr` would be done with it. -/
def step (m : Mem P B D) : Event P B D → Option (Mem P B D)
  | .acquiresleep p b => some { m with holder := update m.holder b (some p) }
  | .releasesleep _ b => some { m with holder := update m.holder b none }
  | .edit b x => some { m with buf := update m.buf b x }
  | .serve b => (m.holder b).bind fun p => m.iderw p b
  | _ => some m

/-- …one event after the other. -/
def replay (m : Mem P B D) (es : List (Event P B D)) : Option (Mem P B D) := es.foldlM step m

end Mem

/-- The memory disk that holds what disk `1` holds. -/
def State.mem (s : State P B D) : Mem P B D := ⟨s.disk 1, s.buf, s.holder⟩

/-! ## Histories -/

/-- The requests of a run, in the order they came into the queue… -/
def appended (es : List (Event P B D)) : List B :=
  es.filterMap fun | .append _ b => some b | _ => none

/-- …in the order the device was given them… -/
def started (es : List (Event P B D)) : List B :=
  es.filterMap fun | .start b => some b | _ => none

/-- …and in the order they were done. -/
def served (es : List (Event P B D)) : List B :=
  es.filterMap fun | .serve b => some b | _ => none

/-- What the steps of a run have to meet: requests are for disk `1`, and the device reports no error. -/
def Plain (s : State P B D) : Event P B D → Prop
  | .call _ b => (s.buf b).dev = 1
  | .complete e => e = false
  | _ => True

end Xv6.Ide

import Mathlib.Data.List.Dedup
import Mathlib.Order.Nat
import Xv6Ipc.Machinery.Runs

/-!
# Log/Model — the redo log, one disk write at a time

The file-system calls in progress share one transaction.  Their writes stay in the buffer cache until
the last of them ends; then

    writeLog 0 ─▸ … ─▸ writeLog n ─head▸ install 0 ─▸ … ─▸ install n ─head▸ running

copies them to the log, writes the header, copies them home and clears the header, each arrow one
block written.  The machine may crash before any of them; it then comes up again through

    down ─▸ replay 0 ─▸ … ─▸ replay n ─head▸ running

which again may crash at any point.  `issued`, `pending` and `done` remember all writes, those of the
current transaction and those of the transactions whose header has reached the disk.
-/

namespace Xv6.Redo

open Function

def MAXOPBLOCKS : Nat := 10

def LOGSIZE : Nat := 30

/-- A block, as its 32-bit words. -/
abbrev Block := Nat → Nat

/-- Where the log lies: `log.start` and `log.size`, from the superblock.  The header is part of it. -/
structure Geom where
  start : Nat
  size : Nat
  pos : 0 < size

/-- The log as `mkfs` lays it out. -/
def mkfsLog : Geom := ⟨2, 30, by decide⟩

/-- A block of the log. -/
def Geom.InLog (g : Geom) (b : Nat) : Prop := g.start ≤ b ∧ b < g.start + g.size

/-- `struct logheader`. -/
structure Header where
  n : Nat
  block : Nat → Nat

/-- `struct log`, apart from where it lies. -/
structure Log where
  outstanding : Nat
  committing : Bool
  lh : Header

inductive Panic where
  | tooBig
  | outsideTrans
  deriving DecidableEq, Repr

/-! ## `log.c` -/

/-- The header a block holds. -/
def getHeader (x : Block) : Header := ⟨x 0, fun i => x (i + 1)⟩

/-- `write_head`, on the buffer. -/
def putHeader (h : Header) (x : Block) : Block := fun i =>
  if i = 0 then h.n else if i ≤ h.n then h.block (i - 1) else x i

/-- May `begin_op` go on? -/
def Log.Admits (l : Log) : Prop :=
  l.committing = false ∧ l.lh.n + (l.outstanding + 1) * MAXOPBLOCKS ≤ LOGSIZE

instance (l : Log) : Decidable l.Admits := inferInstanceAs (Decidable (_ ∧ _))

/-- The loop of `log_write`: the entry for a block, or the first free one. -/
def Header.find (h : Header) (b : Nat) : Nat :=
  ((List.range h.n).find? fun i => h.block i = b).getD h.n

/-- `log_write`, and the entry of `lh.block` it writes. -/
def logWrite (size : Nat) (l : Log) (b : Nat) : Except Panic (Nat × Log) :=
  if LOGSIZE ≤ l.lh.n ∨ size ≤ l.lh.n + 1 then .error .tooBig
  else if l.outstanding < 1 then .error .outsideTrans
  else
    .ok (l.lh.find b, { l with
      lh := ⟨if l.lh.find b = l.lh.n then l.lh.n + 1 else l.lh.n,
        update l.lh.block (l.lh.find b) b⟩ })

/-! ## The machine -/

/-- A block written by a call, with what it is to hold. -/
structure Write where
  op : Nat
  block : Nat
  data : Block

/-- Where the kernel is: between two lines that write to the disk, or down. -/
inductive Mode where
  | running
  | writeLog (tail : Nat)
  | install (tail : Nat)
  | down
  | replay (tail : Nat)
  deriving DecidableEq

/-- Is the kernel up, past recovery? -/
def Mode.up : Mode → Bool
  | .running => true
  | .writeLog _ => true
  | .install _ => true
  | .down => false
  | .replay _ => false

structure State where
  disk : Nat → Block
  cache : Nat → Option Block
  dirty : Nat → Bool
  log : Log
  mode : Mode
  ops : List Nat
  next : Nat
  issued : List Write
  pending : List Write
  done : List Write

/-- `bread`, as far as the contents go. -/
def State.bread (s : State) (b : Nat) : Block := (s.cache b).getD (s.disk b)

/-- `bwrite`: the disk is written through. -/
def State.bwrite (s : State) (b : Nat) (x : Block) : State :=
  { s with
    disk := update s.disk b x, cache := update s.cache b (some x)
    dirty := update s.dirty b false }

/-- Forget the transaction: `log.lh.n = 0`. -/
def Log.clear (l : Log) : Log := { l with lh := { l.lh with n := 0 } }

/-- What a crash leaves: the disk, and the writes that were made. -/
def State.crash (s : State) : State :=
  { s with
    cache := fun _ => none, dirty := fun _ => false, log := ⟨0, false, ⟨0, fun _ => 0⟩⟩
    mode := .down, ops := [], pending := [] }

/-- `end_op`, up to `commit`. -/
def State.endOp (s : State) (op : Nat) : State :=
  if s.log.outstanding - 1 = 0 then
    { s with
      log := { s.log with outstanding := s.log.outstanding - 1, committing := true }
      mode := .writeLog 0, ops := s.ops.erase op }
  else { s with log := { s.log with outstanding := s.log.outstanding - 1 }, ops := s.ops.erase op }

/-- A step: of a call in progress, of the buffer cache, of `commit` or `recover_from_log`, or a
crash. -/
inductive Act where
  | begin
  | write (op b : Nat) (x : Block)
  | finish (op : Nat)
  | load (b : Nat)
  | evict (b : Nat)
  | commit
  | crash
  | boot
  | recover

variable (g : Geom)

/-- **One step.**  A call that has to wait in `begin_op`, or that would panic, has none. -/
inductive Step : State → Act → State → Prop
  | begin {s} : s.mode.up = true → s.log.Admits →
    Step s .begin
      { s with
        log := { s.log with outstanding := s.log.outstanding + 1 }
        ops := s.next :: s.ops, next := s.next + 1 }
  | write {s op b x i l} : s.mode.up = true → op ∈ s.ops → ¬ g.InLog b →
    logWrite g.size s.log b = .ok (i, l) →
    Step s (.write op b x)
      { s with
        cache := update s.cache b (some x), dirty := update s.dirty b true
        log := l, issued := s.issued ++ [⟨op, b, x⟩], pending := s.pending ++ [⟨op, b, x⟩] }
  | finish {s op} : s.mode.up = true → op ∈ s.ops → Step s (.finish op) (s.endOp op)
  | load {s b} : s.mode ≠ .down → s.cache b = none →
    Step s (.load b) { s with cache := update s.cache b (some (s.disk b)) }
  | evict {s b} : s.dirty b = false →
    Step s (.evict b) { s with cache := update s.cache b none }
  | logBlock {s tail} : s.mode = .writeLog tail → tail < s.log.lh.n →
    Step s .commit
      { s.bwrite (g.start + tail + 1) (s.bread (s.log.lh.block tail)) with mode := .writeLog (tail + 1) }
  | logHead {s} : s.mode = .writeLog s.log.lh.n → 0 < s.log.lh.n →
    Step s .commit
      { s.bwrite g.start (putHeader s.log.lh (s.bread g.start)) with
        mode := .install 0, pending := [], done := s.done ++ s.pending }
  | logNone {s} : s.mode = .writeLog 0 → s.log.lh.n = 0 →
    Step s .commit { s with mode := .running, log := { s.log with committing := false } }
  | installBlock {s tail} : s.mode = .install tail → tail < s.log.lh.n →
    Step s .commit
      { s.bwrite (s.log.lh.block tail) (s.bread (g.start + tail + 1)) with mode := .install (tail + 1) }
  | installHead {s} : s.mode = .install s.log.lh.n →
    Step s .commit
      { s.bwrite g.start (putHeader s.log.clear.lh (s.bread g.start)) with
        mode := .running, log := { s.log.clear with committing := false } }
  | crash {s} : Step s .crash s.crash
  | boot {s} : s.mode = .down →
    Step s .boot { s with mode := .replay 0, log := { s.log with lh := getHeader (s.bread g.start) } }
  | replayBlock {s tail} : s.mode = .replay tail → tail < s.log.lh.n →
    Step s .recover
      { s.bwrite (s.log.lh.block tail) (s.bread (g.start + tail + 1)) with mode := .replay (tail + 1) }
  | replayHead {s} : s.mode = .replay s.log.lh.n →
    Step s .recover
      { s.bwrite g.start (putHeader s.log.clear.lh (s.bread g.start)) with
        mode := .running, log := s.log.clear }

/-- A machine that was never up, with an empty log on its disk. -/
structure Start (d : Nat → Block) (s : State) : Prop where
  disk : s.disk = d
  head : (getHeader (d g.start)).n = 0
  cache : ∀ b, s.cache b = none
  dirty : ∀ b, s.dirty b = false
  log : s.log = ⟨0, false, ⟨0, fun _ => 0⟩⟩
  mode : s.mode = .down
  ops : s.ops = []
  issued : s.issued = []
  pending : s.pending = []
  done : s.done = []

/-! ## What `log_write` does -/

variable {g}

theorem Header.find_cases (h : Header) (b : Nat) :
    (h.find b < h.n ∧ h.block (h.find b) = b) ∨ h.find b = h.n ∧ ∀ i < h.n, h.block i ≠ b := by
  rw [Header.find]
  cases hf : (List.range h.n).find? fun i => h.block i = b with
  | none =>
    refine .inr ⟨rfl, fun i hi => ?_⟩
    have hall := List.find?_eq_none.mp hf i (List.mem_range.mpr hi)
    simpa using hall
  | some i =>
    refine .inl ⟨?_, ?_⟩
    · exact List.mem_range.mp (List.mem_of_find?_eq_some hf)
    · simpa using List.find?_some hf

/-- **What `log_write` does**: the block has entry `i`, and no other entry changes; it is a new entry
only if the block had none. -/
structure Logged (size : Nat) (l l' : Log) (b i : Nat) : Prop where
  room : l.lh.n < LOGSIZE
  fits : l.lh.n + 1 < size
  inTrans : 0 < l.outstanding
  outstanding : l'.outstanding = l.outstanding
  committing : l'.committing = l.committing
  entry : l'.lh.block i = b
  others : ∀ j < l.lh.n, l'.lh.block j = l.lh.block j
  index_le : i ≤ l.lh.n
  index_lt : i < l'.lh.n
  grown : l'.lh.n = l.lh.n ∨ l'.lh.n = l.lh.n + 1 ∧ i = l.lh.n ∧ ∀ j < l.lh.n, l.lh.block j ≠ b

theorem logWrite_ok {size b i : Nat} {l l' : Log} (h : logWrite size l b = .ok (i, l')) :
    Logged size l l' b i := by
  rw [logWrite] at h
  split at h
  · simp at h
  next hbig =>
  split at h
  · simp at h
  next hout =>
  obtain ⟨rfl, rfl⟩ := Prod.mk.inj (Except.ok.inj h)
  have hentry : update l.lh.block (l.lh.find b) b (l.lh.find b) = b := by simp
  rcases l.lh.find_cases b with ⟨hlt, hb⟩ | ⟨hn, hnone⟩
  · have hne : l.lh.find b ≠ l.lh.n := hlt.ne
    refine ⟨by omega, by omega, by omega, rfl, rfl, hentry, fun j hj => ?_, hlt.le, ?_, .inl ?_⟩
    · by_cases hj' : j = l.lh.find b
      · simp [hj', hb]
      · simp [hj']
    · simpa [hne] using hlt
    · simp [hne]
  · refine ⟨by omega, by omega, by omega, rfl, rfl, hentry, fun j hj => ?_, hn.le, ?_,
      .inr ⟨?_, hn, hnone⟩⟩
    · exact update_of_ne (by omega) _ _
    · simp [hn]
    · simp [hn]

end Xv6.Redo

import Mathlib.Data.Fintype.Sum
import Xv6Ipc.Log.Model

/-!
# Buffers/Model — the buffer cache under the log

`bio.c`, with `iderw` under it and `log.c` over it.  A block is in up to three places, a buffer, a block of
the log and its home; callers see buffers only:

    bread b ──▸  buffer b  ──write_log──▸  log block
                   │  ▴                        │
              evicted │ read              install_trans
                   ▾  │                        ▾
                 home b ◂──────────────────────┘

Callers hold buffers through *hands*, each in one `bread` … `brelse` at a time; a process may have any
number of them.  `commit` has two hands of its own, and its remaining code in `todo`.  A step is one
critical section, one transfer to or from the disk, or one access to the data of a buffer that is locked.
The disks are there and do not fail.
-/

namespace Xv6.Bcache

open Redo Function

def NBUF : Nat := MAXOPBLOCKS * 3

def FSSIZE : Nat := 1000

abbrev BufId := Fin NBUF

/-- A block of one of the two disks. -/
structure Key where
  dev : Fin 2
  blockno : Nat
  deriving DecidableEq, Repr

/-- `struct buf`; its place in the list of buffers is kept in the cache. -/
structure Buf where
  valid : Bool
  dirty : Bool
  key : Key
  locked : Bool
  refcnt : Nat
  data : Block

/-- `bcache`, from `head.next` on, and the disks. -/
structure Cache where
  buf : BufId → Buf
  lru : List BufId
  disk : Key → Block

/-! ## `bio.c` -/

namespace Cache

variable (c : Cache) (i : BufId)

/-- Write a buffer. -/
def set (b : Buf) : Cache := { c with buf := update c.buf i b }

variable (b : Buf)

@[simp] theorem set_buf : (c.set i b).buf = update c.buf i b := rfl

/-- `binit`: each buffer is put in front of the last. -/
def binit (disk : Key → Block) : Cache :=
  ⟨fun _ => ⟨false, false, ⟨0, 0⟩, false, 0, fun _ => 0⟩, (List.finRange NBUF).reverse, disk⟩

/-- The first loop of `bget`: is the block already cached? -/
def find (k : Key) : Option BufId := c.lru.find? fun i => (c.buf i).key = k

/-- `bget`, up to `acquiresleep`; `none` is its panic. -/
def bget (k : Key) : Option (BufId × Cache) :=
  match c.find k with
  | some i => some (i, c.set i { c.buf i with refcnt := (c.buf i).refcnt + 1 })
  | none =>
    (c.lru.reverse.find? fun i => (c.buf i).refcnt = 0 ∧ (c.buf i).dirty = false).map fun i =>
      (i, c.set i { c.buf i with key := k, valid := false, dirty := false, refcnt := 1 })

/-- `iderw`, and `idestart` and `ideintr` for it; `none` is a panic. -/
def iderw : Option Cache :=
  if (c.buf i).valid = true ∧ (c.buf i).dirty = false then none
  else if FSSIZE ≤ (c.buf i).key.blockno then none
  else if (c.buf i).dirty = true then
    some { c.set i { c.buf i with valid := true, dirty := false } with
      disk := update c.disk (c.buf i).key (c.buf i).data }
  else some (c.set i { c.buf i with valid := true, data := c.disk (c.buf i).key })

/-- `acquiresleep`, once the lock is free. -/
def acquire : Cache := c.set i { c.buf i with locked := true }

/-- `bread`, after `bget`. -/
def fill : Option Cache := if (c.buf i).valid = false then c.iderw i else some c

/-- A write to the data of a buffer. -/
def store (x : Block) : Cache := c.set i { c.buf i with data := x }

/-- The mark that `log_write` leaves on a buffer. -/
def mark : Cache := c.set i { c.buf i with dirty := true }

def bwrite : Option Cache := (c.mark i).iderw i

/-- `releasesleep`, in `brelse`… -/
def release : Cache := c.set i { c.buf i with locked := false }

/-- …and the rest of `brelse`. -/
def drop : Cache :=
  let c' := c.set i { c.buf i with refcnt := (c.buf i).refcnt - 1 }
  if (c'.buf i).refcnt = 0 then { c' with lru := i :: c'.lru.erase i } else c'

end Cache

/-! ## `commit` -/

/-- A line of `commit`.  Its two variables are a block of the log, `false`, and a home block, `true`. -/
inductive Instr where
  | bread (v : Bool) (k : Key)
  | memmove (dst src : Bool)
  | head
  | bwrite (v : Bool)
  | brelse (v : Bool)
  | clear
  | done
  deriving DecidableEq, Repr

/-- Where the log lies, on which disk, and whose hand is whose. -/
structure Site (P H : Type) extends Geom where
  dev : Fin 2
  proc : H → P

namespace Site

variable {P H : Type} (S : Site P H) (lh : Header)

/-- The copy of the block of one entry in the log… -/
def logBlock (tail : Nat) : Key := ⟨S.dev, S.start + tail + 1⟩

/-- …and its home. -/
def home (tail : Nat) : Key := ⟨S.dev, lh.block tail⟩

/-- The body of the loop of `write_log`. -/
def logEntry (tail : Nat) : List Instr :=
  [.bread false (S.logBlock tail), .bread true (S.home lh tail), .memmove false true,
    .bwrite false, .brelse true, .brelse false]

def writeLog : List Instr := (List.range lh.n).flatMap (S.logEntry lh)

def writeHead : List Instr := [.bread false ⟨S.dev, S.start⟩, .head, .bwrite false, .brelse false]

/-- The body of the loop of `install_trans`. -/
def installEntry (tail : Nat) : List Instr :=
  [.bread false (S.logBlock tail), .bread true (S.home lh tail), .memmove true false,
    .bwrite true, .brelse false, .brelse true]

def installTrans : List Instr := (List.range lh.n).flatMap (S.installEntry lh)

/-- `commit`, and the rest of `end_op` after it. -/
def commit : List Instr :=
  (if 0 < lh.n then S.writeLog lh ++ S.writeHead ++ S.installTrans lh ++ [.clear] ++ S.writeHead
    else []) ++ [.done]

end Site

/-! ## The machine -/

/-- A hand: empty, waiting for the lock of a buffer, with the lock but before the data is there, between
`bread` and `brelse`, with data changed that nobody knows of yet, or past `releasesleep`. -/
inductive Hand where
  | none
  | waiting (k : Key) (i : BufId)
  | locked (k : Key) (i : BufId)
  | held (k : Key) (i : BufId)
  | touched (k : Key) (i : BufId)
  | leaving (k : Key) (i : BufId)
  deriving DecidableEq, Repr

/-- Hands of callers, and those of `commit`. -/
abbrev Who (H : Type) := H ⊕ Bool

structure State (P H : Type) where
  cache : Cache
  log : Log
  inOp : P → Bool
  hand : Who H → Hand
  todo : List Instr

inductive Event (P H : Type) where
  | get (w : Who H) (k : Key)
  | lock (w : Who H)
  | fill (w : Who H)
  | store (k : Key) (x : Block)
  | logWrite (h : H)
  | unlock (w : Who H)
  | drop (w : Who H)
  | begin (p : P)
  | finish (p : P)
  | memmove
  | head
  | bwrite (k : Key)
  | clear
  | done

section Machine

variable {P H : Type} (S : Site P H)

namespace State

variable (s : State P H) (w : Who H)

/-- `commit` is past its line; callers are at no line of it. -/
def next : Who H → State P H
  | .inl _ => s
  | .inr _ => { s with todo := s.todo.tail }

@[simp] theorem next_hand : (s.next w).hand = s.hand := by cases w <;> rfl

/-- Move a hand. -/
def put [DecidableEq H] (h : Hand) : State P H := { s with hand := update s.hand w h }

end State

variable [DecidableEq P] [DecidableEq H]

/-- Which blocks may be read: by callers those outside the log, by `commit` that of its line. -/
def Site.Asks (s : State P H) (k : Key) : Who H → Prop
  | .inl _ => ¬ S.InLog k.blockno
  | .inr v => s.todo.head? = some (.bread v k)

/-- Who may release a buffer. -/
def State.Releases (s : State P H) : Who H → Prop
  | .inl _ => True
  | .inr v => s.todo.head? = some (.brelse v)

/-- `end_op`, up to `commit`. -/
def Site.endOp (s : State P H) (p : P) : State P H :=
  let s' := { s with
    log := { s.log with outstanding := s.log.outstanding - 1 }, inOp := update s.inOp p false }
  if s'.log.outstanding = 0 then
    { s' with log := { s'.log with committing := true }, todo := S.commit s'.log.lh }
  else s'

/-- **One step.**  A caller changes data inside a transaction, and tells the log before it releases the
buffer and before the transaction ends. -/
inductive Step : State P H → Event P H → State P H → Prop
  | get {s w k i c} : s.hand w = .none → S.Asks s k w → s.cache.bget k = some (i, c) →
    Step s (.get w k) { s.put w (.waiting k i) with cache := c }
  | lock {s w k i} : s.hand w = .waiting k i → (s.cache.buf i).locked = false →
    Step s (.lock w) { s.put w (.locked k i) with cache := s.cache.acquire i }
  | fill {s w k i c} : s.hand w = .locked k i → s.cache.fill i = some c →
    Step s (.fill w) { (s.next w).put w (.held k i) with cache := c }
  | store {s h k i} (x : Block) : s.hand (.inl h) = .held k i ∨ s.hand (.inl h) = .touched k i →
    s.inOp (S.proc h) = true →
    Step s (.store k x) { s.put (.inl h) (.touched k i) with cache := s.cache.store i x }
  | logWrite {s h k i j l} : s.hand (.inl h) = .touched k i →
    logWrite S.size s.log k.blockno = .ok (j, l) →
    Step s (.logWrite h) { s.put (.inl h) (.held k i) with cache := s.cache.mark i, log := l }
  | unlock {s w k i} : s.hand w = .held k i → s.Releases w →
    Step s (.unlock w) { s.put w (.leaving k i) with cache := s.cache.release i }
  | drop {s w k i} : s.hand w = .leaving k i →
    Step s (.drop w) { (s.next w).put w .none with cache := s.cache.drop i }
  | begin {s p} : s.inOp p = false → s.log.Admits →
    Step s (.begin p)
      { s with
        log := { s.log with outstanding := s.log.outstanding + 1 }
        inOp := update s.inOp p true }
  | finish {s p} : s.inOp p = true →
    (∀ h k i, S.proc h = p → s.hand (.inl h) ≠ .touched k i) → Step s (.finish p) (S.endOp s p)
  | memmove {s d e k i k' j t} : s.todo = .memmove d e :: t → s.hand (.inr d) = .held k i →
    s.hand (.inr e) = .held k' j →
    Step s .memmove
      { s.put (.inr d) (.touched k i) with cache := s.cache.store i (s.cache.buf j).data, todo := t }
  | head {s k i t} : s.todo = .head :: t → s.hand (.inr false) = .held k i →
    Step s .head
      { s.put (.inr false) (.touched k i) with
        cache := s.cache.store i (putHeader s.log.lh (s.cache.buf i).data), todo := t }
  | bwrite {s v k i c t} : s.todo = .bwrite v :: t → s.hand (.inr v) = .touched k i →
    s.cache.bwrite i = some c →
    Step s (.bwrite k) { s.put (.inr v) (.held k i) with cache := c, todo := t }
  | clear {s t} : s.todo = .clear :: t → Step s .clear { s with log := s.log.clear, todo := t }
  | done {s t} : s.todo = .done :: t →
    Step s .done { s with log := { s.log with committing := false }, todo := t }

/-- **Nobody has begun**: no transaction is open, no buffer is in use, and whatever is cached is found and
is what the disk has. -/
structure Start (s : State P H) : Prop where
  mem : ∀ i, i ∈ s.cache.lru
  idle : ∀ i, (s.cache.buf i).refcnt = 0 ∧ (s.cache.buf i).locked = false ∧ (s.cache.buf i).dirty = false
  clean : ∀ i, (s.cache.buf i).valid = true → s.cache.find (s.cache.buf i).key = some i
    ∧ (s.cache.buf i).data = s.cache.disk (s.cache.buf i).key
  log : s.log.outstanding = 0 ∧ s.log.committing = false ∧ s.log.lh.n = 0
  inOp : ∀ p, s.inOp p = false
  hand : ∀ w, s.hand w = .none
  todo : s.todo = []

end Machine

end Xv6.Bcache

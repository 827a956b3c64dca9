import Xv6Ipc.Machinery.Runs
import Xv6Ipc.Process.State

/-!
# Descriptors/Model — open files, step by step

`sysfile.c`, `file.c` and `pipe.c` as far as they count references to open files, with `fork` and `exit`.
A process is a machine of its own that walks through its system calls; what it shares with the others are
the table of files, the pages of pipes and the allocator, each under a lock of its own:

    process p      … ──fileclose f──▸ … ──pipeclose a──▸ … ──kfree a──▸ …
                            │                  │               │
    tables              ftable.lock         p->lock        kmem.lock

A step is one critical section, or a step of the process between two.  Between any two steps of a process
others may take theirs.
-/

namespace Xv6.Fd

open Function

/-! ## The tables -/

abbrev FileId := Fin NFILE

abbrev Page := Nat

inductive FileType where
  | none
  | pipe
  | inode
  deriving DecidableEq, Repr

/-- `struct file`, without the inode and the offset. -/
structure File where
  ref : Nat
  type : FileType
  readable : Bool
  writable : Bool
  pipe : Page
  deriving DecidableEq, Repr

/-- `struct pipe`, without its contents. -/
structure Pipe where
  readopen : Bool
  writeopen : Bool
  deriving DecidableEq, Repr

/-- One end of a pipe is closed. -/
def Pipe.close (x : Pipe) (w : Bool) : Pipe :=
  if w then { x with writeopen := false } else { x with readopen := false }

/-- Where `fileread` and `filewrite` go on. -/
inductive Io where
  | refused
  | pipe (a : Page)
  | inode
  deriving DecidableEq, Repr

/-- What processes share.  A page that is no pipe's is not there. -/
structure Tables where
  file : FileId → File
  page : Page → Option Pipe

namespace Tables

@[simps -fullyApplied]
def setFile (T : Tables) (f : FileId) (x : File) : Tables :=
  { T with file := update T.file f x }

@[simps -fullyApplied]
def setPage (T : Tables) (a : Page) (x : Option Pipe) : Tables :=
  { T with page := update T.page a x }

/-- `filealloc`. -/
def filealloc (T : Tables) : Option (FileId × Tables) :=
  ((List.finRange NFILE).find? fun f => (T.file f).ref = 0).map fun f =>
    (f, T.setFile f { T.file f with ref := 1 })

/-- `filedup`; `none` is its panic. -/
def filedup (T : Tables) (f : FileId) : Option Tables :=
  if (T.file f).ref < 1 then none else some (T.setFile f { T.file f with ref := (T.file f).ref + 1 })

/-- `fileclose`, up to the pipe it goes on to close, if any; `none` is its panic. -/
def fileclose (T : Tables) (f : FileId) : Option (Option (Page × Bool) × Tables) :=
  if (T.file f).ref < 1 then none
  else if 1 < (T.file f).ref then
    some (none, T.setFile f { T.file f with ref := (T.file f).ref - 1 })
  else
    let ff := T.file f
    some (if ff.type = .pipe then some (ff.pipe, ff.writable) else none,
      T.setFile f { ff with ref := 0, type := .none })

/-- The end of `sys_open`. -/
def name (T : Tables) (f : FileId) (r w : Bool) : Tables :=
  T.setFile f { T.file f with type := .inode, readable := r, writable := w }

/-- The end of `pipealloc`. -/
def fill (T : Tables) (f g : FileId) (a : Page) : Tables :=
  let T' := T.setFile f { T.file f with type := .pipe, readable := true, writable := false, pipe := a }
  T'.setFile g { T'.file g with type := .pipe, readable := false, writable := true, pipe := a }

/-- `pipeclose`, and whether it goes on to free the page; `none` if the page is not there. -/
def pipeclose (T : Tables) (a : Page) (w : Bool) : Option (Bool × Tables) :=
  (T.page a).map fun x =>
    (!(x.close w).readopen && !(x.close w).writeopen, T.setPage a (some (x.close w)))

/-- `kfree`; `none` if the page is not there. -/
def kfree (T : Tables) (a : Page) : Option Tables := (T.page a).map fun _ => T.setPage a none

/-- `fileread`, and `filewrite` if `w`; `none` is the panic. -/
def io (T : Tables) (f : FileId) (w : Bool) : Option Io :=
  if (if w then (T.file f).writable else (T.file f).readable) = false then some .refused
  else
    match (T.file f).type with
    | .pipe => some (.pipe (T.file f).pipe)
    | .inode => some .inode
    | .none => none

end Tables

/-! ## Processes -/

/-- What a process does after `fileclose`: return, close another file, or clear the descriptor, in the loop
of `exit`. -/
inductive Cont where
  | ret (r : Int)
  | close (f : FileId) (k : Cont)
  | clear (i : Fin NOFILE)
  deriving DecidableEq, Repr

/-- Where a process is. -/
inductive Pc where
  | user
  | back (k : Cont)
  -- `sys_open`: before `filealloc`, before `fdalloc`, and before the fields are written
  | opening
  | opened (f : FileId)
  | naming (f : FileId) (fd : Fin NOFILE)
  -- `sys_dup`, between `fdalloc` and `filedup`
  | dup (src fd : Fin NOFILE) (f : FileId)
  -- `fileclose`, `pipeclose` and `kfree`
  | close (f : FileId) (k : Cont)
  | drop (a : Page) (w : Bool) (k : Cont)
  | free (a : Page) (k : Cont)
  -- `pipealloc`, and `sys_pipe` before each `fdalloc`
  | pipe
  | pipe1 (f : FileId)
  | pipe2 (f g : FileId)
  | pipe3 (f g : FileId) (a : Page)
  | pipe4 (f g : FileId)
  | pipe5 (f g : FileId) (fd : Fin NOFILE)
  -- `piperead` and `pipewrite`
  | pipeio (fd : Fin NOFILE) (f : FileId) (a : Page)
  -- the loops of `fork` and `exit`
  | fork (q : Slot) (i : Nat)
  | exit (i : Nat)
  -- not in a call and not in user mode
  | embryo
  | zombie
  | unused
  deriving DecidableEq, Repr

/-- A process: where it is, its descriptors, and what they were when it entered its last call. -/
structure Proc where
  pc : Pc
  ofile : Fin NOFILE → Option FileId
  entry : Fin NOFILE → Option FileId

/-- `fdalloc`: the first free descriptor. -/
def fdalloc (ofile : Fin NOFILE → Option FileId) : Option (Fin NOFILE) :=
  (List.finRange NOFILE).find? fun fd => ofile fd = none

/-- What a process asks of the tables, and the answer. -/
inductive Act where
  | tau
  | call
  | ret (r : Int)
  | filealloc (r : Option FileId)
  | filedup (f : FileId)
  | fileclose (f : FileId) (r : Option (Page × Bool))
  | name (f : FileId) (r w : Bool)
  | kalloc (r : Option Page)
  | fill (f g : FileId) (a : Page)
  | pipeclose (a : Page) (w last : Bool)
  | kfree (a : Page)
  | io (f : FileId) (w : Bool) (r : Io)
  | use (a : Page)
  deriving DecidableEq, Repr

namespace Proc

/-- Go on elsewhere. -/
@[simps -fullyApplied]
def goto (x : Proc) (k : Pc) : Proc := { x with pc := k }

/-- Enter a call. -/
@[simps -fullyApplied]
def enter (x : Proc) (k : Pc) : Proc := { x with pc := k, entry := x.ofile }

/-- Write a descriptor. -/
@[simps -fullyApplied]
def setFd (x : Proc) (fd : Fin NOFILE) (o : Option FileId) : Proc :=
  { x with ofile := update x.ofile fd o }

end Proc

/-- **The steps of one process.** -/
inductive Move : Proc → Act → Proc → Prop
  -- a call that is refused at once, or that has nothing to do with descriptors, such as `exec`
  | quick {x} (r : Int) : x.pc = .user → Move x .call (x.enter (.back (.ret r)))
  | ret {x r} : x.pc = .back (.ret r) → Move x (.ret r) (x.goto .user)
  -- `sys_open`, with the name found or made
  | open {x} : x.pc = .user → Move x .call (x.enter .opening)
  | openFull {x} : x.pc = .opening → Move x (.filealloc none) (x.goto (.back (.ret (-1))))
  | openFile {x f} : x.pc = .opening → Move x (.filealloc (some f)) (x.goto (.opened f))
  | openNoFd {x f} : x.pc = .opened f → Move x .tau (x.goto (.close f (.ret (-1))))
  | openFd {x f fd} : x.pc = .opened f → fdalloc x.ofile = some fd →
    Move x .tau ((x.setFd fd (some f)).goto (.naming f fd))
  | openName {x f fd} (r w : Bool) : x.pc = .naming f fd →
    Move x (.name f r w) (x.goto (.back (.ret fd.val)))
  -- `sys_dup`
  | dup {x src fd f} : x.pc = .user → x.ofile src = some f → fdalloc x.ofile = some fd →
    Move x .call ((x.enter (.dup src fd f)).setFd fd (some f))
  | dupRef {x src fd f} : x.pc = .dup src fd f → Move x (.filedup f) (x.goto (.back (.ret fd.val)))
  -- `sys_close`
  | close {x fd f} : x.pc = .user → x.ofile fd = some f →
    Move x .call ((x.enter (.close f (.ret 0))).setFd fd none)
  -- `fileclose` and what comes after it
  | fileclose {x f k} : x.pc = .close f k → Move x (.fileclose f none) (x.goto (.back k))
  | fileclosePipe {x f k a w} : x.pc = .close f k →
    Move x (.fileclose f (some (a, w))) (x.goto (.drop a w k))
  | pipeclose {x a w k} : x.pc = .drop a w k → Move x (.pipeclose a w false) (x.goto (.back k))
  | pipecloseLast {x a w k} : x.pc = .drop a w k → Move x (.pipeclose a w true) (x.goto (.free a k))
  | kfree {x a k} : x.pc = .free a k → Move x (.kfree a) (x.goto (.back k))
  | next {x f k} : x.pc = .back (.close f k) → Move x .tau (x.goto (.close f k))
  | clear {x i} : x.pc = .back (.clear i) → Move x .tau ((x.setFd i none).goto (.exit (i.val + 1)))
  -- `sys_pipe`
  | pipe {x} : x.pc = .user → Move x .call (x.enter .pipe)
  | pipeFull {x} : x.pc = .pipe → Move x (.filealloc none) (x.goto (.back (.ret (-1))))
  | pipeFile {x f} : x.pc = .pipe → Move x (.filealloc (some f)) (x.goto (.pipe1 f))
  | pipeFull1 {x f} : x.pc = .pipe1 f →
    Move x (.filealloc none) (x.goto (.close f (.ret (-1))))
  | pipeFile1 {x f g} : x.pc = .pipe1 f → Move x (.filealloc (some g)) (x.goto (.pipe2 f g))
  | pipeNoPage {x f g} : x.pc = .pipe2 f g →
    Move x (.kalloc none) (x.goto (.close f (.close g (.ret (-1)))))
  | pipePage {x f g a} : x.pc = .pipe2 f g → Move x (.kalloc (some a)) (x.goto (.pipe3 f g a))
  | pipeFill {x f g a} : x.pc = .pipe3 f g a → Move x (.fill f g a) (x.goto (.pipe4 f g))
  | pipeNoFd {x f g} : x.pc = .pipe4 f g →
    Move x .tau (x.goto (.close f (.close g (.ret (-1)))))
  | pipeFd {x f g fd} : x.pc = .pipe4 f g → fdalloc x.ofile = some fd →
    Move x .tau ((x.setFd fd (some f)).goto (.pipe5 f g fd))
  | pipeNoFd1 {x f g fd} : x.pc = .pipe5 f g fd →
    Move x .tau ((x.setFd fd none).goto (.close f (.close g (.ret (-1)))))
  | pipeFd1 {x f g fd fd'} : x.pc = .pipe5 f g fd → fdalloc x.ofile = some fd' →
    Move x .tau ((x.setFd fd' (some g)).goto (.back (.ret 0)))
  -- `sys_read` and `sys_write`
  | ioRefused {x fd f} (w : Bool) : x.pc = .user → x.ofile fd = some f →
    Move x (.io f w .refused) (x.enter (.back (.ret (-1))))
  | ioInode {x fd f} (w : Bool) (r : Int) : x.pc = .user → x.ofile fd = some f →
    Move x (.io f w .inode) (x.enter (.back (.ret r)))
  | ioPipe {x fd f a} (w : Bool) : x.pc = .user → x.ofile fd = some f →
    Move x (.io f w (.pipe a)) (x.enter (.pipeio fd f a))
  | pipeUse {x fd f a} : x.pc = .pipeio fd f a → Move x (.use a) x
  | pipeDone {x fd f a} (r : Int) : x.pc = .pipeio fd f a → Move x (.use a) (x.goto (.back (.ret r)))
  -- `exit`
  | exit {x} : x.pc = .user → Move x .call (x.enter (.exit 0))
  | exitSkip {x i} (hi : i < NOFILE) : x.pc = .exit i → x.ofile ⟨i, hi⟩ = none →
    Move x .tau (x.goto (.exit (i + 1)))
  | exitClose {x i f} (hi : i < NOFILE) : x.pc = .exit i → x.ofile ⟨i, hi⟩ = some f →
    Move x .tau (x.goto (.close f (.clear ⟨i, hi⟩)))
  | exited {x} : x.pc = .exit NOFILE → Move x .tau (x.goto .zombie)

/-- **What the tables answer.**  `filealloc` and `kalloc` may fail at any call. -/
inductive Does : Tables → Act → Tables → Prop
  | tau {T} : Does T .tau T
  | call {T} : Does T .call T
  | ret {T} (r : Int) : Does T (.ret r) T
  | filealloc {T T' f} : T.filealloc = some (f, T') → Does T (.filealloc (some f)) T'
  | fileallocFail {T} : Does T (.filealloc none) T
  | filedup {T T' f} : T.filedup f = some T' → Does T (.filedup f) T'
  | fileclose {T T' f r} : T.fileclose f = some (r, T') → Does T (.fileclose f r) T'
  | name {T} (f : FileId) (r w : Bool) : Does T (.name f r w) (T.name f r w)
  | kalloc {T a} : T.page a = none → Does T (.kalloc (some a)) (T.setPage a (some ⟨true, true⟩))
  | kallocFail {T} : Does T (.kalloc none) T
  | fill {T} (f g : FileId) (a : Page) : Does T (.fill f g a) (T.fill f g a)
  | pipeclose {T T' a w last} : T.pipeclose a w = some (last, T') → Does T (.pipeclose a w last) T'
  | kfree {T T' a} : T.kfree a = some T' → Does T (.kfree a) T'
  | io {T f w r} : T.io f w = some r → Does T (.io f w r) T
  | use {T a x} : T.page a = some x → Does T (.use a) T

/-- An act that ends in a panic or on a page that has been freed. -/
def Faults (T : Tables) : Act → Prop
  | .filedup f => T.filedup f = none
  | .fileclose f _ => T.fileclose f = none
  | .pipeclose a w _ => T.pipeclose a w = none
  | .kfree a => T.kfree a = none
  | .io f w _ => T.io f w = none
  | .use a => T.page a = none
  | _ => False

/-! ## The system -/

/-- Processes and tables. -/
structure State where
  proc : Slot → Proc
  tables : Tables

namespace State

/-- Write a process. -/
@[simps -fullyApplied]
def put (s : State) (p : Slot) (x : Proc) : State := { s with proc := update s.proc p x }

end State

/-- What happens. -/
inductive Event where
  | act (p : Slot) (a : Act)
  | fork (p q : Slot)
  | copy (p q : Slot)
  | forked (p q : Slot)
  | reap (q : Slot)
  deriving DecidableEq, Repr

/-- **One step**: of a process and the tables, or of a `fork`, which writes the descriptors of the new
process, or of the `wait` that frees a slot. -/
inductive Step : State → Event → State → Prop
  | act {s p a x T} : Move (s.proc p) a x → Does s.tables a T →
    Step s (.act p a) { s.put p x with tables := T }
  | fork {s p q} : (s.proc p).pc = .user → (s.proc q).pc = .unused →
    Step s (.fork p q) ((s.put q ((s.proc q).goto .embryo)).put p ((s.proc p).enter (.fork q 0)))
  | copyNone {s p q i} (hi : i < NOFILE) : (s.proc p).pc = .fork q i →
    (s.proc p).ofile ⟨i, hi⟩ = none →
    Step s (.copy p q) (s.put p ((s.proc p).goto (.fork q (i + 1))))
  | copy {s p q i f T} (hi : i < NOFILE) : (s.proc p).pc = .fork q i →
    (s.proc p).ofile ⟨i, hi⟩ = some f → s.tables.filedup f = some T →
    Step s (.copy p q) { (s.put q ((s.proc q).setFd ⟨i, hi⟩ (some f))).put p
      ((s.proc p).goto (.fork q (i + 1))) with tables := T }
  | forked {s p q} : (s.proc p).pc = .fork q NOFILE →
    Step s (.forked p q) ((s.put q ((s.proc q).goto .user)).put p ((s.proc p).goto .user))
  | reap {s q} : (s.proc q).pc = .zombie → Step s (.reap q) (s.put q ((s.proc q).goto .unused))

/-- The first process has been made, and no file is open. -/
structure Start (s : State) : Prop where
  first : ∃ p, (s.proc p).pc = .user ∧ ∀ q, q ≠ p → (s.proc q).pc = .unused
  ofile : ∀ p fd, (s.proc p).ofile fd = none
  file : ∀ f, (s.tables.file f).ref = 0 ∧ (s.tables.file f).type = .none
  page : ∀ a, s.tables.page a = none

end Xv6.Fd

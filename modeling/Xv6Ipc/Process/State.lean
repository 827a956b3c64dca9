import Xv6Ipc.Memory.Resize
import Xv6Ipc.Sharing.Link

/-!
# Process/State — the process table and what it refers to

The kernel's state, as far as system calls that create, replace and end processes read it: physical
memory, the 64 slots of the process table, the file table and the in-memory inodes' reference counts.

A slot's kernel stack and page directory are frames it holds; `parent` points to another slot, and
`parentpgdir` is a directory's frame, copied at `fork` and never looked after.
-/

namespace Xv6

open Function

def NPROC : Nat := 64

theorem NPROC_pos : 0 < NPROC := by decide

def NOFILE : Nat := 16

def NFILE : Nat := 100

def MAXSHARED : Nat := 10

def SHAREDNAME : Nat := 20

/-! ## `string.c`

A string is the list of its bytes; reading past its end finds the terminating zero. -/

/-- `strncmp`. -/
def strncmp : List Nat → List Nat → Nat → Int
  | _, _, 0 => 0
  | p, q, n + 1 =>
    if p.headD 0 ≠ 0 ∧ p.headD 0 = q.headD 0 then strncmp p.tail q.tail n
    else (p.headD 0 : Int) - q.headD 0

/-- `strncpy`: the `n` bytes written, padded with zeroes. -/
def strncpy : List Nat → Nat → List Nat
  | _, 0 => []
  | t, n + 1 => t.headD 0 :: strncpy (if t.headD 0 = 0 then [] else t.tail) n

/-- `safestrcpy`: the string written. -/
def safestrcpy (t : List Nat) (n : Nat) : List Nat := t.take (n - 1)

/-- The bytes of a name. -/
def cstr (s : String) : List Nat := s.toList.map Char.toNat

/-! ## The tables -/

/-- A slot of the process table. -/
abbrev Slot := Fin NPROC

/-- There is more than one. -/
theorem exists_slot_ne (c : Slot) : ∃ q : Slot, q ≠ c := by
  by_cases hc : c = ⟨0, by decide⟩
  · exact ⟨⟨1, by decide⟩, by rw [hc]; decide⟩
  · exact ⟨⟨0, by decide⟩, fun h => hc h.symm⟩

/-- `enum procstate`. -/
inductive ProcState where
  | unused
  | embryo
  | sleeping
  | runnable
  | running
  | zombie
  deriving DecidableEq, Repr

/-- The registers of a trap frame that a modelled function writes. -/
structure Trapframe where
  eip : Nat
  esp : Nat
  eax : Nat
  deriving DecidableEq, Repr

/-- `struct proc`.  A null pointer is `0` or `none`. -/
structure Proc where
  sz : Nat
  pgdir : Nat
  parentpgdir : Nat
  kstack : Nat
  state : ProcState
  pid : Nat
  parent : Option Slot
  tf : Trapframe
  killed : Bool
  ofile : Fin NOFILE → Option Nat
  cwd : Option Nat
  name : List Nat
  shared : List Shared

/-- `struct file`, with the inode of a file of type `FD_INODE`. -/
structure File where
  ref : Nat
  ip : Option Nat
  deriving DecidableEq, Repr

/-- The kernel's state. -/
structure Kernel where
  mem : Mem
  proc : Slot → Proc
  file : Nat → File
  iref : Nat → Nat
  nextpid : Nat
  initproc : Slot

namespace Kernel

/-- Write a slot of the process table. -/
def setProc (k : Kernel) (c : Slot) (p : Proc) : Kernel :=
  { k with proc := update k.proc c p }

/-- Write a file. -/
def setFile (k : Kernel) (f : Nat) (x : File) : Kernel :=
  { k with file := update k.file f x }

/-- Write the reference count of an inode. -/
def setIref (k : Kernel) (ip n : Nat) : Kernel :=
  { k with iref := update k.iref ip n }

variable (k : Kernel) (c : Slot) (p : Proc) (f ip n : Nat) (x : File)

@[simp] theorem setProc_mem : (k.setProc c p).mem = k.mem := rfl

@[simp] theorem setProc_proc_self : (k.setProc c p).proc c = p := update_self _ _ _

theorem setProc_proc_of_ne {c' : Slot} (h : c' ≠ c) : (k.setProc c p).proc c' = k.proc c' :=
  update_of_ne h _ _

/-- Writing back what is there. -/
@[simp] theorem setProc_proc : k.setProc c (k.proc c) = k := by
  rw [setProc, update_eq_self]

end Kernel

/-! ## References -/

/-- `idup`. -/
def idup (k : Kernel) (ip : Nat) : Kernel := k.setIref ip (k.iref ip + 1)

/-- `iput`, as far as the reference count goes. -/
def iput (k : Kernel) (ip : Nat) : Kernel := k.setIref ip (k.iref ip - 1)

/-- `filedup`. -/
def filedup (k : Kernel) (f : Nat) : Except Panic Kernel :=
  if (k.file f).ref < 1 then .error .filedup
  else .ok (k.setFile f { k.file f with ref := (k.file f).ref + 1 })

/-- `fileclose`. -/
def fileclose (k : Kernel) (f : Nat) : Except Panic Kernel :=
  if (k.file f).ref < 1 then .error .fileclose
  else if (k.file f).ref - 1 > 0 then
    .ok (k.setFile f { k.file f with ref := (k.file f).ref - 1 })
  else
    match (k.file f).ip with
    | none => .ok (k.setFile f ⟨0, none⟩)
    | some ip => .ok (iput (k.setFile f ⟨0, none⟩) ip)

/-- `filealloc`. -/
def filealloc (k : Kernel) : Option Nat × Kernel :=
  match (List.range NFILE).find? fun f => (k.file f).ref = 0 with
  | none => (none, k)
  | some f => (some f, k.setFile f { k.file f with ref := 1 })

/-- `fdalloc`: the first free descriptor, which is given the file. -/
def fdalloc (k : Kernel) (c : Slot) (f : Nat) : Option (Fin NOFILE) × Kernel :=
  match (List.finRange NOFILE).find? fun fd => (k.proc c).ofile fd = none with
  | none => (none, k)
  | some fd =>
    (some fd, k.setProc c
      { k.proc c with ofile := update (k.proc c).ofile fd (some f) })

/-! ## Processes and their pages -/

/-- A process that is not `UNUSED`. -/
def Proc.Live (p : Proc) : Prop := p.state ≠ .unused

instance (p : Proc) : Decidable p.Live := inferInstanceAs (Decidable (_ ≠ _))

/-- How many pages a process has. -/
def Proc.pages (p : Proc) : Nat := (p.sz + 4095) / 4096

end Xv6

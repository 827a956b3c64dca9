import Xv6Ipc.Files.Disk
import Xv6Ipc.Machinery.Outcome
import Xv6Ipc.Process.State

/-!
# Files/Inode — `fs.c`, up to the contents of inodes

The state is the disk (bitmap, inodes, data blocks), the inode cache, the open files and what each
process refers to.  A cached inode has a reference count and, once it is `valid`, a copy of the inode
on disk that `iupdate` writes back:

    din i  ──ilock──▸  mem i  ──iupdate──▸  din i

Calls run one after the other, so the locks have nothing to do.  The log is beneath this: a block read
is the block last written, and `logged` remembers the blocks that `log_write` was called on.
-/

namespace Xv6.Fs

open Outcome Function

def NINODE : Nat := 50

def ROOTINO : Nat := 1

/-- `CONSOLE`, the one device with functions. -/
def CONSOLE : Int := 1

/-- How a call may panic.  `device` is a read from the console, `nullCwd` a process without a current
directory; neither is a panic of the source. -/
inductive Panic where
  | balloc
  | bfree
  | ialloc
  | iget
  | ilock
  | ilockType
  | bmap
  | dirlookup
  | dirlookupRead
  | dirlinkRead
  | dirlink
  | isdirempty
  | unlinkNlink
  | unlinkWritei
  | createDots
  | createDirlink
  | filedup
  | fileclose
  | fileread
  | filewrite
  | shortFilewrite
  | initExiting
  | device
  | nullCwd
  deriving DecidableEq, Repr

/-- `struct inode`, without its lock.  Its number is the index in the cache. -/
structure Inode where
  ref : Nat
  valid : Bool
  din : Dinode

/-- `struct file`, of type `FD_INODE` if it has an inode. -/
structure File where
  ref : Nat
  ip : Option Nat
  readable : Bool
  writable : Bool
  off : Nat

/-- What a process refers to.  A process that does not exist has no current directory. -/
structure Task where
  cwd : Option Nat
  ofile : Fin NOFILE → Option Nat

/-- The state.  `cached` is the number of cache entries in use, and `logged` the blocks passed to
`log_write`, the last one first. -/
structure State where
  used : Nat → Bool
  din : Nat → Dinode
  data : Nat → Block
  inode : Nat → Inode
  cached : Nat
  file : Nat → File
  task : Slot → Task
  logged : List Nat

/-- A function of the kernel. -/
abbrev M (α : Type) := StateT State (Except Panic) α

namespace State

/-- The copy of an inode in memory. -/
def mem (fs : State) (i : Nat) : Dinode := (fs.inode i).din

def setInode (fs : State) (i : Nat) (x : Inode) : State :=
  { fs with inode := update fs.inode i x }

def setMem (fs : State) (i : Nat) (d : Dinode) : State := fs.setInode i { fs.inode i with din := d }

def setData (fs : State) (b : Nat) (x : Block) : State :=
  { fs with data := update fs.data b x }

/-- `log_write`. -/
def logWrite (fs : State) (b : Nat) : State := { fs with logged := b :: fs.logged }

/-- `ip->ref--`. -/
def dropRef (fs : State) (i : Nat) : State :=
  { fs.setInode i { fs.inode i with ref := (fs.inode i).ref - 1 } with
    cached := if (fs.inode i).ref = 1 then fs.cached - 1 else fs.cached }

variable (fs : State) (i : Nat) (x : Inode) (d : Dinode)

@[simp] theorem setInode_inode : (fs.setInode i x).inode = update fs.inode i x := rfl

@[simp] theorem setMem_mem : (fs.setMem i d).mem i = d := by
  rw [mem, setMem, setInode_inode, update_self]

theorem setMem_inode :
    (fs.setMem i d).inode = update fs.inode i { fs.inode i with din := d } := rfl

@[simp] theorem setData_used (b : Nat) (x : Block) : (fs.setData b x).used = fs.used := rfl

@[simp] theorem logWrite_used (b : Nat) : (fs.logWrite b).used = fs.used := rfl

@[simp] theorem logWrite_inode (b : Nat) : (fs.logWrite b).inode = fs.inode := rfl

@[simp] theorem dropRef_inode : (fs.dropRef i).inode
    = update fs.inode i { fs.inode i with ref := (fs.inode i).ref - 1 } := rfl

end State

/-! ## Blocks -/

/-- `balloc`, with its `bzero`. -/
def balloc : M Nat := do
  let fs ← get
  match (List.range FSSIZE).find? fun b => !fs.used b with
  | none => throw .balloc
  | some b => do
    set ({ fs with used := update fs.used b true }.logWrite (BBLOCK b))
    modify fun fs => (fs.setData b zeroes).logWrite b
    return b

/-- `bfree`. -/
def bfree (b : Nat) : M Unit := do
  let fs ← get
  if fs.used b then set ({ fs with used := update fs.used b false }.logWrite (BBLOCK b))
  else throw .bfree

/-! ## Inodes -/

/-- `iupdate`. -/
def iupdate (i : Nat) : M Unit :=
  modify fun fs => { fs with din := update fs.din i (fs.mem i) }.logWrite (IBLOCK i)

/-- `iget`. -/
def iget (i : Nat) : M Unit := do
  let fs ← get
  if 0 < (fs.inode i).ref then set (fs.setInode i { fs.inode i with ref := (fs.inode i).ref + 1 })
  else if fs.cached < NINODE then
    set { fs.setInode i { fs.inode i with ref := 1, valid := false } with cached := fs.cached + 1 }
  else throw .iget

/-- `idup`. -/
def idup (i : Nat) : M Unit :=
  modify fun fs => fs.setInode i { fs.inode i with ref := (fs.inode i).ref + 1 }

/-- `ialloc`. -/
def ialloc (type : Kind) : M Nat := do
  let fs ← get
  match (List.range' 1 (NINODES - 1)).find? fun i => (fs.din i).type = .none with
  | none => throw .ialloc
  | some i => do
    set ({ fs with din := update fs.din i { Dinode.zero with type := type } }.logWrite
      (IBLOCK i))
    iget i
    return i

/-- `ilock`. -/
def ilock (i : Nat) : M Unit := do
  let fs ← get
  if (fs.inode i).ref < 1 then throw .ilock
  else if (fs.inode i).valid then return ()
  else if (fs.din i).type = .none then throw .ilockType
  else set (fs.setInode i { fs.inode i with valid := true, din := fs.din i })

/-- A turn of the first loop of `itrunc`. -/
def freeAddr (i k : Nat) : M PUnit := do
  let fs ← get
  whenever ((fs.mem i).addrs k ≠ 0) do
    bfree ((fs.mem i).addrs k)
    modify fun fs => fs.setMem i ((fs.mem i).setAddr k 0)

/-- A turn of the second. -/
def freeWord (a : Block) (j : Nat) : M PUnit := whenever (wordAt a j ≠ 0) (bfree (wordAt a j))

/-- `itrunc`. -/
def itrunc (i : Nat) : M Unit := do
  (List.range NDIRECT).forM (freeAddr i)
  let fs ← get
  whenever ((fs.mem i).addrs NDIRECT ≠ 0) do
    (List.range NINDIRECT).forM (freeWord (fs.data ((fs.mem i).addrs NDIRECT)))
    bfree ((fs.mem i).addrs NDIRECT)
    modify fun fs => fs.setMem i ((fs.mem i).setAddr NDIRECT 0)
  modify fun fs => fs.setMem i { fs.mem i with size := 0 }
  iupdate i

/-- `iput`. -/
def iput (i : Nat) : M Unit := do
  let fs ← get
  whenever ((fs.inode i).valid = true ∧ (fs.mem i).nlink = 0 ∧ (fs.inode i).ref = 1) do
    itrunc i
    modify fun fs => fs.setMem i { fs.mem i with type := .none }
    iupdate i
    modify fun fs => fs.setInode i { fs.inode i with valid := false }
  modify fun fs => fs.dropRef i

/-! ## Contents -/

/-- `if((addr = ip->addrs[k]) == 0) ip->addrs[k] = addr = balloc(ip->dev);` -/
def addrOf (i k : Nat) : M Nat := do
  let fs ← get
  if (fs.mem i).addrs k = 0 then do
    let b ← balloc
    modify fun fs => fs.setMem i ((fs.mem i).setAddr k b)
    return b
  else return (fs.mem i).addrs k

/-- The same for a word of the indirect block. -/
def wordOf (ind j : Nat) : M Nat := do
  let fs ← get
  if wordAt (fs.data ind) j = 0 then do
    let b ← balloc
    modify fun fs => (fs.setData ind (putWord (fs.data ind) j b)).logWrite ind
    return b
  else return wordAt (fs.data ind) j

/-- `bmap`. -/
def bmap (i bn : Nat) : M Nat :=
  if bn < NDIRECT then addrOf i bn
  else if bn - NDIRECT < NINDIRECT then do
    let ind ← addrOf i NDIRECT
    wordOf ind (bn - NDIRECT)
  else throw .bmap

/-- The loop of `readi`; as many turns as bytes are enough. -/
def readLoop (i : Nat) : Nat → Nat → Nat → M (List Nat)
  | 0, _, _ => return []
  | fuel + 1, off, n =>
    if n = 0 then return []
    else do
      let b ← bmap i (off / BSIZE)
      let fs ← get
      let m := min n (BSIZE - off % BSIZE)
      let rest ← readLoop i fuel (off + m) (n - m)
      return ((List.range m).map fun x => fs.data b (off % BSIZE + x)) ++ rest

/-- `readi`: the answer and the bytes read. -/
def readi (i off n : Nat) : M (Int × List Nat) := do
  let fs ← get
  if (fs.mem i).type = .dev then throw .device
  else if (fs.mem i).size < off ∨ u32 (off + n) < off then return (-1, [])
  else do
    let n := if (fs.mem i).size < off + n then (fs.mem i).size - off else n
    let bs ← readLoop i n off n
    return (n, bs)

/-- The loop of `writei`, which answers the offset it comes to. -/
def writeLoop (i : Nat) : Nat → Nat → List Nat → M Nat
  | 0, off, _ => return off
  | fuel + 1, off, src =>
    if src = [] then return off
    else do
      let b ← bmap i (off / BSIZE)
      let m := min src.length (BSIZE - off % BSIZE)
      modify fun fs => (fs.setData b (overwrite (fs.data b) (off % BSIZE) (src.take m))).logWrite b
      writeLoop i fuel (off + m) (src.drop m)

/-- `writei`. -/
def writei (i : Nat) (src : List Nat) (off : Nat) : M Int := do
  let fs ← get
  if (fs.mem i).type = .dev then
    return if (fs.mem i).major = CONSOLE then (src.length : Int) else -1
  else if (fs.mem i).size < off ∨ u32 (off + src.length) < off then return -1
  else if MAXFILE * BSIZE < off + src.length then return -1
  else do
    let off ← writeLoop i src.length off src
    let fs ← get
    whenever (src ≠ [] ∧ (fs.mem i).size < off) do
      set (fs.setMem i { fs.mem i with size := off })
      iupdate i
    return src.length

end Xv6.Fs

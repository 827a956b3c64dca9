import Xv6Ipc.Files.Name

/-!
# Files/Calls — the system calls on files

`sysfile.c` and `file.c`, for files that have an inode, with `fork` and `exit` as far as they share
and give up references.
-/

namespace Xv6.Fs

open Outcome Function

/-- A number as a `short`. -/
def i16 (n : Int) : Int := (n + 0x8000) % 0x10000 - 0x8000

/-- `ip->nlink = n; iupdate(ip);` -/
def setNlink (i : Nat) (n : Int) : M Unit := do
  modify fun fs => fs.setMem i { fs.mem i with nlink := i16 n }
  iupdate i

/-! ## `file.c` -/

/-- `filealloc`. -/
def filealloc : M (Option Nat) := do
  let fs ← get
  match (List.range NFILE).find? fun f => (fs.file f).ref = 0 with
  | none => return none
  | some f => do
    set { fs with file := update fs.file f { fs.file f with ref := 1 } }
    return some f

/-- `filedup`. -/
def filedup (f : Nat) : M PUnit := do
  let fs ← get
  if (fs.file f).ref < 1 then throw .filedup
  else set { fs with file := update fs.file f { fs.file f with ref := (fs.file f).ref + 1 } }

/-- `fileclose`. -/
def fileclose (f : Nat) : M PUnit := do
  let fs ← get
  if (fs.file f).ref < 1 then throw .fileclose
  else if 1 < (fs.file f).ref then
    set { fs with file := update fs.file f { fs.file f with ref := (fs.file f).ref - 1 } }
  else do
    set { fs with file := update fs.file f { fs.file f with ref := 0, ip := none } }
    match (fs.file f).ip with
    | none => return ()
    | some ip => iput ip

/-- The most bytes that `filewrite` writes in one transaction. -/
def maxWrite : Nat := (Redo.MAXOPBLOCKS - 1 - 1 - 2) / 2 * 512

/-- The loop of `filewrite`: whether all of it was written. -/
def writeChunks (f ip : Nat) : Nat → List Nat → M Bool
  | 0, _ => return true
  | fuel + 1, src =>
    if src = [] then return true
    else do
      ilock ip
      let fs ← get
      let r ← writei ip (src.take maxWrite) (fs.file f).off
      whenever (0 < r) (modify fun fs =>
        { fs with file := update fs.file f { fs.file f with off := (fs.file f).off + r.toNat } })
      if r < 0 then return false
      else do
        failIf (r ≠ (src.take maxWrite).length) .shortFilewrite
        writeChunks f ip fuel (src.drop maxWrite)

/-- `filewrite`. -/
def filewrite (f : Nat) (src : List Nat) : M Int := do
  let fs ← get
  if (fs.file f).writable = false then return -1
  else
    match (fs.file f).ip with
    | none => throw .filewrite
    | some ip => do
      let all ← writeChunks f ip src.length src
      return if all then (src.length : Int) else -1

/-! ## `sysfile.c` -/

/-- `argfd`. -/
def argfd (fs : State) (p : Slot) (fd : Nat) : Option (Fin NOFILE × Nat) :=
  if h : fd < NOFILE then ((fs.task p).ofile ⟨fd, h⟩).map fun f => (⟨fd, h⟩, f) else none

/-- Write a descriptor. -/
def State.setOfile (fs : State) (p : Slot) (fd : Fin NOFILE) (f : Option Nat) : State :=
  let t := { fs.task p with ofile := update (fs.task p).ofile fd f }
  { fs with task := update fs.task p t }

/-- Write a current directory. -/
def State.setCwd (fs : State) (p : Slot) (d : Option Nat) : State :=
  { fs with task := update fs.task p { fs.task p with cwd := d } }

/-- `fdalloc`. -/
def fdalloc (p : Slot) (f : Nat) : M (Option (Fin NOFILE)) := do
  let fs ← get
  match (List.finRange NOFILE).find? fun fd => (fs.task p).ofile fd = none with
  | none => return none
  | some fd => do
    set (fs.setOfile p fd (some f))
    return some fd

/-- `sys_write`. -/
def sysWrite (p : Slot) (fd : Nat) (src : List Nat) : M Int := do
  let fs ← get
  match argfd fs p fd with
  | none => return -1
  | some (_, f) => filewrite f src

/-- `sys_close`. -/
def sysClose (p : Slot) (fd : Nat) : M Int := do
  let fs ← get
  match argfd fs p fd with
  | none => return -1
  | some (fd, f) => do
    set (fs.setOfile p fd none)
    fileclose f
    return 0

/-- The end of `sys_link` once the link count is raised. -/
def linkName (p : Slot) (new : List Nat) (ip : Nat) : M Bool := do
  match ← nameiparent p new with
  | none => return false
  | some (dp, name) => do
    ilock dp
    let r ← dirlink dp name ip
    iput dp
    return decide (0 ≤ r)

/-- `sys_link`. -/
def sysLink (p : Slot) (old new : List Nat) : M Int := do
  match ← namei p old with
  | none => return -1
  | some ip => do
    ilock ip
    let fs ← get
    if (fs.mem ip).type = .dir then do
      iput ip
      return -1
    else do
      setNlink ip ((fs.mem ip).nlink + 1)
      let linked ← linkName p new ip
      if linked then do
        iput ip
        return 0
      else do
        ilock ip
        let fs ← get
        setNlink ip ((fs.mem ip).nlink - 1)
        iput ip
        return -1

/-- The loop of `isdirempty`. -/
def isdiremptyFrom (dp : Nat) : List Nat → M Bool
  | [] => return true
  | off :: rest => do
    let r ← readi dp off DESIZE
    failIf (r.1 ≠ DESIZE) .isdirempty
    if (Dirent.ofBytes r.2).inum ≠ 0 then return false
    else isdiremptyFrom dp rest

/-- `isdirempty`. -/
def isdirempty (dp : Nat) : M Bool := do
  let fs ← get
  isdiremptyFrom dp ((offsets (fs.mem dp).size).drop 2)

/-- `ip->type == T_DIR && !isdirempty(ip)`, the other way round. -/
def removable (ip : Nat) : M Bool := do
  let fs ← get
  if (fs.mem ip).type = .dir then isdirempty ip else return true

/-- The end of `sys_unlink`: the entry is cleared and the links are given up. -/
def removeEntry (dp off ip : Nat) : M Int := do
  let r ← writei dp (List.replicate DESIZE 0) off
  failIf (r ≠ DESIZE) .unlinkWritei
  let fs ← get
  whenever ((fs.mem ip).type = .dir) (setNlink dp ((fs.mem dp).nlink - 1))
  iput dp
  let fs ← get
  setNlink ip ((fs.mem ip).nlink - 1)
  iput ip
  return 0

/-- `sys_unlink`. -/
def sysUnlink (p : Slot) (path : List Nat) : M Int := do
  match ← nameiparent p path with
  | none => return -1
  | some (dp, name) => do
    ilock dp
    if namecmp name (cstr ".") = 0 ∨ namecmp name (cstr "..") = 0 then do
      iput dp
      return -1
    else do
      match ← dirlookup dp name with
      | none => do
        iput dp
        return -1
      | some (ip, off) => do
        ilock ip
        let fs ← get
        failIf ((fs.mem ip).nlink < 1) .unlinkNlink
        let ok ← removable ip
        if ok then removeEntry dp off ip
        else do
          iput ip
          iput dp
          return -1

/-- The `.` and `..` of a new directory. -/
def createDots (dp ip : Nat) : M Unit := do
  let fs ← get
  setNlink dp ((fs.mem dp).nlink + 1)
  let r ← dirlink ip (cstr ".") ip
  failIf (r < 0) .createDots
  let r ← dirlink ip (cstr "..") dp
  failIf (r < 0) .createDots

/-- The inode that `create` makes. -/
def newInode (type : Kind) (major minor : Int) : M Nat := do
  let ip ← ialloc type
  ilock ip
  modify fun fs => fs.setMem ip { fs.mem ip with major := major, minor := minor, nlink := 1 }
  iupdate ip
  return ip

/-- `create`, once the name is known not to be there. -/
def createNew (dp : Nat) (name : List Nat) (type : Kind) (major minor : Int) : M Nat := do
  let ip ← newInode type major minor
  whenever (type = .dir) (createDots dp ip)
  let r ← dirlink dp name ip
  failIf (r < 0) .createDirlink
  iput dp
  return ip

/-- `create`. -/
def create (p : Slot) (path : List Nat) (type : Kind) (major minor : Int) : M (Option Nat) := do
  match ← nameiparent p path with
  | none => return none
  | some (dp, name) => do
    ilock dp
    match ← dirlookup dp name with
    | some (ip, _) => do
      iput dp
      ilock ip
      let fs ← get
      if (type = .file ∧ (fs.mem ip).type = .file) ∨ (fs.mem ip).type = .dev then return some ip
      else do
        iput ip
        return none
    | none => do
      let ip ← createNew dp name type major minor
      return some ip

def O_RDONLY : Nat := 0x000

def O_WRONLY : Nat := 0x001

def O_RDWR : Nat := 0x002

def O_CREATE : Nat := 0x200

/-- `sys_open` of a path that is to exist. -/
def openPath (p : Slot) (path : List Nat) (omode : Nat) : M (Option Nat) := do
  match ← namei p path with
  | none => return none
  | some ip => do
    ilock ip
    let fs ← get
    if (fs.mem ip).type = .dir ∧ omode ≠ O_RDONLY then do
      iput ip
      return none
    else return some ip

/-- The file `sys_open` makes of an inode. -/
def openedFile (ref ip omode : Nat) : File where
  ref := ref
  ip := some ip
  readable := decide (omode &&& O_WRONLY = 0)
  writable := decide (omode &&& O_WRONLY ≠ 0 ∨ omode &&& O_RDWR ≠ 0)
  off := 0

/-- `sys_open`, once it has the inode. -/
def openInode (p : Slot) (ip omode : Nat) : M Int := do
  match ← filealloc with
  | none => do
    iput ip
    return -1
  | some f => do
    match ← fdalloc p f with
    | none => do
      fileclose f
      iput ip
      return -1
    | some fd => do
      modify fun fs =>
        { fs with file := update fs.file f (openedFile (fs.file f).ref ip omode) }
      return (fd.val : Int)

/-- `sys_open`. -/
def sysOpen (p : Slot) (path : List Nat) (omode : Nat) : M Int := do
  let r ← if omode &&& O_CREATE ≠ 0 then create p path .file 0 0 else openPath p path omode
  match r with
  | none => return -1
  | some ip => openInode p ip omode

/-- What `sys_mkdir` and `sys_mknod` do with the answer of `create`. -/
def sysCreate (p : Slot) (path : List Nat) (type : Kind) (major minor : Int) : M Int := do
  match ← create p path type major minor with
  | none => return -1
  | some ip => do
    iput ip
    return 0

/-- `sys_mkdir`. -/
def sysMkdir (p : Slot) (path : List Nat) : M Int := sysCreate p path .dir 0 0

/-- `sys_mknod`. -/
def sysMknod (p : Slot) (path : List Nat) (major minor : Int) : M Int :=
  sysCreate p path .dev (i16 major) (i16 minor)

/-- `sys_chdir`. -/
def sysChdir (p : Slot) (path : List Nat) : M Int := do
  match ← namei p path with
  | none => return -1
  | some ip => do
    ilock ip
    let fs ← get
    if (fs.mem ip).type ≠ .dir then do
      iput ip
      return -1
    else
      match (fs.task p).cwd with
      | none => throw .nullCwd
      | some d => do
        iput d
        modify fun fs => fs.setCwd p (some ip)
        return 0

/-! ## `proc.c` -/

/-- A turn of the loop of `fork` over the descriptors. -/
def dupOfile (t : Task) (fd : Fin NOFILE) : M PUnit :=
  match t.ofile fd with
  | none => return ()
  | some f => filedup f

/-- `fork`, as far as it shares files; `q` is the slot of the child. -/
def fork (p q : Slot) : M Int := do
  let fs ← get
  match (fs.task q).cwd, (fs.task p).cwd with
  | some _, _ => return -1
  | none, none => throw .nullCwd
  | none, some d => do
    (List.finRange NOFILE).forM (dupOfile (fs.task p))
    idup d
    modify fun fs' => { fs' with task := update fs'.task q (fs.task p) }
    return 0

/-- A turn of the loop of `exit`. -/
def closeOfile (p : Slot) (fd : Fin NOFILE) : M PUnit := do
  let fs ← get
  match (fs.task p).ofile fd with
  | none => return ()
  | some f => do
    fileclose f
    modify fun fs => fs.setOfile p fd none

/-- The slot of the first process. -/
def initproc : Slot := ⟨0, NPROC_pos⟩

/-- `exit`, as far as it gives up files. -/
def exit (p : Slot) : M Int := do
  failIf (p = initproc) .initExiting
  (List.finRange NOFILE).forM (closeOfile p)
  let fs ← get
  match (fs.task p).cwd with
  | none => throw .nullCwd
  | some d => do
    iput d
    modify fun fs => fs.setCwd p none
    return 0

/-! ## Calls -/

/-- The calls. -/
inductive Call where
  | open (path : List Nat) (omode : Nat)
  | mkdir (path : List Nat)
  | mknod (path : List Nat) (major minor : Int)
  | link (old new : List Nat)
  | unlink (path : List Nat)
  | write (fd : Nat) (src : List Nat)
  | close (fd : Nat)
  | chdir (path : List Nat)
  | fork (child : Slot)
  | exit

/-- `syscall`. -/
def syscall (p : Slot) : Call → M Int
  | .open path omode => sysOpen p path omode
  | .mkdir path => sysMkdir p path
  | .mknod path major minor => sysMknod p path major minor
  | .link old new => sysLink p old new
  | .unlink path => sysUnlink p path
  | .write fd src => sysWrite p fd src
  | .close fd => sysClose p fd
  | .chdir path => sysChdir p path
  | .fork child => fork p child
  | .exit => exit p

/-- A call, by whom, and its answer. -/
structure Event where
  who : Slot
  call : Call
  ret : Int

/-- **One call returns.** -/
def Step (fs : State) (e : Event) (fs' : State) : Prop :=
  (fs.task e.who).cwd ≠ none ∧ syscall e.who e.call fs = .ok (e.ret, fs')

end Xv6.Fs

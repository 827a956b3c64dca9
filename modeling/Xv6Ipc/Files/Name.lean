import Xv6Ipc.Files.Inode

/-!
# Files/Name — `fs.c`, directories and paths

A directory is a file of entries of sixteen bytes, two for the number of an inode and fourteen for a
name; an entry whose number is zero is empty.  A path is the list of its bytes, up to a zero byte if it
has one.
-/

namespace Xv6.Fs

open Outcome

def DIRSIZ : Nat := 14

/-- `sizeof(struct dirent)`. -/
def DESIZE : Nat := 16

/-- `struct dirent`. -/
structure Dirent where
  inum : Nat
  name : List Nat
  deriving DecidableEq, Repr

/-- The entry that sixteen bytes are. -/
def Dirent.ofBytes (bs : List Nat) : Dirent := ⟨bs.getD 0 0 + 256 * bs.getD 1 0, bs.drop 2⟩

/-- The bytes of an entry, whose name is copied with `strncpy`. -/
def Dirent.bytes (e : Dirent) : List Nat :=
  e.inum % 256 :: e.inum / 256 % 256 :: strncpy e.name DIRSIZ

/-- `namecmp`. -/
def namecmp (s t : List Nat) : Int := strncmp s t DIRSIZ

/-- The offsets that `for(off = 0; off < size; off += sizeof(de))` goes through. -/
def offsets (size : Nat) : List Nat := (List.range ((size + 15) / DESIZE)).map (DESIZE * ·)

/-- The loop of `dirlookup`: the number of the inode, with a reference, and the offset. -/
def lookupFrom (dp : Nat) (name : List Nat) : List Nat → M (Option (Nat × Nat))
  | [] => return none
  | off :: rest => do
    let r ← readi dp off DESIZE
    failIf (r.1 ≠ DESIZE) .dirlookupRead
    if (Dirent.ofBytes r.2).inum = 0 then lookupFrom dp name rest
    else if namecmp name (Dirent.ofBytes r.2).name = 0 then do
      iget (Dirent.ofBytes r.2).inum
      return some ((Dirent.ofBytes r.2).inum, off)
    else lookupFrom dp name rest

/-- `dirlookup`. -/
def dirlookup (dp : Nat) (name : List Nat) : M (Option (Nat × Nat)) := do
  let fs ← get
  if (fs.mem dp).type ≠ .dir then throw .dirlookup
  else lookupFrom dp name (offsets (fs.mem dp).size)

/-- The loop of `dirlink` that looks for an empty entry; `last` is where it ends. -/
def emptyFrom (dp last : Nat) : List Nat → M Nat
  | [] => return last
  | off :: rest => do
    let r ← readi dp off DESIZE
    failIf (r.1 ≠ DESIZE) .dirlinkRead
    if (Dirent.ofBytes r.2).inum = 0 then return off
    else emptyFrom dp last rest

/-- `dirlink`. -/
def dirlink (dp : Nat) (name : List Nat) (inum : Nat) : M Int := do
  match ← dirlookup dp name with
  | some (ip, _) => do
    iput ip
    return -1
  | none => do
    let fs ← get
    let off ← emptyFrom dp (DESIZE * (((fs.mem dp).size + 15) / DESIZE)) (offsets (fs.mem dp).size)
    let r ← writei dp (Dirent.bytes ⟨inum, name⟩) off
    failIf (r ≠ DESIZE) .dirlink
    return 0

/-! ## Paths -/

/-- `'/'`. -/
def slash : Nat := 47

/-- `skipelem`: the next element, cut to `DIRSIZ` bytes, and what follows it. -/
def skipelem (path : List Nat) : Option (List Nat × List Nat) :=
  match path.dropWhile (· = slash) with
  | [] => none
  | c :: s =>
    some (((c :: s).takeWhile (· ≠ slash)).take DIRSIZ,
      ((c :: s).dropWhile (· ≠ slash)).dropWhile (· = slash))

/-- The elements that calls of `skipelem` find, in order. -/
def elemsFrom : Nat → List Nat → List (List Nat)
  | 0, _ => []
  | n + 1, path =>
    match skipelem path with
    | none => []
    | some (name, rest) => name :: elemsFrom n rest

/-- The elements of a path. -/
def elems (path : List Nat) : List (List Nat) := elemsFrom path.length (path.takeWhile (· ≠ 0))

/-- The loop of `namex`. -/
def namexFrom (parent : Bool) : List (List Nat) → Nat → M (Option (Nat × List Nat))
  | [], ip =>
    if parent then do
      iput ip
      return none
    else return some (ip, [])
  | name :: rest, ip => do
    ilock ip
    let fs ← get
    if (fs.mem ip).type ≠ .dir then do
      iput ip
      return none
    else if parent = true ∧ rest = [] then return some (ip, name)
    else do
      match ← dirlookup ip name with
      | none => do
        iput ip
        return none
      | some (next, _) => do
        iput ip
        namexFrom parent rest next

/-- `namex`: the inode, with a reference, and the last element. -/
def namex (p : Slot) (path : List Nat) (parent : Bool) : M (Option (Nat × List Nat)) := do
  let fs ← get
  if path.headD 0 = slash then do
    iget ROOTINO
    namexFrom parent (elems path) ROOTINO
  else
    match (fs.task p).cwd with
    | none => throw .nullCwd
    | some d => do
      idup d
      namexFrom parent (elems path) d

/-- `namei`. -/
def namei (p : Slot) (path : List Nat) : M (Option Nat) := do
  let r ← namex p path false
  return r.map Prod.fst

/-- `nameiparent`. -/
def nameiparent (p : Slot) (path : List Nat) : M (Option (Nat × List Nat)) := namex p path true

end Xv6.Fs

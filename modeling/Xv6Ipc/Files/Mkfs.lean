import Xv6Ipc.Files.Calls

/-!
# Files/Mkfs — `mkfs.c` and the image it writes

`mkfs` hands out inodes and blocks in order and writes the bitmap at the end.  Its `makedirs` makes `/`,
`/dev`, `/bin` and `/home`; then each file of its command line goes to `/bin` if its name starts with an
underscore and to `/home` otherwise.  The `Makefile` passes `README` and the user programs.
-/

namespace Xv6.Fs.Mkfs

open Outcome Function

/-- The image in the making. -/
structure Img where
  din : Nat → Dinode
  data : Nat → Block
  freeinode : Nat
  freeblock : Nat

/-- How `mkfs` may give up: an inode outside the inode blocks, a failed `assert`, or a block past the
end of the image.  In the first case the source goes on and writes over the bitmap. -/
inductive Stop where
  | inodes
  | assert
  | rsect
  deriving DecidableEq, Repr

abbrev M (α : Type) := StateT Img (Except Stop) α

/-- `ialloc`. -/
def ialloc (type : Kind) : M Nat := do
  let im ← get
  failIf (ninums ≤ im.freeinode) .inodes
  set { im with
    din := update im.din im.freeinode { Dinode.zero with type := type, nlink := 1 }
    freeinode := im.freeinode + 1 }
  return im.freeinode

/-- `freeblock++`. -/
def takeBlock : M Nat := do
  let im ← get
  set { im with freeblock := im.freeblock + 1 }
  return im.freeblock

/-- `if(xint(din.addrs[k]) == 0) din.addrs[k] = xint(freeblock++);` -/
def addrOf (d : Dinode) (k : Nat) : M Dinode :=
  if d.addrs k = 0 then do
    let b ← takeBlock
    return d.setAddr k b
  else return d

/-- The same for a word of the indirect block. -/
def wordOf (ind j : Nat) : M Nat := do
  let im ← get
  if wordAt (im.data ind) j = 0 then do
    let b ← takeBlock
    modify fun im => { im with data := update im.data ind (putWord (im.data ind) j b) }
    return b
  else return wordAt (im.data ind) j

/-- The block `x` that `iappend` writes, and the inode with it. -/
def blockOf (d : Dinode) (fbn : Nat) : M (Dinode × Nat) :=
  if fbn < NDIRECT then do
    let d ← addrOf d fbn
    return (d, d.addrs fbn)
  else do
    let d ← addrOf d NDIRECT
    failIf (FSSIZE ≤ d.addrs NDIRECT) .rsect
    let x ← wordOf (d.addrs NDIRECT) (fbn - NDIRECT)
    return (d, x)

/-- The loop of `iappend`: the inode and the offset it comes to. -/
def appendLoop : Nat → Dinode → Nat → List Nat → M (Dinode × Nat)
  | 0, d, off, _ => return (d, off)
  | fuel + 1, d, off, p =>
    if p = [] then return (d, off)
    else do
      failIf (MAXFILE ≤ off / BSIZE) .assert
      let (d, x) ← blockOf d (off / BSIZE)
      failIf (FSSIZE ≤ x) .rsect
      let n1 := min p.length ((off / BSIZE + 1) * BSIZE - off)
      modify fun im =>
        let y := overwrite (im.data x) (off - off / BSIZE * BSIZE) (p.take n1)
        { im with data := update im.data x y }
      appendLoop fuel d (off + n1) (p.drop n1)

/-- `iappend`. -/
def iappend (inum : Nat) (p : List Nat) : M Unit := do
  let im ← get
  let (d, off) ← appendLoop p.length (im.din inum) (im.din inum).size p
  modify fun im => { im with din := update im.din inum { d with size := off } }

/-- A directory of `makedirs` in the root. -/
def makedir (rootino : Nat) (name : List Nat) : M Nat := do
  let ino ← ialloc .dir
  iappend ino (Dirent.bytes ⟨ino, cstr "."⟩)
  iappend ino (Dirent.bytes ⟨rootino, cstr ".."⟩)
  iappend rootino (Dirent.bytes ⟨ino, name⟩)
  return ino

/-- `makedirs`: the numbers of `/bin` and `/home`. -/
def makedirs : M (Nat × Nat) := do
  let rootino ← ialloc .dir
  iappend rootino (Dirent.bytes ⟨rootino, cstr "."⟩)
  iappend rootino (Dirent.bytes ⟨rootino, cstr ".."⟩)
  let _ ← makedir rootino (cstr "dev")
  let binino ← makedir rootino (cstr "bin")
  let homeino ← makedir rootino (cstr "home")
  return (binino, homeino)

/-- A file of the command line, by its name without `user/`. -/
structure Source where
  shortname : List Nat
  bytes : List Nat

/-- The loop that reads a file, a block at a time. -/
def copyLoop (inum : Nat) : Nat → List Nat → M Unit
  | 0, _ => return ()
  | fuel + 1, p =>
    if p = [] then return ()
    else do
      iappend inum (p.take BSIZE)
      copyLoop inum fuel (p.drop BSIZE)

/-- `'_'`. -/
def underscore : Nat := 95

/-- A turn of the loop over the command line. -/
def addFile (binino homeino : Nat) (f : Source) : M PUnit := do
  failIf (slash ∈ f.shortname) .assert
  let inum ← ialloc .file
  let bin : Bool := f.shortname.headD 0 = underscore
  iappend (if bin then binino else homeino)
    (Dirent.bytes ⟨inum, if bin then f.shortname.tail else f.shortname⟩)
  copyLoop inum f.bytes.length f.bytes

/-- An image of zeroes. -/
def blank : Img := ⟨fun _ => .zero, fun _ => zeroes, 1, nmeta⟩

/-- `main`, up to the bitmap. -/
def main (files : List Source) : M Unit := do
  let dirs ← makedirs
  files.forM (addFile dirs.1 dirs.2)
  let im ← get
  failIf (BSIZE * 8 ≤ im.freeblock) .assert

/-- The names of the files that the `Makefile` passes. -/
def makefileNames : List (List Nat) :=
  ["README", "_cat", "_echo", "_forktest", "_grep", "_init", "_kill", "_ln", "_ls", "_mkdir", "_rm",
    "_sh", "_stressfs", "_usertests", "_wc", "_zombie", "_pipetest", "_primestart", "_primecom",
    "_primecalc", "_provera"].map cstr

/-- **An image `mkfs` writes** for the files of the `Makefile`, whatever they contain. -/
def Image (im : Img) : Prop :=
  ∃ files, files.map Source.shortname = makefileNames ∧ main files blank = .ok ((), im)

/-- The kernel when the first process has its current directory. -/
def Img.boot (im : Img) : State where
  used b := decide (b < im.freeblock)
  din := im.din
  data := im.data
  inode := update (fun _ => ⟨0, false, .zero⟩) ROOTINO ⟨1, false, .zero⟩
  cached := 1
  file _ := ⟨0, none, false, false, 0⟩
  task := update (fun _ => ⟨none, fun _ => none⟩) initproc ⟨some ROOTINO, fun _ => none⟩
  logged := []

/-- **The states a run starts from.** -/
def Boot (fs : State) : Prop := ∃ im, Image im ∧ fs = im.boot

end Xv6.Fs.Mkfs

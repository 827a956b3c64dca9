import Mathlib.Data.Fintype.Sum
import Xv6Ipc.Files.Inode

/-!
# Inodes/Model — the inode cache, step by step

`iget`, `idup`, `ilock`, `iunlock`, `iput`, `ialloc`, `iupdate`, `readi`, `writei` and `itrunc`, as processes
run them at the same time.  A *reference* is a pointer that some caller has from `iget` or `idup` (a local
variable, a current directory, the inode of an open file).  What is done through it goes from `ilock` to
`iunlock`, or through `iput`:

    iget / idup ──▸ reference ──ilock──▸ lock ─▸ hold ⇄ edited, reading, writing ──iunlock──▸ reference
                        │
                        └──iput──▸ put ─▸ count ─▸ trunc ─▸ … ─▸ freed ─▸ release ─▸ drop

Several processes may use one reference at a time, that of an open file they share, but whoever drops it is
alone with it.  A process may be in the middle of several such *uses*, as `unlink` is of a directory and of
the inode it takes out.  A step is one critical section, one access to the block of an inode on disk, or a
change to the fields of an inode that is locked.  The disk is what the buffer cache shows of it.
-/

namespace Xv6.Icache

open Function

open Fs (Kind Dinode NDIRECT BSIZE MAXFILE NINODE)

/-- An entry of the cache. -/
abbrev Ino := Fin NINODE

/-- An inode of a device. -/
structure Key where
  dev : Nat
  inum : Nat
  deriving DecidableEq, Repr

/-- `struct inode`. -/
structure Entry where
  key : Key
  ref : Nat
  locked : Bool
  valid : Bool
  din : Dinode

/-- `iget`; `none` is its panic. -/
def iget (entry : Ino → Entry) (k : Key) : Option (Ino × (Ino → Entry)) :=
  match (List.finRange NINODE).find? fun e => 0 < (entry e).ref ∧ (entry e).key = k with
  | some e => some (e, update entry e { entry e with ref := (entry e).ref + 1 })
  | none =>
    ((List.finRange NINODE).find? fun e => (entry e).ref = 0).map fun e =>
      (e, update entry e { entry e with key := k, ref := 1, valid := false })

/-- The word of `addrs` on the way to a block of the file. -/
def slot (bn : Nat) : Nat := if bn < NDIRECT then bn else NDIRECT

/-- `bmap`, as far as it writes the inode; `b` is the block that `balloc` has for it, which is never the boot
block. -/
def bmap (d : Dinode) (bn b : Nat) : Dinode :=
  if d.addrs (slot bn) = 0 then d.setAddr (slot bn) b else d

/-- How much of a block one turn of `readi` or `writei` gets through. -/
def chunk (off n : Nat) : Nat := min n (BSIZE - off % BSIZE)

/-- What system calls do to the fields of an inode: `sys_link`, `sys_unlink` (also to the parent of a
directory), and `create` to the new inode. -/
inductive Edit where
  | link
  | unlink
  | create (major minor : Int)

def Edit.apply (d : Dinode) : Edit → Dinode
  | .link => { d with nlink := d.nlink + 1 }
  | .unlink => { d with nlink := d.nlink - 1 }
  | .create major minor => { d with major := major, minor := minor, nlink := 1 }

/-- The fields after `itrunc`. -/
def truncate (d : Dinode) : Dinode := { d with size := 0, addrs := fun _ => 0 }

/-- How far a use has come. -/
inductive Stage where
  -- in `acquiresleep`, called from `ilock` or from `iput`
  | wait (put : Bool)
  -- `ilock`, with the lock
  | lock
  -- between `ilock` and `iunlock`: nothing to write, `iupdate` to come, in the loop of `readi`, and in
  -- that of `writei`, with what is left and what was asked for
  | hold
  | edited
  | reading (off left : Nat)
  | writing (off left n : Nat)
  -- `iput`, with the lock: before `if(ip->valid && ip->nlink == 0)`, before `r = ip->ref`, before
  -- `itrunc`, in it before `iupdate`, before `ip->type = 0`, before `iupdate`, before `ip->valid = 0`
  | put
  | count
  | trunc
  | truncated
  | empty
  | typeless
  | freed
  -- before `releasesleep`, and before `ip->ref--`
  | release
  | drop
  deriving DecidableEq, Repr

/-- **The steps of one use**, with the entry and the inode on disk that it is about; `none` is its end.  A
panic has no step. -/
inductive Move : Stage → Entry → Dinode → Option Stage → Entry → Dinode → Prop
  | acquire {p x d} : x.locked = false →
    Move (.wait p) x d (some (if p = true then .put else .lock)) { x with locked := true } d
  -- `ilock`
  | cached {x d} : x.valid = true → Move .lock x d (some .hold) x d
  | load {x d} : x.valid = false → d.type ≠ .none →
    Move .lock x d (some .hold) { x with valid := true, din := d } d
  -- changes to fields, and `iupdate`
  | edit {x d} (f : Edit) : Move .hold x d (some .edited) { x with din := f.apply x.din } d
  | iupdate {x d} : Move .edited x d (some .hold) x x.din
  -- `readi`
  | readi {x d} (off n : Nat) : x.din.type ≠ .dev → ¬ (x.din.size < off ∨ u32 (off + n) < off) →
    Move .hold x d (some (.reading off (if x.din.size < off + n then x.din.size - off else n))) x d
  | read {x d off left} (b : Nat) : 0 < left → off / BSIZE < MAXFILE → b ≠ 0 →
    Move (.reading off left) x d (some (.reading (off + chunk off left) (left - chunk off left)))
      { x with din := bmap x.din (off / BSIZE) b } d
  | readDone {x d off} : Move (.reading off 0) x d (some .hold) x d
  -- `writei`
  | writei {x d} (off n : Nat) : x.din.type ≠ .dev → ¬ (x.din.size < off ∨ u32 (off + n) < off) →
    ¬ MAXFILE * BSIZE < off + n → Move .hold x d (some (.writing off n n)) x d
  | write {x d off left n} (b : Nat) : 0 < left → off / BSIZE < MAXFILE → b ≠ 0 →
    Move (.writing off left n) x d (some (.writing (off + chunk off left) (left - chunk off left) n))
      { x with din := bmap x.din (off / BSIZE) b } d
  | grow {x d off n} : 0 < n → x.din.size < off →
    Move (.writing off 0 n) x d (some .edited) { x with din := { x.din with size := off } } d
  | writeDone {x d off n} : ¬ (0 < n ∧ x.din.size < off) → Move (.writing off 0 n) x d (some .hold) x d
  | iunlock {x d} : Move .hold x d none { x with locked := false } d
  -- `iput`
  | keep {x d} : ¬ (x.valid = true ∧ x.din.nlink = 0) → Move .put x d (some .release) x d
  | unlinked {x d} : x.valid = true → x.din.nlink = 0 → Move .put x d (some .count) x d
  | shared {x d} : x.ref ≠ 1 → Move .count x d (some .release) x d
  | last {x d} : x.ref = 1 → Move .count x d (some .trunc) x d
  | itrunc {x d} : Move .trunc x d (some .truncated) { x with din := truncate x.din } d
  | truncUpdate {x d} : Move .truncated x d (some .empty) x x.din
  | clearType {x d} :
    Move .empty x d (some .typeless) { x with din := { x.din with type := .none } } d
  | typeUpdate {x d} : Move .typeless x d (some .freed) x x.din
  | invalidate {x d} : Move .freed x d (some .release) { x with valid := false } d
  | release {x d} : Move .release x d (some .drop) { x with locked := false } d
  | drop {x d} : Move .drop x d none { x with ref := x.ref - 1 } d

/-- Is it on its way through `iput`? -/
def Stage.putting : Stage → Bool
  | .wait p => p
  | .put | .count | .trunc | .truncated | .empty | .typeless | .freed | .release | .drop => true
  | _ => false

/-- Does it have the lock? -/
def Stage.owns : Stage → Bool
  | .wait _ | .drop => false
  | _ => true

/-! ## The cache -/

/-- A use of a reference, and the entry it leads to. -/
structure Use (R : Type) where
  ref : R
  ip : Ino
  stage : Stage

structure State (A R : Type) where
  entry : Ino → Entry
  disk : Key → Dinode
  hand : R → Option Ino
  use : A → Option (Use R)

inductive Event (A R : Type) where
  | iget (r : R) (k : Key)
  | idup (r r' : R)
  | ilock (a : A) (r : R)
  | iput (a : A) (r : R)
  | ialloc (k : Key) (type : Kind)
  | move (a : A)

section

variable {A R : Type} [DecidableEq A] [DecidableEq R]

/-- **One step.**  `ialloc` may come upon any free inode, since others free and allocate while it looks;
`iget` for the inode comes after it. -/
inductive Step : State A R → Event A R → State A R → Prop
  | iget {s r k e c} : s.hand r = none → iget s.entry k = some (e, c) →
    Step s (.iget r k) { s with entry := c, hand := update s.hand r (some e) }
  | idup {s r r' e} : s.hand r = some e → (∀ a u, s.use a = some u → u.ref = r → u.stage.putting = false) →
    s.hand r' = none →
    Step s (.idup r r')
      { s with
        entry := update s.entry e { s.entry e with ref := (s.entry e).ref + 1 }
        hand := update s.hand r' (some e) }
  | ilock {s a r e} : s.use a = none → s.hand r = some e →
    (∀ b u, s.use b = some u → u.ref = r → u.stage.putting = false) →
    Step s (.ilock a r) { s with use := update s.use a (some ⟨r, e, .wait false⟩) }
  | iput {s a r e} : s.use a = none → s.hand r = some e → (∀ b u, s.use b = some u → u.ref ≠ r) →
    Step s (.iput a r) { s with use := update s.use a (some ⟨r, e, .wait true⟩) }
  | ialloc {s k} (type : Kind) : (s.disk k).type = .none → type ≠ .none →
    Step s (.ialloc k type)
      { s with disk := update s.disk k { Dinode.zero with type := type } }
  | move {s a u o x d} : s.use a = some u →
    Move u.stage (s.entry u.ip) (s.disk (s.entry u.ip).key) o x d →
    Step s (.move a)
      { entry := update s.entry u.ip x
        disk := update s.disk (s.entry u.ip).key d
        hand := if u.stage = .drop then update s.hand u.ref none else s.hand
        use := update s.use a (o.map (Use.mk u.ref u.ip)) }

/-- The part of a file below a size has no holes. -/
def Covers (addrs : Nat → Nat) (n : Nat) : Prop := ∀ bn, bn * BSIZE < n → addrs (slot bn) ≠ 0

/-- An inode without holes. -/
def Solid (d : Dinode) : Prop := Covers d.addrs d.size

/-- **Nobody has begun**: no entry is in use, and no file has holes. -/
structure Start (s : State A R) : Prop where
  entry : ∀ e, (s.entry e).ref = 0 ∧ (s.entry e).locked = false
  disk : ∀ k, Solid (s.disk k)
  hand : ∀ r, s.hand r = none
  use : ∀ a, s.use a = none

end

end Xv6.Icache

import Xv6Ipc.Files.Ownership

/-!
# Files/Reservation — the blocks that a transaction writes

`begin_op` sets `MAXOPBLOCKS` blocks of the log aside, and trusts the code up to `end_op` to write no
more.  What such a stretch of code writes are the bitmap, blocks of inodes, and one or two blocks for each
block of a file:

    chunk     bitmap, inode, four times (data, indirect)                       10
    mkdir     bitmap, two inodes, three times (data, indirect)                  9
    link      bitmap, two inodes, (data, indirect)                              5
    unlink    the same                                                          5
    chdir     bitmap, inode                                                     2

A lookup writes nothing: it takes references and gives them back, and an inode without links that it passes
has another.  That is so as long as nobody gives up that other one meanwhile.
-/

namespace Xv6.Fs

open Outcome Budget

variable {E : Panic → Prop} {X : List Nat} {fs fs' fs₁ : State} {i d dp ip f off n omode : Nat}
  {name path old new src : List Nat} {p : Slot}

/-! ## Entries -/

/-- An entry lies in one block. -/
theorem spans_entry (h : DESIZE ∣ off) : spans off DESIZE = 1 := by
  obtain ⟨k, rfl⟩ := h
  rw [spans, if_neg (by decide), DESIZE, BSIZE]
  omega

/-- An entry is written. -/
theorem Wrote.entry_logs {bs : List Nat} (h : Wrote d fs fs' off bs) (hlen : bs.length = DESIZE)
    (hoff : DESIZE ∣ off) : Spends {IBLOCK d, bmapstart} 2 fs.logged fs'.logged := by
  have hlogs := h.logs
  rw [hlen, spans_entry hoff] at hlogs
  exact hlogs

theorem Added.logs {inum : Nat} (h : Added d name inum fs fs') :
    Spends {IBLOCK d, bmapstart} 2 fs.logged fs'.logged :=
  h.wrote.entry_logs (Dirent.length_bytes _) h.aligned

/-! ## Calls

The bitmap and the inodes are what the steps of a call have in common. -/

section

variable {C : Finset Nat} {k : Nat} {l l' : List Nat}

theorem spends_of_inode (h : Spends {IBLOCK i} k l l') (hi : IBLOCK i ∈ C) : Spends C k l l' :=
  h.mono (Finset.singleton_subset_iff.mpr hi) le_rfl

theorem spends_of_inode_bitmap (h : Spends {IBLOCK i, bmapstart} k l l') (hi : IBLOCK i ∈ C)
    (hb : bmapstart ∈ C) : Spends C k l l' :=
  h.mono (Finset.insert_subset hi (Finset.singleton_subset_iff.mpr hb)) le_rfl

end

/-- **`link`.** -/
theorem Links.logs (h : Links p old new fs fs') :
    ∃ ip dp, Spends {IBLOCK ip, IBLOCK dp, bmapstart} 2 fs.logged fs'.logged := by
  obtain ⟨ip, last, dp, name, fs₁, fs₂, -, -, -, hre, hadd, hdrop⟩ := h
  exact ⟨ip, dp, ((spends_of_inode hre.logs (by simp)).trans
    (spends_of_inode_bitmap hadd.logs (by simp) (by simp))).trans
      (spends_of_inode_bitmap hdrop.logs (by simp) (by simp))⟩

/-- **`unlink`.** -/
theorem Unlinks.logs (h : Unlinks p path fs fs') :
    ∃ ip dp, Spends {IBLOCK ip, IBLOCK dp, bmapstart} 2 fs.logged fs'.logged := by
  obtain ⟨dp, name, ip, off, -, -, -, hl, -, -, fs₁, fs₂, fs₃, fs₄, hw, hre, hdrop, hre', hdrop'⟩ := h
  have hlink : Spends {IBLOCK dp} 0 fs₁.logged fs₂.logged := by
    split at hre
    · exact hre.logs
    · exact .of_eq _ _ (by rw [hre])
  have hwrote := hw.entry_logs List.length_replicate (dvd_of_lookup hl)
  exact ⟨ip, dp, ((((spends_of_inode_bitmap hwrote (by simp) (by simp)).trans
    (spends_of_inode hlink (by simp))).trans (spends_of_inode_bitmap hdrop.logs (by simp) (by simp))).trans
      (spends_of_inode hre'.logs (by simp))).trans
        (spends_of_inode_bitmap hdrop'.logs (by simp) (by simp))⟩

/-- The entries of a new directory. -/
theorem Dots.logs (h : Dots dp ip fs fs') :
    Spends {IBLOCK ip, IBLOCK dp, bmapstart} 4 fs.logged fs'.logged := by
  obtain ⟨fs₁, fs₂, hre, hdot, hdotdot⟩ := h
  exact ((spends_of_inode hre.logs (by simp)).trans
    (spends_of_inode_bitmap hdot.logs (by simp) (by simp))).trans
      (spends_of_inode_bitmap hdotdot.logs (by simp) (by simp))

/-- **`create`.** -/
theorem Creates.logs {new : Dinode} (h : Creates p path new ip fs fs') :
    ∃ dp, Spends {IBLOCK ip, IBLOCK dp, bmapstart} 6 fs.logged fs'.logged := by
  obtain ⟨dp, name, -, -, fs₁, fs₂, fs₃, halloc, hdots, hadd, hdrop⟩ := h
  have hlogs : Spends {IBLOCK ip, IBLOCK dp, bmapstart} 4 fs₁.logged fs₂.logged := by
    split at hdots
    · exact hdots.logs
    · exact .of_eq _ _ (by rw [hdots])
  exact ⟨dp, (((spends_of_inode halloc.logs (by simp)).trans hlogs).trans
    (spends_of_inode_bitmap hadd.logs (by simp) (by simp))).trans
      (spends_of_inode_bitmap hdrop.logs (by simp) (by simp))⟩

/-! ## Transactions -/

/-- A turn of the loop of `filewrite`, with its `begin_op` and `end_op`. -/
def writeChunk (f ip : Nat) (src : List Nat) : M Int := do
  ilock ip
  let fs ← get
  let r ← writei ip src (fs.file f).off
  whenever (0 < r) (modify fun fs =>
    { fs with file := Function.update fs.file f { fs.file f with off := (fs.file f).off + r.toNat } })
  return r

/-- `filewrite` is made of such turns. -/
theorem writeChunks_succ (f ip fuel : Nat) (src : List Nat) : writeChunks f ip (fuel + 1) src
    = (if src = [] then return true
      else do
        let r ← writeChunk f ip (src.take maxWrite)
        if r < 0 then return false
        else do
          failIf (r ≠ (src.take maxWrite).length) .shortFilewrite
          writeChunks f ip fuel (src.drop maxWrite)) := by
  rw [writeChunks, writeChunk]
  simp only [bind_assoc, pure_bind]

/-- `iput(curproc->cwd); curproc->cwd = 0;` -/
def leaveCwd (p : Slot) : M Int := do
  let fs ← get
  match (fs.task p).cwd with
  | none => throw .nullCwd
  | some d => do
    iput d
    modify fun fs => fs.setCwd p none
    return 0

/-- `exit` ends with it. -/
theorem exit_eq (p : Slot) : exit p = (do
    failIf (p = initproc) .initExiting
    (List.finRange NOFILE).forM (closeOfile p)
    leaveCwd p) := rfl

/-- A read of `exec`.  The console is read without a block. -/
def execRead (ip : Nat) (read : Nat × Nat) : M PUnit := do
  let fs ← get
  whenever ((fs.mem ip).type ≠ .dev) do
    let _ ← readi ip read.1 read.2
    return ()

/-- What `exec` does with the answer of `namei`, whatever it reads of the file. -/
def execFound (reads : List (Nat × Nat)) : Option Nat → M Int
  | none => return -1
  | some ip => do
    ilock ip
    reads.forM (execRead ip)
    iput ip
    return 0

/-- `exec` up to its `end_op`. -/
def execLookup (p : Slot) (path : List Nat) (reads : List (Nat × Nat)) : M Int :=
  namei p path >>= execFound reads

/-- **What runs between `begin_op` and `end_op`.** -/
inductive Transaction where
  | chunk (f : Nat) (src : List Nat)
  | link (old new : List Nat)
  | unlink (path : List Nat)
  | open (path : List Nat) (omode : Nat)
  | mkdir (path : List Nat)
  | mknod (path : List Nat) (major minor : Int)
  | chdir (path : List Nat)
  | fileclose (f : Nat)
  | exit
  | exec (path : List Nat) (reads : List (Nat × Nat))

/-- A transaction of process `p`. -/
def Transaction.run (p : Slot) : Transaction → M Int
  | .chunk f src => do
    let fs ← get
    match (fs.file f).writable, (fs.file f).ip with
    | true, some ip => writeChunk f ip (src.take maxWrite)
    | _, _ => return -1
  | .link old new => sysLink p old new
  | .unlink path => sysUnlink p path
  | .open path omode => sysOpen p path omode
  | .mkdir path => sysMkdir p path
  | .mknod path major minor => sysMknod p path major minor
  | .chdir path => sysChdir p path
  | .fileclose f => do
    Fs.fileclose f
    return 0
  | .exit => leaveCwd p
  | .exec path reads => execLookup p path reads

/-- At most `MAXOPBLOCKS` different blocks have been written since. -/
def Fits (fs fs' : State) : Prop :=
  ∃ l, fs'.logged = l ++ fs.logged ∧ l.toFinset.card ≤ Redo.MAXOPBLOCKS

theorem Fits.of_spends {C : Finset Nat} {k m : Nat} (h : Spends C k fs.logged fs'.logged)
    (hC : C.card ≤ m) (hk : m + k ≤ Redo.MAXOPBLOCKS) : Fits fs fs' := by
  obtain ⟨l, hl, hcard⟩ := h.card_le
  exact ⟨l, hl, by omega⟩

theorem Idle.fits (h : Idle fs fs') : Fits fs fs' :=
  ⟨[], h.logged, Nat.zero_le _⟩

/-- The reads of `exec` write nothing. -/
theorem execReads_idle (h : Sound X fs) (hv : (fs.inode ip).valid = true) (reads : List (Nat × Nat)) :
    reads.forM (execRead ip) fs = .ok (⟨⟩, fs) := by
  induction reads with
  | nil => rfl
  | cons read reads ih =>
    have hread : execRead ip read fs = .ok (⟨⟩, fs) := by
      change whenever ((fs.mem ip).type ≠ .dev) (readi ip read.1 read.2 >>= fun _ => pure ()) fs = _
      rw [h.mem_eq hv, whenever]
      split
      · rename_i hdev
        exact bind_of_ok ((h.legible hv).readi hdev read.1 read.2)
      · rfl
    exact (bind_of_ok hread).trans ih

/-- **`exec`** takes a reference and gives it back. -/
theorem execLookup_idle (hE : Tame E) (hf : Firm E fs) (h : Sound X fs) (reads : List (Nat × Nat)) :
    Meets (execLookup p path reads fs) E fun _ fs' => Sound X fs' ∧ Idle fs fs' := by
  rw [execLookup]
  refine namei_lock hE hf h (fun _ => rfl) (fun fs₁ _ h₁ hidle => ⟨h₁, hidle⟩)
    fun ip last fs₂ hres h₂ hidle hv₂ => .step (execReads_idle h₂ hv₂ reads) ?_
  refine (iput_back h hidle h₂ fun _ => le_rfl).bind fun _ fs' hfs => ?_
  exact ⟨hfs.1, hfs.2.1⟩

/-- What `create` writes fits. -/
theorem Creates.fits {new : Dinode} (h : Creates p path new ip fs fs₁) (hlog : fs'.logged = fs₁.logged) :
    Fits fs fs' := by
  obtain ⟨dp, hlogs⟩ := h.logs
  rw [← hlog] at hlogs
  exact .of_spends hlogs Finset.card_le_three (by decide)

end Xv6.Fs

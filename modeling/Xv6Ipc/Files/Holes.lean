import Xv6Ipc.Files.Reservation

/-!
# Files/Holes — files have no holes, so that a read writes nothing

`bmap` allocates a block wherever it finds none, for a read as for a write, and a read is in no
transaction.  It never comes to that: the blocks of an inode are those its size needs, no less and no
more,

    addrs   ■ ■ ■ ■ · · · · · · · ·   ·         size ≤ 4 · BSIZE
    addrs   ■ ■ ■ ■ ■ ■ ■ ■ ■ ■ ■ ■   ■ ─▸ ■ ■ · · …

in every state that calls lead to, those included that read.
-/

namespace Xv6.Fs

open Outcome Runs Function

variable {E : Panic → Prop} {X : List Nat} {fs fs' : State} {i k f n : Nat} {p : Slot}

/-! ## The calls that read -/

/-- `fileread`.  The console, which answers `con`, is read without a block. -/
def fileread (f n : Nat) (con : Int) : M Int := do
  let fs ← get
  if (fs.file f).readable = false then return -1
  else
    match (fs.file f).ip with
    | none => throw .fileread
    | some ip => do
      ilock ip
      let fs ← get
      let (r, _) ← (if (fs.mem ip).type = .dev then pure (con, []) else readi ip (fs.file f).off n)
      whenever (0 < r) (modify fun fs =>
        { fs with file := update fs.file f { fs.file f with off := (fs.file f).off + r.toNat } })
      return r

/-- `filestat`; the answer is in user memory. -/
def filestat (f : Nat) : M Int := do
  let fs ← get
  match (fs.file f).ip with
  | none => return -1
  | some ip => do
    ilock ip
    return 0

/-- The end of `sys_dup`. -/
def dupFile (p : Slot) (f : Nat) : M Int := do
  match ← fdalloc p f with
  | none => return -1
  | some fd => do
    filedup f
    return fd.val

/-- The calls that change neither names nor contents. -/
inductive Look where
  | read (fd n : Nat) (con : Int)
  | fstat (fd : Nat)
  | dup (fd : Nat)
  | exec (path : List Nat) (reads : List (Nat × Nat))

/-- A call on the file of a descriptor. -/
def onFile (p : Slot) (fd : Nat) (call : Nat → M Int) : M Int := do
  match argfd (← get) p fd with
  | none => return -1
  | some (_, f) => call f

/-- `sys_read`, `sys_fstat`, `sys_dup` and `exec`. -/
def look (p : Slot) : Look → M Int
  | .read fd n con => onFile p fd fun f => fileread f n con
  | .fstat fd => onFile p fd filestat
  | .dup fd => onFile p fd (dupFile p)
  | .exec path reads => execLookup p path reads

/-- **Any call returns.** -/
def AnyStep (fs : State) (e : Event ⊕ Slot × Look) (fs' : State) : Prop :=
  match e with
  | .inl e => Step fs e fs'
  | .inr (p, l) => ∃ r, look p l fs = .ok (r, fs')

/-- **`fileread`** writes nothing: the blocks it comes to are there. -/
theorem fileread_spec (h : Sound X fs) (hip : (fs.file f).ip = none → E .fileread) (con : Int) :
    Meets (fileread f n con fs) E fun _ fs' => Sound X fs' ∧ Still fs fs' ∧ fs'.logged = fs.logged
      ∧ fs'.task = fs.task := by
  rw [fileread]
  refine .get ?_
  split
  · exact ⟨h, ⟨rfl, rfl, rfl⟩, rfl, rfl⟩
  · cases hf : (fs.file f).ip with
    | none => exact hip hf
    | some ip =>
      have hpos := h.ref_pos_of_file hf
      have ht := ((h.good ip).files f hf).2.2.1
      refine (ilock_held (fun hlt => absurd hpos (by omega)) (absurd · ht) h).bind
        fun _ fs₁ h₁ => .get ?_
      obtain ⟨h₁, hidle, -, hv⟩ := h₁
      refine Meets.bind (Q := fun _ fs₂ => fs₂ = fs₁) ?_ fun r fs₂ hr => ?_
      · split
        · rfl
        · rename_i hdev
          rw [h₁.mem_eq hv] at hdev
          rw [(h₁.legible hv).readi hdev _ n]
          rfl
      · subst hr
        refine Meets.bind (Q := fun _ fs' => Sound X fs' ∧ Still fs fs' ∧ fs'.logged = fs.logged
          ∧ fs'.task = fs.task) ?_ fun _ _ hfs => hfs
        refine .whenever (fun _ => ?_) fun _ => ⟨h₁, hidle.still, hidle.logged, hidle.task⟩
        exact ⟨h₁.setOff _, ⟨hidle.used, hidle.din, hidle.data⟩, hidle.logged, hidle.task⟩

theorem onFile_spec {fd : Nat} {call : Nat → M Int} {Q : Int → State → Prop} (hnone : Q (-1) fs)
    (hcall : ∀ f, Meets (call f fs) E Q) : Meets (onFile p fd call fs) E Q := by
  rw [onFile]
  refine .get ?_
  cases argfd fs p fd with
  | none => exact hnone
  | some found => exact hcall found.2

/-- **None of these calls changes the disk.** -/
theorem look_spec (hE : Tame E) (hf : Firm E fs) (h : Sound fs.cwds fs) (l : Look) :
    Meets (look p l fs) E fun _ fs' => Sound fs'.cwds fs' ∧ Still fs fs' := by
  have hstay : Sound fs.cwds fs ∧ Still fs fs := ⟨h, rfl, rfl, rfl⟩
  have hsame : ∀ {fs'}, Sound fs.cwds fs' → fs'.task = fs.task → Sound fs'.cwds fs' := fun hs ht => by
    rw [cwds_of_task ht]
    exact hs
  cases l with
  | read fd n con =>
    refine onFile_spec hstay fun f => ?_
    refine (fileread_spec h (fun _ => hE _ (by decide) (by decide)) con).imp fun _ _ hfs => ?_
    exact ⟨hsame hfs.1 hfs.2.2.2, hfs.2.1⟩
  | fstat fd =>
    refine onFile_spec hstay fun f => ?_
    rw [filestat]
    refine .get ?_
    cases hip : (fs.file f).ip with
    | none => exact hstay
    | some ip =>
      have ht := ((h.good ip).files f hip).2.2.1
      refine (ilock_spec hE (absurd · ht) h).bind fun _ fs₁ h₁ => ?_
      exact ⟨hsame h₁.1 h₁.2.1.task, h₁.2.1.still⟩
  | dup fd =>
    refine onFile_spec hstay fun f => ?_
    rw [dupFile]
    refine fdalloc_spec.bind fun r fs₁ hr => ?_
    cases r with
    | none =>
      obtain ⟨rfl, -⟩ := hr
      exact hstay
    | some fd =>
      obtain ⟨-, rfl⟩ := hr
      have h₁ : Sound fs.cwds (fs.setOfile p fd (some f)) := h.retask _
      refine (filedup_spec hE h₁).bind fun _ fs₂ h₂ => ⟨?_, h₂.2.1.used, h₂.2.1.din, h₂.2.1.data⟩
      rw [cwds_of_task h₂.2.2, cwds_setOfile]
      exact h₂.1
  | exec path reads =>
    refine (execLookup_idle hE hf h reads).imp fun _ _ hfs => ?_
    exact ⟨hsame hfs.1 hfs.2.task, hfs.2.still⟩

/-! ## Every run -/

/-- Every state of a run is in order, and has no block that is not needed. -/
theorem reach_neat (h : Reach Mkfs.Boot AnyStep fs) : Sound fs.cwds fs ∧ fs.Neat := by
  refine h.keeps (P := fun fs => Sound fs.cwds fs ∧ fs.Neat) (fun fs hboot => ?_)
    fun fs e fs' hs hstep => ?_
  · obtain ⟨im, ⟨files, -, hrun⟩, rfl⟩ := hboot
    have him := (Mkfs.main_node hrun).1
    exact ⟨him.boot, him.neat⟩
  · have hE : Tame fun _ => True := fun _ _ _ => trivial
    cases e with
    | inl e =>
      obtain ⟨hs', hn⟩ := (syscall_sound hE (.of_allowed trivial fs) hs.1 e.call).ok hstep.2
      exact ⟨hs', hn hs.2⟩
    | inr e =>
      obtain ⟨r, hlook⟩ := hstep
      obtain ⟨hs', hstill⟩ := (look_spec hE (.of_allowed trivial fs) hs.1 e.2).ok hlook
      exact ⟨hs', hs.2.congr hstill.din hstill.data⟩

/-- How many blocks the bytes of inode `i` take. -/
def State.blocks (fs : State) (i : Nat) : Nat := ((fs.din i).size + BSIZE - 1) / BSIZE

/-- **Inode `i` has the blocks it needs and no others.** -/
structure Solid (fs : State) (i : Nat) : Prop where
  size : (fs.din i).size ≤ MAXFILE * BSIZE
  direct : ∀ bn < NDIRECT, (fs.din i).addrs bn ≠ 0 ↔ bn < fs.blocks i
  indirect : (fs.din i).addrs NDIRECT ≠ 0 ↔ NDIRECT < fs.blocks i
  words : (fs.din i).addrs NDIRECT ≠ 0 → ∀ j < NINDIRECT,
    wordAt (fs.data ((fs.din i).addrs NDIRECT)) j ≠ 0 ↔ NDIRECT + j < fs.blocks i

theorem lt_blocks {bn : Nat} : bn < fs.blocks i ↔ bn * BSIZE < (fs.din i).size := by
  rw [State.blocks, BSIZE]
  omega

/-- A block is there if and only if it is needed. -/
theorem Sound.slot_ne_iff (h : Sound X fs) (hn : fs.Neat) (bn : Nat) :
    slot fs.data (fs.din i) bn ≠ 0 ↔ bn < fs.blocks i := by
  rw [lt_blocks]
  refine ⟨fun hne => ?_, fun hlt => ?_⟩
  · by_contra hle
    exact hne (hn i _ (by rw [needed_place]; exact Nat.le_of_not_lt hle))
  · have hdense := (h.good i).dense _ hlt
    rwa [Nat.mul_div_cancel _ (by decide)] at hdense

theorem Sound.solid (h : Sound X fs) (hn : fs.Neat) (i : Nat) : Solid fs i where
  size := size_le_of_dense (h.good i).dense
  direct bn hbn := by
    have hslot : slot fs.data (fs.din i) bn = (fs.din i).addrs bn := slot_of_lt hbn
    rw [← hslot, h.slot_ne_iff hn]
  indirect := by
    refine ⟨fun hne => lt_blocks.mpr ?_, fun hlt => ?_⟩
    · by_contra hle
      exact hne (hn i NDIRECT (Nat.le_of_not_lt hle))
    · exact (slot_of_le (Nat.lt_irrefl _) ((h.slot_ne_iff hn NDIRECT).mpr hlt)).1
  words hne j hj := by
    have hslot : slot fs.data (fs.din i) (NDIRECT + j) = wordAt (fs.data ((fs.din i).addrs NDIRECT)) j := by
      rw [slot, place, if_neg (by omega), word, if_neg (by omega), if_pos ⟨hne, by rw [nwords]; omega⟩]
      congr 1
      omega
    rw [← hslot, h.slot_ne_iff hn]

/-- **Files have no holes**, after any calls, and no blocks past their ends; so a read of an open file
returns, with the disk as it was and nothing given to the log. -/
theorem files_without_holes (h : Reach Mkfs.Boot AnyStep fs) : (∀ i, Solid fs i)
    ∧ ∀ f ip n con, (fs.file f).ip = some ip → ∃ r fs', fileread f n con fs = .ok (r, fs')
      ∧ Still fs fs' ∧ fs'.logged = fs.logged := by
  obtain ⟨hs, hn⟩ := reach_neat h
  refine ⟨hs.solid hn, fun f ip n con hip => ?_⟩
  obtain ⟨r, fs', hrun, -, hstill, hlog, -⟩ :=
    (fileread_spec (n := n) hs (fun hnone => nomatch hip.symm.trans hnone) con).returns
  exact ⟨r, fs', hrun, hstill, hlog⟩

/-- The root directory of a new image is one block. -/
theorem files_without_holes_boot : Reach Mkfs.Boot AnyStep Mkfs.emptyImg.boot
    ∧ Solid Mkfs.emptyImg.boot ROOTINO :=
  ⟨.init Mkfs.boot_empty, (files_without_holes (.init Mkfs.boot_empty)).1 ROOTINO⟩

/-! ## A file is an array of bytes -/

end Xv6.Fs

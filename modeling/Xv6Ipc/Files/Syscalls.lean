import Xv6Ipc.Files.Opened

/-!
# Files/Syscalls — every call, and the invariant of runs

Each call on its own: what it does when it fails, what it does when it succeeds, and that the state is
in order afterwards, with the current directories as the references that are left.

    Sound cwds ──call──▸ Sound cwds
-/

namespace Xv6.Fs

open Outcome Budget Function

variable {E : Panic → Prop} {X Y : List Nat} {fs fs' fs₁ : State} {i j ip dp f fd omode : Nat}
  {name path old new src : List Nat} {p q : Slot}

theorem Relink.din_of_ne {n : Int} (h : Relink i n fs fs') (hj : j ≠ i) : fs'.din j = fs.din j := by
  rw [h.din, update_of_ne hj]

theorem Drop.din_of_ne (h : Drop i fs fs') (hj : j ≠ i) : fs'.din j = fs.din j :=
  h.elim (fun h => by rw [h.din]) fun h => h.din j hj

/-- The inode made is as it was made, but for its entries. -/
theorem Makes.inode {new : Dinode} (h : Makes dp name new ip fs fs') (hne : ip ≠ dp) :
    (fs'.din ip).type = new.type ∧ (fs'.din ip).nlink = new.nlink := by
  obtain ⟨s₁, s₂, s₃, halloc, hdots, hadd, hdrop⟩ := h
  have hs₂ : (s₂.din ip).type = new.type ∧ (s₂.din ip).nlink = new.nlink := by
    rw [← halloc.din]
    split at hdots
    · obtain ⟨t₁, t₂, hre, hdot, hdotdot⟩ := hdots
      rw [hdotdot.wrote.type, hdotdot.wrote.nlink, hdot.wrote.type, hdot.wrote.nlink,
        hre.din_of_ne hne]
      exact ⟨rfl, rfl⟩
    · rw [hdots]
      exact ⟨rfl, rfl⟩
  rw [hdrop.din_of_ne hne, hadd.wrote.type, hadd.wrote.nlink]
  exact hs₂

theorem Dots.keeps (h : Dots dp ip fs fs') : Keeps fs fs' := by
  obtain ⟨s₁, s₂, hre, hdot, hdotdot⟩ := h
  exact hre.keeps.trans (hdot.wrote.edit.keeps.trans hdotdot.wrote.edit.keeps)

theorem Makes.keeps {new : Dinode} (h : Makes dp name new ip fs fs') : Keeps fs fs' := by
  obtain ⟨s₁, s₂, s₃, halloc, hdots, hadd, hdrop⟩ := h
  have hs₂ : Keeps fs s₂ := by
    split at hdots
    · exact halloc.edit.keeps.trans hdots.keeps
    · exact hdots ▸ halloc.edit.keeps
  exact hs₂.trans (hadd.wrote.edit.keeps.trans hdrop.keeps)

/-- A new inode is not the directory it is made in. -/
theorem Makes.ne {new : Dinode} (h : Makes dp name new ip fs fs') (ht : (fs.din dp).type = .dir) :
    ip ≠ dp := by
  obtain ⟨s₁, s₂, s₃, halloc, -⟩ := h
  rintro rfl
  exact nomatch ht.symm.trans halloc.free

/-- What `create` makes: an inode with a link. -/
theorem Creates.inode {new : Dinode} (h : Creates p path new ip fs fs') :
    (fs'.din ip).type = new.type ∧ (fs'.din ip).nlink = new.nlink ∧ (fs.din ip).type = .none
      ∧ Keeps fs fs' := by
  obtain ⟨dp, name, hres, -, hmake⟩ := h
  obtain ⟨ht, hn⟩ := hmake.inode (hmake.ne (type_of_resolve hres))
  have hfree : (fs.din ip).type = .none := by
    obtain ⟨s₁, s₂, s₃, halloc, -⟩ := hmake
    exact halloc.free
  exact ⟨ht, hn, hfree, hmake.keeps⟩

/-! ## `open`, `mkdir` and `mknod` -/

/-- `open` of a path that is to exist. -/
theorem openPath_spec (hE : Tame E) (hf : Firm E fs) (h : Sound X fs) :
    Meets (openPath p path omode fs) E fun r fs' => Sound (r.toList ++ X) fs' ∧ Idle fs fs'
      ∧ ∀ ip, r = some ip → (fs.din ip).type ≠ .none
        ∧ ((fs.din ip).type = .dir → omode = O_RDONLY) := by
  rw [openPath]
  refine namei_lock hE hf h (fun _ => rfl) (fun fs₁ _ h₁ hidle => ⟨h₁, hidle, nofun⟩)
    fun ip last fs₂ hres h₂ hidle hv₂ => .get ?_
  have ht := h₂.type_ne hv₂
  rw [hidle.din] at ht
  rw [h₂.mem_eq hv₂, hidle.din]
  split
  · refine (iput_back h hidle h₂ fun _ => le_rfl).bind fun _ fs' hfs => ?_
    exact ⟨hfs.1, hfs.2.1, nofun⟩
  · rename_i hmode
    refine ⟨h₂, hidle, fun ip' hip => ?_⟩
    obtain rfl := Option.some.inj hip
    exact ⟨ht, fun hdir => not_not.mp fun hne => hmode ⟨hdir, hne⟩⟩

theorem not_writable_of_rdonly : (openedFile 1 ip O_RDONLY).writable = false := rfl

/-- What `open` does, when it is not in vain and not for nothing. -/
def Opened (p : Slot) (path : List Nat) (omode : Nat) (fs fs' : State) : Prop :=
  ∃ ip fs₁, (Idle fs fs₁ ∨ omode &&& O_CREATE ≠ 0 ∧ Creates p path (.fresh .file 0 0) ip fs fs₁)
    ∧ Opens p ip omode fs₁ fs'

/-- `open` makes a file and then finds no room for it. -/
def Strands (p : Slot) (path : List Nat) (omode : Nat) (fs fs' : State) : Prop :=
  omode &&& O_CREATE ≠ 0 ∧ ¬ fs.Roomy p
    ∧ ∃ ip fs₁, Creates p path (.fresh .file 0 0) ip fs fs₁ ∧ Idle fs₁ fs'

/-- `open` fails and leaves everything alone. -/
def Vain (p : Slot) (path : List Nat) (omode : Nat) (fs fs' : State) : Prop :=
  Idle fs fs' ∧ (omode &&& O_CREATE ≠ 0 → ¬ fs.Absent p path)

/-- **`open`.** -/
theorem sysOpen_spec (hE : Tame E) (hf : Firm E fs) (h : Sound X fs) :
    Meets (sysOpen p path omode fs) E fun r fs' => Sound X fs'
      ∧ (r = -1 ∧ (Vain p path omode fs fs' ∨ Strands p path omode fs fs')
        ∨ 0 ≤ r ∧ Opened p path omode fs fs') := by
  -- the end, for an inode that was there already
  have hthere : ∀ {ip fs₁}, Sound (ip :: X) fs₁ → Idle fs fs₁ → (fs.din ip).type ≠ .none →
      ((fs.din ip).type = .dir → omode = O_RDONLY) → (omode &&& O_CREATE ≠ 0 → ¬ fs.Absent p path) →
      Meets (openInode p ip omode fs₁) E fun r fs' => Sound X fs'
        ∧ (r = -1 ∧ (Vain p path omode fs fs' ∨ Strands p path omode fs fs')
          ∨ 0 ≤ r ∧ Opened p path omode fs fs') := by
    intro ip fs₁ h₁ hidle ht hdir habs
    have hw : (openedFile 1 ip omode).writable = true → (fs₁.din ip).type ≠ .dir := fun hw hd => by
      rw [hdir (hidle.din ▸ hd), not_writable_of_rdonly] at hw
      exact nomatch hw
    have ht₁ : (fs₁.din ip).type ≠ .none := hidle.din ▸ ht
    have hheld := h.held (congrArg (fun din => (din ip).type) hidle.din)
      (congrArg (fun din => (din ip).nlink) hidle.din) hidle.file (fun _ => le_rfl) ht₁
    refine (openInode_spec h₁ ht₁ hw hheld).imp fun r fs' hfs => ⟨hfs.1, ?_⟩
    obtain ⟨-, ⟨rfl, -, hidle'⟩ | ⟨hr, hopens⟩⟩ := hfs
    · exact .inl ⟨rfl, .inl ⟨hidle.trans hidle', habs⟩⟩
    · exact .inr ⟨hr, ip, fs₁, .inl hidle, hopens⟩
  rw [sysOpen]
  split
  · rename_i hcreate
    refine (create_spec hE hf h (by decide) 0 0).bind fun r fs₁ hr => ?_
    obtain ⟨h₁, hr⟩ := hr
    cases r with
    | none => exact ⟨h₁, .inl ⟨rfl, .inl ⟨hr.1, fun _ => hr.2⟩⟩⟩
    | some ip =>
      obtain ⟨-, ⟨⟨dp, name, off, hres, hl, hkind⟩, hidle⟩ | hmade⟩ := hr
      · refine hthere h₁ hidle ?_ (fun hd => ?_) fun _ => State.not_absent_of_lookup hres hl
        · rcases hkind with ⟨-, hkind⟩ | hkind <;> rw [hkind] <;> decide
        · rw [hd] at hkind
          exact absurd hkind (by decide)
      · obtain ⟨ht, hn, -, hkeeps⟩ := hmade.inode
        have ht : (fs₁.din ip).type = .file := ht
        have hn : (fs₁.din ip).nlink = 1 := hn
        refine (openInode_spec h₁ (by rw [ht]; decide) (fun _ => by rw [ht]; decide) fun hz => ?_).imp
          fun r fs' hfs => ⟨hfs.1, ?_⟩
        · rw [hn] at hz
          exact absurd hz (by decide)
        · obtain ⟨-, ⟨rfl, hroom, hidle⟩ | ⟨hr, hopens⟩⟩ := hfs
          · rw [State.Roomy, hkeeps.file, hkeeps.task] at hroom
            exact .inl ⟨rfl, .inr ⟨hcreate, hroom, ip, fs₁, hmade, hidle⟩⟩
          · exact .inr ⟨hr, ip, fs₁, .inr ⟨hcreate, hmade⟩, hopens⟩
  · rename_i hcreate
    refine (openPath_spec hE hf h).bind fun r fs₁ hr => ?_
    obtain ⟨h₁, hidle, hr⟩ := hr
    cases r with
    | none => exact ⟨h₁, .inl ⟨rfl, .inl ⟨hidle, (absurd · hcreate)⟩⟩⟩
    | some ip => exact hthere h₁ hidle (hr ip rfl).1 (hr ip rfl).2 (absurd · hcreate)

/-- What `mkdir` and `mknod` do when they succeed. -/
def Made (p : Slot) (path : List Nat) (new : Dinode) (fs fs' : State) : Prop :=
  Idle fs fs' ∨ ∃ ip fs₁, Creates p path new ip fs fs₁ ∧ Idle fs₁ fs'

/-- **`mkdir` and `mknod`.** -/
theorem sysCreate_spec (hE : Tame E) (hf : Firm E fs) (h : Sound X fs) {type : Kind}
    (htype : type ≠ .none) (major minor : Int) :
    Meets (sysCreate p path type major minor fs) E fun r fs' => Sound X fs'
      ∧ (r = -1 ∧ Idle fs fs' ∨ r = 0 ∧ Made p path (.fresh type major minor) fs fs') := by
  rw [sysCreate]
  refine (create_spec hE hf h htype major minor).bind fun r fs₁ hr => ?_
  obtain ⟨h₁, hr⟩ := hr
  cases r with
  | none => exact ⟨h₁, .inl ⟨rfl, hr.1⟩⟩
  | some ip =>
    obtain ⟨-, ⟨-, hidle⟩ | hmade⟩ := hr
    · refine (iput_back h hidle h₁ fun _ => le_rfl).bind fun _ fs' hfs => ?_
      exact ⟨hfs.1, .inr ⟨rfl, .inl hfs.2.1⟩⟩
    · have hn : (fs₁.din ip).nlink = 1 := hmade.inode.2.1
      refine (iput_idle h₁ fun _ hz => ?_).bind fun _ fs' hfs => ?_
      · rw [hn] at hz
        exact absurd hz (by decide)
      · exact ⟨hfs.1, .inr ⟨rfl, .inr ⟨ip, fs₁, hmade, hfs.2.2⟩⟩⟩

/-! ## `write` and `close` -/

theorem Asides.refl (fs : State) : Asides fs fs := Relation.ReflTransGen.refl

theorem Asides.trans (h : Asides fs fs₁) (h' : Asides fs₁ fs') : Asides fs fs' :=
  Relation.ReflTransGen.trans h h'

theorem Asides.after_still (h' : Asides fs₁ fs') (h : Still fs fs₁) : Asides fs fs' :=
  h.asides.trans h'

/-- The loop of `filewrite`. -/
theorem writeChunks_spec (hE : Tame E) {fuel : Nat} (h : Sound X fs) (hip : (fs.file f).ip = some ip)
    (hw : (fs.file f).writable = true) : Meets (writeChunks f ip fuel src fs) E fun _ fs' =>
      Sound X fs' ∧ Asides fs fs' ∧ fs'.task = fs.task := by
  induction fuel generalizing fs src with
  | zero => exact ⟨h, .refl fs, rfl⟩
  | succ fuel ih =>
    have hold := (h.good ip).files f hip
    rw [writeChunks]
    split
    · exact ⟨h, .refl fs, rfl⟩
    · refine (ilock_spec hE (fun hnone => absurd hnone hold.2.2.1) h).bind fun _ fs₁ h₁ => .get ?_
      obtain ⟨h₁, hidle, -, hv⟩ := h₁
      have hip₁ : (fs₁.file f).ip = some ip := hidle.file ▸ hip
      have hw₁ : (fs₁.file f).writable = true := hidle.file ▸ hw
      have hdir : (fs₁.din ip).type ≠ .dir := hidle.din ▸ hold.2.2.2 hw
      have hpos := h₁.ref_pos_of_file hip₁
      refine (writei_spec hE h₁ hv hpos fun hd => absurd hd hdir).bind fun r fs₂ h₂ => ?_
      have hfs₂ : Sound X fs₂ ∧ Asides fs fs₂ ∧ fs₂.task = fs.task ∧ fs₂.file = fs₁.file := by
        rcases h₂ with ⟨-, rfl⟩ | ⟨-, ⟨-, rfl⟩ | ⟨-, hs, -, hwrote⟩⟩
        · exact ⟨h₁, hidle.still.asides, hidle.task, rfl⟩
        · exact ⟨h₁, hidle.still.asides, hidle.task, rfl⟩
        · exact ⟨hs, hidle.still.asides.trans (.single (.wrote hdir hwrote)),
            hwrote.edit.task.trans hidle.task, hwrote.edit.file⟩
      obtain ⟨h₂, hasides, htask, hfile⟩ := hfs₂
      -- the offset of the file goes on
      refine Meets.bind (Q := fun _ fs₃ => Sound X fs₃ ∧ Asides fs fs₃ ∧ fs₃.task = fs.task
        ∧ (fs₃.file f).ip = some ip ∧ (fs₃.file f).writable = true) ?_ fun _ fs₃ h₃ => ?_
      · refine .whenever (fun _ => ?_) fun _ => ⟨h₂, hasides, htask, hfile ▸ hip₁, hfile ▸ hw₁⟩
        have hself := update_self f { fs₂.file f with off := (fs₂.file f).off + r.toNat } fs₂.file
        refine ⟨h₂.setOff _, hasides.trans (Still.asides ⟨rfl, rfl, rfl⟩), htask, ?_, ?_⟩
        · exact (congrArg File.ip hself).trans (hfile ▸ hip₁)
        · exact (congrArg File.writable hself).trans (hfile ▸ hw₁)
      · obtain ⟨h₃, hasides₃, htask₃, hip₃, hw₃⟩ := h₃
        split
        · exact ⟨h₃, hasides₃, htask₃⟩
        · refine .check (fun _ => hE _ (by decide) (by decide)) fun _ => ?_
          refine (ih h₃ hip₃ hw₃).imp fun _ fs' hfs => ?_
          exact ⟨hfs.1, hasides₃.trans hfs.2.1, hfs.2.2.trans htask₃⟩

/-- **`write`.** -/
theorem sysWrite_spec (hE : Tame E) (h : Sound X fs) : Meets (sysWrite p fd src fs) E fun _ fs' =>
    Sound X fs' ∧ Asides fs fs' ∧ fs'.task = fs.task := by
  rw [sysWrite]
  refine .get ?_
  cases argfd fs p fd with
  | none => exact ⟨h, .refl fs, rfl⟩
  | some found =>
    obtain ⟨fd, f⟩ := found
    change Meets (filewrite f src fs) E _
    rw [filewrite]
    refine .get ?_
    split
    · exact ⟨h, .refl fs, rfl⟩
    · rename_i hw
      cases hip : (fs.file f).ip with
      | none => exact hE _ (by decide) (by decide)
      | some ip =>
        exact (writeChunks_spec hE h hip (Bool.eq_true_of_not_eq_false hw)).bind fun _ _ hfs => hfs

theorem cwds_setOfile (fs : State) (p : Slot) (fd : Fin NOFILE) (f : Option Nat) :
    (fs.setOfile p fd f).cwds = fs.cwds := by
  refine List.filterMap_congr fun q _ => ?_
  change (update fs.task p _ q).cwd = _
  rw [update_apply]
  split
  · rename_i hq
    rw [hq]
  · rfl

theorem cwds_of_task (h : fs'.task = fs.task) : fs'.cwds = fs.cwds := by
  rw [State.cwds, State.cwds, h]

/-- **`close`.** -/
theorem sysClose_spec (hE : Tame E) (h : Sound X fs) : Meets (sysClose p fd fs) E fun _ fs' =>
    Sound X fs' ∧ Asides fs fs' ∧ fs'.cwds = fs.cwds := by
  rw [sysClose]
  refine .get ?_
  cases argfd fs p fd with
  | none => exact ⟨h, .refl fs, rfl⟩
  | some found =>
    obtain ⟨fd, f⟩ := found
    have h₁ : Sound X (fs.setOfile p fd none) := h.retask _
    refine .set ((fileclose_spec hE h₁).bind fun _ fs' hfs => ?_)
    refine ⟨hfs.1, hfs.2.1.after_still ⟨rfl, rfl, rfl⟩, ?_⟩
    rw [cwds_of_task hfs.2.2, cwds_setOfile]

/-! ## Current directories -/

/-- One process changes its current directory. -/
theorem cwds_perm (fs : State) (p : Slot) (t : Task) : ((fs.task p).cwd.toList
    ++ ({ fs with task := update fs.task p t } : State).cwds).Perm
      (t.cwd.toList ++ fs.cwds) := by
  have hp := Ledger.filterMap_perm_update (f := fun q => (fs.task q).cwd)
    (g := fun q => (update fs.task p t q).cwd) (List.nodup_finRange NPROC)
    (List.mem_finRange p) fun q _ hq => by rw [update_of_ne hq]
  rw [update_self] at hp
  exact hp

/-- **`chdir`.** -/
theorem sysChdir_spec (hE : Tame E) (hf : Firm E fs) (h : Sound fs.cwds fs) :
    Meets (sysChdir p path fs) E fun r fs' => Sound fs'.cwds fs'
      ∧ (r = -1 ∧ Idle fs fs' ∨ r = 0 ∧ ∃ ip last, fs.resolve p path false = some (ip, last)
        ∧ (fs.din ip).type = .dir ∧ Asides fs fs' ∧ fs'.task = (fs.setCwd p (some ip)).task
        ∧ ∃ d, Spends {IBLOCK d, bmapstart} 0 fs.logged fs'.logged) := by
  rw [sysChdir]
  refine namei_lock hE hf h (fun _ => rfl) (fun fs₁ _ h₁ hidle => ⟨?_, .inl ⟨rfl, hidle⟩⟩)
    fun ip last fs₂ hres h₂ hidle hv₂ => .get ?_
  · rw [cwds_of_task hidle.task]
    exact h₁
  rw [h₂.mem_eq hv₂, hidle.din]
  split
  · refine (iput_back h hidle h₂ fun _ => le_rfl).bind fun _ fs' hfs => ?_
    refine ⟨?_, .inl ⟨rfl, hfs.2.1⟩⟩
    rw [cwds_of_task hfs.2.1.task]
    exact hfs.1
  · rename_i hdir
    rw [hidle.task]
    cases hd : (fs.task p).cwd with
    | none => exact hE _ (by decide) (by decide)
    | some d =>
      have hperm := cwds_perm fs p { fs.task p with cwd := some ip }
      rw [hd] at hperm
      have h₂ : Sound (d :: (fs.setCwd p (some ip)).cwds) fs₂ := h₂.perm hperm.symm
      refine (iput_drop h₂).bind fun _ fs₃ h₃ => .modify ⟨?_, .inr ⟨rfl, ip, last, hres,
        not_not.mp hdir, ?_, ?_, d, ?_⟩⟩
      · have htask : (fs₃.setCwd p (some ip)).cwds = (fs.setCwd p (some ip)).cwds :=
          cwds_of_task (by rw [State.setCwd, State.setCwd, h₃.2.2.keeps.task, hidle.task])
        rw [htask]
        exact h₃.1.retask _
      · exact (h₃.2.2.after_still hidle.still).trans (Still.asides ⟨rfl, rfl, rfl⟩)
      · rw [State.setCwd, State.setCwd, h₃.2.2.keeps.task, hidle.task]
      · exact hidle.logged ▸ h₃.2.2.logs

/-- The loop of `fork` over the descriptors. -/
theorem dupOfiles_spec (hE : Tame E) (h : Sound X fs) (t : Task) (l : List (Fin NOFILE)) :
    Meets (l.forM (dupOfile t) fs) E fun _ fs' => Sound X fs' ∧ Still fs fs' ∧ fs'.task = fs.task := by
  let I : List (Fin NOFILE) → State → Prop := fun _ fs' =>
    Sound X fs' ∧ Still fs fs' ∧ fs'.task = fs.task
  refine Meets.forM (I := I) ⟨h, ⟨rfl, rfl, rfl⟩, rfl⟩ fun fd l fs₁ hI => ?_
  rw [dupOfile]
  cases t.ofile fd with
  | none => exact hI
  | some f =>
    refine (filedup_spec hE hI.1).imp fun _ fs' hfs => ⟨hfs.1, ?_, hfs.2.2.trans hI.2.2⟩
    have hs := hfs.2.1
    have hs₁ := hI.2.1
    exact ⟨hs.used.trans hs₁.used, hs.din.trans hs₁.din, hs.data.trans hs₁.data⟩

/-- **`fork`.** -/
theorem fork_spec (hE : Tame E) (h : Sound fs.cwds fs) : Meets (fork p q fs) E fun _ fs' =>
    Sound fs'.cwds fs' ∧ Still fs fs'
      ∧ (fs'.task = fs.task ∨ fs'.task = update fs.task q (fs.task p)) := by
  rw [fork]
  refine .get ?_
  cases hq : (fs.task q).cwd with
  | some d => exact ⟨h, ⟨rfl, rfl, rfl⟩, .inl rfl⟩
  | none =>
    cases hp : (fs.task p).cwd with
    | none => exact hE _ (by decide) (by decide)
    | some d =>
      refine (dupOfiles_spec hE h _ _).bind fun _ fs₁ h₁ => ?_
      obtain ⟨h₁, hstill, htask⟩ := h₁
      refine (idup_spec h₁).bind fun _ fs₂ h₂ => .modify ?_
      obtain ⟨h₂, hidle, -⟩ := h₂
      have htask₂ := hidle.task.trans htask
      have hperm := cwds_perm fs q (fs.task p)
      rw [hq, hp] at hperm
      have hcwds : ({ fs₂ with task := update fs₂.task q (fs.task p) } : State).cwds
          = ({ fs with task := update fs.task q (fs.task p) } : State).cwds :=
        cwds_of_task (by rw [htask₂])
      refine ⟨?_, ⟨hidle.used.trans hstill.used, hidle.din.trans hstill.din,
        hidle.data.trans hstill.data⟩, .inr (by rw [htask₂])⟩
      rw [hcwds]
      exact (h₂.perm hperm.symm).retask _

/-- The loop of `exit` over the descriptors. -/
theorem closeOfiles_spec (hE : Tame E) (h : Sound X fs) (l : List (Fin NOFILE)) :
    Meets (l.forM (closeOfile p) fs) E fun _ fs' => Sound X fs' ∧ Asides fs fs'
      ∧ ∀ q, (fs'.task q).cwd = (fs.task q).cwd := by
  let I : List (Fin NOFILE) → State → Prop := fun _ fs' => Sound X fs' ∧ Asides fs fs'
    ∧ ∀ q, (fs'.task q).cwd = (fs.task q).cwd
  refine Meets.forM (I := I) ⟨h, .refl fs, fun _ => rfl⟩ fun fd l fs₁ hI => ?_
  rw [closeOfile]
  refine .get ?_
  cases (fs₁.task p).ofile fd with
  | none => exact hI
  | some f =>
    refine (fileclose_spec hE hI.1).bind fun _ fs₂ h₂ => ⟨h₂.1.retask _, ?_, fun q => ?_⟩
    · exact hI.2.1.trans (h₂.2.1.trans (Still.asides ⟨rfl, rfl, rfl⟩))
    · rw [← hI.2.2 q, ← h₂.2.2]
      change (update fs₂.task p _ q).cwd = _
      rw [update_apply]
      split
      · rename_i hq
        rw [hq]
      · rfl

/-- **`exit`.** -/
theorem exit_spec (hE : Tame E) (h : Sound fs.cwds fs) : Meets (exit p fs) E fun _ fs' =>
    Sound fs'.cwds fs' ∧ Asides fs fs'
      ∧ ∀ q, (fs'.task q).cwd = if q = p then none else (fs.task q).cwd := by
  rw [exit]
  refine .check (fun _ => hE _ (by decide) (by decide)) fun _ => ?_
  refine (closeOfiles_spec hE h _).bind fun _ fs₁ h₁ => .get ?_
  obtain ⟨h₁, hasides, hcwd⟩ := h₁
  cases hd : (fs₁.task p).cwd with
  | none => exact hE _ (by decide) (by decide)
  | some d =>
    have hcwds : fs₁.cwds = fs.cwds := by
      rw [State.cwds, State.cwds]
      exact List.filterMap_congr fun q _ => hcwd q
    have hperm := cwds_perm fs₁ p { fs₁.task p with cwd := none }
    rw [hd, hcwds] at hperm
    have h₁ : Sound (d :: (fs₁.setCwd p none).cwds) fs₁ := h₁.perm hperm.symm
    refine (iput_drop h₁).bind fun _ fs₂ h₂ => .modify ⟨?_, ?_, fun q => ?_⟩
    · have htask : (fs₂.setCwd p none).cwds = (fs₁.setCwd p none).cwds :=
        cwds_of_task (by rw [State.setCwd, State.setCwd, h₂.2.2.keeps.task])
      rw [htask]
      exact h₂.1.retask _
    · exact hasides.trans (h₂.2.2.asides.trans (Still.asides ⟨rfl, rfl, rfl⟩))
    · change (update fs₂.task p _ q).cwd = _
      rw [update_apply]
      split
      · rfl
      · rw [h₂.2.2.keeps.task, hcwd]

/-! ## Every call -/

theorem Links.keeps (h : Links p old new fs fs') : Keeps fs fs' := by
  obtain ⟨ip, last, dp, name, s₁, s₂, -, -, -, hre, hadd, hdrop⟩ := h
  exact hre.keeps.trans (hadd.wrote.edit.keeps.trans hdrop.keeps)

theorem Unlinks.keeps (h : Unlinks p path fs fs') : Keeps fs fs' := by
  obtain ⟨dp, name, ip, off, -, -, -, -, -, -, s₁, s₂, s₃, s₄, hw, hre, hdrop, hre', hdrop'⟩ := h
  have hs₂ : Keeps fs s₂ := by
    split at hre
    · exact hw.edit.keeps.trans hre.keeps
    · exact hre ▸ hw.edit.keeps
  exact hs₂.trans (hdrop.keeps.trans (hre'.keeps.trans hdrop'.keeps))

theorem Made.keeps {new : Dinode} (h : Made p path new fs fs') : Keeps fs fs' := by
  rcases h with hidle | ⟨ip, s, hmade, hidle⟩
  · exact hidle.toSame.keeps
  · exact hmade.inode.2.2.2.trans hidle.toSame.keeps

theorem Opens.cwds (h : Opens p ip omode fs fs') : fs'.cwds = fs.cwds := by
  obtain ⟨f, fd, -, htask⟩ := h.opened
  rw [cwds_of_task htask, cwds_setOfile]

/-- **Every call keeps the state in order**, and gives no inode a block past its end. -/
theorem syscall_sound (hE : Tame E) (hf : Firm E fs) (h : Sound fs.cwds fs) (call : Call) :
    Meets (syscall p call fs) E fun _ fs' => Sound fs'.cwds fs' ∧ (fs.Neat → fs'.Neat) := by
  -- a call that leaves the processes alone
  have hsame : ∀ {fs'}, Sound fs.cwds fs' → Keeps fs fs' → Sound fs'.cwds fs' ∧ (fs.Neat → fs'.Neat) :=
    fun hs hk => ⟨by rw [cwds_of_task hk.task]; exact hs, hk.neat⟩
  have hcreate : ∀ {path type}, type ≠ .none → ∀ major minor,
      Meets (sysCreate p path type major minor fs) E fun _ fs' =>
        Sound fs'.cwds fs' ∧ (fs.Neat → fs'.Neat) := by
    intro path type htype major minor
    refine (sysCreate_spec hE hf h htype major minor).imp fun r fs' hfs => hsame hfs.1 ?_
    exact hfs.2.elim (fun hr => hr.2.keeps) fun hr => hr.2.keeps
  cases call with
  | «open» path omode =>
    refine (sysOpen_spec hE hf h).imp fun r fs' hfs => ?_
    obtain ⟨hs, ⟨-, ⟨hidle, -⟩ | ⟨-, -, ip, s, hmade, hidle⟩⟩ | ⟨-, ip, s, hs₁, hopens⟩⟩ := hfs
    · exact hsame hs hidle.keeps
    · exact hsame hs (hmade.inode.2.2.2.trans hidle.keeps)
    · have hk : Keeps fs s := hs₁.elim (fun h => h.keeps) fun hm => hm.2.inode.2.2.2
      refine ⟨?_, fun hn => (hk.neat hn).congr hopens.still.din hopens.still.data⟩
      rw [hopens.cwds, cwds_of_task hk.task]
      exact hs
  | mkdir path => exact hcreate (by decide) 0 0
  | mknod path major minor => exact hcreate (by decide) (i16 major) (i16 minor)
  | link old new =>
    refine (sysLink_spec hE hf h).imp fun r fs' hfs => hsame hfs.1 ?_
    exact hfs.2.elim (fun hr => hr.2.1.keeps) fun hr => hr.2.keeps
  | unlink path =>
    refine (sysUnlink_spec hE hf h).imp fun r fs' hfs => hsame hfs.1 ?_
    exact hfs.2.elim (fun hr => hr.2.keeps) fun hr => hr.2.keeps
  | write fd src =>
    refine (sysWrite_spec hE h).imp fun r fs' hfs => ⟨?_, hfs.2.1.neat⟩
    rw [cwds_of_task hfs.2.2]
    exact hfs.1
  | close fd =>
    refine (sysClose_spec hE h).imp fun r fs' hfs => ⟨?_, hfs.2.1.neat⟩
    rw [hfs.2.2]
    exact hfs.1
  | chdir path =>
    refine (sysChdir_spec hE hf h).imp fun r fs' hfs => ⟨hfs.1, ?_⟩
    exact hfs.2.elim (fun hr => hr.2.keeps.neat) fun ⟨_, _, _, _, _, hasides, _⟩ => hasides.neat
  | fork child =>
    refine (fork_spec hE h).imp fun r fs' hfs => ⟨hfs.1, fun hn => ?_⟩
    exact hn.congr hfs.2.1.din hfs.2.1.data
  | exit => exact (exit_spec hE h).imp fun r fs' hfs => ⟨hfs.1, hfs.2.1.neat⟩

end Xv6.Fs

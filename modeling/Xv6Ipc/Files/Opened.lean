import Xv6Ipc.Files.Effects

/-!
# Files/Opened — open files, current directories and what the calls do with them

A reference moves from a call to the file table when a file is opened, and back when the last
descriptor of the file is closed:

    ip :: X  |  fileRefs   ─openInode─▸   X  |  ip :: fileRefs   ─fileclose─▸   ip :: X  |  fileRefs

The calls that do not look for a place in a directory change directories in one way only: an inode
without links is freed when the last reference to it goes (`Aside`).
-/

namespace Xv6.Fs

open Outcome Function

namespace State

/-- The references of current directories. -/
def cwds (fs : State) : List Nat := (List.finRange NPROC).filterMap fun p => (fs.task p).cwd

/-- There is an entry of the file table and a descriptor for one more file. -/
def Roomy (fs : State) (p : Slot) : Prop :=
  (∃ f < NFILE, (fs.file f).ref = 0) ∧ ∃ fd, (fs.task p).ofile fd = none

end State

/-- The disk is as it was. -/
structure Still (fs fs' : State) : Prop where
  used : fs'.used = fs.used
  din : fs'.din = fs.din
  data : fs'.data = fs.data

/-- A step that does not write a directory. -/
inductive Aside (fs fs' : State) : Prop
  | still (h : Still fs fs')
  | freed {i : Nat} (h : Freed i fs fs')
  | wrote {i off : Nat} {bs : List Nat} (ht : (fs.din i).type ≠ .dir) (h : Wrote i fs fs' off bs)

/-- Any number of them. -/
def Asides : State → State → Prop := Relation.ReflTransGen Aside

variable {E : Panic → Prop} {X Y : List Nat} {fs fs' fs₁ : State} {i ip f omode : Nat}
  {path : List Nat} {p : Slot}

theorem Same.still (h : Same fs fs') : Still fs fs' := ⟨h.used, h.din, h.data⟩

theorem Still.asides (h : Still fs fs') : Asides fs fs' := .single (.still h)

theorem Drop.asides (h : Drop i fs fs') : Asides fs fs' :=
  h.elim (fun h => h.still.asides) fun h => .single (.freed h)

theorem Drop.after_still (h' : Drop i fs₁ fs') (h : Still fs fs₁) : Asides fs fs' :=
  Relation.ReflTransGen.trans h.asides h'.asides

theorem Asides.neat (h : Asides fs fs') (hn : fs.Neat) : fs'.Neat := by
  induction h with
  | refl => exact hn
  | tail _ hstep ih =>
    cases hstep with
    | still h => exact ih.congr h.din h.data
    | freed h => exact h.neat ih
    | wrote _ h => exact h.edit.neat ih

/-! ## The file table -/

/-- **Files and processes change**: the references are as many as before. -/
theorem Sound.refile (h : Sound X fs) {file : Nat → File} {task : Slot → Task}
    (hfs : fs' = { fs with file := file, task := task })
    (hcount : ∀ j, Y.count j + fs'.fileRefs.count j = X.count j + fs.fileRefs.count j)
    (hfiles : ∀ f j, (file f).ip = some j → f < NFILE ∧ 0 < (file f).ref ∧ (fs.din j).type ≠ .none
      ∧ ((file f).writable = true → (fs.din j).type ≠ .dir)) : Sound Y fs' := by
  subst hfs
  refine ⟨h.own, fun j => ?_⟩
  have hg := h.good j
  exact ⟨hg.dense, hg.freed, hg.area, hg.aligned, hg.short, hg.synced, hg.orphan,
    (hcount j).trans hg.acct, fun f hf => hfiles f j hf⟩

/-- Only processes change. -/
theorem Sound.retask (h : Sound X fs) (task : Slot → Task) : Sound X { fs with task := task } :=
  h.refile rfl (fun _ => rfl) fun f j hf => (h.good j).files f hf

/-- **One file changes**: the reference it had and the one it gets are traded with the caller's. -/
theorem Sound.setFile (h : Sound X fs) {x : File}
    (hX : (x.ip.toList ++ Y).Perm ((fs.file f).ip.toList ++ X))
    (hx : ∀ j, x.ip = some j → f < NFILE ∧ 0 < x.ref ∧ (fs.din j).type ≠ .none
      ∧ (x.writable = true → (fs.din j).type ≠ .dir)) (task : Slot → Task) :
    Sound Y { fs with file := update fs.file f x, task := task } := by
  refine h.refile rfl (fun j => ?_) fun g j hg => ?_
  · have hX := hX.count_eq j
    rw [List.count_append, List.count_append] at hX
    change Y.count j + List.count j ((List.range NFILE).filterMap fun g =>
      (update fs.file f x g).ip) = X.count j + List.count j ((List.range NFILE).filterMap fun g =>
        (fs.file g).ip)
    by_cases hf : f < NFILE
    · have hp := (Ledger.filterMap_perm_update (f := fun g => (fs.file g).ip)
        (g := fun g => (update fs.file f x g).ip) List.nodup_range (List.mem_range.mpr hf)
        fun g _ hg => by rw [update_of_ne hg]).count_eq j
      rw [update_self, List.count_append, List.count_append] at hp
      omega
    · -- outside the table no file has an inode
      have hold : (fs.file f).ip = none :=
        Option.eq_none_iff_forall_ne_some.mpr fun i hi => hf ((h.good i).files f hi).1
      have hnew : x.ip = none := Option.eq_none_iff_forall_ne_some.mpr fun i hi => hf (hx i hi).1
      rw [hold, hnew] at hX
      have hsame : ∀ g ∈ List.range NFILE, (update fs.file f x g).ip = (fs.file g).ip :=
        fun g hg => by rw [update_of_ne (fun he : g = f => hf (he ▸ List.mem_range.mp hg))]
      rw [List.filterMap_congr hsame]
      exact congrArg (· + _) (Nat.add_left_cancel hX)
  · rw [update_apply] at hg ⊢
    split at hg
    · rename_i he
      rw [if_pos he, he]
      exact hx j hg
    · rename_i he
      rw [if_neg he]
      exact (h.good j).files g hg

/-- The offset of a file goes on. -/
theorem Sound.setOff (h : Sound X fs) (off : Nat) :
    Sound X { fs with file := update fs.file f { fs.file f with off := off } } :=
  h.setFile (x := { fs.file f with off := off }) (.refl _) (fun j hj => (h.good j).files f hj) fs.task

/-- A file that is not referred to has no inode. -/
theorem Sound.ip_of_free (h : Sound X fs) (href : (fs.file f).ref = 0) : (fs.file f).ip = none := by
  cases hip : (fs.file f).ip with
  | none => rfl
  | some i => exact absurd href (Nat.ne_of_gt ((h.good i).files f hip).2.1)

/-- **`filedup`.** -/
theorem filedup_spec (hE : Tame E) (h : Sound X fs) : Meets (filedup f fs) E fun _ fs' =>
    Sound X fs' ∧ Still fs fs' ∧ fs'.task = fs.task := by
  rw [filedup]
  refine .get ?_
  split
  · exact hE _ (by decide) (by decide)
  · refine ⟨h.setFile (x := { fs.file f with ref := (fs.file f).ref + 1 }) (.refl _)
      (fun j hj => ?_) fs.task, ⟨rfl, rfl, rfl⟩, rfl⟩
    have hold := (h.good j).files f hj
    exact ⟨hold.1, Nat.succ_pos _, hold.2.2⟩

/-- **`fileclose`** gives up the inode with the last descriptor. -/
theorem fileclose_spec (hE : Tame E) (h : Sound X fs) : Meets (fileclose f fs) E fun _ fs' =>
    Sound X fs' ∧ Asides fs fs' ∧ fs'.task = fs.task := by
  rw [fileclose]
  refine .get ?_
  split
  · exact hE _ (by decide) (by decide)
  · split
    · rename_i hone
      refine ⟨h.setFile (x := { fs.file f with ref := (fs.file f).ref - 1 }) (.refl _)
        (fun j hj => ?_) fs.task, Still.asides ⟨rfl, rfl, rfl⟩, rfl⟩
      have hold := (h.good j).files f hj
      exact ⟨hold.1, Nat.sub_pos_of_lt hone, hold.2.2⟩
    · have hclosed : Sound ((fs.file f).ip.toList ++ X) { fs with
          file := update fs.file f { fs.file f with ref := 0, ip := none } } :=
        h.setFile (x := { fs.file f with ref := 0, ip := none }) (.refl _)
          (fun _ hj => nomatch hj) fs.task
      refine .set ?_
      cases hip : (fs.file f).ip with
      | none =>
        rw [hip] at hclosed
        exact ⟨hclosed, Still.asides ⟨rfl, rfl, rfl⟩, rfl⟩
      | some i =>
        rw [hip] at hclosed
        refine (iput_drop hclosed).imp fun _ fs' hfs => ⟨hfs.1, ?_, hfs.2.2.keeps.task⟩
        exact hfs.2.2.after_still ⟨rfl, rfl, rfl⟩

/-! ## `open` -/

/-- A file is opened for the inode. -/
structure Opens (p : Slot) (ip omode : Nat) (fs fs' : State) : Prop where
  still : Still fs fs'
  roomy : fs.Roomy p
  inode : fs'.inode = fs.inode
  logged : fs'.logged = fs.logged
  opened : ∃ f fd, fs'.file = update fs.file f (openedFile 1 ip omode)
    ∧ fs'.task = (fs.setOfile p fd (some f)).task

/-- `fileclose` of a file without an inode. -/
theorem fileclose_eq (href : (fs.file f).ref = 1) (hip : (fs.file f).ip = none) :
    fileclose f fs = .ok (⟨⟩, { fs with
      file := update fs.file f { fs.file f with ref := 0, ip := none } }) := by
  rw [fileclose]
  change (ite ((fs.file f).ref < 1) _ (ite (1 < (fs.file f).ref) _ _) : M PUnit) fs = _
  rw [href, if_neg (Nat.lt_irrefl 1), if_neg (Nat.lt_irrefl 1)]
  simp only [hip]
  rfl

/-- A file that is allocated and closed at once is as it was. -/
theorem Sound.fileclose_unused (h : Sound X fs) (href : (fs.file f).ref = 0) :
    fileclose f { fs with file := update fs.file f { fs.file f with ref := 1 } }
      = .ok (⟨⟩, fs) := by
  have hip := h.ip_of_free href
  have hself := update_self f { fs.file f with ref := 1 } fs.file
  have hback : update (update fs.file f { fs.file f with ref := 1 }) f
      { update fs.file f { fs.file f with ref := 1 } f with ref := 0, ip := none } = fs.file := by
    rw [hself, update_idem, ← href, ← hip]
    exact update_eq_self f fs.file
  rw [fileclose_eq ((congrArg File.ref hself).trans rfl) ((congrArg File.ip hself).trans hip), hback]

/-- **`filealloc`.** -/
theorem filealloc_spec : Meets (filealloc fs) E fun r fs' =>
    match r with
    | none => fs' = fs ∧ ∀ f < NFILE, (fs.file f).ref ≠ 0
    | some f => f < NFILE ∧ (fs.file f).ref = 0
      ∧ fs' = { fs with file := update fs.file f { fs.file f with ref := 1 } } := by
  rw [filealloc]
  refine .get ?_
  cases hfind : (List.range NFILE).find? fun f => (fs.file f).ref = 0 with
  | none =>
    refine ⟨rfl, fun f hf href => ?_⟩
    exact absurd (decide_eq_true href) (List.find?_eq_none.mp hfind f (List.mem_range.mpr hf))
  | some f =>
    have hfree := List.find?_some hfind
    exact ⟨List.mem_range.mp (List.mem_of_find?_eq_some hfind), of_decide_eq_true hfree, rfl⟩

/-- **`fdalloc`.** -/
theorem fdalloc_spec : Meets (fdalloc p f fs) E fun r fs' =>
    match r with
    | none => fs' = fs ∧ ∀ fd, (fs.task p).ofile fd ≠ none
    | some fd => (fs.task p).ofile fd = none ∧ fs' = fs.setOfile p fd (some f) := by
  rw [fdalloc]
  refine .get ?_
  cases hfind : (List.finRange NOFILE).find? fun fd => (fs.task p).ofile fd = none with
  | none =>
    refine ⟨rfl, fun fd hfd => ?_⟩
    exact absurd (decide_eq_true hfd) (List.find?_eq_none.mp hfind fd (List.mem_finRange fd))
  | some fd =>
    have hfree := List.find?_some hfind
    exact ⟨of_decide_eq_true hfree, rfl⟩

/-- **The end of `open`**: there is no room, or a file is opened. -/
theorem openInode_spec (h : Sound (ip :: X) fs) (ht : (fs.din ip).type ≠ .none)
    (hw : (openedFile 1 ip omode).writable = true → (fs.din ip).type ≠ .dir)
    (hheld : (fs.din ip).nlink = 0 → 0 < X.count ip + fs.fileRefs.count ip) :
    Meets (openInode p ip omode fs) E fun r fs' => Sound X fs'
      ∧ (r = -1 ∧ ¬ fs.Roomy p ∧ Idle fs fs' ∨ 0 ≤ r ∧ Opens p ip omode fs fs') := by
  rw [openInode]
  refine filealloc_spec.bind fun r fs₁ hr => ?_
  cases r with
  | none =>
    obtain ⟨rfl, hfull⟩ := hr
    refine (iput_idle h fun _ => hheld).bind fun _ fs' hfs =>
      ⟨hfs.1, .inl ⟨rfl, fun hr => ?_, hfs.2.2⟩⟩
    obtain ⟨⟨f, hf, href⟩, -⟩ := hr
    exact hfull f hf href
  | some f =>
    obtain ⟨hf, href, rfl⟩ := hr
    refine fdalloc_spec.bind fun r fs₂ hr => ?_
    cases r with
    | none =>
      obtain ⟨rfl, hfull⟩ := hr
      -- `fileclose` leaves the file as it was before
      refine .step (h.fileclose_unused href) ((iput_idle h fun _ => hheld).bind fun _ fs' hfs =>
        ⟨hfs.1, .inl ⟨rfl, fun hr => ?_, hfs.2.2⟩⟩)
      obtain ⟨-, fd, hfd⟩ := hr
      exact hfull fd hfd
    | some fd =>
      obtain ⟨hfd, rfl⟩ := hr
      obtain ⟨task, htask⟩ : ∃ task, task = (fs.setOfile p fd (some f)).task := ⟨_, rfl⟩
      have hfile : update (update fs.file f { fs.file f with ref := 1 }) f
          (openedFile (update fs.file f { fs.file f with ref := 1 } f).ref ip omode)
          = update fs.file f (openedFile 1 ip omode) := by
        rw [update_self, update_idem]
      have hopen : Sound X { fs with
          file := update fs.file f (openedFile 1 ip omode), task := task } := by
        refine h.setFile (x := openedFile 1 ip omode) ?_ (fun j hj => ?_) task
        · rw [h.ip_of_free href]
          exact .refl _
        · obtain rfl := Option.some.inj hj
          exact ⟨hf, Nat.one_pos, ht, hw⟩
      rw [htask, ← hfile] at hopen
      exact .modify ⟨hopen, .inr ⟨Int.natCast_nonneg _, ⟨rfl, rfl, rfl⟩, ⟨⟨f, hf, href⟩, fd, hfd⟩, rfl, rfl,
        f, fd, hfile, rfl⟩⟩

end Xv6.Fs

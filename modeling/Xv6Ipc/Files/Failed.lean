import Xv6Ipc.Files.Ownership

/-!
# Files/Failed — calls on names that fail

`link`, `unlink`, `mkdir`, `mknod`, `open` and `chdir` answer `-1` at more than a dozen places, some of
them after a good part of the work.  All but one leave the file system as it was.  The exception is
`open` with `O_CREATE`: it makes the file first and looks for a descriptor then.

    create ──▸ the file is there ──▸ no descriptor ──▸ -1
-/

namespace Xv6.Fs

open Outcome Runs

/-- **What a failed call is to leave alone**: entries, inodes, contents and bitmap, the process, and the
references. -/
structure Untouched (p : Slot) (fs fs' : State) : Prop where
  entries : ∀ d name, (fs.din d).type = .dir → fs'.lookup d name = fs.lookup d name
  type : ∀ i, (fs'.din i).type = (fs.din i).type
  nlink : ∀ i, (fs'.din i).nlink = (fs.din i).nlink
  size : ∀ i, (fs'.din i).size = (fs.din i).size
  bytes : ∀ i, fs'.bytes i = fs.bytes i
  used : fs'.used = fs.used
  task : fs'.task p = fs.task p
  refs : ∀ i, (fs'.inode i).ref = (fs.inode i).ref

/-- The calls on names. -/
def Call.OnNames : Call → Prop
  | .open _ _ | .mkdir _ | .mknod _ _ _ | .link _ _ | .unlink _ | .chdir _ => True
  | .write _ _ | .close _ | .fork _ | .exit => False

/-- The call is to make a file, and there is no room to open it. -/
def State.Crowded (fs : State) (p : Slot) (call : Call) : Prop :=
  ∃ path omode, call = .open path omode ∧ omode &&& O_CREATE ≠ 0 ∧ fs.Absent p path ∧ ¬ fs.Roomy p

variable {fs fs' : State} {p : Slot} {call : Call}

/-- The references follow from the files and the current directories. -/
theorem Same.untouched (h : Same fs fs') (hs : Sound fs.cwds fs) (hs' : Sound fs'.cwds fs') :
    Untouched p fs fs' where
  entries d name _ := by rw [h.alike.lookup]
  type := h.alike.type
  nlink i := by rw [h.din]
  size := h.alike.size
  bytes i := by rw [h.bytes]
  used := h.used
  task := by rw [h.task]
  refs i := by rw [← (hs.good i).acct, ← (hs'.good i).acct, cwds_of_task h.task, h.fileRefs]

/-- A file that was made shows. -/
theorem Strands.not_untouched {path : List Nat} {omode : Nat} (h : Strands p path omode fs fs') :
    ¬ Untouched p fs fs' := by
  intro hu
  obtain ⟨-, -, ip, fs₁, hmade, hidle⟩ := h
  obtain ⟨hfile, -, hnone, -⟩ := hmade.inode
  have ht := hu.type ip
  rw [hidle.din, hfile, hnone] at ht
  exact nomatch ht

theorem Strands.crowded {path : List Nat} {omode : Nat} (h : Strands p path omode fs fs') :
    fs.Crowded p (.open path omode) := by
  obtain ⟨hcreate, hroom, ip, fs₁, ⟨dp, name, hres, hl, -⟩, -⟩ := h
  exact ⟨path, omode, rfl, hcreate, ⟨dp, name, hres, hl⟩, hroom⟩

/-- Every call but `open` that fails has done nothing; `open` may have made a file. -/
theorem failed_cases (hs : Sound fs.cwds fs) (hcall : call.OnNames)
    (hrun : syscall p call fs = .ok (-1, fs')) : Same fs fs' ∧ (∀ path omode, call = .open path omode →
      Vain p path omode fs fs') ∨ ∃ path omode, call = .open path omode
        ∧ Strands p path omode fs fs' := by
  have hE : Tame fun _ => True := fun _ _ _ => trivial
  have hf : Firm (fun _ => True) fs := .of_allowed trivial fs
  have hne : ∀ {P : Prop}, (-1 : Int) = 0 ∧ P → False := fun h => absurd h.1 (by decide)
  cases call with
  | «open» path omode =>
    obtain ⟨-, ⟨-, hvain | hstrands⟩ | ⟨hle, -⟩⟩ := (sysOpen_spec hE hf hs).ok hrun
    · refine .inl ⟨hvain.1.toSame, fun path' omode' he => ?_⟩
      obtain ⟨rfl, rfl⟩ := Call.open.inj he
      exact hvain
    · exact .inr ⟨path, omode, rfl, hstrands⟩
    · exact absurd hle (by decide)
  | mkdir path =>
    obtain ⟨-, ⟨-, hidle⟩ | h⟩ := (sysCreate_spec hE hf hs (by decide) 0 0).ok hrun
    · exact .inl ⟨hidle.toSame, nofun⟩
    · exact (hne h).elim
  | mknod path major minor =>
    obtain ⟨-, ⟨-, hidle⟩ | h⟩ := (sysCreate_spec hE hf hs (by decide) _ _).ok hrun
    · exact .inl ⟨hidle.toSame, nofun⟩
    · exact (hne h).elim
  | link old new =>
    obtain ⟨-, ⟨-, hsame, -⟩ | h⟩ := (sysLink_spec hE hf hs).ok hrun
    · exact .inl ⟨hsame, nofun⟩
    · exact (hne h).elim
  | unlink path =>
    obtain ⟨-, ⟨-, hidle⟩ | h⟩ := (sysUnlink_spec hE hf hs).ok hrun
    · exact .inl ⟨hidle.toSame, nofun⟩
    · exact (hne h).elim
  | chdir path =>
    obtain ⟨-, ⟨-, hidle⟩ | h⟩ := (sysChdir_spec hE hf hs).ok hrun
    · exact .inl ⟨hidle.toSame, nofun⟩
    · exact (hne h).elim
  | write fd src | close fd | fork child | exit => exact hcall.elim

/-- **A failed call on names leaves the file system alone**, unless it made a file that it has no room to
open. -/
theorem untouched_iff_not_crowded (h : Reach Mkfs.Boot Step fs) (hcall : call.OnNames)
    (hstep : Step fs ⟨p, call, -1⟩ fs') : Untouched p fs fs' ↔ ¬ fs.Crowded p call := by
  have hs := reach_sound h
  rcases failed_cases hs hcall hstep.2 with ⟨hsame, hvain⟩ | ⟨path, omode, rfl, hstrands⟩
  · refine iff_of_true (hsame.untouched hs (reach_sound (h.step hstep))) ?_
    rintro ⟨path, omode, rfl, hcreate, habsent, -⟩
    exact (hvain path omode rfl).2 hcreate habsent
  · exact iff_of_false hstrands.not_untouched (not_not.mpr hstrands.crowded)

/-! ## Runs on fixed inputs -/

/-- The state after some calls, if they all return. -/
def State.after (fs : State) : List (Slot × Call) → Option State
  | [] => some fs
  | (p, call) :: rest =>
    if (fs.task p).cwd = none then none
    else
      match syscall p call fs with
      | .ok (_, fs') => fs'.after rest
      | .error _ => none

/-- A run goes on with them. -/
theorem reach_after {calls : List (Slot × Call)} (h : Reach Mkfs.Boot Step fs)
    (ha : fs.after calls = some fs') : Reach Mkfs.Boot Step fs' := by
  induction calls generalizing fs with
  | nil => exact Option.some.inj ha ▸ h
  | cons c rest ih =>
    rw [State.after] at ha
    split at ha
    · exact nomatch ha
    · rename_i hcwd
      cases hrun : syscall c.1 c.2 fs with
      | ok r =>
        rw [hrun] at ha
        exact ih (h.step (e := ⟨c.1, c.2, r.1⟩) ⟨hcwd, hrun⟩) ha
      | error e =>
        rw [hrun] at ha
        exact nomatch ha

/-- `mkdir` of the root directory, just after the kernel has started. -/
theorem untouched_iff_mkdir_root : ∃ fs', Step Mkfs.emptyImg.boot ⟨initproc, .mkdir (cstr "/"), -1⟩ fs'
    ∧ (Untouched initproc Mkfs.emptyImg.boot fs'
      ↔ ¬ Mkfs.emptyImg.boot.Crowded initproc (.mkdir (cstr "/"))) := by
  obtain ⟨fs', hrun⟩ : ∃ fs', syscall initproc (.mkdir (cstr "/")) Mkfs.emptyImg.boot = .ok (-1, fs') :=
    ⟨_, rfl⟩
  have hstep : Step Mkfs.emptyImg.boot ⟨initproc, .mkdir (cstr "/"), -1⟩ fs' := ⟨nofun, hrun⟩
  exact ⟨fs', hstep, untouched_iff_not_crowded (.init Mkfs.boot_empty) trivial hstep⟩

/-- The first process opens the root directory until it has no descriptor left. -/
def fullTable : List (Slot × Call) := List.replicate NOFILE (initproc, .open (cstr "/") O_RDONLY)

/-- `open` of `/x`, a file to be made. -/
def openX : Call := .open (cstr "/x") (O_CREATE ||| O_RDWR)

/-- Whether `open` answers `-1` with the table full, and inode `i` is a file then and was none. -/
def strandsAt (i : Nat) : Bool :=
  match Mkfs.emptyImg.boot.after fullTable with
  | none => false
  | some fs =>
    match syscall initproc openX fs with
    | .error _ => false
    | .ok (r, fs') => decide ((fs.task initproc).cwd ≠ none ∧ r = -1 ∧ (fs.din i).type = .none
        ∧ (fs'.din i).type = .file)

set_option maxRecDepth 100000 in
theorem strandsAt_new : strandsAt 26 = true := by decide +kernel

/-- **A file is made and `open` fails.** -/
theorem open_strands : ∃ fs fs', Reach Mkfs.Boot Step fs ∧ Step fs ⟨initproc, openX, -1⟩ fs'
    ∧ ¬ Untouched initproc fs fs' := by
  have hnew := strandsAt_new
  rw [strandsAt] at hnew
  cases ha : Mkfs.emptyImg.boot.after fullTable with
  | none =>
    rw [ha] at hnew
    exact nomatch hnew
  | some fs =>
    cases hrun : syscall initproc openX fs with
    | error e =>
      simp only [ha, hrun] at hnew
      exact nomatch hnew
    | ok r =>
      simp only [ha, hrun, decide_eq_true_eq] at hnew
      obtain ⟨hcwd, hr, hnone, hfile⟩ := hnew
      refine ⟨fs, r.2, reach_after (.init Mkfs.boot_empty) ha, ⟨hcwd, ?_⟩, fun hu => ?_⟩
      · rw [hrun, ← hr]
      · exact nomatch hfile.symm.trans ((hu.type 26).trans hnone)

end Xv6.Fs

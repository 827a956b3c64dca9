import Xv6Ipc.Files.Paths

/-!
# Files/Effects — what the calls on names do

One specification for each of `link`, `unlink` and `create`: the call fails and the disk is as it was, or
it goes through a few states that each differ from the one before in one inode.

    link      ─Relink ip─▸ ─Added dp─▸ ─Drop ip─▸
    unlink    ─Wrote dp─▸ ─Relink dp─▸ ─Drop dp─▸ ─Relink ip─▸ ─Drop ip─▸
    create    ─Alloc ip─▸ ─Relink dp─▸ ─Added ip─▸ ─Added ip─▸ ─Added dp─▸ ─Drop dp─▸

The steps of a directory in the second and third row are not there for other inodes.
-/

namespace Xv6.Fs

open Outcome Budget Function

variable {E : Panic → Prop} {X Y : List Nat} {fs fs' fs₁ : State} {i j d dp ip off : Nat}
  {name path old new : List Nat} {p : Slot}

/-! ## Steps -/

/-- A reference to inode `i` is given up, and the inode is freed if that was all there was. -/
def Drop (i : Nat) (fs fs' : State) : Prop := Idle fs fs' ∨ Freed i fs fs'

theorem Drop.logs (h : Drop i fs fs') : Spends {IBLOCK i, bmapstart} 0 fs.logged fs'.logged :=
  h.elim (fun h => .of_eq _ _ h.logged) Freed.logs

/-- Directory `d` is given an entry. -/
structure Added (d : Nat) (name : List Nat) (inum : Nat) (fs fs' : State) : Prop where
  dir : (fs.din d).type = .dir
  fresh : fs.lookup d name = none
  aligned : DESIZE ∣ fs.vacant d
  wrote : Wrote d fs fs' (fs.vacant d) (Dirent.bytes ⟨inum, name⟩)

/-- Inode `i` is taken into use. -/
structure Alloc (i : Nat) (new : Dinode) (fs fs' : State) : Prop where
  free : (fs.din i).type = .none
  pos : 1 ≤ i
  lt : i < NINODES
  edit : Edit i fs fs'
  din : fs'.din i = new
  logs : Spends {IBLOCK i} 0 fs.logged fs'.logged

/-- Processes and open files are as they were, and blocks past the end of an inode are not new. -/
structure Keeps (fs fs' : State) : Prop where
  file : fs'.file = fs.file
  task : fs'.task = fs.task
  neat : fs.Neat → fs'.Neat

theorem Keeps.trans (h : Keeps fs fs₁) (h' : Keeps fs₁ fs') : Keeps fs fs' :=
  ⟨h'.file.trans h.file, h'.task.trans h.task, h'.neat ∘ h.neat⟩

theorem Same.keeps (h : Same fs fs') : Keeps fs fs' := ⟨h.file, h.task, h.neat⟩

theorem Edit.keeps (h : Edit i fs fs') : Keeps fs fs' := ⟨h.file, h.task, h.neat⟩

theorem Relink.keeps {n : Int} (h : Relink i n fs fs') : Keeps fs fs' := by
  refine ⟨h.file, h.task, fun hn j k => ?_⟩
  rw [h.data, h.din, update_apply]
  split
  · exact hn i k
  · exact hn j k

theorem Drop.keeps (h : Drop i fs fs') : Keeps fs fs' :=
  h.elim (fun h => h.toSame.keeps) fun h => h.toEdit.keeps

namespace Wrote

variable {bs : List Nat}

theorem type (h : Wrote i fs fs' off bs) : (fs'.din j).type = (fs.din j).type := by
  by_cases hj : j = i
  · obtain ⟨a, ha⟩ := h.din
    rw [hj, ha]
  · rw [h.edit.din j hj]

theorem nlink (h : Wrote i fs fs' off bs) : (fs'.din j).nlink = (fs.din j).nlink := by
  by_cases hj : j = i
  · obtain ⟨a, ha⟩ := h.din
    rw [hj, ha]
  · rw [h.edit.din j hj]

theorem trans_idle (h : Wrote i fs fs₁ off bs) (h' : Idle fs₁ fs') : Wrote i fs fs' off bs :=
  ⟨⟨fun j hj => by rw [h'.din, h.edit.din j hj], fun j hj => by rw [h'.bytes, h.edit.bytes j hj],
    h'.neat ∘ h.edit.neat, h'.file.trans h.edit.file, h'.task.trans h.edit.task⟩, by rw [h'.bytes, h.bytes], h'.din ▸ h.din,
    h'.logged ▸ h.logs⟩

end Wrote

/-- An inode without links is held still, if its links and the files are as they were. -/
theorem Sound.held (h : Sound X fs) (ht : (fs'.din i).type = (fs.din i).type)
    (hn : (fs'.din i).nlink = (fs.din i).nlink) (hfile : fs'.file = fs.file)
    (hXY : ∀ j, X.count j ≤ Y.count j) (ht' : (fs'.din i).type ≠ .none)
    (hn' : (fs'.din i).nlink = 0) : 0 < Y.count i + fs'.fileRefs.count i := by
  have hpos := h.mem_of_orphan (ht ▸ ht') (hn ▸ hn')
  have hle := hXY i
  rw [State.fileRefs, hfile]
  rw [State.fileRefs] at hpos
  omega

/-- `iput`, and what may come of it. -/
theorem iput_drop (h : Sound (i :: X) fs) : Meets (iput i fs) E fun _ fs' =>
    Sound X fs' ∧ Kept X fs fs' ∧ Drop i fs fs' :=
  (iput_spec h).imp fun _ _ hfs => ⟨hfs.1, hfs.2.1, hfs.2.2.imp_right And.left⟩

/-- `dirlink` that does not fail adds an entry. -/
theorem dirlink_added (hE : Tame E) (h : Sound X fs) (hv : (fs.inode d).valid = true) (hd : d ∈ X)
    (inum : Nat) : Meets (dirlink d name inum fs) E fun r fs' =>
      ¬ r < 0 → Sound X fs' ∧ Kept X fs fs' ∧ Added d name inum fs fs' := by
  refine (dirlink_spec hE h hv hd inum).imp fun r fs' hr hneg => ?_
  obtain ⟨ht, ⟨-, rfl, -⟩ | ⟨hl, -, hs, hk, hw⟩⟩ := hr
  · exact absurd (by decide) hneg
  · exact ⟨hs, hk, ht, hl, dvd_vacant h ht, hw⟩

/-! ## `link` -/

/-- The end of `link`: a name is there already or cannot be, or it is added. -/
theorem linkName_spec (hE : Tame E) (hf : Firm E fs) (h : Sound X fs) (ip : Nat) :
    Meets (linkName p new ip fs) E fun linked fs' => Sound X fs' ∧ Kept X fs fs'
      ∧ (linked = false ∧ Idle fs fs' ∨ linked = true ∧ ∃ dp name,
        fs.resolve p new true = some (dp, name) ∧ Added dp name ip fs fs') := by
  rw [linkName]
  refine namex_lock hE hf h (fun _ _ => rfl) (fun fs₁ _ h₁ hk hidle => ⟨h₁, hk, .inl ⟨rfl, hidle⟩⟩)
    fun dp name fs₂ hres h₂ hk hidle hv₂ => ?_
  have hdir := type_of_resolve hres
  refine (dirlink_spec hE h₂ hv₂ List.mem_cons_self ip).bind fun r fs₃ hr => ?_
  obtain ⟨ht, ⟨-, rfl, htook₃⟩ | ⟨hl, rfl, h₃, hk₃, hw⟩⟩ := hr
  · refine (iput_back h (hidle.trans htook₃.idle) htook₃.sound fun _ => le_rfl).bind fun _ fs' hfs => ?_
    refine ⟨hfs.1, ?_, .inl ⟨rfl, hfs.2.1⟩⟩
    exact hk.trans ((htook₃.kept.mono fun _ => List.mem_cons_of_mem _).trans hfs.2.2)
  · have hw := hw.of_idle hidle
    refine (iput_idle h₃ (h.held hw.type hw.nlink hw.edit.file fun _ => le_rfl)).bind fun _ fs' hfs => ?_
    refine ⟨hfs.1, hk.trans ((hk₃.mono fun _ => List.mem_cons_of_mem _).trans hfs.2.1),
      .inr ⟨rfl, dp, name, hres, hdir, ?_, dvd_vacant h hdir, ?_⟩⟩
    · rw [← hidle.alike.lookup]
      exact hl
    · rw [← hidle.alike.vacant]
      exact hw.trans_idle hfs.2.2

/-- A link count raised and lowered is what it was, also where it wraps around. -/
theorem Relink.undo (h : Relink i ((fs.din i).nlink + 1) fs fs₁)
    (h' : Relink i ((fs₁.din i).nlink - 1) fs₁ fs') (hshort : i16 (fs.din i).nlink = (fs.din i).nlink) :
    Same fs fs' := by
  refine ⟨h'.used.trans h.used, ?_, h'.data.trans h.data, h'.file.trans h.file, h'.task.trans h.task⟩
  have hback : i16 (i16 ((fs.din i).nlink + 1) - 1) = (fs.din i).nlink := by
    rw [i16] at hshort
    rw [i16, i16]
    omega
  rw [h'.din, h.din, update_self, update_idem, hback]
  exact update_eq_self i fs.din

theorem Relink.of_idle {n : Int} (h : Idle fs fs₁) (h' : Relink i n fs₁ fs') : Relink i n fs fs' :=
  ⟨h'.used.trans h.used, by rw [h'.din, h.din], h'.data.trans h.data, h'.file.trans h.file,
    h'.task.trans h.task, h.logged ▸ h'.logs⟩

theorem Relink.trans_idle {n : Int} (h : Relink i n fs fs₁) (h' : Idle fs₁ fs') : Relink i n fs fs' :=
  ⟨h'.used.trans h.used, by rw [h'.din, h.din], h'.data.trans h.data, h'.file.trans h.file,
    h'.task.trans h.task, h'.logged ▸ h.logs⟩

/-- What a successful `link` does. -/
def Links (p : Slot) (old new : List Nat) (fs fs' : State) : Prop :=
  ∃ ip last dp name fs₁ fs₂, fs.resolve p old false = some (ip, last) ∧ (fs.din ip).type ≠ .dir
    ∧ fs.resolve p new true = some (dp, name) ∧ Relink ip ((fs.din ip).nlink + 1) fs fs₁
    ∧ Added dp name ip fs₁ fs₂ ∧ Drop ip fs₂ fs'

/-- What a failed one does: a link count may have been raised and lowered. -/
def NotLinked (fs fs' : State) : Prop := Same fs fs' ∧ ∃ b, Spends {b} 0 fs.logged fs'.logged

theorem Idle.notLinked (h : Idle fs fs') : NotLinked fs fs' := ⟨h.toSame, 0, .of_eq _ _ h.logged⟩

/-- **`link`.** -/
theorem sysLink_spec (hE : Tame E) (hf : Firm E fs) (h : Sound X fs) :
    Meets (sysLink p old new fs) E fun r fs' => Sound X fs'
      ∧ (r = -1 ∧ NotLinked fs fs' ∨ r = 0 ∧ Links p old new fs fs') := by
  rw [sysLink]
  refine namei_lock hE hf h (fun _ => rfl) (fun fs₁ _ h₁ hidle => ⟨h₁, .inl ⟨rfl, hidle.notLinked⟩⟩)
    fun ip last fs₂ hres h₂ hidle hv₂ => .get ?_
  have hmem : fs₂.mem ip = fs.din ip := by rw [h₂.mem_eq hv₂, hidle.din]
  rw [hmem]
  split
  · refine (iput_back h hidle h₂ fun _ => le_rfl).bind fun _ fs' hfs => ?_
    exact ⟨hfs.1, .inl ⟨rfl, hfs.2.1.notLinked⟩⟩
  · rename_i hdir
    refine (setNlink_spec h₂ hv₂ List.mem_cons_self _).bind fun _ fs₃ hs => ?_
    obtain ⟨h₃, hk₃, hre⟩ := hs
    have hre := hre.of_idle hidle
    refine (linkName_spec hE (hf.alike hre.alike) h₃ ip).bind fun linked fs₄ hl => ?_
    obtain ⟨h₄, hk₄, ⟨rfl, hidle₄⟩ | ⟨rfl, dp, name, hnew, hadd⟩⟩ := hl
    · -- the link count goes back to what it was
      have hv₄ := hk₄ ip List.mem_cons_self (hk₃ ip List.mem_cons_self hv₂)
      refine (ilock_spec hE (fun hnone => absurd hnone (h₄.type_ne hv₄)) h₄).bind fun _ fs₅ hl => .get ?_
      obtain ⟨h₅, hidle₅, -, hv₅⟩ := hl
      have hre₅ := hre.trans_idle (hidle₄.trans hidle₅)
      rw [h₅.mem_eq hv₅]
      refine (setNlink_spec h₅ hv₅ List.mem_cons_self _).bind fun _ fs₆ hs => ?_
      have hsame := hre₅.undo hs.2.2 (h.good ip).short
      have hheld := h.held (congrArg (fun din => (din ip).type) hsame.din)
        (congrArg (fun din => (din ip).nlink) hsame.din) hsame.file fun _ => le_rfl
      refine (iput_idle hs.1 hheld).bind fun _ fs' hfs => ⟨hfs.1, .inl ⟨rfl, ?_⟩⟩
      have hlog := hre₅.logs.trans hs.2.2.logs
      exact ⟨hsame.trans hfs.2.2.toSame, IBLOCK ip, hfs.2.2.logged ▸ hlog⟩
    · rw [hre.alike.resolve] at hnew
      refine (iput_drop h₄).bind fun _ fs' hfs => ?_
      exact ⟨hfs.1, .inr ⟨rfl, ip, last, dp, name, fs₃, fs₄, hres, hdir, hnew, hre, hadd, hfs.2.2⟩⟩

/-! ## `unlink` -/

/-- Every entry of a directory is empty, but for the first two. -/
def State.bare (fs : State) (d : Nat) : Prop :=
  ∀ off ∈ (offsets (fs.din d).size).drop 2, (fs.dirent d off).inum = 0

instance (fs : State) (d : Nat) : Decidable (fs.bare d) :=
  inferInstanceAs (Decidable (∀ off ∈ (offsets (fs.din d).size).drop 2, (fs.dirent d off).inum = 0))

/-- A directory is removed when it is bare. -/
theorem removable_eq (h : Sound X fs) (hv : (fs.inode ip).valid = true) :
    removable ip fs = .ok (decide ((fs.din ip).type = .dir → fs.bare ip), fs) := by
  change (if (fs.mem ip).type = .dir then isdirempty ip else return true : M Bool) fs = _
  rw [h.mem_eq hv]
  by_cases ht : (fs.din ip).type = .dir
  · rw [if_pos ht]
    change isdiremptyFrom ip ((offsets (fs.mem ip).size).drop 2) fs = _
    rw [h.mem_eq hv, isdiremptyFrom_eq h hv ht fun off hoff =>
      le_of_mem_offsets ((h.good ip).aligned ht) (List.mem_of_mem_drop hoff)]
    refine congrArg (fun b => Except.ok (b, fs)) (Bool.eq_iff_iff.mpr ?_)
    rw [List.all_eq_true, decide_eq_true_iff]
    simp only [State.bare, decide_eq_true_iff, ht, true_imp_iff]
  · rw [if_neg ht, decide_eq_true fun hdir => absurd hdir ht]
    rfl

/-- The entry is cleared and the links are given up. -/
def Unhooks (dp off ip : Nat) (fs fs' : State) : Prop :=
  ∃ fs₁ fs₂ fs₃ fs₄, Wrote dp fs fs₁ off (List.replicate DESIZE 0)
    ∧ (if (fs.din ip).type = .dir then Relink dp ((fs.din dp).nlink - 1) fs₁ fs₂ else fs₂ = fs₁)
    ∧ Drop dp fs₂ fs₃ ∧ Relink ip ((fs₃.din ip).nlink - 1) fs₃ fs₄ ∧ Drop ip fs₄ fs'

/-- The end of `unlink`. -/
theorem removeEntry_spec (hE : Tame E) (h : Sound (ip :: dp :: X) fs)
    (hip : (fs.inode ip).valid = true) (hdp : (fs.inode dp).valid = true)
    (hdir : (fs.din dp).type = .dir) (hoff : DESIZE ∣ off) :
    Meets (removeEntry dp off ip fs) E fun r fs' =>
      r = 0 ∧ Sound X fs' ∧ Unhooks dp off ip fs fs' := by
  have hmdp : dp ∈ ip :: dp :: X := List.mem_cons_of_mem _ List.mem_cons_self
  have hmip : ip ∈ ip :: dp :: X := List.mem_cons_self
  have hlen : (List.replicate DESIZE 0).length = DESIZE := List.length_replicate
  rw [removeEntry]
  refine (writei_spec hE h hdp (h.ref_pos hmdp) fun _ => ?_).bind fun r fs₁ hr => ?_
  · rw [hlen]
    exact Nat.dvd_add hoff (Nat.dvd_refl _)
  rw [hlen] at hr
  refine .check (fun _ => hE _ (by decide) (by decide)) fun hdone => .get ?_
  obtain rfl := not_not.mp hdone
  rcases hr with ⟨hr, -⟩ | ⟨-, ⟨hdev, -⟩ | ⟨-, h₁, hk₁, hw⟩⟩
  · exact absurd hr (by decide)
  · exact absurd hdev (by rw [hdir]; decide)
  have hip₁ := hk₁ ip hmip hip
  have hdp₁ := hk₁ dp hmdp hdp
  rw [h₁.mem_eq hip₁, h₁.mem_eq hdp₁, hw.type, hw.nlink]
  refine Meets.bind (Q := fun _ fs₂ => Sound (ip :: dp :: X) fs₂ ∧ (fs₂.inode ip).valid = true
    ∧ if (fs.din ip).type = .dir then Relink dp ((fs.din dp).nlink - 1) fs₁ fs₂ else fs₂ = fs₁) ?_
    fun _ fs₂ hfs₂ => ?_
  · refine .whenever (fun ht => ?_) fun ht => ?_
    · refine (setNlink_spec h₁ hdp₁ hmdp _).imp fun _ fs₂ hs => ⟨hs.1, hs.2.1 ip hmip hip₁, ?_⟩
      rw [if_pos ht]
      exact hs.2.2
    · exact ⟨h₁, hip₁, by rw [if_neg ht]⟩
  · obtain ⟨h₂, hip₂, hre⟩ := hfs₂
    refine (iput_drop (h₂.perm (.swap dp ip X))).bind fun _ fs₃ hfs₃ => .get ?_
    obtain ⟨h₃, hk₃, hd₃⟩ := hfs₃
    have hip₃ := hk₃ ip List.mem_cons_self hip₂
    rw [h₃.mem_eq hip₃]
    refine (setNlink_spec h₃ hip₃ List.mem_cons_self _).bind fun _ fs₄ hfs₄ => ?_
    refine (iput_drop hfs₄.1).bind fun _ fs' hfs' => ?_
    exact ⟨rfl, hfs'.1, fs₁, fs₂, fs₃, fs₄, hw, hre, hd₃, hfs₄.2.2, hfs'.2.2⟩

/-- An offset that `dirlookup` answers is that of an entry. -/
theorem dvd_of_lookup {n : Nat} (h : fs.lookup d name = some (n, off)) : DESIZE ∣ off := by
  obtain ⟨off', hoff, he⟩ := Option.map_eq_some_iff.mp h
  obtain ⟨-, rfl⟩ := Prod.mk.inj he
  obtain ⟨k, -, rfl⟩ := List.mem_map.mp (List.mem_of_find?_eq_some hoff)
  exact Nat.dvd_mul_right _ _

/-- What a successful `unlink` does. -/
def Unlinks (p : Slot) (path : List Nat) (fs fs' : State) : Prop :=
  ∃ dp name ip off, fs.resolve p path true = some (dp, name) ∧ namecmp name (cstr ".") ≠ 0
    ∧ namecmp name (cstr "..") ≠ 0 ∧ fs.lookup dp name = some (ip, off) ∧ 1 ≤ (fs.din ip).nlink
    ∧ ((fs.din ip).type = .dir → fs.bare ip) ∧ Unhooks dp off ip fs fs'

theorem Unhooks.of_idle (h : Idle fs fs₁) (h' : Unhooks dp off ip fs₁ fs') :
    Unhooks dp off ip fs fs' := by
  obtain ⟨s₁, s₂, s₃, s₄, hw, hrest⟩ := h'
  rw [h.din] at hrest
  exact ⟨s₁, s₂, s₃, s₄, hw.of_idle h, hrest⟩

/-- **`unlink`.** -/
theorem sysUnlink_spec (hE : Tame E) (hf : Firm E fs) (h : Sound X fs) :
    Meets (sysUnlink p path fs) E fun r fs' => Sound X fs'
      ∧ (r = -1 ∧ Idle fs fs' ∨ r = 0 ∧ Unlinks p path fs fs') := by
  rw [sysUnlink]
  refine namex_lock hE hf h (fun _ _ => rfl) (fun fs₁ _ h₁ _ hidle => ⟨h₁, .inl ⟨rfl, hidle⟩⟩)
    fun dp name fs₂ hres h₂ _ hidle hv₂ => ?_
  have hdir := type_of_resolve hres
  split
  · refine (iput_back h hidle h₂ fun _ => le_rfl).bind fun _ fs' hfs => ?_
    exact ⟨hfs.1, .inl ⟨rfl, hfs.2.1⟩⟩
  · rename_i hdots
    obtain ⟨hdot, hdotdot⟩ := not_or.mp hdots
    refine (dirlookup_spec hE h₂ hv₂).bind fun r fs₃ hr => ?_
    obtain ⟨-, rfl, htook₃⟩ := hr
    have hidle₃ := hidle.trans htook₃.idle
    rw [hidle.alike.lookup] at htook₃ ⊢
    cases hl : fs.lookup dp name with
    | none =>
      rw [hl] at htook₃
      refine (iput_back h hidle₃ htook₃.sound fun _ => le_rfl).bind fun _ fs' hfs => ?_
      exact ⟨hfs.1, .inl ⟨rfl, hfs.2.1⟩⟩
    | some found =>
      obtain ⟨ip, off⟩ := found
      rw [hl] at htook₃
      have hentry := hf.entry _ _ _ _ hdir hl
      refine (ilock_spec hE (hidle₃.din ▸ hentry) htook₃.sound).bind fun _ fs₄ hl₄ => .get ?_
      obtain ⟨h₄, hidle₄, hk₄, hip⟩ := hl₄
      have hidle₄ := hidle₃.trans hidle₄
      have hdp : (fs₄.inode dp).valid = true :=
        hk₄ dp (List.mem_cons_of_mem _ List.mem_cons_self) (htook₃.kept dp List.mem_cons_self hv₂)
      rw [h₄.mem_eq hip, hidle₄.din]
      refine .check (fun _ => hE _ (by decide) (by decide)) fun hn => ?_
      refine .step (removable_eq h₄ hip) ?_
      have hbare : fs₄.bare ip ↔ fs.bare ip := by
        rw [State.bare, State.bare, hidle₄.alike.dirent, hidle₄.din]
      rw [hidle₄.din]
      split
      · rename_i hempty
        have hempty := of_decide_eq_true hempty
        have hdir₄ : (fs₄.din dp).type = .dir := hidle₄.din ▸ hdir
        refine (removeEntry_spec hE h₄ hip hdp hdir₄ (dvd_of_lookup hl)).imp fun r fs' hfs => ?_
        refine ⟨hfs.2.1, .inr ⟨hfs.1, dp, name, ip, off, hres, hdot, hdotdot, hl, Int.not_lt.mp hn,
          fun ht => hbare.mp (hempty ht), hfs.2.2.of_idle hidle₄⟩⟩
      · have hle : ∀ j, X.count j ≤ (dp :: X).count j := fun j => List.count_le_count_cons
        refine (iput_back h hidle₄ h₄ hle).bind fun _ fs₅ hfs₅ => ?_
        refine (iput_back h hfs₅.2.1 hfs₅.1 fun _ => le_rfl).bind fun _ fs' hfs => ?_
        exact ⟨hfs.1, .inl ⟨rfl, hfs.2.1⟩⟩

/-! ## `create` -/

/-- A new directory `ip` is given its `.` and `..`, and its parent a link for the second. -/
def Dots (dp ip : Nat) (fs fs' : State) : Prop :=
  ∃ fs₁ fs₂, Relink dp ((fs.din dp).nlink + 1) fs fs₁ ∧ Added ip (cstr ".") ip fs₁ fs₂
    ∧ Added ip (cstr "..") dp fs₂ fs'

/-- An inode is made in directory `dp`. -/
def Makes (dp : Nat) (name : List Nat) (new : Dinode) (ip : Nat) (fs fs' : State) : Prop :=
  ∃ fs₁ fs₂ fs₃, Alloc ip new fs fs₁ ∧ (if new.type = .dir then Dots dp ip fs₁ fs₂ else fs₂ = fs₁)
    ∧ Added dp name ip fs₂ fs₃ ∧ Drop dp fs₃ fs'

/-- The entries of a new directory. -/
theorem createDots_spec (hE : Tame E) (h : Sound X fs) (hip : (fs.inode ip).valid = true)
    (hdp : (fs.inode dp).valid = true) (hmip : ip ∈ X) (hmdp : dp ∈ X) :
    Meets (createDots dp ip fs) E fun _ fs' => Sound X fs' ∧ Kept X fs fs' ∧ Dots dp ip fs fs' := by
  rw [createDots]
  refine .get ?_
  rw [h.mem_eq hdp]
  refine (setNlink_spec h hdp hmdp _).bind fun _ fs₁ h₁ => ?_
  obtain ⟨h₁, hk₁, hre⟩ := h₁
  refine (dirlink_added hE h₁ (hk₁ ip hmip hip) hmip ip).bind fun r fs₂ h₂ => ?_
  refine .check (fun _ => hE _ (by decide) (by decide)) fun hr => ?_
  obtain ⟨h₂, hk₂, hdot⟩ := h₂ hr
  have hk := hk₁.trans hk₂
  refine (dirlink_added hE h₂ (hk ip hmip hip) hmip dp).bind fun r fs₃ h₃ => ?_
  refine .failIf (fun _ => hE _ (by decide) (by decide)) fun hr => ?_
  obtain ⟨h₃, hk₃, hdotdot⟩ := h₃ hr
  exact ⟨h₃, hk.trans hk₃, fs₁, fs₂, hre, hdot, hdotdot⟩

/-- `create`, where the name is not there. -/
theorem createNew_spec (hE : Tame E) (h : Sound (dp :: X) fs) (hdp : (fs.inode dp).valid = true)
    {type : Kind} (htype : type ≠ .none) (major minor : Int) :
    Meets (createNew dp name type major minor fs) E fun ip fs' => Sound (ip :: X) fs'
      ∧ (fs'.inode ip).valid = true ∧ Makes dp name (.fresh type major minor) ip fs fs' := by
  rw [createNew]
  refine (newInode_spec hE h htype major minor).bind fun ip fs₁ h₁ => ?_
  obtain ⟨h₁, hk₁, hip, hedit, hfree, hpos, hlt, hdin, hlog⟩ := h₁
  have hmip : ip ∈ ip :: dp :: X := List.mem_cons_self
  have hmdp : dp ∈ ip :: dp :: X := List.mem_cons_of_mem _ List.mem_cons_self
  have hdp₁ := hk₁ dp List.mem_cons_self hdp
  refine Meets.bind (Q := fun _ fs₂ => Sound (ip :: dp :: X) fs₂ ∧ Kept (ip :: dp :: X) fs₁ fs₂
    ∧ if type = .dir then Dots dp ip fs₁ fs₂ else fs₂ = fs₁) ?_ fun _ fs₂ h₂ => ?_
  · refine .whenever (fun ht => ?_) fun ht => ?_
    · refine (createDots_spec hE h₁ hip hdp₁ hmip hmdp).imp fun _ fs₂ h₂ => ⟨h₂.1, h₂.2.1, ?_⟩
      rw [if_pos ht]
      exact h₂.2.2
    · exact ⟨h₁, .refl _ _, by rw [if_neg ht]⟩
  · obtain ⟨h₂, hk₂, hdots⟩ := h₂
    refine (dirlink_added hE h₂ (hk₂ dp hmdp hdp₁) hmdp ip).bind fun r fs₃ h₃ => ?_
    refine .check (fun _ => hE _ (by decide) (by decide)) fun hr => ?_
    obtain ⟨h₃, hk₃, hadd⟩ := h₃ hr
    refine (iput_drop (h₃.perm (.swap dp ip X))).bind fun _ fs' hfs => ?_
    refine ⟨hfs.1, ?_, fs₁, fs₂, fs₃, ⟨hfree, hpos, hlt, hedit, hdin, hlog⟩, hdots, hadd, hfs.2.2⟩
    exact hfs.2.1 ip List.mem_cons_self (hk₃ ip hmip (hk₂ ip hmip hip))

theorem Makes.of_idle {new : Dinode} (h : Idle fs fs₁) (h' : Makes dp name new ip fs₁ fs') :
    Makes dp name new ip fs fs' := by
  obtain ⟨s₁, s₂, s₃, ha, hrest⟩ := h'
  exact ⟨s₁, s₂, s₃, ⟨h.din ▸ ha.free, ha.pos, ha.lt, ha.edit.of_idle h, ha.din,
    h.logged ▸ ha.logs⟩, hrest⟩

/-- The directory of a path is there and has no entry for its last element. -/
def State.Absent (fs : State) (p : Slot) (path : List Nat) : Prop :=
  ∃ dp name, fs.resolve p path true = some (dp, name) ∧ fs.lookup dp name = none

theorem State.not_absent_of_resolve (h : fs.resolve p path true = none) : ¬ fs.Absent p path := by
  rintro ⟨dp, name, hres, -⟩
  exact nomatch h.symm.trans hres

theorem State.not_absent_of_lookup {found : Nat × Nat} (h : fs.resolve p path true = some (dp, name))
    (hl : fs.lookup dp name = some found) : ¬ fs.Absent p path := by
  rintro ⟨dp', name', hres, hnone⟩
  obtain ⟨rfl, rfl⟩ := Prod.mk.inj (Option.some.inj (h.symm.trans hres))
  exact nomatch hl.symm.trans hnone

/-- What `create` finds under a name it does not have to make. -/
def Finds (p : Slot) (path : List Nat) (type : Kind) (ip : Nat) (fs : State) : Prop :=
  ∃ dp name off, fs.resolve p path true = some (dp, name) ∧ fs.lookup dp name = some (ip, off)
    ∧ ((type = .file ∧ (fs.din ip).type = .file) ∨ (fs.din ip).type = .dev)

/-- What it makes. -/
def Creates (p : Slot) (path : List Nat) (new : Dinode) (ip : Nat) (fs fs' : State) : Prop :=
  ∃ dp name, fs.resolve p path true = some (dp, name) ∧ fs.lookup dp name = none
    ∧ Makes dp name new ip fs fs'

/-- **`create`.** -/
theorem create_spec (hE : Tame E) (hf : Firm E fs) (h : Sound X fs) {type : Kind}
    (htype : type ≠ .none) (major minor : Int) :
    Meets (create p path type major minor fs) E fun r fs' => Sound (r.toList ++ X) fs'
      ∧ match r with
        | none => Idle fs fs' ∧ ¬ fs.Absent p path
        | some ip => (fs'.inode ip).valid = true ∧ (Finds p path type ip fs ∧ Idle fs fs'
          ∨ Creates p path (.fresh type major minor) ip fs fs') := by
  rw [create]
  refine namex_lock hE hf h (fun _ _ => rfl)
    (fun fs₁ hres h₁ _ hidle => ⟨h₁, hidle, State.not_absent_of_resolve hres⟩)
    fun dp name fs₂ hres h₂ _ hidle hv₂ => ?_
  have hdir := type_of_resolve hres
  refine (dirlookup_spec hE h₂ hv₂).bind fun r fs₃ hr => ?_
  obtain ⟨-, rfl, htook₃⟩ := hr
  have hidle₃ := hidle.trans htook₃.idle
  rw [hidle.alike.lookup] at htook₃ ⊢
  cases hl : fs.lookup dp name with
  | none =>
    rw [hl] at htook₃
    refine (createNew_spec hE htook₃.sound (htook₃.kept dp List.mem_cons_self hv₂) htype major
      minor).bind fun ip fs' hfs => ?_
    exact ⟨hfs.1, hfs.2.1, .inr ⟨dp, name, hres, hl, hfs.2.2.of_idle hidle₃⟩⟩
  | some found =>
    obtain ⟨ip, off⟩ := found
    rw [hl] at htook₃
    have hle : ∀ j, X.count j ≤ (ip :: X).count j := fun j => List.count_le_count_cons
    refine (iput_back h hidle₃ (htook₃.sound.perm (.swap dp ip X)) hle).bind fun _ fs₄ hfs₄ => ?_
    obtain ⟨h₄, hidle₄, -⟩ := hfs₄
    have hentry := hf.entry _ _ _ _ hdir hl
    refine (ilock_spec hE (hidle₄.din ▸ hentry) h₄).bind fun _ fs₅ hl₅ => .get ?_
    obtain ⟨h₅, hidle₅, -, hip⟩ := hl₅
    have hidle₅ := hidle₄.trans hidle₅
    rw [h₅.mem_eq hip, hidle₅.din]
    split
    · rename_i hkind
      exact ⟨h₅, hip, .inl ⟨⟨dp, name, off, hres, hl, hkind⟩, hidle₅⟩⟩
    · refine (iput_back h hidle₅ h₅ fun _ => le_rfl).bind fun _ fs' hfs => ?_
      exact ⟨hfs.1, hfs.2.1, State.not_absent_of_lookup hres hl⟩

end Xv6.Fs

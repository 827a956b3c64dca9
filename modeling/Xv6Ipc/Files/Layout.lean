import Xv6Ipc.Files.Image

/-!
# Files/Layout — the image of a list of files

What `mkfs` leaves, inode by inode: the four directories and then the files in the order of the command
line, each of which has an entry in `/bin` or in `/home`.

    1 /      .  ..  dev  bin  home
    2 /dev   .  ..
    3 /bin   .  ..  and the files whose names start with an underscore
    4 /home  .  ..  and the others
    5 …      the files
-/

namespace Xv6.Fs.Mkfs

open Outcome Function

/-- Whether a file goes to `/bin`. -/
def Source.bin (f : Source) : Bool := f.shortname.headD 0 = underscore

/-- The name of a file in its directory. -/
def Source.dirname (f : Source) : List Nat := if f.bin then f.shortname.tail else f.shortname

/-- The bytes of a directory. -/
def flat (es : List Dirent) : List Nat := es.flatMap Dirent.bytes

/-- The `.` and `..` of a directory in the root, or of the root. -/
def dots (i : Nat) : List Dirent := [⟨i, cstr "."⟩, ⟨ROOTINO, cstr ".."⟩]

/-- The entries of files in `/bin`, or in `/home`; the first of the files has number `n`. -/
def placed (bin : Bool) : Nat → List Source → List Dirent
  | _, [] => []
  | n, f :: files => (if f.bin = bin then [⟨n, f.dirname⟩] else []) ++ placed bin (n + 1) files

/-- The entries of the directories. -/
def entries (files : List Source) : Nat → List Dirent
  | 1 => dots 1 ++ [⟨2, cstr "dev"⟩, ⟨3, cstr "bin"⟩, ⟨4, cstr "home"⟩]
  | 2 => dots 2
  | 3 => dots 3 ++ placed true 5 files
  | 4 => dots 4 ++ placed false 5 files
  | _ => []

/-- **The image of a list of files.** -/
def layout (files : List Source) : Nat → Kind × List Nat
  | 0 => (.none, [])
  | 1 => (.dir, flat (entries files 1))
  | 2 => (.dir, flat (entries files 2))
  | 3 => (.dir, flat (entries files 3))
  | 4 => (.dir, flat (entries files 4))
  | n + 5 =>
    match files[n]? with
    | some f => (.file, f.bytes)
    | none => (.none, [])

variable {im im' : Img} {i r : Nat} {name t : List Nat} {f : Source} {files done : List Source}

theorem flat_append (es es' : List Dirent) : flat (es ++ es') = flat es ++ flat es' :=
  List.flatMap_append

theorem flat_singleton (e : Dirent) : flat [e] = e.bytes := List.flatMap_singleton _ _

theorem placed_append (bin : Bool) (n : Nat) (files : List Source) (f : Source) :
    placed bin n (files ++ [f])
      = placed bin n files ++ if f.bin = bin then [⟨n + files.length, f.dirname⟩] else [] := by
  induction files generalizing n with
  | nil => simp [placed]
  | cons g files ih =>
    rw [List.cons_append, placed, placed, ih, List.append_assoc, List.length_cons, Nat.add_right_comm,
      Nat.add_assoc]

/-! ## Directories -/

/-- An entry is added to a directory. -/
theorem iappend_entry (h : im.Sound) (hd : im.node i = (.dir, t)) (e : Dirent)
    (hrun : iappend i e.bytes im = .ok ((), im')) : im'.Sound ∧ im'.freeinode = im.freeinode
      ∧ im'.node = update im.node i (.dir, t ++ e.bytes) := by
  have hlen : DESIZE ∣ e.bytes.length := by rw [e.length_bytes]
  have hdir : (im.node i).1 = .dir := by rw [hd]
  obtain ⟨hs, hino, hnode⟩ := iappend_node h (by rw [hdir]; decide) (fun _ => hlen) hrun
  rw [hd] at hnode
  exact ⟨hs, hino, hnode⟩

/-- A directory in the root. -/
theorem makedir_node (h : im.Sound) (hroot : im.node ROOTINO = (.dir, t))
    (hr : ROOTINO < im.freeinode) (hrun : makedir ROOTINO name im = .ok (i, im')) :
    im'.Sound ∧ i = im.freeinode ∧ im'.freeinode = im.freeinode + 1
      ∧ im'.node = update (update im.node i (.dir, flat (dots i))) ROOTINO
        (.dir, t ++ Dirent.bytes ⟨i, name⟩) := by
  rw [makedir] at hrun
  obtain ⟨ino, im₁, halloc, hrest⟩ := of_bind_ok hrun
  obtain ⟨_, im₂, hdot, hrest⟩ := of_bind_ok hrest
  obtain ⟨_, im₃, hdotdot, hrest⟩ := of_bind_ok hrest
  obtain ⟨_, im₄, hname, hrest⟩ := of_bind_ok hrest
  obtain ⟨rfl, rfl⟩ := Prod.mk.inj (Except.ok.inj hrest)
  obtain ⟨h₁, hi, -, hino₁, hnode₁⟩ := ialloc_node h (by decide) halloc
  have hself₁ : im₁.node ino = (.dir, []) := by rw [hnode₁, update_self]
  obtain ⟨h₂, hino₂, hnode₂⟩ := iappend_entry h₁ hself₁ _ hdot
  obtain ⟨h₃, hino₃, hnode₃⟩ := iappend_entry h₂
    ((congrFun hnode₂ ino).trans (update_self _ _ _)) _ hdotdot
  have hne : ROOTINO ≠ ino := by omega
  have hroot₃ : im₃.node ROOTINO = (.dir, t) := by
    rw [hnode₃, update_of_ne hne, hnode₂, update_of_ne hne, hnode₁,
      update_of_ne hne, hroot]
  obtain ⟨h₄, hino₄, hnode₄⟩ := iappend_entry h₃ hroot₃ _ hname
  refine ⟨h₄, hi, by rw [hino₄, hino₃, hino₂, hino₁], ?_⟩
  rw [hnode₄, hnode₃, hnode₂, hnode₁, update_idem, update_idem]
  simp [flat, dots]

/-- **`makedirs`.** -/
theorem makedirs_node (hblank : blank.Sound) {dirs : Nat × Nat}
    (hrun : makedirs blank = .ok (dirs, im)) :
    im.Sound ∧ dirs = (3, 4) ∧ im.freeinode = 5 ∧ im.node = layout [] := by
  rw [makedirs] at hrun
  obtain ⟨root, im₁, halloc, hrest⟩ := of_bind_ok hrun
  obtain ⟨_, im₂, hdot, hrest⟩ := of_bind_ok hrest
  obtain ⟨_, im₃, hdotdot, hrest⟩ := of_bind_ok hrest
  obtain ⟨dev, im₄, hdev, hrest⟩ := of_bind_ok hrest
  obtain ⟨bin, im₅, hbin, hrest⟩ := of_bind_ok hrest
  obtain ⟨home, im₆, hhome, hrest⟩ := of_bind_ok hrest
  obtain ⟨rfl, rfl⟩ := Prod.mk.inj (Except.ok.inj hrest)
  obtain ⟨h₁, hroot, -, hino₁, hnode₁⟩ := ialloc_node hblank (by decide) halloc
  obtain rfl : root = ROOTINO := hroot
  have hself₁ : im₁.node ROOTINO = (.dir, []) := by rw [hnode₁, update_self]
  obtain ⟨h₂, hino₂, hnode₂⟩ := iappend_entry h₁ hself₁ _ hdot
  obtain ⟨h₃, hino₃, hnode₃⟩ := iappend_entry h₂
    ((congrFun hnode₂ ROOTINO).trans (update_self _ _ _)) _ hdotdot
  have hino₃ : im₃.freeinode = 2 := by rw [hino₃, hino₂, hino₁]; rfl
  obtain ⟨h₄, hdev, hino₄, hnode₄⟩ := makedir_node h₃
    ((congrFun hnode₃ ROOTINO).trans (update_self _ _ _)) (by rw [hino₃]; decide) hdev
  rw [hino₃] at hdev hino₄
  obtain ⟨h₅, hbin, hino₅, hnode₅⟩ := makedir_node h₄
    ((congrFun hnode₄ ROOTINO).trans (update_self _ _ _)) (by rw [hino₄]; decide) hbin
  rw [hino₄] at hbin hino₅
  obtain ⟨h₆, hhome, hino₆, hnode₆⟩ := makedir_node h₅
    ((congrFun hnode₅ ROOTINO).trans (update_self _ _ _)) (by rw [hino₅]; decide) hhome
  rw [hino₅] at hhome hino₆
  subst hdev hbin hhome
  refine ⟨h₆, rfl, hino₆, ?_⟩
  have hzero : blank.node = fun _ => (.none, []) := by
    funext j
    rfl
  rw [hnode₆, hnode₅, hnode₄, hnode₃, hnode₂, hnode₁, hzero]
  funext j
  match j with
  | 0 | 1 | 2 | 3 | 4 => simp [layout, entries, flat, dots, placed, ROOTINO]
  | n + 5 => simp [layout, ROOTINO]

/-! ## Files -/

/-- A file more: its entry, and its bytes. -/
theorem layout_append (done : List Source) (f : Source) :
    layout (done ++ [f]) = update (update (layout done) (if f.bin then 3 else 4)
      (.dir, flat (entries done (if f.bin then 3 else 4))
        ++ Dirent.bytes ⟨5 + done.length, f.dirname⟩)) (5 + done.length) (.file, f.bytes) := by
  funext j
  match j with
  | 0 | 1 | 2 => cases f.bin <;> simp [layout, entries, update_apply] <;> omega
  | 3 | 4 =>
    cases hbin : f.bin <;>
      simp [layout, entries, update_apply, placed_append, hbin, flat_append, flat_singleton] <;> omega
  | n + 5 =>
    have hne : n + 5 ≠ if f.bin then 3 else 4 := by split <;> omega
    rw [update_apply, update_of_ne hne, layout, layout]
    rcases Nat.lt_trichotomy n done.length with hlt | rfl | hgt
    · rw [if_neg (by omega), List.getElem?_append_left hlt]
    · rw [if_pos (Nat.add_comm _ _), List.getElem?_concat_length]
    · rw [if_neg (by omega), List.getElem?_eq_none (by simp; omega), List.getElem?_eq_none (by omega)]

/-- **A file of the command line.** -/
theorem addFile_node (h : im.Sound) (hino : im.freeinode = 5 + done.length)
    (hnode : im.node = layout done) (hrun : addFile 3 4 f im = .ok (⟨⟩, im')) :
    im'.Sound ∧ im'.freeinode = 5 + (done ++ [f]).length ∧ im'.node = layout (done ++ [f]) := by
  rw [addFile] at hrun
  obtain ⟨-, hrest⟩ := of_check_ok hrun
  obtain ⟨inum, im₁, halloc, hrest⟩ := of_bind_ok hrest
  obtain ⟨_, im₂, hentry, hrest⟩ := of_bind_ok hrest
  obtain ⟨h₁, hinum, -, hino₁, hnode₁⟩ := ialloc_node h (by decide) halloc
  rw [hino] at hinum hino₁
  have hne : (if f.bin then 3 else 4) ≠ inum := by split <;> omega
  have hdir : im₁.node (if f.bin then 3 else 4)
      = (.dir, flat (entries done (if f.bin then 3 else 4))) := by
    rw [hnode₁, update_of_ne hne, hnode]
    split <;> rfl
  obtain ⟨h₂, hino₂, hnode₂⟩ := iappend_entry h₁ hdir _ hentry
  have hself : im₂.node inum = (.file, []) := by
    rw [hnode₂, update_of_ne hne.symm, hnode₁, update_self]
  obtain ⟨h₃, hino₃, hnode₃⟩ := copyLoop_node le_rfl h₂ (by rw [hself]) hrest
  refine ⟨h₃, ?_, ?_⟩
  · rw [hino₃, hino₂, hino₁, List.length_append]
    rfl
  · subst hinum
    rw [hnode₃, hself, hnode₂, hnode₁, hnode, layout_append, update_comm hne.symm,
      update_idem]
    rfl

/-- The loop over the command line. -/
theorem addFiles_node (h : im.Sound) (hino : im.freeinode = 5 + done.length)
    (hnode : im.node = layout done) (hrun : files.forM (addFile 3 4) im = .ok (⟨⟩, im')) :
    im'.Sound ∧ im'.node = layout (done ++ files) := by
  induction files generalizing im done with
  | nil =>
    obtain ⟨-, rfl⟩ := Prod.mk.inj (Except.ok.inj hrun)
    rw [List.append_nil]
    exact ⟨h, hnode⟩
  | cons f files ih =>
    obtain ⟨_, im₁, hfile, hrest⟩ := of_bind_ok hrun
    obtain ⟨h₁, hino₁, hnode₁⟩ := addFile_node h hino hnode hfile
    rw [List.append_cons]
    exact ih h₁ hino₁ hnode₁ hrest

/-- The image of zeroes is in order. -/
theorem blank_sound : blank.Sound := by
  have hall : blank.rest.allRefs = [] :=
    List.flatMap_eq_nil_iff.mpr fun i _ => refs_eq_nil fun _ _ => rfl
  have hfiles : blank.rest.fileRefs = [] := List.filterMap_eq_nil_iff.mpr fun _ _ => rfl
  have hmeta : nmeta ≤ FSSIZE := by
    rw [nmeta, nbitmap, FSSIZE_eq]
    decide
  have hfree : ∀ b, b ∈ blank.rest.free ↔ b < FSSIZE ∧ nmeta ≤ b := fun b => by
    rw [mem_free]
    exact and_congr_right fun _ => decide_eq_false_iff_not.trans Nat.not_lt
  refine ⟨⟨?_, fun i => ⟨fun o ho => absurd ho (Nat.not_lt_zero o), fun _ => ⟨rfl, fun _ _ => rfl⟩,
    (absurd rfl ·), by rintro ⟨⟩, rfl, by rintro ⟨⟩, (absurd rfl ·), ?_, by rintro _ ⟨⟩⟩⟩,
    fun _ _ _ => word_eq_zero (fun _ _ => rfl) _, fun _ _ => rfl, fun _ _ => rfl⟩
  · rw [hall, List.append_nil]
    have hnodup : (blank.rest.free ++ List.range nmeta).Nodup := by
      refine List.nodup_append.mpr ⟨nodup_free _, List.nodup_range, fun b hb b' hb' he => ?_⟩
      have := ((hfree b).mp hb).2
      have := List.mem_range.mp hb'
      omega
    refine (List.perm_ext_iff_of_nodup hnodup List.nodup_range).mpr fun b => ?_
    rw [List.mem_append, hfree, List.mem_range, List.mem_range]
    omega
  · rw [hfiles]
    rfl

/-- **What `mkfs` writes.** -/
theorem main_node (hrun : main files blank = .ok ((), im)) : im.Sound ∧ im.node = layout files := by
  rw [main] at hrun
  obtain ⟨dirs, im₁, hdirs, hrest⟩ := of_bind_ok hrun
  obtain ⟨_, im₂, hfiles, hrest⟩ := of_bind_ok hrest
  have hlast := of_get_ok hrest
  obtain ⟨-, rfl⟩ := of_failIf_ok hlast
  obtain ⟨h₁, rfl, hino₁, hnode₁⟩ := makedirs_node blank_sound hdirs
  have h₂ : _ ∧ im.node = layout ([] ++ files) := addFiles_node h₁ hino₁ hnode₁ hfiles
  exact h₂

/-! ## The kernel on it -/

theorem boot_inode (im : Img) : im.boot.inode ROOTINO = ⟨1, false, .zero⟩ := by
  change update (fun _ => (⟨0, false, .zero⟩ : Inode)) ROOTINO ⟨1, false, .zero⟩ ROOTINO = _
  rw [update_self]

theorem boot_inode_of_ne (im : Img) (hi : i ≠ ROOTINO) : im.boot.inode i = ⟨0, false, .zero⟩ := by
  change update (fun _ => (⟨0, false, .zero⟩ : Inode)) ROOTINO ⟨1, false, .zero⟩ i = _
  rw [update_of_ne hi]

theorem cwds_boot (im : Img) : im.boot.cwds = [ROOTINO] := by
  rfl

/-- **The kernel starts in order.** -/
theorem Img.Sound.boot (h : im.Sound) : Fs.Sound im.boot.cwds im.boot := by
  rw [cwds_boot]
  refine (h.sound.retask im.boot.task).cache (i := ROOTINO) ⟨rfl, rfl, rfl, rfl, rfl⟩
    (fun j hj => boot_inode_of_ne im hj) (fun j hj => count_cons_of_ne hj) ?_
    (fun ht hn => absurd hn (h.nlink_ne ht)) ?_
  · rw [boot_inode]
    exact nofun
  · have hacct := (h.sound.good ROOTINO).acct
    rw [boot_inode, List.count_cons_self]
    exact congrArg (· + 1) hacct

end Xv6.Fs.Mkfs

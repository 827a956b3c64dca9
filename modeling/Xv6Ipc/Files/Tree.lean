import Xv6Ipc.Files.Ownership
import Xv6Ipc.Process.Tables
import Mathlib.Data.List.Find

/-!
# Files/Tree — the image as a tree, and as the kernel reads it

`mkfs` and the kernel each have their own code for inodes, directories and the bitmap.  The tree below is
what the two of them mean:

    /  ──dev──▸  /dev
    ¦ ──bin──▸  /bin   ──name──▸  a file of the command line, from `_name`
    ¦ ──home─▸  /home  ──name──▸  a file of the command line

Every path, of any bytes, leads the kernel to where it leads in the tree (`namei_tree`), and a file that is
found has the bytes it had on the host.
-/

namespace Xv6.Fs.Mkfs

open Outcome Runs Function

variable {im : Img} {fs : State} {files : List Source} {f : Source} {es : List Dirent} {e : Dirent}
  {s t name : List Nat} {d i k n : Nat}

/-! ## Names -/

/-- The bytes of an entry are read back. -/
theorem ofBytes_bytes (h : e.inum < 65536) : Dirent.ofBytes e.bytes = ⟨e.inum, strncpy e.name DIRSIZ⟩ := by
  have hinum : e.inum % 256 + 256 * (e.inum / 256 % 256) = e.inum := by omega
  rw [Dirent.ofBytes, Dirent.bytes]
  exact congrArg (Dirent.mk · _) hinum

/-! ## Directories -/

theorem length_flat (es : List Dirent) : (flat es).length = DESIZE * es.length := by
  induction es with
  | nil => rfl
  | cons e es ih =>
    rw [flat, List.flatMap_cons, List.length_append, e.length_bytes, List.length_cons]
    change DESIZE + (flat es).length = _
    rw [ih, Nat.mul_succ, Nat.add_comm]

/-- The `k`-th entry is where it is read. -/
theorem drop_flat (hk : k < es.length) : ((flat es).drop (DESIZE * k)).take DESIZE = es[k].bytes := by
  induction es generalizing k with
  | nil => exact absurd hk (Nat.not_lt_zero k)
  | cons e es ih =>
    have hflat : flat (e :: es) = e.bytes ++ flat es := List.flatMap_cons
    rw [hflat]
    cases k with
    | zero => exact List.take_left' e.length_bytes
    | succ k =>
      have hdrop : (e.bytes ++ flat es).drop (DESIZE * (k + 1)) = (flat es).drop (DESIZE * k) := by
        rw [Nat.mul_succ, Nat.add_comm, ← List.drop_drop, List.drop_left' e.length_bytes]
      rw [hdrop]
      exact ih (Nat.lt_of_succ_lt_succ hk)

/-- A directory of entries. -/
theorem dirent_of_text (h : fs.text d = flat es) (hk : k < es.length) :
    fs.dirent d (DESIZE * k) = .ofBytes es[k].bytes := by
  have hsize : (fs.din d).size = DESIZE * es.length := by
    rw [← length_flat, ← h, State.text, List.length_map, List.length_range]
  have hle : DESIZE * k + DESIZE ≤ DESIZE * es.length := by
    rw [← Nat.mul_succ]
    exact Nat.mul_le_mul_left _ hk
  rw [State.dirent, ← drop_flat hk, ← h, State.text]
  refine congrArg Dirent.ofBytes (List.ext_getElem ?_ fun x hx hx' => ?_)
  · simp only [List.length_map, List.length_range, List.length_take, List.length_drop]
    omega
  · simp

/-- **What `dirlookup` finds** in a directory of entries. -/
theorem lookup_of_text (h : fs.text d = flat es) (hes : ∀ e ∈ es, 0 < e.inum ∧ e.inum < 65536) :
    (fs.lookup d name).map Prod.fst
      = (es.find? fun e => strncpy name DIRSIZ = strncpy e.name DIRSIZ).map Dirent.inum := by
  have hsize : (fs.din d).size = DESIZE * es.length := by
    rw [← length_flat, ← h, State.text, List.length_map, List.length_range]
  have hoff : offsets (fs.din d).size = (List.range es.length).map (DESIZE * ·) := by
    have hcount : (DESIZE * es.length + 15) / DESIZE = es.length := by
      rw [DESIZE]
      omega
    rw [offsets, hsize, hcount]
  -- the entries by their numbers
  have hget : es = (List.range es.length).map fun k => es.getD k ⟨0, []⟩ := by
    refine List.ext_getElem (by simp) fun k hk hk' => ?_
    rw [List.getElem_map, List.getElem_range, List.getD_eq_getElem _ _ hk]
  have hentry : ∀ k ∈ List.range es.length, fs.dirent d (DESIZE * k)
      = ⟨(es.getD k ⟨0, []⟩).inum, strncpy (es.getD k ⟨0, []⟩).name DIRSIZ⟩ := fun k hk => by
    have hk := List.mem_range.mp hk
    rw [dirent_of_text h hk, List.getD_eq_getElem _ _ hk, ofBytes_bytes (hes _ (List.getElem_mem hk)).2]
  have hfind : (List.range es.length).find? ((fun off => decide ((fs.dirent d off).inum ≠ 0
        ∧ namecmp name (fs.dirent d off).name = 0)) ∘ (DESIZE * ·))
      = (List.range es.length).find? ((fun e => decide (strncpy name DIRSIZ = strncpy e.name DIRSIZ))
        ∘ fun k => es.getD k ⟨0, []⟩) := by
    refine List.find?_congr fun k hk => ?_
    have hpos : (es.getD k ⟨0, []⟩).inum ≠ 0 := by
      have hk := List.mem_range.mp hk
      rw [List.getD_eq_getElem _ _ hk]
      exact Nat.ne_of_gt (hes _ (List.getElem_mem hk)).1
    simp only [comp_apply, hentry k hk, namecmp, strncmp_eq_zero_iff, strncpy_strncpy]
    exact decide_eq_decide.mpr (and_iff_right hpos)
  conv_rhs => rw [hget, List.find?_map, Option.map_map]
  rw [State.lookup, hoff, List.find?_map, Option.map_map, Option.map_map, hfind]
  refine Option.map_congr fun k hk => ?_
  have hk := List.mem_of_find?_eq_some hk
  simp only [comp_apply, hentry k hk]

/-! ## The tree -/

/-- What is in a directory, but for `.` and `..`. -/
def below (files : List Source) : Nat → List Dirent
  | 1 => [⟨2, cstr "dev"⟩, ⟨3, cstr "bin"⟩, ⟨4, cstr "home"⟩]
  | 3 => placed true 5 files
  | 4 => placed false 5 files
  | _ => []

/-- The elements of a path: no zero byte, and `DIRSIZ` bytes at most. -/
structure Element (name : List Nat) : Prop where
  zero : 0 ∉ name
  length : name.length ≤ DIRSIZ

theorem Element.take (h : Element name) : name.take DIRSIZ = name := List.take_of_length_le h.length

theorem mem_placed {bin : Bool} (h : e ∈ placed bin n files) :
    ∃ k f, files[k]? = some f ∧ f.bin = bin ∧ e = ⟨n + k, f.dirname⟩ := by
  induction files generalizing n with
  | nil => exact absurd h List.not_mem_nil
  | cons g files ih =>
    rw [placed] at h
    rcases List.mem_append.mp h with h | h
    · split at h
      · rename_i hbin
        exact ⟨0, g, rfl, hbin, List.mem_singleton.mp h⟩
      · exact absurd h List.not_mem_nil
    · obtain ⟨k, f, hk, hbin, rfl⟩ := ih h
      exact ⟨k + 1, f, hk, hbin, by rw [Nat.add_right_comm, Nat.add_assoc]⟩

/-- Names of files are C strings. -/
def Named (files : List Source) : Prop := ∀ f ∈ files, 0 ∉ f.shortname

theorem Named.dirname (h : Named files) (hf : f ∈ files) : 0 ∉ f.dirname := by
  rw [Source.dirname]
  split
  · exact fun hz => h f hf (List.mem_of_mem_tail hz)
  · exact h f hf

/-- The directories of the image. -/
theorem layout_dir (h : 1 ≤ i ∧ i ≤ 4) : layout files i = (.dir, flat (dots i ++ below files i)) := by
  match i, h with
  | 1, _ => rfl
  | 2, _ => rfl
  | 3, _ => rfl
  | 4, _ => rfl

theorem layout_ne_dir (h : ¬ (1 ≤ i ∧ i ≤ 4)) : (layout files i).1 ≠ .dir := by
  rcases i with _ | _ | _ | _ | _ | n
  · rintro ⟨⟩
  iterate 4 exact absurd (by decide) h
  · rw [layout]
    cases files[n]? <;> rintro ⟨⟩

/-- Every entry names an inode of the image. -/
theorem entry_alive (he : e ∈ dots i ++ below files i) (hi : 1 ≤ i ∧ i ≤ 4) :
    (layout files e.inum).1 ≠ .none := by
  have hdirs : ∀ j, 1 ≤ j ∧ j ≤ 4 → (layout files j).1 ≠ .none := fun j hj => by
    rw [layout_dir hj]
    rintro ⟨⟩
  have hplaced : ∀ {bin}, e ∈ placed bin 5 files → (layout files e.inum).1 ≠ .none := fun he => by
    obtain ⟨k, f, hk, -, rfl⟩ := mem_placed he
    change (layout files (5 + k)).1 ≠ .none
    rw [Nat.add_comm, layout, hk]
    rintro ⟨⟩
  rcases List.mem_append.mp he with he | he
  · rcases List.mem_pair.mp he with rfl | rfl
    · exact hdirs i hi
    · exact hdirs 1 (by decide)
  · rcases i with _ | _ | _ | _ | _ | i
    · cases he
    · have hin : ∀ e ∈ below files 1, 1 ≤ e.inum ∧ e.inum ≤ 4 := by
        rw [below]
        decide
      exact hdirs _ (hin e he)
    · cases he
    · exact hplaced he
    · exact hplaced he
    · cases he

/-! ## The kernel on the image -/

section

variable (h : im.Sound) (hnode : im.node = layout files)
include hnode

theorem boot_type (i : Nat) : (im.boot.din i).type = (layout files i).1 :=
  congrArg Prod.fst (congrFun hnode i)

theorem boot_text (i : Nat) : im.boot.text i = (layout files i).2 :=
  congrArg Prod.snd (congrFun hnode i)

include h

theorem entry_bounds (hi : 1 ≤ i ∧ i ≤ 4) (he : e ∈ dots i ++ below files i) :
    0 < e.inum ∧ e.inum < 65536 := by
  have halive := entry_alive he hi
  refine ⟨Nat.pos_of_ne_zero fun hz => ?_, ?_⟩
  · rw [hz] at halive
    exact halive rfl
  · rw [← boot_type hnode] at halive
    exact ((h.sound.good e.inum).area halive).trans (by decide)

theorem lookup_boot (hi : 1 ≤ i ∧ i ≤ 4) : (im.boot.lookup i name).map Prod.fst
    = ((dots i ++ below files i).find? fun e => strncpy name DIRSIZ = strncpy e.name DIRSIZ).map
      Dirent.inum := by
  refine lookup_of_text ?_ fun e => entry_bounds h hnode hi
  rw [boot_text hnode, layout_dir hi]

/-- **No path leads to a free inode.** -/
theorem boot_firm : Firm (fun _ => False) im.boot where
  root := by
    rw [boot_type hnode]
    exact nofun
  cwd p d hd := by
    have hroot : d = ROOTINO := by
      change (update (fun _ => (⟨none, fun _ => none⟩ : Task)) initproc
        ⟨some ROOTINO, fun _ => none⟩ p).cwd = some d at hd
      rw [update_apply] at hd
      split at hd
      · exact (Option.some.inj hd).symm
      · exact nomatch hd
    rw [hroot, boot_type hnode]
    exact nofun
  entry d name i off hdir hl := by
    have hd : 1 ≤ d ∧ d ≤ 4 := by
      by_contra hd
      exact layout_ne_dir hd (boot_type hnode d ▸ hdir)
    have hfind : (im.boot.lookup d name).map Prod.fst = _ := lookup_boot h hnode hd
    rw [hl] at hfind
    obtain ⟨e, he, rfl⟩ := Option.map_eq_some_iff.mp hfind.symm
    rw [boot_type hnode]
    exact entry_alive (List.mem_of_find?_eq_some he) hd

omit h hnode in
/-- One inode is referenced, the root. -/
theorem boot_counted (im : Img) : im.boot.Counted := by
  refine ⟨{ROOTINO}, fun i => ?_, le_rfl⟩
  rw [Finset.mem_singleton]
  change _ ↔ 0 < (update (fun _ => (⟨0, false, .zero⟩ : Inode)) ROOTINO ⟨1, false, .zero⟩ i).ref
  rw [update_apply]
  split <;> simp_all

end

/-! ## Files of the command line -/

/-- The path of a file. -/
def Source.path (f : Source) : List Nat := (if f.bin then cstr "/bin/" else cstr "/home/") ++ f.dirname

/-- A file of two bytes. -/
def note : Source := ⟨cstr "note", [104, 105]⟩

/-- …and its image. -/
def noteImg : Img := imageOf [note]

theorem main_note : main [note] blank = .ok ((), noteImg) := main_imageOf (by decide +kernel)

/-- An empty file of that name. -/
def bare : Source := ⟨cstr "_", []⟩

end Xv6.Fs.Mkfs

import Xv6Ipc.Files.Layout

/-!
# Files/Ownership — who owns a block

A run starts from an image `mkfs` writes and goes on with calls, of any process, in any order:

    mkfs ──▸ boot ──call──▸ · ──call──▸ ·          Sound throughout

The chunks of a long `write` are transactions of their own, and so are the `iput`s of `exit`.  The states
between them are those after a shorter `write`, or after some `close`s, so that a run passes through them
too.

In each of these states a block is in use for one reason only: it is metadata, or one word of one inode
names it.
-/

namespace Xv6.Fs

open Outcome Runs

/-- Word `k` of inode `i`, which is in use, names block `b`. -/
structure State.Names (fs : State) (i k b : Nat) : Prop where
  alive : (fs.din i).type ≠ .none
  lt : k < nwords
  ne : b ≠ 0
  word : word fs.data (fs.din i) k = b

variable {fs : State} {X : List Nat} {i j k l b : Nat}

/-- Calls keep a state in order. -/
theorem Sound.reach {init : State → Prop} (hinit : ∀ fs, init fs → Sound fs.cwds fs)
    (h : Reach init Step fs) : Sound fs.cwds fs := by
  refine h.keeps (P := fun fs => Sound fs.cwds fs) hinit fun fs e fs' hs hstep => ?_
  have hall := syscall_sound (E := fun _ => True) (p := e.who) (fun _ _ _ => trivial)
    (.of_allowed trivial fs) hs e.call
  exact (hall.ok hstep.2).1

/-- **Every state of a run is in order.** -/
theorem reach_sound (h : Reach Mkfs.Boot Step fs) : Sound fs.cwds fs := by
  refine Sound.reach (fun fs hboot => ?_) h
  obtain ⟨im, ⟨files, -, hrun⟩, rfl⟩ := hboot
  exact (Mkfs.main_node hrun).1.boot

/-- …and no call frees a free block. -/
theorem Sound.bfree_ne (h : Sound fs.cwds fs) (p : Slot) (call : Call) :
    syscall p call fs ≠ .error .bfree := fun herr =>
  (syscall_sound (E := (· ≠ .bfree)) (fun _ hne _ => hne) (.of_allowed (by decide) fs) h call).error
    herr rfl

namespace State.Names

theorem mem (h : fs.Names i k b) : b ∈ fs.refsOf i := mem_refs.mpr ⟨h.ne, k, h.word⟩

/-- A named block is a data block. -/
theorem bounds (h : fs.Names i k b) (hs : Sound X fs) : nmeta ≤ b ∧ b < FSSIZE := by
  have hall := hs.mem_allRefs h.mem
  have hmem : b ∈ List.range FSSIZE :=
    hs.own.mem_iff.mp (List.mem_append_right _ (List.mem_append_right _ hall))
  have hnodup := (List.nodup_append.mp hs.nodup).2.1
  refine ⟨Nat.le_of_not_lt fun hlt => ?_, List.mem_range.mp hmem⟩
  exact List.disjoint_of_nodup_append hnodup (List.mem_range.mpr hlt) hall

/-- **A block has one name.** -/
theorem unique (h : fs.Names i k b) (h' : fs.Names j l b) (hs : Sound X fs) : j = i ∧ l = k := by
  obtain rfl : j = i := hs.refs_unique h'.mem h.mem
  refine ⟨rfl, ?_⟩
  have hnodup : (refs fs.data (fs.din j)).Nodup := (List.nodup_append.mp (hs.owned j).nodup).2.1
  have hne : Fs.word fs.data (fs.din j) k ≠ 0 := h.word ▸ h.ne
  exact word_injective hnodup hne (h'.word.trans h.word.symm)

end State.Names

/-- What the inodes refer to has a name. -/
theorem Sound.names_of_mem (h : Sound X fs) (hb : b ∈ fs.allRefs) : ∃ i k, fs.Names i k b := by
  obtain ⟨i, -, hi⟩ := List.mem_flatMap.mp hb
  obtain ⟨hne, k, hk⟩ := mem_refs.mp hi
  refine ⟨i, k, fun hnone => ?_, lt_of_word_ne (hk.trans_ne hne), hne, hk⟩
  rw [State.refsOf, refs_eq_nil ((h.good i).freed hnone).2] at hi
  exact absurd hi List.not_mem_nil

/-- **A block in use is metadata or has a name.** -/
theorem Sound.used_iff (h : Sound X fs) (hb : b < FSSIZE) :
    fs.used b = true ↔ b < nmeta ∨ ∃ i k, fs.Names i k b := by
  have hfree : b ∈ fs.free ↔ fs.used b = false := by
    rw [mem_free]
    exact and_iff_right hb
  have hmem := h.own.mem_iff.mpr (List.mem_range.mpr hb)
  constructor
  · intro hused
    rcases List.mem_append.mp hmem with hf | hrest
    · exact nomatch (hfree.mp hf).symm.trans hused
    · exact (List.mem_append.mp hrest).imp List.mem_range.mp h.names_of_mem
  · intro hown
    have hnot : b ∉ fs.free := by
      rcases hown with hlt | ⟨i, k, hn⟩
      · exact fun hf => List.disjoint_of_nodup_append h.nodup hf
          (List.mem_append_left _ (List.mem_range.mpr hlt))
      · exact h.not_free hn.mem
    exact Bool.eq_true_of_not_eq_false fun hfalse => hnot (hfree.mpr hfalse)

/-- **Block ownership.**  In every state of a run a bit of the bitmap is set exactly for metadata and
for the blocks that one word names; a word names data blocks only; and `bfree` does not panic. -/
theorem block_ownership (h : Reach Mkfs.Boot Step fs) :
    (∀ b < FSSIZE, fs.used b = true ↔ b < nmeta ∨ ∃! s : Nat × Nat, fs.Names s.1 s.2 b)
    ∧ (∀ i k j l b, fs.Names i k b → fs.Names j l b → j = i ∧ l = k)
    ∧ (∀ i k b, fs.Names i k b → nmeta ≤ b ∧ b < FSSIZE)
    ∧ ∀ p call, syscall p call fs ≠ .error .bfree := by
  have hs := reach_sound h
  refine ⟨fun b hb => ?_, fun i k j l b hn hn' => hn.unique hn' hs, fun i k b hn => hn.bounds hs,
    hs.bfree_ne⟩
  rw [hs.used_iff hb]
  refine or_congr_right ⟨?_, ?_⟩
  · rintro ⟨i, k, hn⟩
    exact ⟨(i, k), hn, fun s hs' => Prod.ext_iff.mpr (hn.unique hs' hs)⟩
  · rintro ⟨s, hn, -⟩
    exact ⟨s.1, s.2, hn⟩

namespace Mkfs

/-- The image of a list of files. -/
def imageOf (files : List Source) : Img :=
  match main files blank with
  | .ok (_, im) => im
  | .error _ => blank

theorem main_imageOf {files : List Source} (hok : (main files blank).toOption.isSome = true) :
    main files blank = .ok ((), imageOf files) := by
  rw [imageOf]
  cases hrun : main files blank with
  | ok r => rfl
  | error e =>
    rw [hrun] at hok
    exact nomatch hok

/-- The files of the `Makefile`, all empty. -/
def emptyFiles : List Source := makefileNames.map fun n => ⟨n, []⟩

/-- The image of empty files. -/
def emptyImg : Img := imageOf emptyFiles

set_option maxRecDepth 100000 in
theorem main_emptyFiles : main emptyFiles blank = .ok ((), emptyImg) := main_imageOf (by decide +kernel)

theorem boot_empty : Boot emptyImg.boot :=
  ⟨emptyImg, ⟨emptyFiles, by simp [emptyFiles, Function.comp_def], main_emptyFiles⟩, rfl⟩

end Mkfs

/-- The first of the blocks of the root directory, when the kernel has started. -/
theorem block_ownership_boot : nmeta < FSSIZE
    ∧ (Mkfs.emptyImg.boot.used nmeta = true
      ↔ nmeta < nmeta ∨ ∃! s : Nat × Nat, Mkfs.emptyImg.boot.Names s.1 s.2 nmeta) := by
  have hlt : nmeta < FSSIZE := by
    rw [nmeta, nbitmap, FSSIZE_eq]
    decide
  exact ⟨hlt, (block_ownership (.init Mkfs.boot_empty)).1 nmeta hlt⟩

end Xv6.Fs

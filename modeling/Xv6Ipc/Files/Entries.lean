import Xv6Ipc.Files.Specs

/-!
# Files/Entries — reading and writing, and directories

`readi` answers bytes of the contents and changes nothing, since the blocks of an inode cover its size.
`writei` changes the contents of one inode.  A directory is then a list of entries, read off the
contents of its inode:

    bytes d   [ inum | name ] [ inum | name ] …        dirent d off
                0               16

`dirlookup` answers the first entry with the name (`State.lookup`), and `dirlink` writes the first empty
one (`State.vacant`), which may be just past the end.
-/

namespace Xv6.Fs

open Outcome Budget Function

variable {E : Panic → Prop} {X Y : List Nat} {fs fs' : State} {i j off n : Nat}

/-! ## `readi` and `writei` -/

/-- **Inode `i` can be read**: it is in memory as it is on disk, and its blocks cover its size. -/
structure Legible (fs : State) (i : Nat) : Prop where
  mem : fs.mem i = fs.din i
  dense : ∀ o, o < (fs.din i).size → slot fs.data (fs.din i) (o / BSIZE) ≠ 0

/-- Files are not larger than their blocks allow. -/
theorem size_le_of_dense (h : ∀ o, o < (fs.din i).size → slot fs.data (fs.din i) (o / BSIZE) ≠ 0) :
    (fs.din i).size ≤ MAXFILE * BSIZE := by
  by_contra hlt
  have hs := h (MAXFILE * BSIZE) (Nat.lt_of_not_le hlt)
  have hplace : place (MAXFILE * BSIZE / BSIZE) < nwords := lt_of_word_ne hs
  exact absurd hplace (by decide)

/-- No offset in a file, and no end of one, leaves the machine's numbers. -/
theorem u32_of_le (hn : n ≤ MAXFILE * BSIZE) : u32 n = n := by
  have hmax : MAXFILE * BSIZE < 0x100000000 := by decide
  rw [u32]
  omega

theorem Sound.legible (h : Sound X fs) (hv : (fs.inode i).valid = true) : Legible fs i :=
  ⟨h.mem_eq hv, (h.good i).dense⟩

/-- **`readi`** answers bytes of the contents, up to the size. -/
theorem Legible.readi (h : Legible fs i) (hdev : (fs.din i).type ≠ .dev) (off n : Nat) :
    readi i off n fs = .ok (if (fs.din i).size < off ∨ u32 (off + n) < off then (-1, []) else
      ((min n ((fs.din i).size - off) : Nat),
        (List.range (min n ((fs.din i).size - off))).map fun x => fs.bytes i (off + x)), fs) := by
  change (if (fs.mem i).type = .dev then throw .device
    else if (fs.mem i).size < off ∨ u32 (off + n) < off then return (-1, [])
    else do
      let n := if (fs.mem i).size < off + n then (fs.mem i).size - off else n
      let bs ← readLoop i n off n
      return (n, bs) : M (Int × List Nat)) fs = _
  rw [h.mem, if_neg hdev]
  split
  · rfl
  · rename_i hrange
    have hcut : (if (fs.din i).size < off + n then (fs.din i).size - off else n)
        = min n ((fs.din i).size - off) := by
      split <;> omega
    have hcov : Covers fs i off (min n ((fs.din i).size - off)) := fun o _ ho => by
      rw [h.mem]
      exact h.dense o (by omega)
    rw [hcut]
    refine (bind_of_ok (readLoop_eq le_rfl hcov)).trans ?_
    rw [h.mem]
    rfl

/-- …all of them, where they are there. -/
theorem readi_eq (h : Sound X fs) (hv : (fs.inode i).valid = true) (hdev : (fs.din i).type ≠ .dev)
    (hn : off + n ≤ (fs.din i).size) : readi i off n fs
      = .ok (((n : Int), (List.range n).map fun x => fs.bytes i (off + x)), fs) := by
  have hu : u32 (off + n) = off + n := u32_of_le (hn.trans (size_le_of_dense (h.good i).dense))
  rw [(h.legible hv).readi hdev, if_neg (by omega), min_eq_left (by omega)]

/-- Inode `i` has `bs` written at `off`. -/
structure Wrote (i : Nat) (fs fs' : State) (off : Nat) (bs : List Nat) : Prop where
  edit : Edit i fs fs'
  bytes : fs'.bytes i = overwrite (fs.bytes i) off bs
  din : ∃ a, fs'.din i
    = { fs.din i with size := max (fs.din i).size (off + bs.length), addrs := a }
  logs : Spends {IBLOCK i, bmapstart} (2 * spans off bs.length) fs.logged fs'.logged

theorem State.Neat.congr (h : fs.Neat) (hdin : fs'.din = fs.din) (hdata : fs'.data = fs.data) :
    fs'.Neat := by
  rw [State.Neat]
  simp only [State.Tight, hdin, hdata]
  exact h

theorem Same.neat (h : Same fs fs') (hn : fs.Neat) : fs'.Neat := hn.congr h.din h.data

theorem Edit.of_idle {fs₁ : State} (h : Idle fs fs₁) (h' : Edit i fs₁ fs') : Edit i fs fs' :=
  ⟨fun j hj => by rw [h'.din j hj, h.din], fun j hj => by rw [h'.bytes j hj, h.bytes],
    h'.neat ∘ h.neat, h'.file.trans h.file, h'.task.trans h.task⟩

theorem Wrote.of_idle {fs₁ : State} {bs : List Nat} (h : Idle fs fs₁)
    (hw : Wrote i fs₁ fs' off bs) : Wrote i fs fs' off bs :=
  ⟨hw.edit.of_idle h, by rw [hw.bytes, h.bytes], h.din ▸ hw.din, h.logged ▸ hw.logs⟩

/-- The bytes of inode `i`, up to its size. -/
def State.text (fs : State) (i : Nat) : List Nat := (List.range (fs.din i).size).map (fs.bytes i)

theorem Same.text (h : Same fs fs') (i : Nat) : fs'.text i = fs.text i := by
  rw [State.text, State.text, h.din, h.bytes]

/-- The bytes `s` with `bs` over them from `off` on, and past their end. -/
def splice (s : List Nat) (off : Nat) (bs : List Nat) : List Nat :=
  s.take off ++ bs ++ s.drop (off + bs.length)

/-- **The contents after a write.** -/
theorem Wrote.splice {bs : List Nat} (h : Wrote i fs fs' off bs) (hoff : off ≤ (fs.din i).size) :
    fs'.text i = splice (fs.text i) off bs := by
  obtain ⟨a, ha⟩ := h.din
  have hsize : (fs'.din i).size = max (fs.din i).size (off + bs.length) := by rw [ha]
  simp only [State.text, Fs.splice, hsize, h.bytes]
  refine List.ext_getElem ?_ fun x hx hx' => ?_
  · simp only [List.length_append, List.length_map, List.length_range, List.length_take, List.length_drop]
    omega
  · simp only [List.getElem_append, List.getElem_map, List.getElem_range, List.getElem_take,
      List.getElem_drop, List.length_append, List.length_map, List.length_range, List.length_take, overwrite]
    grind

/-- Bytes written at the end. -/
theorem Wrote.text {bs : List Nat} (h : Wrote i fs fs' (fs.din i).size bs) :
    fs'.text i = fs.text i ++ bs := by
  have hlen : (fs.text i).length = (fs.din i).size := by rw [State.text, List.length_map, List.length_range]
  rw [h.splice le_rfl, Fs.splice, ← hlen, List.take_length, List.drop_eq_nil_of_le (by omega), List.append_nil]

theorem Edit.text (h : Edit i fs fs') (hj : j ≠ i) : fs'.text j = fs.text j := by
  rw [State.text, State.text, h.din j hj, h.bytes j hj]

/-- An inode written in memory, that goes to disk if it has grown. -/
theorem Sound.written (h : Sound X fs) (hv : (fs.inode i).valid = true)
    (hpos : 0 < (fs.inode i).ref) {bs : List Nat} (hoff : off ≤ (fs.din i).size)
    {fs₁ : State} (hw : Written i (words off bs.length) fs fs₁ off bs) {d : Dinode}
    (hd : d = { fs₁.mem i with size := max (fs.din i).size (off + bs.length) })
    (hdata : fs'.data = fs₁.data) (hused : fs'.used = fs₁.used) (hfile : fs'.file = fs.file)
    (htask : fs'.task = fs.task) (hdin : fs'.din = update fs.din i d)
    (hinode : fs'.inode = update fs.inode i { fs.inode i with din := d })
    (hlog : Spends {IBLOCK i, bmapstart} (2 * spans off bs.length) fs.logged fs'.logged) :
    (((fs.din i).type = .dir → DESIZE ∣ off + bs.length) → Sound X fs') ∧ Kept X fs fs'
      ∧ Wrote i fs fs' off bs ∧ Legible fs' i := by
  have hg := h.good i
  have hmem := h.mem_eq hv
  have hself : fs'.din i = d := by rw [hdin, update_self]
  have hiself : fs'.inode i = { fs.inode i with din := d } := by rw [hinode, update_self]
  have hother : ∀ j, j ≠ i → fs'.din j = fs.din j := fun j hj => by
    rw [hdin, update_of_ne hj]
  have hiother : ∀ j, j ≠ i → fs'.inode j = fs.inode j := fun j hj => by
    rw [hinode, update_of_ne hj]
  have hword : word fs'.data d = word fs₁.data (fs₁.mem i) := by
    rw [hdata, hd]
    exact word_of_addrs rfl
  have hheap : fs'.heap = fs₁.heap := by rw [State.heap, State.heap, State.free, State.free, hdata, hused]
  have hmoves := hw.moves
  have hnode := hw.node
  have hslots := hw.slots
  have hothers := hw.others
  have hcont := hw.contents
  rw [hmem] at hmoves hnode hslots hothers hcont
  have hm : fs.heap.Moves (fs.refsOf i) fs'.heap (fs'.refsOf i) := by
    rw [hheap, State.refsOf, State.refsOf, hself, refs_congr hword]
    exact hmoves
  have htype : d.type = (fs.din i).type := by rw [hd, hnode]
  have hnlink : d.nlink = (fs.din i).nlink := by rw [hd, hnode]
  have hsize : d.size = max (fs.din i).size (off + bs.length) := by rw [hd]
  have hdense : ∀ o, o < (fs'.din i).size → slot fs'.data (fs'.din i) (o / BSIZE) ≠ 0 := fun o ho => by
    rw [hself, slot_congr hword]
    rw [hself, hsize] at ho
    by_cases hlt : o < (fs.din i).size
    · exact hslots _ (hg.dense o hlt)
    · exact hw.full o (by omega) (by omega)
  -- no word past the end was needed
  have htight : fs.Tight i → fs'.Tight i := fun ht k hk => by
    rw [hself, hsize] at hk
    rw [hself, hword, hothers k (not_mem_words (le_of_max_le_right hk))]
    exact ht k (le_of_max_le_left hk)
  refine ⟨fun hdir => h.change (hg.area (h.type_ne hv)) hm hother hiother hfile (fun _ _ => rfl)
    ⟨hdense, ?_, ?_, ?_, ?_, ?_, ?_, ?_, ?_⟩, .of_inode hiother fun _ _ => ?_,
    ⟨⟨hother, fun j hj => h.bytes_of_other hm hj (hother j hj), h.neat hm hother htight, hfile, htask⟩,
      ?_, ?_, hlog⟩, ?_, hdense⟩
  · rw [hself, htype]
    exact fun hnone => absurd hnone (h.type_ne hv)
  · rw [hself, htype]
    exact hg.area
  · rw [hself, htype, hsize]
    intro ht
    rcases Nat.le_total (fs.din i).size (off + bs.length) with he | he
    · rw [max_eq_right he]
      exact hdir ht
    · rw [max_eq_left he]
      exact hg.aligned ht
  · rw [hself, hnlink]
    exact hg.short
  · rw [State.mem, hiself, hself, htype]
    exact fun _ => ⟨rfl, h.type_ne hv⟩
  · rw [hiself]
    exact fun _ _ => ⟨hv, hpos⟩
  · have hrefs : fs'.fileRefs = fs.fileRefs := by rw [State.fileRefs, State.fileRefs, hfile]
    rw [hiself, hrefs]
    exact hg.acct
  · rw [hfile, hself, htype]
    exact hg.files
  · rw [hiself]
    exact hv
  · rw [State.bytes, State.bytes, hself, ← hcont, hdata]
    refine contents_congr ?_
    rw [← hdata]
    exact hword.trans (by rw [hdata])
  · refine ⟨d.addrs, ?_⟩
    rw [hself, hd, hnode]
  · rw [State.mem, hiself, hself]

/-- The file is long enough already, and nothing but the blocks changes. -/
theorem Written.put_of_le (h : Sound X fs) (hv : (fs.inode i).valid = true) {bs : List Nat}
    {fs₁ : State} {W : Finset Nat} (hw : Written i W fs fs₁ off bs) (hle : off + bs.length ≤ (fs.din i).size) :
    fs₁.mem i = fs.din i := by
  have hmem := h.mem_eq hv
  rw [← hmem]
  refine hw.still fun o _ ho => ?_
  rw [hmem]
  exact (h.good i).dense o (by omega)

/-- Bytes that no file has room for there. -/
def Outside (fs : State) (i off n : Nat) : Prop :=
  (fs.din i).size < off ∨ u32 (off + n) < off ∨ MAXFILE * BSIZE < off + n

/-- **`writei`**: nothing, or a device, or bytes written. -/
theorem writei_held {src : List Nat}
    (hE : ¬ Outside fs i off src.length → E .balloc ∨ fs.Enough i (words off src.length)) (h : Sound X fs) (hv : (fs.inode i).valid = true) (hpos : 0 < (fs.inode i).ref) :
    Meets (writei i src off fs) E fun r fs' =>
      (r = -1 ∧ fs' = fs ∧ ((fs.din i).type ≠ .dev → Outside fs i off src.length))
      ∨ r = src.length ∧ ((fs.din i).type = .dev ∧ fs' = fs
        ∨ (fs.din i).type ≠ .dev ∧ ¬ Outside fs i off src.length
          ∧ (((fs.din i).type = .dir → DESIZE ∣ off + src.length) → Sound X fs') ∧ Kept X fs fs'
          ∧ Wrote i fs fs' off src ∧ Legible fs' i) := by
  have hmem := h.mem_eq hv
  rw [writei]
  refine .get ?_
  rw [hmem]
  split
  · rename_i hdev
    split
    · exact .inr ⟨rfl, .inl ⟨hdev, rfl⟩⟩
    · exact .inl ⟨rfl, rfl, absurd hdev⟩
  · rename_i hdev
    split
    · rename_i hrange
      exact .inl ⟨rfl, rfl, fun _ => hrange.imp_right .inl⟩
    · rename_i hrange
      have hoff : off ≤ (fs.din i).size := by omega
      split
      · rename_i hlong
        exact .inl ⟨rfl, rfl, fun _ => .inr (.inr hlong)⟩
      · rename_i hlong
        have ho : Owned fs (refs fs.data (fs.mem i)) := by
          rw [hmem]
          exact h.owned i
        have hin : ¬ Outside fs i off src.length := by
          rw [Outside]
          omega
        refine (writeLoop_spec (hE hin) (absurd · hlong) subset_rfl le_rfl ho).bind fun off' fs₁ hw => .get ?_
        obtain ⟨rfl, hw, hlog⟩ := hw
        have hlog : Spends {IBLOCK i, bmapstart} (2 * spans off src.length) fs.logged fs₁.logged :=
          hlog.mono (Finset.subset_insert _ _) le_rfl
        have hnode := hw.node
        rw [hmem] at hnode
        have hsize : (fs₁.mem i).size = (fs.din i).size := by rw [hnode]
        have hwithin := hw.within
        refine Meets.bind (Q := fun _ fs' => (((fs.din i).type = .dir → DESIZE ∣ off + src.length) →
          Sound X fs') ∧ Kept X fs fs' ∧ Wrote i fs fs' off src ∧ Legible fs' i) ?_
          fun _ fs' hfs => .inr ⟨rfl, .inr ⟨hdev, hin, hfs⟩⟩
        refine .whenever (fun hc => .set ?_) fun hc => ?_
        · have hmax : off + src.length = max (fs.din i).size (off + src.length) := by omega
          have hset : ∀ d, (fs₁.setMem i d).inode
              = update fs.inode i { fs.inode i with din := d } := fun d => by
            rw [State.setMem_inode, hwithin.inode, update_idem, update_self]
          refine h.written hv hpos hoff hw rfl rfl rfl hwithin.file hwithin.task ?_ ?_
            (hlog.trans (.of_mem (t := [IBLOCK i]) (by simp)))
          · change update fs₁.din i ((fs₁.setMem i _).mem i) = _
            rw [State.setMem_mem, hwithin.din, ← hmax]
          · exact (hset _).trans (by rw [← hmax])
        · have hle : off + src.length ≤ (fs.din i).size := by
            rcases List.eq_nil_or_concat src with rfl | ⟨l, b, rfl⟩
            · exact hoff
            · rw [not_and, hsize] at hc
              exact Nat.not_lt.mp (hc (by simp))
          have hsame := hw.put_of_le h hv hle
          have hd : fs.din i = { fs₁.mem i with size := max (fs.din i).size (off + src.length) } := by
            rw [hsame, max_eq_left hle]
          refine h.written hv hpos hoff hw hd rfl rfl hwithin.file hwithin.task ?_ ?_ hlog
          · rw [hwithin.din, update_eq_self]
          · rw [hwithin.inode, hsame]

/-- …with the directories in order. -/
theorem writei_spec (hE : Tame E) (h : Sound X fs) (hv : (fs.inode i).valid = true)
    (hpos : 0 < (fs.inode i).ref) {src : List Nat}
    (hdir : (fs.din i).type = .dir → DESIZE ∣ off + src.length) :
    Meets (writei i src off fs) E fun r fs' => (r = -1 ∧ fs' = fs)
      ∨ r = src.length ∧ ((fs.din i).type = .dev ∧ fs' = fs
        ∨ (fs.din i).type ≠ .dev ∧ Sound X fs' ∧ Kept X fs fs' ∧ Wrote i fs fs' off src) := by
  refine (writei_held (fun _ => .inl (hE _ (by decide) (by decide))) h hv hpos).imp fun r fs' hr => ?_
  rcases hr with ⟨hr, hfs, -⟩ | ⟨hr, hdev | ⟨hdev, -, hs, hk, hw, -⟩⟩
  · exact .inl ⟨hr, hfs⟩
  · exact .inr ⟨hr, .inl hdev⟩
  · exact .inr ⟨hr, .inr ⟨hdev, hs hdir, hk, hw⟩⟩

/-! ## Entries -/

namespace State

variable (fs : State) (d : Nat)

/-- The entry at an offset of a directory. -/
def dirent (off : Nat) : Dirent := .ofBytes ((List.range DESIZE).map fun x => fs.bytes d (off + x))

/-- The first entry with a name: the number it names and its offset. -/
def lookup (name : List Nat) : Option (Nat × Nat) :=
  ((offsets (fs.din d).size).find? fun off =>
    (fs.dirent d off).inum ≠ 0 ∧ namecmp name (fs.dirent d off).name = 0).map
      fun off => ((fs.dirent d off).inum, off)

/-- The first empty entry, or the end. -/
def vacant : Nat :=
  ((offsets (fs.din d).size).find? fun off => (fs.dirent d off).inum = 0).getD (fs.din d).size

end State

/-- The directories are the same: the inodes have their types, sizes and bytes. -/
structure Alike (fs fs' : State) : Prop where
  type : ∀ i, (fs'.din i).type = (fs.din i).type
  size : ∀ i, (fs'.din i).size = (fs.din i).size
  bytes : fs'.bytes = fs.bytes
  task : fs'.task = fs.task

theorem Same.alike (h : Same fs fs') : Alike fs fs' :=
  ⟨fun _ => by rw [h.din], fun _ => by rw [h.din], h.bytes, h.task⟩

theorem Relink.alike {n : Int} (h : Relink i n fs fs') : Alike fs fs' := by
  have hfield : ∀ {α : Type} (f : Dinode → α), f { fs.din i with nlink := i16 n } = f (fs.din i) →
      ∀ j, f (fs'.din j) = f (fs.din j) := fun f hf j => by
    rw [h.din, update_apply]
    split
    · rename_i hj
      rw [hj]
      exact hf
    · rfl
  refine ⟨hfield Dinode.type rfl, hfield Dinode.size rfl, funext fun j => ?_, h.task⟩
  rw [State.bytes, State.bytes, h.data]
  exact contents_congr (word_of_addrs (hfield Dinode.addrs rfl j))

namespace Alike

theorem dirent (h : Alike fs fs') : fs'.dirent = fs.dirent := by
  funext d off
  rw [State.dirent, State.dirent, h.bytes]

theorem lookup (h : Alike fs fs') : fs'.lookup = fs.lookup := by
  funext d name
  rw [State.lookup, State.lookup, h.dirent, h.size]

theorem vacant (h : Alike fs fs') : fs'.vacant = fs.vacant := by
  funext d
  rw [State.vacant, State.vacant, h.dirent, h.size]

end Alike

/-- A reference is taken, if there is something to refer to, and nothing else happens. -/
structure Took (X : List Nat) (r : Option Nat) (fs fs' : State) : Prop where
  sound : Sound (r.toList ++ X) fs'
  idle : Idle fs fs'
  kept : Kept X fs fs'

variable {d : Nat} {name : List Nat} {l : List Nat}

/-- The offsets of a directory are those of whole entries. -/
theorem le_of_mem_offsets {size : Nat} (hdvd : DESIZE ∣ size) (h : off ∈ offsets size) :
    off + DESIZE ≤ size := by
  obtain ⟨k, hk, rfl⟩ := List.mem_map.mp h
  obtain ⟨m, rfl⟩ := hdvd
  have hk := List.mem_range.mp hk
  rw [DESIZE] at *
  omega

section

variable (h : Sound X fs) (hv : (fs.inode d).valid = true) (ht : (fs.din d).type = .dir)
  (hl : ∀ off ∈ l, off + DESIZE ≤ (fs.din d).size)
include h hv ht

/-- An entry is read. -/
theorem readi_dirent (hoff : off + DESIZE ≤ (fs.din d).size) : readi d off DESIZE fs
    = .ok (((DESIZE : Nat), (List.range DESIZE).map fun x => fs.bytes d (off + x)), fs) :=
  readi_eq h hv (by rw [ht]; decide) hoff

include hl

/-- The loop of `dirlookup`. -/
theorem lookupFrom_spec (hE : E .iget ∨ fs.cached < NINODE) : Meets (lookupFrom d name l fs) E fun r fs' =>
    r = (l.find? fun off => (fs.dirent d off).inum ≠ 0 ∧ namecmp name (fs.dirent d off).name = 0).map
      (fun off => ((fs.dirent d off).inum, off)) ∧ Took X (r.map Prod.fst) fs fs' := by
  induction l with
  | nil => exact ⟨rfl, h, .refl fs, .refl X fs⟩
  | cons off l ih =>
    obtain ⟨hoff, hl⟩ := List.forall_mem_cons.mp hl
    rw [lookupFrom]
    refine .step (readi_dirent h hv ht hoff) (.step (failIf_of_not _ (not_not.mpr rfl) fs) ?_)
    change Meets ((ite ((fs.dirent d off).inum = 0) _
      (ite (namecmp name (fs.dirent d off).name = 0) _ _) : M (Option (Nat × Nat))) fs) E _
    by_cases hz : (fs.dirent d off).inum = 0
    · rw [if_pos hz, List.find?_cons_of_neg (by simp [hz])]
      exact ih hl
    · rw [if_neg hz]
      by_cases hname : namecmp name (fs.dirent d off).name = 0
      · rw [if_pos hname, List.find?_cons_of_pos (by simp [hz, hname])]
        exact (iget_spec hE h).bind fun _ fs' hfs => ⟨rfl, hfs.1, hfs.2.1, hfs.2.2⟩
      · rw [if_neg hname, List.find?_cons_of_neg (by simp [hname])]
        exact ih hl

/-- The loop of `dirlink`. -/
theorem emptyFrom_eq (last : Nat) : emptyFrom d last l fs
    = .ok ((l.find? fun off => (fs.dirent d off).inum = 0).getD last, fs) := by
  induction l with
  | nil => rfl
  | cons off l ih =>
    obtain ⟨hoff, hl⟩ := List.forall_mem_cons.mp hl
    rw [emptyFrom, bind_of_ok (readi_dirent h hv ht hoff),
      bind_of_ok (failIf_of_not _ (not_not.mpr rfl) fs)]
    change (ite ((fs.dirent d off).inum = 0) _ _ : M Nat) fs = _
    by_cases hz : (fs.dirent d off).inum = 0
    · rw [if_pos hz, List.find?_cons_of_pos (by simp [hz])]
      rfl
    · rw [if_neg hz, List.find?_cons_of_neg (by simp [hz])]
      exact ih hl

/-- The loop of `isdirempty`. -/
theorem isdiremptyFrom_eq : isdiremptyFrom d l fs
    = .ok (l.all fun off => (fs.dirent d off).inum = 0, fs) := by
  induction l with
  | nil => rfl
  | cons off l ih =>
    obtain ⟨hoff, hl⟩ := List.forall_mem_cons.mp hl
    rw [isdiremptyFrom, bind_of_ok (readi_dirent h hv ht hoff),
      bind_of_ok (failIf_of_not _ (not_not.mpr rfl) fs)]
    change (ite ((fs.dirent d off).inum ≠ 0) _ _ : M Bool) fs = _
    by_cases hz : (fs.dirent d off).inum = 0
    · rw [if_neg (not_not.mpr hz), List.all_cons, ih hl]
      simp [hz]
    · rw [if_pos hz, List.all_cons]
      simp [hz]
      rfl

end

/-- **`dirlookup`** answers the first entry with the name. -/
theorem dirlookup_held (hE : E .iget ∨ fs.cached < NINODE) (h : Sound X fs)
    (hv : (fs.inode d).valid = true) (hdir : (fs.din d).type ≠ .dir → E .dirlookup) :
    Meets (dirlookup d name fs) E fun r fs' => (fs.din d).type = .dir ∧ r = fs.lookup d name
      ∧ Took X (r.map Prod.fst) fs fs' := by
  rw [dirlookup]
  refine .get ?_
  rw [h.mem_eq hv]
  split
  · exact hdir ‹_›
  · rename_i ht
    have ht := not_not.mp ht
    exact (lookupFrom_spec h hv ht (fun off => le_of_mem_offsets ((h.good d).aligned ht)) hE).imp
      fun _ _ hr => ⟨ht, hr⟩

theorem dirlookup_spec (hE : Tame E) (h : Sound X fs) (hv : (fs.inode d).valid = true) :
    Meets (dirlookup d name fs) E fun r fs' => (fs.din d).type = .dir ∧ r = fs.lookup d name
      ∧ Took X (r.map Prod.fst) fs fs' :=
  dirlookup_held (.inl (hE _ (by decide) (by decide))) h hv fun _ => hE _ (by decide) (by decide)

@[simp] theorem length_strncpy (t : List Nat) (n : Nat) : (strncpy t n).length = n := by
  induction n generalizing t with
  | zero => rfl
  | succ n ih => rw [strncpy, List.length_cons, ih]

theorem Dirent.length_bytes (e : Dirent) : e.bytes.length = DESIZE := by
  rw [Dirent.bytes, List.length_cons, List.length_cons, length_strncpy]
  rfl

/-- There is room for an entry at the first empty one. -/
theorem dvd_vacant (h : Sound X fs) (ht : (fs.din d).type = .dir) : DESIZE ∣ fs.vacant d := by
  rw [State.vacant]
  cases hf : (offsets (fs.din d).size).find? fun off => (fs.dirent d off).inum = 0 with
  | none => exact (h.good d).aligned ht
  | some off =>
    obtain ⟨k, -, rfl⟩ := List.mem_map.mp (List.mem_of_find?_eq_some hf)
    exact Nat.dvd_mul_right _ _

/-- **`dirlink`**: the name is there already, or an entry is written. -/
theorem dirlink_spec (hE : Tame E) (h : Sound X fs) (hv : (fs.inode d).valid = true) (hd : d ∈ X)
    (inum : Nat) : Meets (dirlink d name inum fs) E fun r fs' => (fs.din d).type = .dir
      ∧ (fs.lookup d name ≠ none ∧ r = -1 ∧ Took X none fs fs'
        ∨ fs.lookup d name = none ∧ r = 0 ∧ Sound X fs' ∧ Kept X fs fs'
          ∧ Wrote d fs fs' (fs.vacant d) (Dirent.bytes ⟨inum, name⟩)) := by
  rw [dirlink]
  refine (dirlookup_spec hE h hv).bind fun r fs₁ hr => ?_
  obtain ⟨ht, rfl, htook⟩ := hr
  cases hl : fs.lookup d name with
  | some p =>
    rw [hl] at htook
    refine (iput_back h htook.idle htook.sound fun _ => le_rfl).bind fun _ fs' hfs => ?_
    exact ⟨ht, .inl ⟨nofun, rfl, hfs.1, hfs.2.1, htook.kept.trans hfs.2.2⟩⟩
  | none =>
    rw [hl] at htook
    have h₁ : Sound X fs₁ := htook.sound
    have hv₁ := htook.kept d hd hv
    have ht₁ : (fs₁.din d).type = .dir := htook.idle.din ▸ ht
    have hdvd := (h₁.good d).aligned ht₁
    have hend : DESIZE * (((fs₁.mem d).size + 15) / DESIZE) = (fs₁.din d).size := by
      rw [h₁.mem_eq hv₁]
      obtain ⟨m, hm⟩ := hdvd
      rw [hm, DESIZE]
      omega
    have hvac : DESIZE ∣ fs₁.vacant d + (Dirent.bytes ⟨inum, name⟩).length := by
      rw [Dirent.length_bytes]
      exact Nat.dvd_add (dvd_vacant h₁ ht₁) (Nat.dvd_refl _)
    have hempty : emptyFrom d (DESIZE * (((fs₁.mem d).size + 15) / DESIZE)) (offsets (fs₁.mem d).size)
        fs₁ = .ok (fs₁.vacant d, fs₁) := by
      rw [hend, h₁.mem_eq hv₁]
      exact emptyFrom_eq h₁ hv₁ ht₁ (fun off => le_of_mem_offsets hdvd) _
    refine .get (.step hempty ?_)
    refine (writei_spec hE h₁ hv₁ (h₁.ref_pos hd) fun _ => hvac).bind fun r fs' hr => ?_
    rw [Dirent.length_bytes] at hr
    refine .check (fun _ => hE _ (by decide) (by decide)) fun hdone => ?_
    obtain rfl := not_not.mp hdone
    rcases hr with ⟨hr, -⟩ | ⟨-, ⟨hdev, -⟩ | ⟨-, hs, hk, hw⟩⟩
    · exact absurd hr (by decide)
    · exact absurd hdev (by rw [ht₁]; decide)
    · rw [htook.idle.alike.vacant] at hw
      exact ⟨ht, .inr ⟨rfl, rfl, hs, htook.kept.trans hk, hw.of_idle htook.idle⟩⟩

end Xv6.Fs

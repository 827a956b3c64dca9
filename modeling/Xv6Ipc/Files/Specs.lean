import Xv6Ipc.Files.Sound

/-!
# Files/Specs — what the functions of the inode layer do

One specification for each function, in the terms of `Sound`: the references it takes or gives up, and
the one inode it changes on disk, if any.  A reference taken is put at the head of the list, a
reference given up is taken from there.

    iget  : X      ─▸  i :: X          iput : i :: X  ─▸  X
-/

namespace Xv6.Fs

open Outcome Budget Function

variable {E : Panic → Prop} {X Y : List Nat} {fs fs' : State} {i j off n : Nat}

/-- Inode `i` has no block that it does not need. -/
def State.Tight (fs : State) (i : Nat) : Prop :=
  ∀ k, (fs.din i).size ≤ needed k → word fs.data (fs.din i) k = 0

/-- …and no inode has. -/
def State.Neat (fs : State) : Prop := ∀ i, fs.Tight i

/-- Inode `i` alone changes on disk. -/
structure Edit (i : Nat) (fs fs' : State) : Prop where
  din : ∀ j, j ≠ i → fs'.din j = fs.din j
  bytes : ∀ j, j ≠ i → fs'.bytes j = fs.bytes j
  neat : fs.Neat → fs'.Neat
  file : fs'.file = fs.file
  task : fs'.task = fs.task

/-- The others have the blocks they had. -/
theorem Sound.neat (h : Sound X fs) (hm : fs.heap.Moves (fs.refsOf i) fs'.heap (fs'.refsOf i))
    (hdin : ∀ j, j ≠ i → fs'.din j = fs.din j) (hi : fs.Tight i → fs'.Tight i) (hn : fs.Neat) :
    fs'.Neat := fun j => by
  by_cases hj : j = i
  · rw [hj]
    exact hi (hn i)
  · intro k hk
    rw [hdin j hj] at hk ⊢
    rw [word_of_same fun b hb => h.data_of_other hm hj hb]
    exact hn j k hk

/-! ## References -/

theorem count_cons_of_ne (hne : j ≠ i) : (i :: X).count j = X.count j :=
  List.count_cons_of_ne (Ne.symm hne)

/-- Inodes referred to are referenced. -/
theorem Sound.ref_pos (h : Sound X fs) (hi : i ∈ X) : 0 < (fs.inode i).ref := by
  have := (h.good i).acct
  have := List.count_pos_iff.mpr hi
  omega

theorem Sound.mem_eq (h : Sound X fs) (hv : (fs.inode i).valid = true) : fs.mem i = fs.din i :=
  ((h.good i).synced hv).1

theorem Sound.type_ne (h : Sound X fs) (hv : (fs.inode i).valid = true) : (fs.din i).type ≠ .none :=
  ((h.good i).synced hv).2

/-- Nothing but a cache entry that stays in memory. -/
theorem Kept.of_inode (hinode : ∀ j, j ≠ i → fs'.inode j = fs.inode j)
    (hi : i ∈ X → (fs.inode i).valid = true → (fs'.inode i).valid = true) : Kept X fs fs' := by
  intro j hj hv
  by_cases hji : j = i
  · subst hji
    exact hi hj hv
  · rw [hinode j hji]
    exact hv

/-- One more reference. -/
theorem Sound.dup (h : Sound X fs) :
    Sound (i :: X) (fs.setInode i { fs.inode i with ref := (fs.inode i).ref + 1 }) := by
  have hg := h.good i
  have hacct := hg.acct
  have hself : (fs.setInode i { fs.inode i with ref := (fs.inode i).ref + 1 }).inode i
      = { fs.inode i with ref := (fs.inode i).ref + 1 } := update_self _ _ _
  refine h.cache (i := i) ⟨rfl, rfl, rfl, rfl, rfl⟩ (fun j hj => update_of_ne hj _ _)
    (fun j hj => count_cons_of_ne hj) ?_ ?_ ?_
  · rw [State.mem, hself]
    exact hg.synced
  · rw [hself]
    exact fun ht hn => ⟨(hg.orphan ht hn).1, Nat.succ_pos _⟩
  · rw [hself, List.count_cons_self]
    exact (by omega : X.count i + 1 + fs.fileRefs.count i = (fs.inode i).ref + 1)

theorem Kept.dup : Kept X fs (fs.setInode i { fs.inode i with ref := (fs.inode i).ref + 1 }) :=
  .of_inode (i := i) (fun j hj => update_of_ne hj _ _) fun _ hv => by
    rw [State.setInode_inode, update_self]
    exact hv

namespace State.Counted

/-- One more inode is referenced, for which there may be a new entry. -/
theorem add (h : fs.Counted) (href : ∀ j, 0 < (fs'.inode j).ref ↔ j = i ∨ 0 < (fs.inode j).ref)
    (hc : fs'.cached ≤ fs.cached + if 0 < (fs.inode i).ref then 0 else 1) : fs'.Counted := by
  obtain ⟨s, hs, hle⟩ := h
  refine ⟨insert i s, fun j => ?_, ?_⟩
  · rw [Finset.mem_insert, hs, href]
  · have hcard := Finset.card_insert_eq_ite (a := i) (s := s)
    simp only [hs] at hcard
    split at hc <;> simp_all <;> omega

/-- The entry of an inode is given up with its last reference. -/
theorem drop (h : fs.Counted) : (fs.dropRef i).Counted := by
  obtain ⟨s, hs, hle⟩ := h
  have hother : ∀ j, j ≠ i → ((fs.dropRef i).inode j).ref = (fs.inode j).ref := fun j hj => by
    rw [State.dropRef_inode, update_of_ne hj]
  have hself : ((fs.dropRef i).inode i).ref = (fs.inode i).ref - 1 := by
    rw [State.dropRef_inode, update_self]
  by_cases hone : (fs.inode i).ref = 1
  · refine ⟨s.erase i, fun j => ?_, ?_⟩
    · by_cases hj : j = i
      · rw [hj, hself, hone]
        simp
      · rw [Finset.mem_erase, hs, hother j hj]
        exact and_iff_right hj
    · have hi : i ∈ s := (hs i).mpr (by omega)
      rw [Finset.card_erase_of_mem hi]
      change (if (fs.inode i).ref = 1 then fs.cached - 1 else fs.cached) ≤ _
      rw [if_pos hone]
      omega
  · refine ⟨s, fun j => ?_, ?_⟩
    · by_cases hj : j = i
      · rw [hj, hself, hs]
        omega
      · rw [hs, hother j hj]
    · change (if (fs.inode i).ref = 1 then fs.cached - 1 else fs.cached) ≤ _
      rw [if_neg hone]
      exact hle

theorem dup (h : fs.Counted) :
    (fs.setInode i { fs.inode i with ref := (fs.inode i).ref + 1 }).Counted := by
  refine h.add (i := i) (fun j => ?_) (Nat.le_add_right _ _)
  rw [State.setInode_inode, update_apply]
  split <;> simp_all

end State.Counted

/-- **`iget`** takes a reference, if there is an entry for it. -/
theorem iget_spec (hE : E .iget ∨ fs.cached < NINODE) (h : Sound X fs) : Meets (iget i fs) E fun _ fs' =>
    Sound (i :: X) fs' ∧ Idle fs fs' ∧ Kept X fs fs' := by
  have hg := h.good i
  have hacct := hg.acct
  rw [iget]
  refine .get ?_
  split
  · exact ⟨h.dup, ⟨⟨rfl, rfl, rfl, rfl, rfl⟩, rfl, fun hc => hc.dup⟩, .dup⟩
  · rename_i hzero
    split
    · have hself : ({ fs.setInode i { fs.inode i with ref := 1, valid := false } with
          cached := fs.cached + 1 } : State).inode i = { fs.inode i with ref := 1, valid := false } :=
        update_self _ _ _
      refine ⟨h.cache (i := i) ⟨rfl, rfl, rfl, rfl, rfl⟩ (fun j hj => update_of_ne hj _ _)
        (fun j hj => count_cons_of_ne hj) ?_ ?_ ?_, ⟨⟨rfl, rfl, rfl, rfl, rfl⟩, rfl, fun hc => ?_⟩,
        .of_inode (i := i) (fun j hj => update_of_ne hj _ _) fun hX _ => ?_⟩
      · rw [hself]
        exact nofun
      · exact fun ht hn => absurd (hg.orphan ht hn).2 hzero
      · rw [hself, List.count_cons_self]
        exact (by omega : X.count i + 1 + fs.fileRefs.count i = 1)
      · refine hc.add (i := i) (fun j => ?_) (by rw [if_neg hzero])
        change 0 < (update fs.inode i _ j).ref ↔ _
        rw [update_apply]
        split <;> simp_all
      · exact absurd (h.ref_pos hX) hzero
    · rename_i hfull
      exact hE.resolve_right hfull

/-- **`idup`** takes another. -/
theorem idup_spec (h : Sound X fs) : Meets (idup i fs) E fun _ fs' =>
    Sound (i :: X) fs' ∧ Idle fs fs' ∧ Kept X fs fs' :=
  ⟨h.dup, ⟨⟨rfl, rfl, rfl, rfl, rfl⟩, rfl, fun hc => hc.dup⟩, .dup⟩

/-- **`ilock`** brings an inode to memory, unless it is free. -/
theorem ilock_held (href : (fs.inode i).ref < 1 → E .ilock)
    (htype : (fs.din i).type = .none → E .ilockType) (h : Sound X fs) :
    Meets (ilock i fs) E fun _ fs' => Sound X fs' ∧ Idle fs fs' ∧ Kept X fs fs'
      ∧ (fs'.inode i).valid = true := by
  have hg := h.good i
  rw [ilock]
  refine .get ?_
  split
  · exact href ‹_›
  · rename_i href
    split
    · exact ⟨h, .refl fs, .refl X fs, ‹_›⟩
    · split
      · exact htype ‹_›
      · rename_i ht
        have hself : (fs.setInode i { fs.inode i with valid := true, din := fs.din i }).inode i
            = { fs.inode i with valid := true, din := fs.din i } := update_self _ _ _
        refine ⟨h.cache (i := i) ⟨rfl, rfl, rfl, rfl, rfl⟩ (fun j hj => update_of_ne hj _ _)
          (fun _ _ => rfl) ?_ ?_ ?_, ⟨⟨rfl, rfl, rfl, rfl, rfl⟩, rfl, fun ⟨s, hs, hc⟩ =>
            ⟨s, fun j => ?_, hc⟩⟩,
          .of_inode (i := i) (fun j hj => update_of_ne hj _ _) fun _ _ => ?_, ?_⟩
        · rw [State.mem, hself]
          exact fun _ => ⟨rfl, ht⟩
        · rw [hself]
          exact fun _ _ => ⟨rfl, Nat.not_lt.mp href⟩
        · rw [hself]
          exact hg.acct
        · rw [hs, State.setInode_inode, update_apply]
          split <;> simp_all
        · rw [hself]
        · rw [hself]

theorem ilock_spec (hE : Tame E) (htype : (fs.din i).type = .none → E .ilockType) (h : Sound X fs) :
    Meets (ilock i fs) E fun _ fs' => Sound X fs' ∧ Idle fs fs' ∧ Kept X fs fs'
      ∧ (fs'.inode i).valid = true := ilock_held (fun _ => hE _ (by decide) (by decide)) htype h

theorem mem_fileRefs {f : Nat} (h : Sound X fs) (hf : (fs.file f).ip = some i) : i ∈ fs.fileRefs :=
  List.mem_filterMap.mpr ⟨f, List.mem_range.mpr ((h.good i).files f hf).1, hf⟩

theorem Sound.ref_pos_of_file {f : Nat} (h : Sound X fs) (hf : (fs.file f).ip = some i) :
    0 < (fs.inode i).ref := by
  rw [← (h.good i).acct]
  exact Nat.add_pos_right _ (List.count_pos_iff.mpr (mem_fileRefs h hf))

/-- Inode `i` is freed: it had no links, and the reference given up was the only one. -/
structure Freed (i : Nat) (fs fs' : State) : Prop extends Edit i fs fs' where
  nlink : (fs.din i).nlink = 0
  ref : (fs.inode i).ref = 1
  type : (fs.din i).type ≠ .none
  freed : (fs'.din i).type = .none
  nlink' : (fs'.din i).nlink = 0
  logs : Spends {IBLOCK i, bmapstart} 0 fs.logged fs'.logged

/-- One reference less. -/
theorem Sound.drop (h : Sound (i :: X) fs)
    (hlive : ¬ ((fs.inode i).valid = true ∧ (fs.mem i).nlink = 0 ∧ (fs.inode i).ref = 1)) :
    Sound X (fs.dropRef i) := by
  have hg := h.good i
  have hacct := hg.acct
  rw [List.count_cons_self] at hacct
  have hself : (fs.dropRef i).inode i = { fs.inode i with ref := (fs.inode i).ref - 1 } := by
    rw [State.dropRef_inode, update_self]
  refine h.cache (i := i) ⟨rfl, rfl, rfl, rfl, rfl⟩ (fun j hj => update_of_ne hj _ _)
    (fun j hj => (count_cons_of_ne hj).symm) ?_ (fun ht hn => ?_) ?_
  · rw [State.mem, hself]
    exact hg.synced
  · obtain ⟨hv, hpos⟩ := hg.orphan ht hn
    rw [hself]
    refine ⟨hv, Nat.sub_pos_of_lt (lt_of_le_of_ne hpos fun hone => hlive ⟨hv, ?_, hone.symm⟩)⟩
    rw [h.mem_eq hv]
    exact hn
  · rw [hself]
    exact (by omega : X.count i + fs.fileRefs.count i = (fs.inode i).ref - 1)

/-- The inode that `iput` leaves when it frees one. -/
theorem Sound.free (h : Sound (i :: X) fs) (hv : (fs.inode i).valid = true)
    (href : (fs.inode i).ref = 1) {d : Dinode} (hd : d.type = .none) (hsize : d.size = 0)
    (haddrs : ∀ k ≤ NDIRECT, d.addrs k = 0) (hnlink : d.nlink = (fs.din i).nlink)
    (hm : fs.heap.Moves (fs.refsOf i) fs'.heap []) (hdin : fs'.din = update fs.din i d)
    (hinode : fs'.inode = update fs.inode i ⟨0, false, d⟩) (hfile : fs'.file = fs.file) :
    Sound X fs' := by
  have hg := h.good i
  have hacct := hg.acct
  rw [List.count_cons_self, href] at hacct
  have hself : fs'.din i = d := by rw [hdin, update_self]
  have hiself : fs'.inode i = ⟨0, false, d⟩ := by rw [hinode, update_self]
  have hrefs : fs'.refsOf i = [] := by
    rw [State.refsOf, hself]
    exact refs_eq_nil haddrs
  refine h.change (hg.area (h.type_ne hv)) (hrefs ▸ hm)
    (fun j hj => by rw [hdin, update_of_ne hj])
    (fun j hj => by rw [hinode, update_of_ne hj]) hfile (fun j hj => (count_cons_of_ne hj).symm)
    ⟨?_, ?_, ?_, ?_, ?_, ?_, ?_, ?_, fun f hf => ?_⟩
  · rw [hself, hsize]
    exact fun o ho => absurd ho (Nat.not_lt_zero o)
  · rw [hself]
    exact fun _ => ⟨hsize, haddrs⟩
  · rw [hself]
    exact (absurd hd ·)
  · rw [hself, hd]
    rintro ⟨⟩
  · rw [hself, hnlink]
    exact hg.short
  · rw [hiself]
    rintro ⟨⟩
  · rw [hself]
    exact (absurd hd ·)
  · have hrefs : fs'.fileRefs = fs.fileRefs := by rw [State.fileRefs, State.fileRefs, hfile]
    rw [hiself, hrefs]
    exact (by omega : X.count i + fs.fileRefs.count i = 0)
  · rw [hfile] at hf
    have hmem := List.count_pos_iff.mpr (mem_fileRefs h hf)
    omega

/-- The part of `iput` that frees the inode. -/
theorem release_spec (ho : Owned fs (refs fs.data (fs.mem i))) :
    Meets ((do
      itrunc i
      modify fun fs => fs.setMem i { fs.mem i with type := .none }
      iupdate i
      modify fun fs => fs.setInode i { fs.inode i with valid := false } : M Unit) fs) E fun _ fs' =>
        ∃ d, d.type = .none ∧ d.size = 0 ∧ (∀ k ≤ NDIRECT, d.addrs k = 0)
          ∧ d.nlink = (fs.mem i).nlink ∧ fs.heap.Moves (refs fs.data (fs.mem i)) fs'.heap []
          ∧ fs'.din = update fs.din i d
          ∧ fs'.inode = update fs.inode i ⟨(fs.inode i).ref, false, d⟩
          ∧ fs'.file = fs.file ∧ fs'.task = fs.task
          ∧ Spends {IBLOCK i, bmapstart} 0 fs.logged fs'.logged := by
  refine (itrunc_spec ho).bind fun _ fs₁ h => ?_
  obtain ⟨a, ha, hm, hmem, hw, hlog⟩ := h
  refine .modify ⟨{ fs.mem i with type := .none, size := 0, addrs := a }, rfl, rfl, ha, rfl, hm, ?_, ?_,
    hw.file, hw.task, hlog.trans (.of_mem (t := [IBLOCK i]) (by simp))⟩
  · change update fs₁.din i ((fs₁.setMem i { fs₁.mem i with type := .none }).mem i) = _
    rw [State.setMem_mem, hw.din, hmem, update_idem]
  · change update (update fs₁.inode i _) i
      { update fs₁.inode i { fs₁.inode i with din := { fs₁.mem i with type := .none } } i with
        valid := false } = _
    rw [update_self, update_idem, hw.inode, update_self, update_idem,
      hmem]

/-- **`iput`** gives up a reference, and frees an inode without links when it was the last. -/
theorem iput_spec (h : Sound (i :: X) fs) : Meets (iput i fs) E fun _ fs' =>
    Sound X fs' ∧ Kept X fs fs' ∧ (Idle fs fs' ∨ Freed i fs fs' ∧ i ∉ X) := by
  have hg := h.good i
  rw [iput]
  refine .get ?_
  by_cases hlast : (fs.inode i).valid = true ∧ (fs.mem i).nlink = 0 ∧ (fs.inode i).ref = 1
  · rw [whenever, if_pos hlast]
    obtain ⟨hv, hnlink, href⟩ := hlast
    have hmem := h.mem_eq hv
    have ho : Owned fs (refs fs.data (fs.mem i)) := by
      rw [hmem]
      exact h.owned i
    refine (release_spec ho).bind fun _ fs₁ h₁ => ?_
    obtain ⟨d, hd, hsize, haddrs, hn, hm, hdin, hinode, hfile, htask, hlog⟩ := h₁
    rw [hmem] at hm hn hnlink
    have hX : i ∉ X := fun hX => by
      have hacct := hg.acct
      have := List.count_pos_iff.mpr hX
      rw [List.count_cons_self, href] at hacct
      omega
    have hinode' : (fs₁.dropRef i).inode = update fs.inode i ⟨0, false, d⟩ := by
      rw [State.dropRef_inode, hinode, update_self, update_idem, href]
    have hself : (fs₁.dropRef i).din i = d := (congrFun hdin i).trans (update_self _ _ _)
    have hrefs : (fs₁.dropRef i).refsOf i = [] := by
      rw [State.refsOf, hself]
      exact refs_eq_nil haddrs
    have hother : ∀ j, j ≠ i → (fs₁.dropRef i).din j = fs.din j := fun j hj =>
      (congrFun hdin j).trans (update_of_ne hj _ _)
    refine ⟨h.free hv href hd hsize haddrs hn hm hdin hinode' hfile,
      .of_inode (i := i) (fun j hj => ?_) fun hi => absurd hi hX, .inr ⟨⟨⟨hother, fun j hj => ?_,
        h.neat (hrefs ▸ hm) hother fun _ _ _ => ?_, hfile, htask⟩, hnlink, href, h.type_ne hv, ?_, ?_,
        hlog⟩, hX⟩⟩
    · rw [hinode', update_of_ne hj]
    · exact h.bytes_of_other (hrefs ▸ hm) hj (hother j hj)
    · rw [hself]
      exact word_eq_zero haddrs _
    · rw [hself]
      exact hd
    · rw [hself, hn]
      exact hnlink
  · rw [whenever, if_neg hlast]
    refine ⟨h.drop hlast, .of_inode (i := i) (fun j hj => update_of_ne hj _ _) fun _ hv => ?_,
      .inl ⟨⟨rfl, rfl, rfl, rfl, rfl⟩, rfl, fun hc => hc.drop⟩⟩
    rw [State.dropRef_inode, update_self]
    exact hv

/-- An inode without links is referred to by somebody. -/
theorem Sound.mem_of_orphan (h : Sound X fs) (ht : (fs.din i).type ≠ .none)
    (hn : (fs.din i).nlink = 0) : 0 < X.count i + fs.fileRefs.count i := by
  rw [(h.good i).acct]
  exact ((h.good i).orphan ht hn).2

/-- The reference given up is not the last, or there are links: nothing is freed. -/
theorem iput_idle (h : Sound (i :: X) fs) (hheld : (fs.din i).type ≠ .none → (fs.din i).nlink = 0 →
    0 < X.count i + fs.fileRefs.count i) : Meets (iput i fs) E fun _ fs' =>
      Sound X fs' ∧ Kept X fs fs' ∧ Idle fs fs' := by
  refine (iput_spec h).imp fun _ fs' hfs => ?_
  obtain ⟨hs, hk, hi | ⟨hf, -⟩⟩ := hfs
  · exact ⟨hs, hk, hi⟩
  · have hpos := hheld hf.type hf.nlink
    have hacct := (h.good i).acct
    rw [List.count_cons_self, hf.ref] at hacct
    omega

/-- **A reference taken and given back** frees nothing: an inode without links has another. -/
theorem iput_back {fs₁ : State} (h₀ : Sound X fs) (hidle : Idle fs fs₁) (h : Sound (i :: Y) fs₁)
    (hXY : ∀ j, X.count j ≤ Y.count j) : Meets (iput i fs₁) E fun _ fs' =>
      Sound Y fs' ∧ Idle fs fs' ∧ Kept Y fs₁ fs' := by
  refine (iput_idle h fun ht hn => ?_).imp fun _ fs' hfs => ⟨hfs.1, hidle.trans hfs.2.2, hfs.2.1⟩
  rw [hidle.din] at ht hn
  rw [hidle.fileRefs]
  have := h₀.mem_of_orphan ht hn
  have := hXY i
  omega

/-! ## Inodes written -/

/-- An inode changed in memory and written back. -/
def State.put (fs : State) (i : Nat) (d : Dinode) : State :=
  { fs.setMem i d with din := update fs.din i d }.logWrite (IBLOCK i)

theorem put_inode (fs : State) (i : Nat) (d : Dinode) :
    (fs.put i d).inode i = { fs.inode i with din := d } := update_self _ _ _

theorem put_din (fs : State) (i : Nat) (d : Dinode) : (fs.put i d).din i = d :=
  update_self _ _ _

/-- Fields other than the size and the blocks of an inode in memory are changed. -/
theorem Sound.put (h : Sound X fs) (hv : (fs.inode i).valid = true) (hi : i ∈ X) {d : Dinode}
    (htype : d.type = (fs.din i).type) (hsize : d.size = (fs.din i).size)
    (haddrs : d.addrs = (fs.din i).addrs) (hshort : i16 d.nlink = d.nlink) :
    Sound X (fs.put i d) ∧ Kept X fs (fs.put i d) ∧ Edit i fs (fs.put i d)
      ∧ (fs.put i d).bytes i = fs.bytes i := by
  have hg := h.good i
  have hother : ∀ j, j ≠ i → (fs.put i d).din j = fs.din j := fun j hj => update_of_ne hj _ _
  have hiother : ∀ j, j ≠ i → (fs.put i d).inode j = fs.inode j :=
    fun j hj => update_of_ne hj _ _
  have hword : word fs.data d = word fs.data (fs.din i) := word_of_addrs haddrs
  have hm : fs.heap.Moves (fs.refsOf i) (fs.put i d).heap ((fs.put i d).refsOf i) := by
    rw [State.refsOf, State.refsOf, put_din]
    exact (Heap.Moves.refl _ _).congr (.refl _) (.of_eq (refs_congr hword).symm)
  refine ⟨h.change (hg.area (h.type_ne hv)) hm hother hiother rfl (fun _ _ => rfl)
    ⟨?_, ?_, ?_, ?_, ?_, ?_, ?_, ?_, ?_⟩, .of_inode hiother fun _ _ => ?_,
    ⟨hother, fun j hj => h.bytes_of_other hm hj (hother j hj), h.neat hm hother fun ht k hk => ?_,
      rfl, rfl⟩, ?_⟩
  · rw [put_din, hsize]
    exact fun o ho => (congrFun (slot_congr hword) _).trans_ne (hg.dense o ho)
  · rw [put_din, htype, hsize, haddrs]
    exact hg.freed
  · rw [put_din, htype]
    exact hg.area
  · rw [put_din, htype, hsize]
    exact hg.aligned
  · rw [put_din]
    exact hshort
  · rw [State.mem, put_inode, put_din, htype]
    exact fun _ => ⟨rfl, h.type_ne hv⟩
  · rw [put_inode]
    exact fun _ _ => ⟨hv, h.ref_pos hi⟩
  · rw [put_inode]
    exact hg.acct
  · rw [put_din, htype]
    exact hg.files
  · rw [put_inode]
    exact hv
  · rw [put_din] at hk ⊢
    exact (congrFun hword k).trans (ht k (hsize ▸ hk))
  · rw [State.bytes, State.bytes, put_din]
    exact contents_congr hword

theorem i16_i16 (n : Int) : i16 (i16 n) = i16 n := by
  rw [i16, i16]
  omega

/-- Inode `i` has another link count. -/
structure Relink (i : Nat) (n : Int) (fs fs' : State) : Prop where
  used : fs'.used = fs.used
  din : fs'.din = update fs.din i { fs.din i with nlink := i16 n }
  data : fs'.data = fs.data
  file : fs'.file = fs.file
  task : fs'.task = fs.task
  logs : Spends {IBLOCK i} 0 fs.logged fs'.logged

/-- **A new link count.** -/
theorem setNlink_spec (h : Sound X fs) (hv : (fs.inode i).valid = true) (hi : i ∈ X) (n : Int) :
    Meets (setNlink i n fs) E fun _ fs' => Sound X fs' ∧ Kept X fs fs' ∧ Relink i n fs fs' := by
  have hfs : setNlink i n fs = .ok ((), fs.put i { fs.mem i with nlink := i16 n }) := by
    change Except.ok ((), ({ fs.setMem i _ with
      din := update fs.din i ((fs.setMem i _).mem i) } : State).logWrite (IBLOCK i)) = _
    rw [State.setMem_mem, State.put]
  rw [hfs, h.mem_eq hv]
  have hput := h.put hv hi (d := { fs.din i with nlink := i16 n }) rfl rfl rfl (i16_i16 n)
  exact ⟨hput.1, hput.2.1, rfl, rfl, rfl, rfl, rfl, .of_mem (t := [IBLOCK i]) (by simp)⟩

/-- `ialloc` takes a free inode, which is not in memory. -/
theorem ialloc_spec (hE : Tame E) (h : Sound X fs) (type : Kind) : Meets (ialloc type fs) E fun i fs' =>
    (fs.din i).type = .none ∧ 1 ≤ i ∧ i < NINODES
      ∧ fs'.din = update fs.din i { Dinode.zero with type := type }
      ∧ fs'.inode = update fs.inode i
        { fs.inode i with ref := (fs.inode i).ref + 1, valid := false }
      ∧ fs'.used = fs.used ∧ fs'.data = fs.data ∧ fs'.file = fs.file ∧ fs'.task = fs.task
      ∧ fs'.logged = IBLOCK i :: fs.logged := by
  rw [ialloc]
  refine .get ?_
  cases hf : (List.range' 1 (NINODES - 1)).find? fun i => (fs.din i).type = .none with
  | none => exact hE _ (by decide) (by decide)
  | some i =>
    have hfree : (fs.din i).type = .none := by simpa using List.find?_some hf
    obtain ⟨hle, hlt⟩ := List.mem_range'_1.mp (List.mem_of_find?_eq_some hf)
    have hinvalid : (fs.inode i).valid = false := by
      cases hv : (fs.inode i).valid with
      | false => rfl
      | true => exact absurd hfree (h.type_ne hv)
    refine .set ?_
    refine Meets.bind (Q := fun _ fs' =>
      fs'.din = update fs.din i { Dinode.zero with type := type }
      ∧ fs'.inode = update fs.inode i
        { fs.inode i with ref := (fs.inode i).ref + 1, valid := false }
      ∧ fs'.used = fs.used ∧ fs'.data = fs.data ∧ fs'.file = fs.file ∧ fs'.task = fs.task
      ∧ fs'.logged = IBLOCK i :: fs.logged) ?_
      fun _ fs' hfs => ⟨hfree, hle, by omega, hfs⟩
    rw [iget]
    refine .get ?_
    split
    · refine ⟨rfl, ?_, rfl, rfl, rfl, rfl, rfl⟩
      rw [State.setInode_inode, State.logWrite_inode, ← hinvalid]
    · split
      · rename_i hzero _
        have hzero : (fs.inode i).ref = 0 := Nat.eq_zero_of_not_pos hzero
        refine ⟨rfl, ?_, rfl, rfl, rfl, rfl, rfl⟩
        rw [hzero]
        rfl
      · exact hE _ (by decide) (by decide)

/-- A free inode is given a type and a link. -/
theorem Sound.alloc (h : Sound X fs) (hfree : (fs.din i).type = .none) (hlt : i < ninums) {d : Dinode}
    (ht : d.type ≠ .none) (hsize : d.size = 0) (haddrs : d.addrs = fun _ => 0) (hnlink : d.nlink = 1)
    (hdin : fs'.din = update fs.din i d)
    (hinode : fs'.inode = update fs.inode i ⟨(fs.inode i).ref + 1, true, d⟩)
    (hused : fs'.used = fs.used) (hdata : fs'.data = fs.data) (hfile : fs'.file = fs.file)
    (htask : fs'.task = fs.task) : Sound (i :: X) fs' ∧ Kept X fs fs' ∧ Edit i fs fs' := by
  have hg := h.good i
  have hself : fs'.din i = d := by rw [hdin, update_self]
  have hiself : fs'.inode i = ⟨(fs.inode i).ref + 1, true, d⟩ := by rw [hinode, update_self]
  have hother : ∀ j, j ≠ i → fs'.din j = fs.din j := fun j hj => by
    rw [hdin, update_of_ne hj]
  have hiother : ∀ j, j ≠ i → fs'.inode j = fs.inode j := fun j hj => by
    rw [hinode, update_of_ne hj]
  have hfiles : fs'.fileRefs = fs.fileRefs := by rw [State.fileRefs, State.fileRefs, hfile]
  have hm : fs.heap.Moves (fs.refsOf i) fs'.heap (fs'.refsOf i) := by
    have hheap : fs'.heap = fs.heap := by rw [State.heap, State.heap, State.free, State.free, hused, hdata]
    rw [State.refsOf, State.refsOf, hself, refs_eq_nil (hg.freed hfree).2,
      refs_eq_nil (fun k _ => by rw [haddrs]), hheap]
    exact .refl _ _
  refine ⟨h.change hlt hm hother hiother hfile (fun j hj => count_cons_of_ne hj)
    ⟨?_, ?_, fun _ => hlt, ?_, ?_, ?_, ?_, ?_, fun f hf => ?_⟩, .of_inode hiother fun _ _ => ?_,
    ⟨hother, fun j hj => h.bytes_of_other hm hj (hother j hj), h.neat hm hother fun _ _ _ => ?_, hfile,
      htask⟩⟩
  · rw [hself, hsize]
    exact fun o ho => absurd ho (Nat.not_lt_zero o)
  · rw [hself]
    exact fun hnone => absurd hnone ht
  · rw [hself, hsize]
    exact fun _ => Nat.dvd_zero _
  · rw [hself, hnlink]
    decide
  · rw [State.mem, hiself, hself]
    exact fun _ => ⟨rfl, ht⟩
  · rw [hself, hnlink]
    exact fun _ hz => absurd hz (by decide)
  · have hacct := hg.acct
    rw [hiself, hfiles, List.count_cons_self]
    exact (by omega : X.count i + 1 + fs.fileRefs.count i = (fs.inode i).ref + 1)
  · rw [hfile] at hf
    exact absurd hfree (hg.files f hf).2.2.1
  · rw [hiself]
  · rw [hself]
    exact word_eq_zero (fun k _ => by rw [haddrs]) _

/-- A new inode, as `create` fills it in. -/
def Dinode.fresh (type : Kind) (major minor : Int) : Dinode :=
  { Dinode.zero with type := type, major := major, minor := minor, nlink := 1 }

/-- **A new inode**, with one link and a reference. -/
theorem newInode_spec (hE : Tame E) (h : Sound X fs) {type : Kind} (ht : type ≠ .none)
    (major minor : Int) : Meets (newInode type major minor fs) E fun i fs' =>
      Sound (i :: X) fs' ∧ Kept X fs fs' ∧ (fs'.inode i).valid = true ∧ Edit i fs fs'
        ∧ (fs.din i).type = .none ∧ 1 ≤ i ∧ i < NINODES ∧ fs'.din i = .fresh type major minor
        ∧ Spends {IBLOCK i} 0 fs.logged fs'.logged := by
  rw [newInode]
  refine (ialloc_spec hE h type).bind fun i fs₁ h₁ => ?_
  obtain ⟨hfree, hpos, hlt, hdin, hinode, hused, hdata, hfile, htask, hlog⟩ := h₁
  have hself₁ : fs₁.inode i = { fs.inode i with ref := (fs.inode i).ref + 1, valid := false } := by
    rw [hinode, update_self]
  have hdself₁ : fs₁.din i = { Dinode.zero with type := type } := by
    rw [hdin, update_self]
  -- `ilock` finds it on disk
  obtain ⟨fs₂, h₂⟩ : ∃ fs₂, fs₂ = fs₁.setInode i { fs₁.inode i with valid := true, din := fs₁.din i } :=
    ⟨_, rfl⟩
  have hlock : ilock i fs₁ = .ok ((), fs₂) := by
    change (if (fs₁.inode i).ref < 1 then throw .ilock
      else if (fs₁.inode i).valid then return ()
      else if (fs₁.din i).type = .none then throw .ilockType
      else set (fs₁.setInode i { fs₁.inode i with valid := true, din := fs₁.din i }) : M Unit) fs₁ = _
    rw [if_neg (by rw [hself₁]; exact Nat.not_lt.mpr (Nat.le_add_left _ _)),
      if_neg (by rw [hself₁]; exact nofun), if_neg (by rw [hdself₁]; exact ht), h₂]
    rfl
  have hself₂ : fs₂.inode i = ⟨(fs.inode i).ref + 1, true, { Dinode.zero with type := type }⟩ := by
    rw [h₂, State.setInode_inode, update_self, hself₁, hdself₁]
  -- the rest writes it, in memory and on disk
  obtain ⟨fs₃, h₃⟩ : ∃ fs₃, fs₃ = fs₂.put i (.fresh type major minor) := ⟨_, rfl⟩
  have hput : (do
      modify fun fs => fs.setMem i { fs.mem i with major := major, minor := minor, nlink := 1 }
      iupdate i
      return i : M Nat) fs₂ = .ok (i, fs₃) := by
    change Except.ok (i, ({ fs₂.setMem i { fs₂.mem i with
        major := major, minor := minor, nlink := 1 } with
      din := update fs₂.din i ((fs₂.setMem i _).mem i) } : State).logWrite (IBLOCK i)) = _
    rw [State.setMem_mem, State.mem, hself₂, h₃]
    rfl
  have hdin' : fs₃.din = update fs.din i (.fresh type major minor) := by
    rw [h₃, h₂]
    exact (congrArg (update · i _) hdin).trans (update_idem ..)
  have hinode' : fs₃.inode = update fs.inode i ⟨(fs.inode i).ref + 1, true, .fresh type major minor⟩ := by
    rw [h₃]
    change update fs₂.inode i { fs₂.inode i with din := .fresh type major minor } = _
    rw [hself₂, h₂, State.setInode_inode, update_idem, hinode, update_idem]
  have hlog₃ : fs₃.logged = [IBLOCK i, IBLOCK i] ++ fs.logged := by
    rw [h₃, h₂]
    exact congrArg (IBLOCK i :: ·) hlog
  have halloc : Sound (i :: X) fs₃ ∧ Kept X fs fs₃ ∧ Edit i fs fs₃ :=
    h.alloc hfree (hlt.trans (by decide)) ht rfl rfl rfl hdin' hinode' (by rw [h₃, h₂]; exact hused)
      (by rw [h₃, h₂]; exact hdata) (by rw [h₃, h₂]; exact hfile) (by rw [h₃, h₂]; exact htask)
  refine .step hlock ?_
  rw [hput]
  refine ⟨halloc.1, halloc.2.1, ?_, halloc.2.2, hfree, hpos, hlt, ?_, ?_⟩
  · rw [hinode', update_self]
  · rw [hdin', update_self]
  · rw [hlog₃]
    exact .of_mem (by simp)

end Xv6.Fs

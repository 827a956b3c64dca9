import Xv6Ipc.Files.Blocks
import Xv6Ipc.Files.Calls

/-!
# Files/Sound — the invariant of the inode layer

Every block is free, metadata, or referred to by one word of one inode:

    free ++ [0 … nmeta) ++ refs of all inodes  ~  [0 … FSSIZE)

and every inode is in order by itself: its blocks cover its size, a free one has none, the copy in
memory is the inode on disk, and an inode without links is in memory and referenced, so that the last
`iput` frees it.  The reference count of an inode is the number of references there are: those of open
files, and those of `X`, which are current directories and what a call holds while it runs.

An operation on inode `i` has to look after `i` alone (`Sound.change`).
-/

namespace Xv6.Fs

open Outcome

/-! ## The invariant -/

namespace State

/-- The blocks inode `i` refers to. -/
def refsOf (fs : State) (i : Nat) : List Nat := refs fs.data (fs.din i)

/-- The contents of inode `i`. -/
def bytes (fs : State) (i : Nat) : Nat → Nat := contents fs.data (fs.din i)

/-- The blocks all inodes refer to. -/
def allRefs (fs : State) : List Nat := (List.range ninums).flatMap fs.refsOf

/-- The references of the open files. -/
def fileRefs (fs : State) : List Nat := (List.range NFILE).filterMap fun f => (fs.file f).ip

end State

/-- **Inode `i` is in order.** -/
structure Good (X : List Nat) (fs : State) (i : Nat) : Prop where
  dense : ∀ o, o < (fs.din i).size → slot fs.data (fs.din i) (o / BSIZE) ≠ 0
  freed : (fs.din i).type = .none → (fs.din i).size = 0 ∧ ∀ k ≤ NDIRECT, (fs.din i).addrs k = 0
  area : (fs.din i).type ≠ .none → i < ninums
  aligned : (fs.din i).type = .dir → DESIZE ∣ (fs.din i).size
  short : i16 (fs.din i).nlink = (fs.din i).nlink
  synced : (fs.inode i).valid = true → fs.mem i = fs.din i ∧ (fs.din i).type ≠ .none
  orphan : (fs.din i).type ≠ .none → (fs.din i).nlink = 0 →
    (fs.inode i).valid = true ∧ 0 < (fs.inode i).ref
  acct : X.count i + fs.fileRefs.count i = (fs.inode i).ref
  files : ∀ f, (fs.file f).ip = some i → f < NFILE ∧ 0 < (fs.file f).ref ∧ (fs.din i).type ≠ .none
    ∧ ((fs.file f).writable = true → (fs.din i).type ≠ .dir)

/-- **The state is in order**, with the references `X`. -/
structure Sound (X : List Nat) (fs : State) : Prop where
  own : (fs.free ++ (List.range nmeta ++ fs.allRefs)).Perm (List.range FSSIZE)
  good : ∀ i, Good X fs i

variable {E : Panic → Prop} {X Y : List Nat} {fs fs' : State} {i j b : Nat}

/-- Nothing but the inode cache and the log has changed. -/
structure Same (fs fs' : State) : Prop where
  used : fs'.used = fs.used
  din : fs'.din = fs.din
  data : fs'.data = fs.data
  file : fs'.file = fs.file
  task : fs'.task = fs.task

namespace Same

theorem trans {fs₁ : State} (h : Same fs fs₁) (h' : Same fs₁ fs') : Same fs fs' :=
  ⟨h'.used.trans h.used, h'.din.trans h.din, h'.data.trans h.data, h'.file.trans h.file,
    h'.task.trans h.task⟩

theorem bytes (h : Same fs fs') : fs'.bytes = fs.bytes := by
  funext i
  rw [State.bytes, State.bytes, h.data, h.din]

theorem free (h : Same fs fs') : fs'.free = fs.free := by rw [State.free, State.free, h.used]

theorem allRefs (h : Same fs fs') : fs'.allRefs = fs.allRefs := by
  have hrefs : fs'.refsOf = fs.refsOf := by
    funext i
    rw [State.refsOf, State.refsOf, h.data, h.din]
  rw [State.allRefs, State.allRefs, hrefs]

theorem fileRefs (h : Same fs fs') : fs'.fileRefs = fs.fileRefs := by
  rw [State.fileRefs, State.fileRefs, h.file]

end Same

/-- The entries of the cache that are in use are no more than the inodes that are referenced. -/
def State.Counted (fs : State) : Prop :=
  ∃ s : Finset Nat, (∀ i, i ∈ s ↔ 0 < (fs.inode i).ref) ∧ fs.cached ≤ s.card

/-- Nothing but the inode cache has changed. -/
structure Idle (fs fs' : State) : Prop extends Same fs fs' where
  logged : fs'.logged = fs.logged
  counted : fs.Counted → fs'.Counted

theorem Idle.refl (fs : State) : Idle fs fs := ⟨⟨rfl, rfl, rfl, rfl, rfl⟩, rfl, id⟩

theorem Idle.trans {fs₁ : State} (h : Idle fs fs₁) (h' : Idle fs₁ fs') : Idle fs fs' :=
  ⟨h.toSame.trans h'.toSame, h'.logged.trans h.logged, h'.counted ∘ h.counted⟩

/-- The inodes of `X` that are in memory stay there. -/
def Kept (X : List Nat) (fs fs' : State) : Prop :=
  ∀ i ∈ X, (fs.inode i).valid = true → (fs'.inode i).valid = true

theorem Kept.refl (X : List Nat) (fs : State) : Kept X fs fs := fun _ _ => id

theorem Kept.trans {fs₁ : State} (h : Kept X fs fs₁) (h' : Kept X fs₁ fs') : Kept X fs fs' :=
  fun i hi hv => h' i hi (h i hi hv)

theorem Kept.mono (h : Kept X fs fs') (hY : ∀ i ∈ Y, i ∈ X) : Kept Y fs fs' :=
  fun i hi => h i (hY i hi)

/-- An inode nothing has happened to is in order still. -/
theorem Good.congr (h : Good X fs i) (hdin : fs'.din i = fs.din i)
    (hslot : slot fs'.data (fs.din i) = slot fs.data (fs.din i)) (hinode : fs'.inode i = fs.inode i)
    (hfile : fs'.file = fs.file) (hX : Y.count i = X.count i) : Good Y fs' i where
  dense := by
    rw [hdin, hslot]
    exact h.dense
  freed := by
    rw [hdin]
    exact h.freed
  area := by
    rw [hdin]
    exact h.area
  aligned := by
    rw [hdin]
    exact h.aligned
  short := by
    rw [hdin]
    exact h.short
  synced := by
    rw [State.mem, hinode, hdin]
    exact h.synced
  orphan := by
    rw [hinode, hdin]
    exact h.orphan
  acct := by
    have := h.acct
    rw [hinode, State.fileRefs, hfile]
    rw [State.fileRefs] at this
    omega
  files := by
    rw [hfile, hdin]
    exact h.files

namespace Sound

/-- The order of the references does not matter. -/
theorem perm (h : Sound X fs) (hp : X.Perm Y) : Sound Y fs :=
  ⟨h.own, fun i => (h.good i).congr rfl rfl rfl rfl (hp.count_eq i).symm⟩

theorem nodup (h : Sound X fs) : (fs.free ++ (List.range nmeta ++ fs.allRefs)).Nodup :=
  h.own.nodup_iff.mpr List.nodup_range

/-- An inode with blocks is one of the inodes. -/
theorem lt_of_mem (h : Sound X fs) (hb : b ∈ fs.refsOf i) : i < ninums := by
  refine (h.good i).area fun hnone => ?_
  rw [State.refsOf, refs_eq_nil ((h.good i).freed hnone).2] at hb
  exact absurd hb List.not_mem_nil

theorem mem_allRefs (h : Sound X fs) (hb : b ∈ fs.refsOf i) : b ∈ fs.allRefs :=
  List.mem_flatMap.mpr ⟨i, List.mem_range.mpr (h.lt_of_mem hb), hb⟩

/-- Blocks belong to one inode. -/
theorem refs_unique (h : Sound X fs) (hb : b ∈ fs.refsOf i) (hb' : b ∈ fs.refsOf j) : i = j :=
  Ledger.eq_of_flatMap_nodup (List.nodup_append.mp (List.nodup_append.mp h.nodup).2.1).2.1
    (List.mem_range.mpr (h.lt_of_mem hb)) (List.mem_range.mpr (h.lt_of_mem hb')) hb hb'

theorem not_free (h : Sound X fs) (hb : b ∈ fs.refsOf i) : b ∉ fs.free := fun hf =>
  List.disjoint_of_nodup_append h.nodup hf (List.mem_append_right _ (h.mem_allRefs hb))

/-- **What an inode refers to is held.** -/
theorem owned (h : Sound X fs) (i : Nat) : Owned fs (fs.refsOf i) where
  nodup := by
    refine List.nodup_append.mpr ⟨nodup_free fs, ?_, fun a ha b hb he => h.not_free hb (he ▸ ha)⟩
    by_cases hi : i < ninums
    · have hall := (List.nodup_append.mp (List.nodup_append.mp h.nodup).2.1).2.1
      exact (List.nodup_flatMap.mp hall).1 i (List.mem_range.mpr hi)
    · have hnil : fs.refsOf i = [] :=
        List.eq_nil_iff_forall_not_mem.mpr fun b hb => hi (h.lt_of_mem hb)
      rw [hnil]
      exact List.nodup_nil
  lt b hb := by
    refine List.mem_range.mp (h.own.mem_iff.mp ?_)
    exact List.mem_append_right _ (List.mem_append_right _ (h.mem_allRefs hb))
  zero hz := by
    refine List.disjoint_of_nodup_append h.nodup hz (List.mem_append_left _ (List.mem_range.mpr ?_))
    rw [nmeta]
    omega
  ne := zero_notMem_refs

/-! ### One inode changes -/

/-- The blocks of the others keep their bytes. -/
theorem data_of_other (h : Sound X fs) (hm : fs.heap.Moves (fs.refsOf i) fs'.heap (fs'.refsOf i))
    (hne : j ≠ i) (hb : b ∈ fs.refsOf j) : fs'.data b = fs.data b :=
  hm.frame b (h.not_free hb) fun hi => hne (h.refs_unique hb hi)

/-- …so that they are as they were. -/
theorem bytes_of_other (h : Sound X fs) (hm : fs.heap.Moves (fs.refsOf i) fs'.heap (fs'.refsOf i))
    (hne : j ≠ i) (hdin : fs'.din j = fs.din j) : fs'.bytes j = fs.bytes j := by
  rw [State.bytes, State.bytes, hdin]
  exact contents_of_same fun b hb => h.data_of_other hm hne hb

/-- **Only inode `i` changes**, and it is in order afterwards. -/
theorem change (h : Sound X fs) (hi : i < ninums)
    (hm : fs.heap.Moves (fs.refsOf i) fs'.heap (fs'.refsOf i))
    (hdin : ∀ j, j ≠ i → fs'.din j = fs.din j) (hinode : ∀ j, j ≠ i → fs'.inode j = fs.inode j)
    (hfile : fs'.file = fs.file) (hX : ∀ j, j ≠ i → Y.count j = X.count j) (hgood : Good Y fs' i) :
    Sound Y fs' where
  own := by
    have hother : ∀ j ∈ List.range ninums, j ≠ i → fs'.refsOf j = fs.refsOf j := fun j _ hne => by
      rw [State.refsOf, hdin j hne]
      exact refs_congr (word_of_same fun b hb => h.data_of_other hm hne hb)
    have hall := Ledger.flatMap_perm_update List.nodup_range (List.mem_range.mpr hi) hother
    exact (Ledger.perm_trade hall hm.perm).trans h.own
  good j := by
    by_cases hj : j = i
    · rw [hj]
      exact hgood
    · have hslot : slot fs'.data (fs.din j) = slot fs.data (fs.din j) :=
        slot_congr (word_of_same fun b hb => h.data_of_other hm hj hb)
      exact (h.good j).congr (hdin j hj) hslot (hinode j hj) hfile (hX j hj)

/-- **Only the cache entry of inode `i` changes.** -/
theorem cache (h : Sound X fs) (hsame : Same fs fs') (hinode : ∀ j, j ≠ i → fs'.inode j = fs.inode j)
    (hX : ∀ j, j ≠ i → Y.count j = X.count j)
    (hsync : (fs'.inode i).valid = true → fs'.mem i = fs.din i ∧ (fs.din i).type ≠ .none)
    (horphan : (fs.din i).type ≠ .none → (fs.din i).nlink = 0 →
      (fs'.inode i).valid = true ∧ 0 < (fs'.inode i).ref)
    (hacct : Y.count i + fs.fileRefs.count i = (fs'.inode i).ref) : Sound Y fs' where
  own := by
    rw [hsame.free, hsame.allRefs]
    exact h.own
  good j := by
    by_cases hj : j = i
    · subst hj
      have hg := h.good j
      refine ⟨?_, ?_, ?_, ?_, ?_, ?_, ?_, ?_, ?_⟩
      · rw [hsame.din, hsame.data]
        exact hg.dense
      · rw [hsame.din]
        exact hg.freed
      · rw [hsame.din]
        exact hg.area
      · rw [hsame.din]
        exact hg.aligned
      · rw [hsame.din]
        exact hg.short
      · rw [hsame.din]
        exact hsync
      · rw [hsame.din]
        exact horphan
      · rw [hsame.fileRefs]
        exact hacct
      · rw [hsame.din, hsame.file]
        exact hg.files
    · exact (h.good j).congr (by rw [hsame.din]) (by rw [hsame.data]) (hinode j hj) hsame.file (hX j hj)

end Sound

end Xv6.Fs

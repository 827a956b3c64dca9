import Xv6Ipc.Files.Inode
import Xv6Ipc.Machinery.Budget
import Mathlib.Order.Interval.Finset.Nat

/-!
# Files/Blocks — blocks given out and taken back

The bitmap is the free list of a heap whose cells are the data blocks.  `balloc` and `bfree` move one
block; `bmap`, the loop of `writei` and `itrunc` move blocks between the free list and one inode:

    free ++ refs  ~  free' ++ refs'

and what they do to the inode's bytes is `overwrite`, with `bmap` writing none.

What goes to the log is the bitmap, over and over, and a block or two for each block of the file that is
written: the block itself, and the indirect block if it has to be given a word.
-/

namespace Xv6.Fs

open Outcome Budget Function

/-- The blocks whose bit is clear. -/
def State.free (fs : State) : List Nat :=
  (List.range FSSIZE).filterMap fun b => if fs.used b then none else some b

/-- The data blocks as a heap. -/
def State.heap (fs : State) : Heap Nat Block := ⟨fs.data, fs.free⟩

/-- The panics that every specification allows. -/
def Tame (E : Panic → Prop) : Prop := ∀ e, e ≠ .bfree → e ≠ .ilockType → E e

/-- **The blocks of `B` are held**: they are blocks of the image, different from each other and from
the free ones, which do not include block zero. -/
structure Owned (fs : State) (B : List Nat) : Prop where
  nodup : (fs.free ++ B).Nodup
  lt : ∀ b ∈ B, b < FSSIZE
  zero : 0 ∉ fs.free
  ne : 0 ∉ B

variable {E : Panic → Prop} {fs fs' fs₁ : State} {i b bn k off : Nat} {B B' : List Nat}
  {W : Finset Nat}

theorem mem_free : b ∈ fs.free ↔ b < FSSIZE ∧ fs.used b = false := by
  simp only [State.free, List.mem_filterMap, List.mem_range]
  constructor
  · rintro ⟨b', hb', he⟩
    cases hu : fs.used b' <;> simp_all
  · rintro ⟨hb, hu⟩
    exact ⟨b, hb, by simp [hu]⟩

theorem nodup_free (fs : State) : fs.free.Nodup := by
  rw [State.free]
  refine List.Nodup.filterMap (fun a a' b hb hb' => ?_) List.nodup_range
  cases hu : fs.used a <;> cases hu' : fs.used a' <;> simp_all

namespace Owned

theorem moves (h : Owned fs B) (m : fs.heap.Moves B fs'.heap B') (hne : 0 ∉ B') : Owned fs' B' where
  nodup := m.nodup h.nodup
  lt b hb := (m.mem_iff.mp (.inr hb)).elim (fun hf => (mem_free.mp hf).1) (h.lt b)
  zero hz := (m.mem_iff.mp (.inl hz)).elim h.zero h.ne
  ne := hne

theorem congr (h : Owned fs B) (hp : B.Perm B') : Owned fs B' where
  nodup := (hp.append_left _).nodup_iff.mp h.nodup
  lt b hb := h.lt b (hp.mem_iff.mpr hb)
  zero := h.zero
  ne hz := h.ne (hp.mem_iff.mpr hz)

/-- Held blocks are marked. -/
theorem used (h : Owned fs B) (hb : b ∈ B) : fs.used b = true := by
  by_contra hu
  have hfree : b ∈ fs.free := mem_free.mpr ⟨h.lt b hb, by simpa using hu⟩
  exact List.disjoint_of_nodup_append h.nodup hfree hb

/-- Free blocks are not held. -/
theorem not_mem (h : Owned fs B) (hb : b ∈ fs.free) : b ∉ B :=
  fun hB => List.disjoint_of_nodup_append h.nodup hb hB

theorem nodup_right (h : Owned fs B) : B.Nodup := (List.nodup_append.mp h.nodup).2.1

end Owned

/-! ## One block -/

/-- **`balloc`** takes a free block and clears it. -/
theorem balloc_spec (hE : E .balloc ∨ fs.free ≠ []) : Meets (balloc fs) E fun b fs' =>
    b ∈ fs.free ∧ fs.heap.Moves [] fs'.heap [b]
      ∧ fs' = { fs with used := update fs.used b true
                        data := update fs.data b zeroes
                        logged := b :: bmapstart :: fs.logged } := by
  rw [balloc]
  refine .get ?_
  cases hb : (List.range FSSIZE).find? fun b => !fs.used b with
  | none =>
    refine hE.resolve_right (not_not.mpr (List.eq_nil_iff_forall_not_mem.mpr fun b hfree => ?_))
    obtain ⟨hlt, hu⟩ := mem_free.mp hfree
    have := List.find?_eq_none.mp hb b (List.mem_range.mpr hlt)
    simp [hu] at this
  | some b =>
    have hlt := List.mem_range.mp (List.mem_of_find?_eq_some hb)
    have hfree : fs.used b = false := by simpa using List.find?_some hb
    rw [← BBLOCK_eq hlt]
    refine ⟨mem_free.mpr ⟨hlt, hfree⟩, ⟨?_, fun g hg _ => ?_⟩, rfl⟩
    · rw [List.append_nil]
      refine List.Perm.trans ?_ (List.perm_append_singleton b _).symm
      refine Ledger.filterMap_perm_cons List.nodup_range (List.mem_range.mpr hlt) ?_ ?_ fun x _ hx => ?_
      · simp
      · simp [hfree]
      · simp [update_of_ne hx]
    · refine update_of_ne ?_ _ _
      rintro rfl
      exact hg (mem_free.mpr ⟨hlt, hfree⟩)

/-- **`bfree`** gives a held block back. -/
theorem bfree_spec (h : Owned fs (b :: B)) : Meets (bfree b fs) E fun _ fs' =>
    fs.heap.Moves (b :: B) fs'.heap B ∧ fs' = { fs with used := update fs.used b false
                                                        logged := bmapstart :: fs.logged } := by
  have hb := List.mem_cons_self (a := b) (l := B)
  rw [bfree]
  refine .get ?_
  rw [if_pos (h.used hb), ← BBLOCK_eq (h.lt b hb)]
  refine ⟨⟨?_, fun _ _ _ => rfl⟩, rfl⟩
  have hfree : ({ fs with used := update fs.used b false } : State).free.Perm (b :: fs.free) := by
    refine Ledger.filterMap_perm_cons List.nodup_range (List.mem_range.mpr (h.lt b hb)) ?_ ?_
      fun x _ hx => ?_
    · simp [h.used hb]
    · simp
    · simp [update_of_ne hx]
  exact List.perm_middle.trans (hfree.symm.append_right B)

/-! ## One inode -/

/-- Only the blocks and the copy of inode `i` in memory have changed. -/
structure Within (i : Nat) (fs fs' : State) : Prop where
  din : fs'.din = fs.din
  cached : fs'.cached = fs.cached
  file : fs'.file = fs.file
  task : fs'.task = fs.task
  inode : fs'.inode = update fs.inode i { fs.inode i with din := fs'.mem i }

namespace Within

theorem refl (i : Nat) (fs : State) : Within i fs fs := by
  refine ⟨rfl, rfl, rfl, rfl, ?_⟩
  exact (update_eq_self i fs.inode).symm

theorem trans (h : Within i fs fs₁) (h' : Within i fs₁ fs') : Within i fs fs' := by
  refine ⟨h'.din.trans h.din, h'.cached.trans h.cached, h'.file.trans h.file, h'.task.trans h.task, ?_⟩
  rw [h'.inode, h.inode, update_self, update_idem]

theorem blocks (i : Nat) (fs : State) (used : Nat → Bool) (data : Nat → Block) (logged : List Nat) :
    Within i fs { fs with used := used, data := data, logged := logged } :=
  ⟨rfl, rfl, rfl, rfl, (update_eq_self i fs.inode).symm⟩

theorem setMem (i : Nat) (fs : State) (d : Dinode) : Within i fs (fs.setMem i d) := by
  refine ⟨rfl, rfl, rfl, rfl, ?_⟩
  rw [State.setMem_mem, State.setMem_inode]

end Within

/-- The words of `W` that do not name a block of inode `i`. -/
def State.lacking (fs : State) (i : Nat) (W : Finset Nat) : Finset Nat :=
  W.filter fun k => word fs.data (fs.mem i) k = 0

/-- There are free blocks for the words of `W`. -/
def State.Enough (fs : State) (i : Nat) (W : Finset Nat) : Prop :=
  (fs.lacking i W).card ≤ fs.free.length

/-- A word to be given a block has one to be given. -/
theorem State.Enough.free_ne (h : fs.Enough i W) (hk : k ∈ W) (h₀ : word fs.data (fs.mem i) k = 0) :
    fs.free ≠ [] := fun hnil => by
  have hmem : k ∈ fs.lacking i W := Finset.mem_filter.mpr ⟨hk, h₀⟩
  have hpos := Finset.card_pos.mpr ⟨k, hmem⟩
  rw [State.Enough, hnil] at h
  exact absurd h (Nat.not_le.mpr hpos)

/-- **Inode `i` grows and is written**: blocks move from the free list to the words of `W`, blocks it
has stay, and `bs` is written at `off`. -/
structure Grows (i : Nat) (W : Finset Nat) (fs fs' : State) (off : Nat) (bs : List Nat) : Prop where
  within : Within i fs fs'
  node : fs'.mem i = { fs.mem i with addrs := (fs'.mem i).addrs }
  moves : fs.heap.Moves (refs fs.data (fs.mem i)) fs'.heap (refs fs'.data (fs'.mem i))
  slots : ∀ bn, slot fs.data (fs.mem i) bn ≠ 0 → slot fs'.data (fs'.mem i) bn ≠ 0
  others : ∀ k, k ∉ W → word fs'.data (fs'.mem i) k = word fs.data (fs.mem i) k
  enough : fs.Enough i W → fs'.Enough i W
  contents : contents fs'.data (fs'.mem i) = overwrite (contents fs.data (fs.mem i)) off bs

namespace Grows

theorem refl (i : Nat) (W : Finset Nat) (fs : State) (off : Nat) : Grows i W fs fs off [] :=
  ⟨.refl i fs, rfl, .refl _ _, fun _ => id, fun _ _ => rfl, id, (overwrite_nil _ _).symm⟩

theorem trans {as bs : List Nat} (h : Grows i W fs fs₁ off as)
    (h' : Grows i W fs₁ fs' (off + as.length) bs) : Grows i W fs fs' off (as ++ bs) where
  within := h.within.trans h'.within
  node := by rw [h'.node, h.node]
  moves := h.moves.trans h'.moves
  slots bn hbn := h'.slots bn (h.slots bn hbn)
  others k hk := (h'.others k hk).trans (h.others k hk)
  enough hn := h'.enough (h.enough hn)
  contents := by rw [h'.contents, h.contents, overwrite_overwrite]

theorem owned {bs : List Nat} (h : Grows i W fs fs' off bs) (ho : Owned fs (refs fs.data (fs.mem i))) :
    Owned fs' (refs fs'.data (fs'.mem i)) := ho.moves h.moves zero_notMem_refs

end Grows

/-- A block granted to a word of the inode. -/
theorem grows_of_grant (hk : k ∈ W) (hw : Within i fs fs')
    (hnode : fs'.mem i = { fs.mem i with addrs := (fs'.mem i).addrs })
    (hg : Grant fs.data (fs.mem i) fs'.data (fs'.mem i) k b)
    (hm : fs.heap.Moves (refs fs.data (fs.mem i)) fs'.heap (b :: refs fs.data (fs.mem i))) :
    Grows i W fs fs' off [] where
  within := hw
  node := hnode
  others x hx := (hg.word x).trans (if_neg (fun he : x = k => hx (he ▸ hk)))
  enough hn := by
    have hlack : fs'.lacking i W = (fs.lacking i W).erase k := by
      ext x
      by_cases hx : x = k <;> simp [State.lacking, hg.word, hx, hg.ne]
    have hlen := hm.perm.length_eq
    simp only [List.length_append, List.length_cons] at hlen
    have hmem : k ∈ fs.lacking i W := Finset.mem_filter.mpr ⟨hk, hg.empty⟩
    change fs.free.length + _ = fs'.free.length + _ at hlen
    rw [State.Enough, hlack, Finset.card_erase_of_mem hmem]
    rw [State.Enough] at hn
    omega
  moves := hm.congr (.refl _) hg.refs.symm
  slots bn hbn := by
    rw [hg.slot]
    split
    · exact hg.ne
    · exact hbn
  contents := by rw [hg.contents, overwrite_nil]

/-- A word of `addrs`, allocated if necessary. -/
theorem addrOf_spec (hE : E .balloc ∨ fs.Enough i W) (hW : k ∈ W)
    (ho : Owned fs (refs fs.data (fs.mem i))) (hk : k ≤ NDIRECT) (off : Nat) :
    Meets (addrOf i k fs) E fun b fs' =>
      Grows i W fs fs' off [] ∧ (fs'.mem i).addrs k = b ∧ b ≠ 0
        ∧ Spends {b, bmapstart} 0 fs.logged fs'.logged := by
  rw [addrOf]
  refine .get ?_
  split
  · rename_i h₀
    have hE := hE.imp_right fun hn => hn.free_ne hW ((word_of_le hk).trans h₀)
    refine (balloc_spec hE).bind fun b fs₁ hb => ?_
    obtain ⟨hfree, hm, rfl⟩ := hb
    have hb₀ : b ≠ 0 := fun he => ho.zero (he ▸ hfree)
    have hg := grant_addr hk h₀ (ho.not_mem hfree) hb₀
    rw [← State.setMem_mem ({ fs with used := update fs.used b true } : State) i
      ((fs.mem i).setAddr k b)] at hg
    refine .modify (.pure ⟨grows_of_grant hW ((Within.blocks i fs _ _ _).trans (.setMem i _ _)) ?_ hg
      ?_, ?_, hb₀, .of_mem (t := [b, bmapstart]) (by simp)⟩)
    · rw [State.setMem_mem]
      rfl
    · exact hm.extend _
    · rw [State.setMem_mem, Dinode.setAddr_addrs, update_self]
  · rename_i h₀
    exact ⟨.refl i W fs off, rfl, h₀, .refl _ _ _⟩

/-- A word of the indirect block, allocated if necessary. -/
theorem wordOf_spec {j : Nat} (hE : E .balloc ∨ fs.Enough i W) (hW : NDIRECT + 1 + j ∈ W)
    (ho : Owned fs (refs fs.data (fs.mem i))) (hi : (fs.mem i).addrs NDIRECT ≠ 0)
    (hj : j < NINDIRECT) (off : Nat) :
    Meets (wordOf ((fs.mem i).addrs NDIRECT) j fs) E fun b fs' =>
      Grows i W fs fs' off [] ∧ word fs'.data (fs'.mem i) (NDIRECT + 1 + j) = b ∧ b ≠ 0
        ∧ Spends {(fs.mem i).addrs NDIRECT, b, bmapstart} 0 fs.logged fs'.logged := by
  have hword : word fs.data (fs.mem i) (NDIRECT + 1 + j)
      = wordAt (fs.data ((fs.mem i).addrs NDIRECT)) j := by
    rw [word, if_neg (by omega), if_pos ⟨hi, by rw [nwords]; omega⟩, Nat.add_sub_cancel_left]
  rw [wordOf]
  refine .get ?_
  split
  · rename_i h₀
    have hE := hE.imp_right fun hn => hn.free_ne hW (hword.trans h₀)
    refine (balloc_spec hE).bind fun b fs₁ hb => ?_
    obtain ⟨hfree, hm, rfl⟩ := hb
    have hb₀ : b ≠ 0 := fun he => ho.zero (he ▸ hfree)
    have hlt : b < 0x100000000 := by
      have := (mem_free.mp hfree).1
      rw [FSSIZE_eq] at this
      omega
    have hind : (fs.mem i).addrs NDIRECT ∈ refs fs.data (fs.mem i) := addr_mem_refs le_rfl hi
    have hg := grant_indirect hj hi h₀ ho.nodup_right (ho.not_mem hfree) hb₀ hlt rfl
    have hm' := hm.extend (refs fs.data (fs.mem i))
    refine .modify (.pure ⟨grows_of_grant hW (.blocks i fs _ _ _) rfl hg ?_, ?_, hb₀,
      .of_mem (t := [(fs.mem i).addrs NDIRECT, b, bmapstart]) (by simp)⟩)
    · exact hm'.trans (Heap.moves_write _ (List.mem_cons_of_mem _ hind) _)
    · exact (hg.word _).trans (if_pos rfl)
  · rename_i h₀
    exact ⟨.refl i W fs off, hword, h₀, .refl _ _ _⟩

/-- **`bmap`** of a block that is there changes nothing. -/
theorem bmap_of_slot (h : slot fs.data (fs.mem i) bn ≠ 0) :
    bmap i bn fs = .ok (slot fs.data (fs.mem i) bn, fs) := by
  have haddr : ∀ k, (fs.mem i).addrs k ≠ 0 → addrOf i k fs = .ok ((fs.mem i).addrs k, fs) :=
    fun k hk => congrFun (if_neg hk) fs
  rw [bmap]
  by_cases hbn : bn < NDIRECT
  · rw [if_pos hbn]
    rw [slot_of_lt hbn] at h ⊢
    exact haddr bn h
  · obtain ⟨hi, hj, hs⟩ := slot_of_le hbn h
    rw [if_neg hbn, if_pos hj]
    change (do let p ← addrOf i NDIRECT fs; wordOf p.1 (bn - NDIRECT) p.2) = _
    rw [haddr _ hi]
    rw [hs] at h ⊢
    exact congrFun (if_neg h) fs

/-- **`bmap`** finds or allocates the `bn`-th block. -/
theorem bmap_spec (hE : E .balloc ∨ fs.Enough i W) (hmax : MAXFILE ≤ bn → E .bmap)
    (hW : place bn ∈ W ∧ (NDIRECT ≤ bn → NDIRECT ∈ W)) (ho : Owned fs (refs fs.data (fs.mem i)))
    (off : Nat) : Meets (bmap i bn fs) E fun b fs' =>
      Grows i W fs fs' off [] ∧ slot fs'.data (fs'.mem i) bn = b ∧ b ≠ 0
        ∧ (slot fs.data (fs.mem i) bn ≠ 0 → fs' = fs)
        ∧ ∃ ind, Spends {ind, b, bmapstart} 0 fs.logged fs'.logged := by
  by_cases hs : slot fs.data (fs.mem i) bn ≠ 0
  · rw [bmap_of_slot hs]
    exact ⟨.refl i W fs off, rfl, hs, fun _ => rfl, 0, .refl _ _ _⟩
  obtain ⟨hW, hind⟩ := hW
  rw [bmap]
  split
  · rename_i hbn
    rw [place, if_pos hbn] at hW
    refine (addrOf_spec hE hW ho hbn.le off).imp fun b fs' h => ?_
    obtain ⟨hg, haddr, hb, hlog⟩ := h
    refine ⟨hg, ?_, hb, (absurd · hs), 0, hlog.mono (Finset.subset_insert _ _) le_rfl⟩
    rw [slot, place, if_pos hbn, word_of_le hbn.le]
    exact haddr
  · split
    · rename_i hbn hj
      have hplace : place bn = NDIRECT + 1 + (bn - NDIRECT) := by
        rw [place, if_neg hbn]
        omega
      refine (addrOf_spec hE (hind (Nat.not_lt.mp hbn)) ho le_rfl off).bind fun ind fs₁ h => ?_
      obtain ⟨hg, rfl, hi, hlog⟩ := h
      refine (wordOf_spec (hE.imp_right hg.enough) (hplace ▸ hW) (hg.owned ho) hi hj off).imp
        fun b fs' h' => ?_
      obtain ⟨hg', hword, hb, hlog'⟩ := h'
      refine ⟨hg.trans hg', ?_, hb, (absurd · hs), _, (hlog.mono ?_ le_rfl).trans hlog'⟩
      · rw [slot, hplace]
        exact hword
      · exact Finset.insert_subset_insert _ (Finset.subset_insert _ _)
    · rename_i hbn hj
      refine hmax ?_
      rw [MAXFILE]
      omega

/-! ## The loop of `writei` -/

/-- The bytes of a block of the inode are written. -/
theorem grows_setData (ho : Owned fs (refs fs.data (fs.mem i))) {bs : List Nat}
    (hs : slot fs.data (fs.mem i) (off / BSIZE) ≠ 0) (hbs : off % BSIZE + bs.length ≤ BSIZE) :
    Grows i W fs ((fs.setData (slot fs.data (fs.mem i) (off / BSIZE))
      (overwrite (fs.data (slot fs.data (fs.mem i) (off / BSIZE))) (off % BSIZE) bs)).logWrite
        (slot fs.data (fs.mem i) (off / BSIZE))) off bs := by
  have hmem := slot_mem_refs hs
  have hne := slot_ne_indirect ho.nodup_right hs
  have hword : word (update fs.data (slot fs.data (fs.mem i) (off / BSIZE))
      (overwrite (fs.data (slot fs.data (fs.mem i) (off / BSIZE))) (off % BSIZE) bs)) (fs.mem i)
      = word fs.data (fs.mem i) := word_congr fun _ => update_of_ne hne.symm _ _
  refine ⟨.blocks i fs _ _ _, rfl, ?_, fun bn hbn => ?_, fun k _ => congrFun hword k, fun hn => ?_, ?_⟩
  · refine Heap.Moves.congr (Heap.moves_write fs.heap hmem _) (.refl _) ?_
    exact (congrArg (List.Perm _) (refs_congr hword)).mpr (.refl _)
  · exact (congrFun (slot_congr hword) bn).trans_ne hbn
  · refine (Nat.le_of_eq (congrArg Finset.card (Finset.filter_congr fun k _ => ?_))).trans hn
    exact iff_of_eq (congrArg (· = 0) (congrFun hword k))
  · refine (contents_overwrite ho.nodup_right hs hbs).trans ?_
    rw [Nat.div_add_mod']

/-- The inode has the blocks for the bytes from `off` on. -/
def Covers (fs : State) (i off n : Nat) : Prop :=
  ∀ o, off ≤ o → o < off + n → slot fs.data (fs.mem i) (o / BSIZE) ≠ 0

/-- **Bytes written to inode `i`**, with the blocks they are in.  Where the inode has them already, it
stays as it is. -/
structure Written (i : Nat) (W : Finset Nat) (fs fs' : State) (off : Nat) (bs : List Nat) : Prop
    extends Grows i W fs fs' off bs where
  full : Covers fs' i off bs.length
  still : Covers fs i off bs.length → fs'.mem i = fs.mem i

theorem Written.nil (i : Nat) (W : Finset Nat) (fs : State) (off : Nat) : Written i W fs fs off [] :=
  ⟨.refl i W fs off, fun _ h h' => absurd h (Nat.not_le_of_lt h'), fun _ => rfl⟩

/-- What is written in one block, and then the rest. -/
theorem Written.cons {as bs : List Nat} (hlen : off % BSIZE + as.length ≤ BSIZE)
    (h : Grows i W fs fs₁ off as) (hs : slot fs₁.data (fs₁.mem i) (off / BSIZE) ≠ 0)
    (hsame : slot fs.data (fs.mem i) (off / BSIZE) ≠ 0 → fs₁.mem i = fs.mem i) (hpos : as ≠ [])
    (h' : Written i W fs₁ fs' (off + as.length) bs) : Written i W fs fs' off (as ++ bs) := by
  have hlen' : 0 < as.length := List.length_pos_iff.mpr hpos
  refine ⟨h.trans h'.toGrows, fun o ho ho' => ?_, fun hc => ?_⟩
  · by_cases hin : o < off + as.length
    · have hblock : o / BSIZE = off / BSIZE := by
        have := Nat.div_add_mod' off BSIZE
        refine Nat.div_eq_of_lt_le (by omega) ?_
        rw [Nat.succ_mul]
        omega
      rw [hblock]
      exact h'.slots _ hs
    · rw [List.length_append] at ho'
      exact h'.full o (by omega) (by omega)
  · rw [List.length_append] at hc
    rw [h'.still fun o ho ho' => h.slots _ (hc o (by omega) (by omega))]
    exact hsame (hc off le_rfl (by omega))

/-- The number of blocks that `n` bytes from `off` on are in. -/
def spans (off n : Nat) : Nat := if n = 0 then 0 else (off + n - 1) / BSIZE - off / BSIZE + 1

/-- The bytes that fit in the first of them, and then the rest. -/
theorem spans_step {n m : Nat} (hn : 0 < n) (hm : m = min n (BSIZE - off % BSIZE)) :
    1 + spans (off + m) (n - m) ≤ spans off n := by
  rw [spans, spans, if_neg (Nat.ne_of_gt hn)]
  split
  · omega
  · rw [BSIZE] at *
    omega

/-- The words that bytes of a file need: those of their blocks, and that of the indirect block. -/
def words (off n : Nat) : Finset Nat :=
  ((Finset.Ico off (off + n)).image fun o => place (o / BSIZE))
    ∪ if NDIRECT * BSIZE < off + n then {NDIRECT} else ∅

theorem words_head {n : Nat} (hn : 0 < n) (hW : words off n ⊆ W) :
    place (off / BSIZE) ∈ W ∧ (NDIRECT ≤ off / BSIZE → NDIRECT ∈ W) := by
  refine ⟨hW (Finset.mem_union_left _ (Finset.mem_image.mpr ⟨off, ?_, rfl⟩)), fun hle =>
    hW (Finset.mem_union_right _ ?_)⟩
  · rw [Finset.mem_Ico]
    omega
  · have := (Nat.le_div_iff_mul_le (by decide : 0 < BSIZE)).mp hle
    rw [if_pos (by omega)]
    exact Finset.mem_singleton_self _

theorem words_subset {off' n n' : Nat} (hoff : off ≤ off') (hend : off' + n' = off + n) :
    words off' n' ⊆ words off n := by
  rw [words, words, hend]
  exact Finset.union_subset_union_left (Finset.image_subset_image (Finset.Ico_subset_Ico_left hoff))

/-- The offset from which on a file needs word `k`. -/
def needed (k : Nat) : Nat := (if k ≤ NDIRECT then k else k - 1) * BSIZE

theorem needed_place (bn : Nat) : needed (place bn) = bn * BSIZE := by
  rw [needed, place]
  congr 1
  split_ifs <;> omega

/-- A file that ends there does not need it. -/
theorem not_mem_words {n k : Nat} (h : off + n ≤ needed k) : k ∉ words off n := by
  rw [words, Finset.mem_union, Finset.mem_image]
  rintro (⟨o, ho, rfl⟩ | hind)
  · have hdiv := Nat.div_mul_le_self o BSIZE
    rw [needed_place] at h
    have := Finset.mem_Ico.mp ho
    omega
  · split at hind
    · rw [Finset.mem_singleton.mp hind] at h
      exact absurd h (Nat.not_le.mpr ‹_›)
    · exact absurd hind (Finset.notMem_empty _)

theorem lt_of_block_le {n : Nat} (hn : 0 < n) (hbn : MAXFILE ≤ off / BSIZE) :
    MAXFILE * BSIZE < off + n := by
  have := (Nat.le_div_iff_mul_le (by decide : 0 < BSIZE)).mp hbn
  omega

/-- **The loop of `writei`** writes all bytes. -/
theorem writeLoop_spec (hE : E .balloc ∨ fs.Enough i W) {fuel : Nat} {src : List Nat}
    (hmax : MAXFILE * BSIZE < off + src.length → E .bmap) (hW : words off src.length ⊆ W)
    (hfuel : src.length ≤ fuel) (ho : Owned fs (refs fs.data (fs.mem i))) :
    Meets (writeLoop i fuel off src fs) E fun off' fs' =>
      off' = off + src.length ∧ Written i W fs fs' off src
        ∧ Spends {bmapstart} (2 * spans off src.length) fs.logged fs'.logged := by
  induction fuel generalizing off src fs with
  | zero =>
    obtain rfl : src = [] := List.length_eq_zero_iff.mp (by omega)
    exact ⟨rfl, .nil i W fs off, .refl _ _ _⟩
  | succ fuel ih =>
    rw [writeLoop]
    split
    · rename_i hsrc
      subst hsrc
      exact ⟨rfl, .nil i W fs off, .refl _ _ _⟩
    · rename_i hsrc
      have hpos : 0 < src.length := List.length_pos_iff.mpr hsrc
      refine (bmap_spec hE (fun hbn => hmax (lt_of_block_le hpos hbn)) (words_head hpos hW) ho off).bind
        fun b fs₁ hb => ?_
      obtain ⟨hg, rfl, hs, hsame, ind, hlog⟩ := hb
      have ho₁ := hg.owned ho
      have hmod : off % BSIZE < BSIZE := Nat.mod_lt _ (by decide)
      -- the bytes of this turn
      obtain ⟨m, hm⟩ : ∃ m, m = min src.length (BSIZE - off % BSIZE) := ⟨_, rfl⟩
      rw [← hm]
      have htake : (src.take m).length = m := by
        rw [List.length_take]
        omega
      have hlen : off % BSIZE + (src.take m).length ≤ BSIZE := by omega
      have hne : src.take m ≠ [] := List.length_pos_iff.mp (by omega)
      have hw := grows_setData (W := W) ho₁ hs hlen
      have hrest : off + m + (src.drop m).length = off + src.length := by
        rw [List.length_drop]
        omega
      refine .modify ((ih (hE.imp_right (hw.enough ∘ hg.enough)) (hrest ▸ hmax)
        ((words_subset (Nat.le_add_right _ _) hrest).trans hW) ?_ (hw.owned ho₁)).imp fun off' fs' h => ?_)
      · rw [List.length_drop]
        omega
      · obtain ⟨rfl, hrest, hlog'⟩ := h
        have hall := Written.cons hlen (hg.trans hw) (hw.slots _ hs)
          (fun h => show fs₁.mem i = fs.mem i by rw [hsame h]) hne (by rw [htake]; exact hrest)
        rw [List.take_append_drop] at hall
        rw [List.length_drop] at hlog' ⊢
        refine ⟨by omega, hall, ?_⟩
        -- the bitmap is shared by the turns; a turn pays for its block and the indirect block
        have hturn : Spends {bmapstart} 2 fs.logged
            (slot fs₁.data (fs₁.mem i) (off / BSIZE) :: fs₁.logged) := by
          have hall : Spends ({bmapstart} ∪ {ind, slot fs₁.data (fs₁.mem i) (off / BSIZE)}) 0 fs.logged
              (slot fs₁.data (fs₁.mem i) (off / BSIZE) :: fs₁.logged) := by
            refine (hlog.mono ?_ le_rfl).trans (.of_mem (t := [_]) (by simp))
            intro x hx
            simpa [or_comm, or_left_comm] using hx
          exact hall.pay.mono le_rfl Finset.card_le_two
        have hstep := spans_step hpos hm
        exact (hturn.trans hlog').mono le_rfl (by omega)

/-! ## The loop of `readi` -/

/-- A block read is a piece of the contents. -/
theorem contents_block {data : Nat → Block} {d : Dinode} {m : Nat} (hm : off % BSIZE + m ≤ BSIZE)
    (hs : slot data d (off / BSIZE) ≠ 0) :
    ((List.range m).map fun x => data (slot data d (off / BSIZE)) (off % BSIZE + x))
      = (List.range m).map fun x => contents data d (off + x) := by
  refine List.map_congr_left fun x hx => ?_
  have hx := List.mem_range.mp hx
  have hmod := Nat.div_add_mod' off BSIZE
  have hdiv : (off + x) / BSIZE = off / BSIZE := by
    refine Nat.div_eq_of_lt_le (by omega) ?_
    rw [Nat.succ_mul]
    omega
  have hrem : (off + x) % BSIZE = off % BSIZE + x := by
    have := Nat.div_add_mod' (off + x) BSIZE
    rw [hdiv] at this
    omega
  rw [contents, hdiv, if_neg hs, hrem]

/-- **The loop of `readi`**, where the inode has the blocks: the bytes are its contents. -/
theorem readLoop_eq {fuel n : Nat} (hfuel : n ≤ fuel) (hc : Covers fs i off n) :
    readLoop i fuel off n fs
      = .ok ((List.range n).map fun x => contents fs.data (fs.mem i) (off + x), fs) := by
  induction fuel generalizing off n with
  | zero =>
    obtain rfl : n = 0 := by omega
    rfl
  | succ fuel ih =>
    rw [readLoop]
    split
    · rename_i hn
      subst hn
      rfl
    · rename_i hn
      have hmod : off % BSIZE < BSIZE := Nat.mod_lt _ (by decide)
      have hs := hc off le_rfl (by omega)
      obtain ⟨m, hm⟩ : ∃ m, m = min n (BSIZE - off % BSIZE) := ⟨_, rfl⟩
      rw [← hm]
      have hrest : Covers fs i (off + m) (n - m) := fun o ho ho' => hc o (by omega) (by omega)
      change (do
        let p ← bmap i (off / BSIZE) fs
        let q ← readLoop i fuel (off + m) (n - m) p.2
        pure (((List.range m).map fun x => p.2.data p.1 (off % BSIZE + x)) ++ q.1, q.2)) = _
      rw [bmap_of_slot hs]
      change (do
        let q ← readLoop i fuel (off + m) (n - m) fs
        pure (((List.range m).map fun x => fs.data (slot fs.data (fs.mem i) (off / BSIZE))
          (off % BSIZE + x)) ++ q.1, q.2)) = _
      rw [ih (by omega) hrest, contents_block (by omega) hs]
      change Except.ok (_ ++ _, fs) = _
      have hsplit : n = m + (n - m) := by omega
      conv_rhs => rw [hsplit, List.range_add, List.map_append, List.map_map]
      simp only [comp_def, Nat.add_assoc]

/-! ## `itrunc` -/

/-- A word of `addrs` is given up. -/
theorem refs_clear {data : Nat → Block} {d : Dinode} (hk : k < NDIRECT) (h : d.addrs k ≠ 0) :
    (refs data d).Perm (d.addrs k :: refs data (d.setAddr k 0)) := by
  have hlt : k < nwords := by
    rw [nwords]
    omega
  refine Ledger.filterMap_perm_cons List.nodup_range (List.mem_range.mpr hlt) ?_ ?_ fun x _ hx => ?_
  · rw [word_of_le hk.le, Dinode.setAddr_addrs, update_self, named_zero]
  · rw [word_of_le hk.le, named_of_ne h]
  · rw [word, word, Dinode.setAddr_addrs, update_of_ne hx, update_of_ne (Nat.ne_of_gt hk)]

/-- What an inode without direct blocks refers to. -/
theorem refs_of_indirect {data : Nat → Block} {d : Dinode} (h : ∀ k < NDIRECT, d.addrs k = 0)
    (hi : d.addrs NDIRECT ≠ 0) :
    refs data d = d.addrs NDIRECT :: (List.range NINDIRECT).filterMap
      fun j => named (wordAt (data (d.addrs NDIRECT)) j) := by
  have hdirect : (List.range NDIRECT).filterMap (fun k => named (word data d k)) = [] := by
    refine List.filterMap_eq_nil_iff.mpr fun k hk => ?_
    have hk := List.mem_range.mp hk
    rw [word_of_le hk.le, h k hk, named_zero]
  have hone : [NDIRECT].filterMap (fun k => named (word data d k)) = [d.addrs NDIRECT] :=
    List.filterMap_cons_some (by rw [word_of_le le_rfl, named_of_ne hi])
  rw [refs, nwords, List.range_add, List.range_succ, List.filterMap_append, List.filterMap_append,
    hdirect, hone, List.filterMap_map]
  refine congrArg (d.addrs NDIRECT :: ·) (List.filterMap_congr fun j hj => ?_)
  have hlt : NDIRECT + 1 + j < nwords := by
    have := List.mem_range.mp hj
    rw [nwords]
    omega
  rw [comp_apply, word, if_neg (by omega), if_pos ⟨hi, hlt⟩, Nat.add_sub_cancel_left]

/-- An inode without blocks. -/
theorem word_eq_zero {data : Nat → Block} {d : Dinode} (h : ∀ k ≤ NDIRECT, d.addrs k = 0) (k : Nat) :
    word data d k = 0 := by
  rw [word]
  split
  · exact h k ‹_›
  · exact if_neg fun hn => hn.1 (h _ le_rfl)

theorem refs_eq_nil {data : Nat → Block} {d : Dinode} (h : ∀ k ≤ NDIRECT, d.addrs k = 0) :
    refs data d = [] := by
  refine List.filterMap_eq_nil_iff.mpr fun k _ => ?_
  rw [word_eq_zero h, named_zero]

/-- Blocks are given up: only the bitmap and the words of inode `i` in memory change. -/
structure Clears (i : Nat) (fs fs' : State) : Prop where
  within : Within i fs fs'
  data : fs'.data = fs.data
  node : fs'.mem i = { fs.mem i with addrs := (fs'.mem i).addrs }
  moves : fs.heap.Moves (refs fs.data (fs.mem i)) fs'.heap (refs fs'.data (fs'.mem i))
  logs : Spends {bmapstart} 0 fs.logged fs'.logged

theorem Clears.refl (i : Nat) (fs : State) : Clears i fs fs :=
  ⟨.refl i fs, rfl, rfl, .refl _ _, .refl _ _ _⟩

theorem Clears.trans (h : Clears i fs fs₁) (h' : Clears i fs₁ fs') : Clears i fs fs' :=
  ⟨h.within.trans h'.within, h'.data.trans h.data, by rw [h'.node, h.node], h.moves.trans h'.moves,
    h.logs.trans h'.logs⟩

theorem Clears.owned (h : Clears i fs fs') (ho : Owned fs (refs fs.data (fs.mem i))) :
    Owned fs' (refs fs'.data (fs'.mem i)) := ho.moves h.moves zero_notMem_refs

theorem freeAddr_spec (ho : Owned fs (refs fs.data (fs.mem i))) (hk : k < NDIRECT) :
    Meets (freeAddr i k fs) E fun _ fs' => Clears i fs fs' ∧ (fs'.mem i).addrs k = 0
      ∧ ∀ k', (fs.mem i).addrs k' = 0 → (fs'.mem i).addrs k' = 0 := by
  rw [freeAddr]
  refine .get (.whenever (fun h => ?_) fun h => ?_)
  · have hp : (refs fs.data (fs.mem i)).Perm _ := refs_clear hk h
    refine (bfree_spec (ho.congr hp)).bind fun _ fs₁ hb => ?_
    obtain ⟨hm, rfl⟩ := hb
    refine ⟨⟨(Within.blocks i fs _ fs.data _).trans (.setMem i _ _), rfl, ?_, ?_,
      .of_mem (t := [bmapstart]) (by simp)⟩, ?_, fun k' hk' => ?_⟩
    · rw [State.setMem_mem]
      rfl
    · rw [State.setMem_mem]
      exact hm.congr hp.symm (.refl _)
    · rw [State.setMem_mem, Dinode.setAddr_addrs, update_self]
    · rw [State.setMem_mem, Dinode.setAddr_addrs, update_apply]
      split
      · rfl
      · exact hk'
  · exact ⟨.refl i fs, not_not.mp h, fun _ => id⟩

/-- The first loop clears the direct words. -/
theorem freeAddrs_spec (ho : Owned fs (refs fs.data (fs.mem i))) :
    Meets ((List.range NDIRECT).forM (freeAddr i) fs) E fun _ fs' =>
      Clears i fs fs' ∧ ∀ k < NDIRECT, (fs'.mem i).addrs k = 0 := by
  -- what is left to do is in the list, and the words that are not are cleared
  let I : List Nat → State → Prop := fun l fs' => Clears i fs fs' ∧ (∀ k ∈ l, k < NDIRECT)
    ∧ ∀ k < NDIRECT, k ∉ l → (fs'.mem i).addrs k = 0
  have hinit : I (List.range NDIRECT) fs :=
    ⟨.refl i fs, fun _ => List.mem_range.mp,
      fun k hk hn => absurd (List.mem_range.mpr hk) hn⟩
  refine (Meets.forM hinit fun k l fs₁ h => ?_).imp fun _ fs' h => ⟨h.1, fun k hk => h.2.2 k hk (by simp)⟩
  obtain ⟨hc, hl, hz⟩ := h
  refine (freeAddr_spec (hc.owned ho) (hl k (by simp))).imp fun _ fs' h => ?_
  refine ⟨hc.trans h.1, fun k' hk' => hl k' (by simp [hk']), fun k' hk' hn => ?_⟩
  by_cases hkk : k' = k
  · rw [hkk]
    exact h.2.1
  · exact h.2.2 k' (hz k' hk' (by simp [hkk, hn]))

/-- The second gives up the blocks that the words of the indirect block name. -/
theorem freeWords_spec {a : Block} {l : List Nat}
    (ho : Owned fs (l.filterMap (fun j => named (wordAt a j)) ++ B)) :
    Meets (l.forM (freeWord a) fs) E fun _ fs' =>
      fs.heap.Moves (l.filterMap (fun j => named (wordAt a j)) ++ B) fs'.heap B
        ∧ fs' = { fs with used := fs'.used, logged := fs'.logged }
        ∧ Spends {bmapstart} 0 fs.logged fs'.logged := by
  let I : List Nat → State → Prop := fun l' fs' =>
    fs.heap.Moves (l.filterMap (fun j => named (wordAt a j)) ++ B) fs'.heap
      (l'.filterMap (fun j => named (wordAt a j)) ++ B) ∧ 0 ∉ l'.filterMap (fun j => named (wordAt a j)) ++ B
      ∧ fs' = { fs with used := fs'.used, logged := fs'.logged } ∧ Spends {bmapstart} 0 fs.logged fs'.logged
  have hinit : I l fs := ⟨.refl _ _, ho.ne, rfl, .refl _ _ _⟩
  refine (Meets.forM hinit fun j l fs₁ h => ?_).imp fun _ fs' h => ⟨h.1, h.2.2⟩
  obtain ⟨hm, hz, hfs, hlog⟩ := h
  rw [freeWord]
  refine .whenever (fun hw => ?_) fun hw => ?_
  · rw [List.filterMap_cons, named_of_ne hw] at hm hz
    refine (bfree_spec (ho.moves hm hz)).imp fun _ fs₂ hb => ⟨hm.trans hb.1, ?_, ?_, ?_⟩
    · exact fun h => hz (List.mem_cons_of_mem _ h)
    · rw [hb.2, hfs]
    · rw [hb.2]
      exact hlog.trans (.of_mem (t := [bmapstart]) (by simp))
  · rw [List.filterMap_cons, not_not.mp hw, named_zero] at hm hz
    exact ⟨hm, hz, hfs, hlog⟩

/-- The indirect block goes with the blocks it names. -/
theorem freeIndirect_spec (ho : Owned fs (refs fs.data (fs.mem i)))
    (hd : ∀ k < NDIRECT, (fs.mem i).addrs k = 0) :
    Meets (whenever ((fs.mem i).addrs NDIRECT ≠ 0) (do
        (List.range NINDIRECT).forM (freeWord (fs.data ((fs.mem i).addrs NDIRECT)))
        bfree ((fs.mem i).addrs NDIRECT)
        modify fun fs => fs.setMem i ((fs.mem i).setAddr NDIRECT 0)) fs) E fun _ fs' =>
      Clears i fs fs' ∧ ∀ k ≤ NDIRECT, (fs'.mem i).addrs k = 0 := by
  refine .whenever (fun hi => ?_) fun hi => ?_
  · have hrefs : refs fs.data (fs.mem i) = _ := refs_of_indirect hd hi
    have hp := List.perm_append_singleton ((fs.mem i).addrs NDIRECT) ((List.range NINDIRECT).filterMap
      fun j => named (wordAt (fs.data ((fs.mem i).addrs NDIRECT)) j))
    have ho' := ho
    rw [hrefs] at ho'
    have ho' := ho'.congr hp.symm
    refine (freeWords_spec ho').bind fun _ fs₁ h => ?_
    obtain ⟨hm, hfs, hlog⟩ := h
    have hz : 0 ∉ [(fs.mem i).addrs NDIRECT] := fun h => hi (List.mem_singleton.mp h).symm
    refine (bfree_spec (ho'.moves hm hz)).bind fun _ fs₂ h => ?_
    obtain ⟨hm', hfs₂⟩ := h
    have hlog₂ : Spends {bmapstart} 0 fs.logged fs₂.logged := by
      rw [hfs₂]
      exact hlog.trans (.of_mem (t := [bmapstart]) (by simp))
    obtain ⟨u, l, rfl⟩ : ∃ u l, fs₂ = { fs with used := u, logged := l } := ⟨_, _, by rw [hfs₂, hfs]⟩
    have hzero : ∀ k ≤ NDIRECT, ((fs.mem i).setAddr NDIRECT 0).addrs k = 0 := fun k hk => by
      rw [Dinode.setAddr_addrs, update_apply]
      split
      · rfl
      · exact hd k (by omega)
    refine ⟨⟨(Within.blocks i fs u fs.data l).trans (.setMem i _ _), rfl, ?_, ?_, hlog₂⟩, ?_⟩
    · rw [State.setMem_mem]
      rfl
    · rw [State.setMem_mem]
      exact (hm.trans hm').congr (hp.trans (.of_eq hrefs.symm)) (.of_eq (refs_eq_nil hzero).symm)
    · rw [State.setMem_mem]
      exact hzero
  · refine ⟨.refl i fs, fun k hk => ?_⟩
    rcases Nat.lt_or_eq_of_le hk with hk | rfl
    · exact hd k hk
    · exact not_not.mp hi

/-- **`itrunc`** gives up every block of the inode. -/
theorem itrunc_spec (ho : Owned fs (refs fs.data (fs.mem i))) :
    Meets (itrunc i fs) E fun _ fs' => ∃ a, (∀ k ≤ NDIRECT, a k = 0)
      ∧ fs.heap.Moves (refs fs.data (fs.mem i)) fs'.heap []
      ∧ fs'.mem i = { fs.mem i with size := 0, addrs := a }
      ∧ Within i { fs with din := update fs.din i (fs'.mem i) } fs'
      ∧ Spends {IBLOCK i, bmapstart} 0 fs.logged fs'.logged := by
  rw [itrunc]
  refine (freeAddrs_spec ho).bind fun _ fs₁ h₁ => .get ?_
  refine (freeIndirect_spec (h₁.1.owned ho) h₁.2).bind fun _ fs₂ h₂ => ?_
  have hc := h₁.1.trans h₂.1
  have hmoves := hc.moves
  rw [refs_eq_nil h₂.2] at hmoves
  have hlog : Spends {IBLOCK i, bmapstart} 0 fs.logged fs₂.logged :=
    hc.logs.mono (Finset.subset_insert _ _) le_rfl
  refine .modify ⟨(fs₂.mem i).addrs, h₂.2, hmoves, ?_, ?_, hlog.trans (.of_mem (t := [IBLOCK i]) (by simp))⟩
  · change (fs₂.setMem i _).mem i = _
    rw [State.setMem_mem, hc.node]
  · have hw := hc.within
    refine ⟨?_, hw.cached, hw.file, hw.task, ?_⟩
    · exact congrArg (update · i _) hw.din
    · change update fs₂.inode i _ = update fs.inode i _
      rw [hw.inode, update_idem, update_self]
      exact congrArg (update fs.inode i) (congrArg (Inode.mk _ _) (State.setMem_mem ..).symm)

end Xv6.Fs

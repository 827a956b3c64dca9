import Xv6Ipc.Files.Mkfs
import Xv6Ipc.Files.Syscalls

/-!
# Files/Image — what `mkfs` writes, the kernel reads

An image in the making is a state of the kernel in which no inode is in use but the one that is being
written, which is in memory (`Img.view`).  There `iappend` is the loop of `writei`: the blocks `mkfs`
counts off are the ones `balloc` finds, and both place them alike.

    im  ──appendLoop──▸  im'
    ¦                     ¦  view
    fs  ──writeLoop───▸  fs'

So an image is in order because a kernel that had written it would be.
-/

namespace Xv6.Fs.Mkfs

open Outcome Function

/-- The image as the kernel sees it, with inode `i` in memory as `d`.  What a kernel would have logged
is nothing to `mkfs`. -/
def Img.view (im : Img) (i : Nat) (d : Dinode) (logged : List Nat := []) : State where
  used b := decide (b < im.freeblock)
  din := im.din
  data := im.data
  inode := update (fun _ => ⟨0, false, .zero⟩) i ⟨1, true, d⟩
  cached := 0
  file _ := ⟨0, none, false, false, 0⟩
  task _ := ⟨none, fun _ => none⟩
  logged := logged

/-- The blocks not counted off yet are blocks of zeroes. -/
def Img.Blank (im : Img) : Prop := ∀ b, im.freeblock ≤ b → im.data b = zeroes

variable {E : Panic → Prop} {im im' im₁ : Img} {i j k b off fuel ind x : Nat} {d d' : Dinode}
  {p l : List Nat}

theorem view_inode (im : Img) (i : Nat) (d : Dinode) (l : List Nat) :
    (im.view i d l).inode i = ⟨1, true, d⟩ := by
  change update (fun _ => (⟨0, false, .zero⟩ : Inode)) i ⟨1, true, d⟩ i = _
  rw [update_self]

theorem view_inode_of_ne (im : Img) (d : Dinode) (l : List Nat) (hj : j ≠ i) :
    (im.view i d l).inode j = ⟨0, false, .zero⟩ := by
  change update (fun _ => (⟨0, false, .zero⟩ : Inode)) i ⟨1, true, d⟩ j = _
  rw [update_of_ne hj]

@[simp] theorem view_mem (im : Img) (i : Nat) (d : Dinode) (l : List Nat) : (im.view i d l).mem i = d :=
  congrArg Inode.din (view_inode im i d l)

theorem view_setMem (im : Img) (i : Nat) (d d' : Dinode) (l : List Nat) :
    (im.view i d l).setMem i d' = im.view i d' l := by
  rw [State.setMem, State.setInode, view_inode]
  change ({ im.view i d l with inode := update (update _ i _) i _ } : State) = _
  rw [update_idem]
  rfl

/-- **`freeblock++` is `balloc`.** -/
theorem balloc_view (hb : im.Blank) (hlt : im.freeblock < FSSIZE) (i : Nat) (d : Dinode) (l : List Nat) :
    ∃ l', balloc (im.view i d l)
      = .ok (im.freeblock, ({ im with freeblock := im.freeblock + 1 } : Img).view i d l') := by
  have hfind : (List.range FSSIZE).find? (fun b => !(im.view i d l).used b) = some im.freeblock := by
    refine List.find?_range_eq_some.mpr ⟨?_, List.mem_range.mpr hlt, fun b hb => ?_⟩
    · simp [Img.view]
    · simp [Img.view, hb]
  have hused : update (im.view i d l).used im.freeblock true
      = fun b => decide (b < im.freeblock + 1) := by
    funext b
    rw [update_apply]
    split
    · rename_i he
      simp [he]
    · simp only [Img.view, decide_eq_decide]
      omega
  have hdata : update (im.view i d l).data im.freeblock zeroes = im.data := by
    rw [← hb im.freeblock le_rfl]
    exact update_eq_self _ _
  refine ⟨im.freeblock :: BBLOCK im.freeblock :: l, ?_⟩
  rw [balloc]
  have hget : ∀ (g : State → Fs.M Nat) (fs : State), (get >>= g) fs = g fs fs := fun _ _ => rfl
  rw [hget]
  simp only [hfind]
  change Except.ok (im.freeblock, ({ im.view i d l with
    used := update (im.view i d l).used im.freeblock true
    data := update (im.view i d l).data im.freeblock zeroes
    logged := im.freeblock :: BBLOCK im.freeblock :: l } : State)) = _
  rw [hused, hdata]
  rfl

theorem Img.Blank.take (hb : im.Blank) : ({ im with freeblock := im.freeblock + 1 } : Img).Blank :=
  fun b h => hb b (Nat.le_of_succ_le h)

/-- A block in use is written. -/
theorem Img.Blank.write (hb : im.Blank) (hlt : b < im.freeblock) (y : Block) :
    ({ im with data := update im.data b y } : Img).Blank := fun b' h => by
  have hle : im.freeblock ≤ b' := h
  rw [← hb b' hle]
  exact update_of_ne (by omega) _ _

/-- A word of `addrs`, on both sides. -/
theorem addrOf_view (hb : im.Blank) (hrun : addrOf d k im = .ok (d', im')) (hlt : d'.addrs k < FSSIZE) :
    (∃ l', Fs.addrOf i k (im.view i d l) = .ok (d'.addrs k, im'.view i d' l')) ∧ im'.Blank
      ∧ im'.freeinode = im.freeinode := by
  rw [addrOf] at hrun
  rw [Fs.addrOf]
  change (∃ l', (if ((im.view i d l).mem i).addrs k = 0 then do
      let b ← balloc
      modify fun fs => fs.setMem i ((fs.mem i).setAddr k b)
      return b
    else return ((im.view i d l).mem i).addrs k : Fs.M Nat) (im.view i d l)
      = .ok (d'.addrs k, im'.view i d' l')) ∧ _
  rw [view_mem]
  split at hrun
  · rename_i hz
    obtain ⟨rfl, rfl⟩ := Prod.mk.inj (Except.ok.inj hrun)
    rw [Dinode.setAddr_addrs, update_self] at hlt ⊢
    obtain ⟨l', hballoc⟩ := balloc_view hb hlt i d l
    rw [if_pos hz, bind_of_ok hballoc]
    refine ⟨⟨l', ?_⟩, hb.take, rfl⟩
    change Except.ok (im.freeblock,
      (Img.view _ i d l').setMem i ((Img.view _ i d l').mem i |>.setAddr k _)) = _
    rw [view_mem, view_setMem]
  · rename_i hz
    obtain ⟨rfl, rfl⟩ := Prod.mk.inj (Except.ok.inj hrun)
    rw [if_neg hz]
    exact ⟨⟨l, rfl⟩, hb, rfl⟩

/-- A word of the indirect block, on both sides. -/
theorem wordOf_view (hb : im.Blank) (hrun : wordOf ind k im = .ok (x, im')) (hlt : x < FSSIZE)
    (hind : ind < im.freeblock) :
    (∃ l', Fs.wordOf ind k (im.view i d l) = .ok (x, im'.view i d l')) ∧ im'.Blank
      ∧ im'.freeinode = im.freeinode := by
  rw [wordOf] at hrun
  rw [Fs.wordOf]
  change (∃ l', (if wordAt (im.data ind) k = 0 then do
      let b ← balloc
      modify fun fs => (fs.setData ind (putWord (fs.data ind) k b)).logWrite ind
      return b
    else return wordAt (im.data ind) k : Fs.M Nat) (im.view i d l) = .ok (x, im'.view i d l')) ∧ _
  change (if wordAt (im.data ind) k = 0 then do
      let b ← takeBlock
      modify fun im => { im with data := update im.data ind (putWord (im.data ind) k b) }
      return b
    else return wordAt (im.data ind) k : M Nat) im = _ at hrun
  split at hrun
  · rename_i hz
    obtain ⟨rfl, rfl⟩ := Prod.mk.inj (Except.ok.inj hrun)
    obtain ⟨l', hballoc⟩ := balloc_view hb hlt i d l
    rw [if_pos hz, bind_of_ok hballoc]
    exact ⟨⟨ind :: l', rfl⟩, hb.take.write (Nat.lt_succ_of_lt hind) _, rfl⟩
  · rename_i hz
    obtain ⟨rfl, rfl⟩ := Prod.mk.inj (Except.ok.inj hrun)
    rw [if_neg hz]
    exact ⟨⟨l, rfl⟩, hb, rfl⟩

/-- A block that is held is one of those counted off. -/
theorem lt_of_owned {B : List Nat} (ho : Owned (im.view i d l) B) (hb : b ∈ B) : b < im.freeblock :=
  of_decide_eq_true (ho.used hb)

/-- **The block of an offset**, on both sides. -/
theorem blockOf_view {fbn : Nat} (hb : im.Blank) (ho : Owned (im.view i d l) (refs im.data d))
    (hfbn : fbn < MAXFILE) (hrun : blockOf d fbn im = .ok ((d', x), im')) (hlt : x < FSSIZE) :
    (∃ l', bmap i fbn (im.view i d l) = .ok (x, im'.view i d' l')) ∧ im'.Blank
      ∧ im'.freeinode = im.freeinode := by
  rw [blockOf] at hrun
  rw [bmap]
  split at hrun
  · rename_i hdirect
    rw [if_pos hdirect]
    obtain ⟨d₁, im₁, haddr, hrest⟩ := of_bind_ok hrun
    obtain ⟨hp, rfl⟩ := Prod.mk.inj (Except.ok.inj hrest)
    obtain ⟨rfl, rfl⟩ := Prod.mk.inj hp
    exact addrOf_view hb haddr hlt
  · rename_i hdirect
    have hindirect : fbn - NDIRECT < NINDIRECT := by
      rw [MAXFILE] at hfbn
      omega
    rw [if_neg hdirect, if_pos hindirect]
    obtain ⟨d₁, im₁, haddr, hrest⟩ := of_bind_ok hrun
    obtain ⟨hrsect, hrest⟩ := of_check_ok hrest
    obtain ⟨x', im₃, hword, hrest⟩ := of_bind_ok hrest
    obtain ⟨hp, rfl⟩ := Prod.mk.inj (Except.ok.inj hrest)
    obtain ⟨rfl, rfl⟩ := Prod.mk.inj hp
    obtain ⟨⟨l₁, haddr'⟩, hb₁, hino₁⟩ := addrOf_view (i := i) (l := l) hb haddr (Nat.lt_of_not_le hrsect)
    -- the indirect block is held, so it is below `freeblock`
    have hind : d₁.addrs NDIRECT < im₁.freeblock := by
      obtain ⟨hgrows, -, hne, -⟩ := (addrOf_spec (E := fun _ => True) (W := {NDIRECT}) (.inl trivial)
        (Finset.mem_singleton_self _) (by rw [view_mem]; exact ho) le_rfl 0).ok haddr'
      have ho₁ := hgrows.owned (by rw [view_mem]; exact ho)
      rw [view_mem] at ho₁
      exact lt_of_owned ho₁ (addr_mem_refs le_rfl hne)
    obtain ⟨hword', hb₃, hino₃⟩ := wordOf_view (i := i) (d := d₁) (l := l₁) hb₁ hword hlt hind
    rw [bind_of_ok haddr']
    exact ⟨hword', hb₃, hino₃.trans hino₁⟩

/-- **The loop of `iappend` is the loop of `writei`.** -/
theorem appendLoop_view {off' : Nat} (hb : im.Blank) (ho : Owned (im.view i d l) (refs im.data d))
    (hrun : appendLoop fuel d off p im = .ok ((d', off'), im')) :
    (∃ l', writeLoop i fuel off p (im.view i d l) = .ok (off', im'.view i d' l')) ∧ im'.Blank
      ∧ im'.freeinode = im.freeinode := by
  induction fuel generalizing d off p im l with
  | zero =>
    obtain ⟨hp, rfl⟩ := Prod.mk.inj (Except.ok.inj hrun)
    obtain ⟨rfl, rfl⟩ := Prod.mk.inj hp
    exact ⟨⟨l, rfl⟩, hb, rfl⟩
  | succ fuel ih =>
    rw [appendLoop] at hrun
    rw [writeLoop]
    split at hrun
    · rename_i hnil
      obtain ⟨hp, rfl⟩ := Prod.mk.inj (Except.ok.inj hrun)
      obtain ⟨rfl, rfl⟩ := Prod.mk.inj hp
      rw [if_pos hnil]
      exact ⟨⟨l, rfl⟩, hb, rfl⟩
    · rename_i hnil
      obtain ⟨hfbn, hrest⟩ := of_check_ok hrun
      obtain ⟨⟨d₁, x⟩, im₁, hblock, hrest⟩ := of_bind_ok hrest
      obtain ⟨hx, hrest⟩ := of_check_ok hrest
      obtain ⟨⟨l₁, hmap⟩, hb₁, hino₁⟩ := blockOf_view hb ho (Nat.lt_of_not_le hfbn) hblock
        (Nat.lt_of_not_le hx)
      obtain ⟨hgrows, hslot, hne, -⟩ := (bmap_spec (E := fun _ => True) (W := words off p.length)
        (.inl trivial) (fun _ => trivial) (words_head (List.length_pos_iff.mpr hnil) subset_rfl)
        (by rw [view_mem]; exact ho) off).ok hmap
      have ho₁ := hgrows.owned (by rw [view_mem]; exact ho)
      -- the two ways to say how much goes into this block
      have hmod := Nat.div_add_mod' off BSIZE
      have hrem : off - off / BSIZE * BSIZE = off % BSIZE := by omega
      have hroom : (off / BSIZE + 1) * BSIZE - off = BSIZE - off % BSIZE := by
        rw [Nat.succ_mul]
        omega
      rw [if_neg hnil, bind_of_ok hmap]
      change appendLoop fuel d₁ (off + min p.length ((off / BSIZE + 1) * BSIZE - off))
        (p.drop (min p.length ((off / BSIZE + 1) * BSIZE - off))) { im₁ with
          data := update im₁.data x (overwrite (im₁.data x) (off - off / BSIZE * BSIZE)
            (p.take (min p.length ((off / BSIZE + 1) * BSIZE - off)))) } = _ at hrest
      rw [hrem, hroom] at hrest
      have hlen : off % BSIZE + (p.take (min p.length (BSIZE - off % BSIZE))).length ≤ BSIZE := by
        have : off % BSIZE < BSIZE := Nat.mod_lt _ (by decide)
        rw [List.length_take]
        omega
      have hwrite := (grows_setData (W := ∅) ho₁ (hslot ▸ hne) hlen).owned ho₁
      have hlt : x < im₁.freeblock := by
        rw [view_mem] at ho₁ hslot
        exact lt_of_owned ho₁ (hslot ▸ slot_mem_refs (hslot ▸ hne))
      have hmem : ∀ y, (((im₁.view i d₁ l₁).setData x y).logWrite x).mem i = d₁ :=
        fun _ => view_mem im₁ i d₁ l₁
      rw [hslot, hmem] at hwrite
      obtain ⟨hloop, hb', hino'⟩ := ih (l := x :: l₁) (hb₁.write hlt _) hwrite hrest
      exact ⟨hloop, hb', hino'.trans hino₁⟩

/-! ## Images in order -/

/-- The image as the kernel sees it, with no inode in memory. -/
def Img.rest (im : Img) : State := { im.view 0 .zero with inode := fun _ => ⟨0, false, .zero⟩ }

/-- **An image in order.** -/
structure Img.Sound (im : Img) : Prop where
  sound : Fs.Sound [] im.rest
  neat : im.rest.Neat
  blank : im.Blank
  fresh : ∀ i, im.freeinode ≤ i → (im.din i).type = .none

/-- No inode of an image is without links. -/
theorem Img.Sound.nlink_ne (h : im.Sound) (ht : (im.din i).type ≠ .none) : (im.din i).nlink ≠ 0 :=
  fun hn => absurd ((h.sound.good i).orphan ht hn).2 (Nat.lt_irrefl 0)

/-- An inode is brought to memory… -/
theorem Img.Sound.hold (h : im.Sound) (ht : (im.din i).type ≠ .none) :
    Fs.Sound [i] (im.view i (im.din i)) := by
  have hself := view_inode im i (im.din i) []
  refine h.sound.cache (i := i) ⟨rfl, rfl, rfl, rfl, rfl⟩ (fun j hj => view_inode_of_ne im _ [] hj)
    (fun j hj => count_cons_of_ne hj) ?_ (fun _ hn => absurd hn (h.nlink_ne ht)) ?_
  · rw [State.mem, hself]
    exact fun _ => ⟨rfl, ht⟩
  · have hacct := (h.sound.good i).acct
    rw [hself, List.count_cons_self]
    exact congrArg (· + 1) hacct

/-- …and leaves it. -/
theorem rest_sound (h : Fs.Sound [i] (im.view i d l)) (hn : (im.din i).nlink ≠ 0) :
    Fs.Sound [] im.rest := by
  have hacct := (h.good i).acct
  rw [view_inode, List.count_cons_self] at hacct
  refine h.cache (i := i) ⟨rfl, rfl, rfl, rfl, rfl⟩ (fun j hj => (view_inode_of_ne im d l hj).symm)
    (fun j hj => (count_cons_of_ne hj).symm) nofun (fun _ hz => absurd hz hn) ?_
  exact Nat.succ.inj hacct

/-- **`iappend`** writes at the end of the inode. -/
theorem iappend_spec (h : im.Sound) (ht : (im.din i).type ≠ .none)
    (hdir : (im.din i).type = .dir → DESIZE ∣ p.length) (hrun : iappend i p im = .ok ((), im')) :
    im'.Sound ∧ Wrote i im.rest im'.rest (im.din i).size p ∧ im'.freeinode = im.freeinode := by
  rw [iappend] at hrun
  obtain ⟨⟨d, off⟩, im₁, hloop, hrest⟩ := of_bind_ok (of_get_ok hrun)
  have hhold := h.hold ht
  have ho : Owned (im.view i (im.din i)) (refs im.data (im.din i)) := hhold.owned i
  obtain ⟨⟨l, hwrite⟩, hblank, hino⟩ := appendLoop_view h.blank ho hloop
  obtain ⟨rfl, hwritten, hlog⟩ := (writeLoop_spec (E := fun _ => True) (.inl trivial)
    (fun _ => trivial) subset_rfl le_rfl (by rw [view_mem]; exact ho)).ok hwrite
  obtain ⟨d', hd'⟩ : ∃ d', d' = { d with size := (im.din i).size + p.length } := ⟨_, rfl⟩
  have him' : im' = { im₁ with din := update im₁.din i d' } := by
    rw [hd']
    exact (Prod.mk.inj (Except.ok.inj hrest)).2.symm
  have hdin : im₁.din = im.din := hwritten.within.din
  have hd : d' = { (im₁.view i d l).mem i with
      size := max (im.din i).size ((im.din i).size + p.length) } := by
    rw [view_mem, hd', max_eq_right (Nat.le_add_right _ _)]
  have hdir' : (im.din i).type = .dir → DESIZE ∣ (im.din i).size + p.length := fun hd =>
    Nat.dvd_add ((hhold.good i).aligned hd) (hdir hd)
  have hinode : (im'.view i d' l).inode = update (im.view i (im.din i)).inode i
      { (im.view i (im.din i)).inode i with din := d' } := by
    rw [view_inode]
    exact (update_idem _ _ _).symm
  have hdin' : (im'.view i d' l).din = update (im.view i (im.din i)).din i d' := by
    rw [him']
    exact congrArg (update · i d') hdin
  have hall : (_ → Fs.Sound [i] (im'.view i d' l)) ∧ _ :=
    hhold.written (by rw [view_inode]) (by rw [view_inode]; exact Nat.one_pos) le_rfl hwritten hd
      (by rw [him']; rfl) (by rw [him']; rfl) rfl rfl hdin' hinode
      (hlog.mono (Finset.subset_insert _ _) le_rfl)
  obtain ⟨hs, -, hw, -⟩ := hall
  have hs := hs hdir'
  have hn : (im'.din i).nlink ≠ 0 := by
    have : (im'.din i).nlink = (im.din i).nlink := hw.nlink
    rw [this]
    exact h.nlink_ne ht
  refine ⟨⟨rest_sound hs hn, hw.edit.neat h.neat, ?_, fun j hj => ?_⟩,
    ⟨⟨hw.edit.din, hw.edit.bytes, hw.edit.neat, rfl, rfl⟩, hw.bytes, hw.din, .refl _ _ _⟩, ?_⟩
  · rw [him']
    exact hblank
  · rw [him', hino] at hj
    have : (im'.din j).type = (im.din j).type := hw.type
    rw [this]
    exact h.fresh j hj
  · rw [him']
    exact hino

/-- **`ialloc`** takes the next inode. -/
theorem ialloc_spec (h : im.Sound) {type : Kind} (ht : type ≠ .none)
    (hrun : ialloc type im = .ok (i, im')) :
    im'.Sound ∧ i = im.freeinode ∧ i < ninums ∧ im'.freeinode = im.freeinode + 1
      ∧ im'.din = update im.din i { Dinode.zero with type := type, nlink := 1 }
      ∧ im'.data = im.data := by
  obtain ⟨hlt, hrest⟩ := of_check_ok (of_get_ok hrun)
  obtain ⟨hi, him'⟩ := Prod.mk.inj (Except.ok.inj hrest)
  subst hi
  have hfree := h.fresh im.freeinode le_rfl
  have hdin : im'.din = update im.din im.freeinode
      { Dinode.zero with type := type, nlink := 1 } := by rw [← him']
  have hself : im'.din im.freeinode = { Dinode.zero with type := type, nlink := 1 } := by
    rw [hdin, update_self]
  have hinode : (im'.view im.freeinode { Dinode.zero with type := type, nlink := 1 }).inode
      = update im.rest.inode im.freeinode ⟨(im.rest.inode im.freeinode).ref + 1, true,
        { Dinode.zero with type := type, nlink := 1 }⟩ := rfl
  have hs := h.sound.alloc hfree (Nat.lt_of_not_le hlt) ht rfl rfl rfl hdin hinode
    (by rw [← him']; rfl) (by rw [← him']; rfl) rfl rfl
  refine ⟨⟨rest_sound hs.1 (by rw [hself]; exact Int.one_ne_zero), hs.2.2.neat h.neat, ?_,
    fun j hj => ?_⟩, rfl, Nat.lt_of_not_le hlt, ?_, hdin, ?_⟩
  · rw [← him']
    exact h.blank
  · rw [← him'] at hj
    have hj : im.freeinode + 1 ≤ j := hj
    rw [hdin, update_of_ne (by omega)]
    exact h.fresh j (by omega)
  · rw [← him']
  · rw [← him']

/-! ## What is in an image

Of an inode only its type and its bytes matter from here on. -/

/-- The type of inode `i` and its bytes. -/
def Img.node (im : Img) (i : Nat) : Kind × List Nat := ((im.din i).type, im.rest.text i)

/-- `ialloc`: an empty inode. -/
theorem ialloc_node (h : im.Sound) {type : Kind} (ht : type ≠ .none)
    (hrun : ialloc type im = .ok (i, im')) : im'.Sound ∧ i = im.freeinode ∧ i < ninums
      ∧ im'.freeinode = im.freeinode + 1 ∧ im'.node = update im.node i (type, []) := by
  obtain ⟨hs, rfl, hlt, hino, hdin, hdata⟩ := ialloc_spec h ht hrun
  refine ⟨hs, rfl, hlt, hino, funext fun j => ?_⟩
  have hbytes : im'.rest.bytes j = contents im.data (im'.din j) := by rw [← hdata]; rfl
  rw [Img.node, State.text, hbytes, update_apply]
  change ((im'.din j).type, (List.range (im'.din j).size).map _) = _
  rw [hdin, update_apply]
  split
  · rfl
  · rfl

/-- `iappend`: some bytes more. -/
theorem iappend_node (h : im.Sound) (ht : (im.node i).1 ≠ .none)
    (hdir : (im.node i).1 = .dir → DESIZE ∣ p.length) (hrun : iappend i p im = .ok ((), im')) :
    im'.Sound ∧ im'.freeinode = im.freeinode
      ∧ im'.node = update im.node i ((im.node i).1, (im.node i).2 ++ p) := by
  obtain ⟨hs, hw, hino⟩ := iappend_spec h ht hdir hrun
  refine ⟨hs, hino, funext fun j => ?_⟩
  have htype : (im'.din j).type = (im.din j).type := hw.type
  rw [Img.node, htype, update_apply]
  split
  · rename_i hj
    subst hj
    rw [hw.text]
    rfl
  · rename_i hj
    rw [hw.edit.text hj]
    rfl

/-- A whole file, a block at a time. -/
theorem copyLoop_node (hp : p.length ≤ fuel) (h : im.Sound) (ht : (im.node i).1 = .file)
    (hrun : copyLoop i fuel p im = .ok ((), im')) : im'.Sound ∧ im'.freeinode = im.freeinode
      ∧ im'.node = update im.node i (.file, (im.node i).2 ++ p) := by
  induction fuel generalizing p im with
  | zero =>
    obtain rfl : p = [] := List.length_eq_zero_iff.mp (by omega)
    obtain ⟨-, rfl⟩ := Prod.mk.inj (Except.ok.inj hrun)
    refine ⟨h, rfl, ?_⟩
    rw [List.append_nil, ← ht]
    exact (update_eq_self i im.node).symm
  | succ fuel ih =>
    rw [copyLoop] at hrun
    split at hrun
    · rename_i hnil
      subst hnil
      obtain ⟨-, rfl⟩ := Prod.mk.inj (Except.ok.inj hrun)
      refine ⟨h, rfl, ?_⟩
      rw [List.append_nil, ← ht]
      exact (update_eq_self i im.node).symm
    · rename_i hnil
      obtain ⟨_, im₁, happ, hrest⟩ := of_bind_ok hrun
      obtain ⟨h₁, hino₁, hnode₁⟩ := iappend_node h (by rw [ht]; decide) (fun hd => nomatch ht.symm.trans hd)
        happ
      have hself : im₁.node i = (.file, (im.node i).2 ++ p.take BSIZE) := by
        rw [hnode₁, update_self, ht]
      have hlen : (p.drop BSIZE).length ≤ fuel := by
        have : 0 < BSIZE := by decide
        rw [List.length_drop]
        omega
      obtain ⟨h', hino', hnode'⟩ := ih hlen h₁ (by rw [hself]) hrest
      refine ⟨h', hino'.trans hino₁, ?_⟩
      rw [hnode', hself, hnode₁, update_idem, List.append_assoc, List.take_append_drop]

end Xv6.Fs.Mkfs

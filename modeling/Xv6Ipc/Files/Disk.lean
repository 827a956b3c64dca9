import Xv6Ipc.Log.Model
import Xv6Ipc.Machinery.Ledger
import Mathlib.Algebra.Group.Nat.Defs
import Mathlib.Data.List.GetD

/-!
# Files/Disk — blocks, inodes on disk and the blocks they refer to

The image is `FSSIZE` blocks: boot block, super block, log, inode blocks, bitmap, and then data.

    0    1    2 … 31   32 … 57   58       59 … 999
    boot sb   log      inodes    bitmap   data

An inode names its data blocks in thirteen words.  The first twelve are data blocks; the last is a
block of 128 further words:

    addrs[0] … addrs[11]   addrs[12] ──▸ a[0] … a[127]

A word that is zero names no block.  `slot` is the block that holds the `bn`-th block of the file,
`contents` the bytes of the file (with zeroes where there is no block), and `refs` lists the blocks that
the inode's words name, the thirteen of `addrs` first.
-/

namespace Xv6.Fs

/-! ## Geometry -/

def BSIZE : Nat := 512

@[irreducible] def FSSIZE : Nat := 1000

theorem FSSIZE_eq : FSSIZE = 1000 := by rw [FSSIZE]

def NINODES : Nat := 200

def NDIRECT : Nat := 12

def NINDIRECT : Nat := 128

def MAXFILE : Nat := NDIRECT + NINDIRECT

/-- Inodes in a block. -/
def IPB : Nat := 8

def ninodeblocks : Nat := NINODES / IPB + 1

def nbitmap : Nat := FSSIZE / (BSIZE * 8) + 1

/-- The blocks before the data. -/
def nmeta : Nat := 2 + Redo.LOGSIZE + ninodeblocks + nbitmap

/-- `sb.inodestart` and `sb.bmapstart`. -/
def inodestart : Nat := 2 + Redo.LOGSIZE

def bmapstart : Nat := inodestart + ninodeblocks

/-- The block of an inode. -/
def IBLOCK (i : Nat) : Nat := i / IPB + inodestart

/-- Bits in a block. -/
def BPB : Nat := BSIZE * 8

/-- The block of the bitmap with the bit of block `b`. -/
def BBLOCK (b : Nat) : Nat := b / BPB + bmapstart

/-- The bitmap is one block. -/
theorem BBLOCK_eq {b : Nat} (hb : b < FSSIZE) : BBLOCK b = bmapstart := by
  rw [FSSIZE_eq] at hb
  rw [BBLOCK, Nat.div_eq_of_lt (hb.trans (by decide)), Nat.zero_add]

/-- The inodes that the inode blocks have room for. -/
def ninums : Nat := ninodeblocks * IPB

/-! ## Blocks -/

/-- The bytes of a block. -/
abbrev Block := Nat → Nat

/-- A block of zeroes. -/
def zeroes : Block := fun _ => 0

/-- The `j`-th word of a block. -/
def wordAt (x : Block) (j : Nat) : Nat :=
  x (4 * j) + 256 * x (4 * j + 1) + 65536 * x (4 * j + 2) + 16777216 * x (4 * j + 3)

/-- Write the `j`-th word of a block. -/
def putWord (x : Block) (j v : Nat) : Block :=
  fun o => if o / 4 = j then v / 256 ^ (o % 4) % 256 else x o

/-- Write bytes from an offset on. -/
def overwrite (x : Nat → Nat) (o : Nat) (bs : List Nat) : Nat → Nat :=
  fun y => if o ≤ y ∧ y < o + bs.length then bs.getD (y - o) 0 else x y

@[simp] theorem wordAt_zeroes (j : Nat) : wordAt zeroes j = 0 := rfl

theorem wordAt_putWord_self (x : Block) (j : Nat) {v : Nat} (hv : v < 0x100000000) :
    wordAt (putWord x j v) j = v := by
  have h₀ : 4 * j / 4 = j ∧ 4 * j % 4 = 0 := by omega
  have h₁ : (4 * j + 1) / 4 = j ∧ (4 * j + 1) % 4 = 1 := by omega
  have h₂ : (4 * j + 2) / 4 = j ∧ (4 * j + 2) % 4 = 2 := by omega
  have h₃ : (4 * j + 3) / 4 = j ∧ (4 * j + 3) % 4 = 3 := by omega
  simp only [wordAt, putWord, h₀, h₁, h₂, h₃, if_true, Nat.reducePow]
  omega

theorem wordAt_putWord_of_ne (x : Block) {j j' : Nat} (v : Nat) (hne : j' ≠ j) :
    wordAt (putWord x j v) j' = wordAt x j' := by
  have h₀ : ¬ 4 * j' / 4 = j := by omega
  have h₁ : ¬ (4 * j' + 1) / 4 = j := by omega
  have h₂ : ¬ (4 * j' + 2) / 4 = j := by omega
  have h₃ : ¬ (4 * j' + 3) / 4 = j := by omega
  simp only [wordAt, putWord, h₀, h₁, h₂, h₃, if_false]

@[simp] theorem overwrite_nil (x : Nat → Nat) (o : Nat) : overwrite x o [] = x := by
  funext y
  rw [overwrite, if_neg (by simp)]

/-- Bytes written one after the other. -/
theorem overwrite_overwrite (x : Nat → Nat) (o : Nat) (as bs : List Nat) :
    overwrite (overwrite x o as) (o + as.length) bs = overwrite x o (as ++ bs) := by
  funext y
  simp only [overwrite, List.length_append]
  by_cases hb : o + as.length ≤ y ∧ y < o + as.length + bs.length
  · rw [if_pos hb, if_pos (by omega), List.getD_append_right _ _ _ _ (by omega)]
    congr 1
    omega
  · rw [if_neg hb]
    by_cases ha : o ≤ y ∧ y < o + as.length
    · rw [if_pos ha, if_pos (by omega), List.getD_append _ _ _ _ (by omega)]
    · rw [if_neg ha, if_neg (by omega)]

/-! ## Inodes -/

/-- The type of an inode; `none` is the type `0` of a free one. -/
inductive Kind where
  | none
  | dir
  | file
  | dev
  deriving DecidableEq, Repr

/-- `struct dinode`, and the copy of it in `struct inode`. -/
structure Dinode where
  type : Kind
  major : Int
  minor : Int
  nlink : Int
  size : Nat
  addrs : Nat → Nat

/-- A cleared inode. -/
def Dinode.zero : Dinode := ⟨.none, 0, 0, 0, 0, fun _ => 0⟩

/-- Write a word of `addrs`. -/
def Dinode.setAddr (d : Dinode) (k b : Nat) : Dinode :=
  { d with addrs := Function.update d.addrs k b }

@[simp] theorem Dinode.setAddr_addrs (d : Dinode) (k b : Nat) :
    (d.setAddr k b).addrs = Function.update d.addrs k b := rfl

/-- How many words an inode has, with those of its indirect block. -/
def nwords : Nat := NDIRECT + 1 + NINDIRECT

/-- The words of an inode: those of `addrs`, and then those of its indirect block. -/
def word (data : Nat → Block) (d : Dinode) (k : Nat) : Nat :=
  if k ≤ NDIRECT then d.addrs k
  else if d.addrs NDIRECT ≠ 0 ∧ k < nwords then wordAt (data (d.addrs NDIRECT)) (k - (NDIRECT + 1))
  else 0

/-- The word that names the `bn`-th block of a file. -/
def place (bn : Nat) : Nat := if bn < NDIRECT then bn else bn + 1

/-- The `bn`-th block of a file, or zero. -/
def slot (data : Nat → Block) (d : Dinode) (bn : Nat) : Nat := word data d (place bn)

/-- The bytes of a file. -/
def contents (data : Nat → Block) (d : Dinode) (o : Nat) : Nat :=
  if slot data d (o / BSIZE) = 0 then 0 else data (slot data d (o / BSIZE)) (o % BSIZE)

/-- The block a word names. -/
def named (v : Nat) : Option Nat := if v = 0 then none else some v

/-- **The blocks an inode refers to.** -/
def refs (data : Nat → Block) (d : Dinode) : List Nat :=
  (List.range nwords).filterMap fun k => named (word data d k)

section

variable {data data' : Nat → Block} {d d' : Dinode} {b bn bn' k k' o v : Nat}

@[simp] theorem named_zero : named 0 = none := rfl

theorem named_of_ne (h : v ≠ 0) : named v = some v := if_neg h

theorem named_eq_some : named v = some b ↔ v = b ∧ b ≠ 0 := by
  rw [named]
  split
  · rename_i h
    exact ⟨nofun, fun hb => absurd (hb.1 ▸ h) hb.2⟩
  · rename_i h
    exact ⟨fun hb => Option.some.inj hb ▸ ⟨rfl, h⟩, fun hb => congrArg some hb.1⟩

theorem place_injective (h : place bn' = place bn) : bn' = bn := by
  rw [place, place] at h
  split at h <;> split at h <;> omega

theorem place_ne_indirect : place bn ≠ NDIRECT := by
  rw [place]
  split <;> omega

theorem word_of_le (h : k ≤ NDIRECT) : word data d k = d.addrs k := if_pos h

theorem slot_of_lt (h : bn < NDIRECT) : slot data d bn = d.addrs bn := by
  rw [slot, place, if_pos h, word_of_le h.le]

/-- A block that the indirect block names. -/
theorem slot_of_le (hbn : ¬ bn < NDIRECT) (h : slot data d bn ≠ 0) : d.addrs NDIRECT ≠ 0
    ∧ bn - NDIRECT < NINDIRECT ∧ slot data d bn = wordAt (data (d.addrs NDIRECT)) (bn - NDIRECT) := by
  have hk : ¬ bn + 1 ≤ NDIRECT := by omega
  rw [slot, place, if_neg hbn, word, if_neg hk, Nat.add_sub_add_right] at h ⊢
  split at h
  · rename_i hi
    have hlt := hi.2
    rw [nwords] at hlt
    exact ⟨hi.1, by omega, if_pos hi⟩
  · exact absurd rfl h

theorem lt_of_word_ne (h : word data d k ≠ 0) : k < nwords := by
  rw [word] at h
  split at h
  · rw [nwords]
    omega
  · split at h
    · exact (‹_ ∧ _› : _ ∧ _).2
    · exact absurd rfl h

theorem mem_refs : b ∈ refs data d ↔ b ≠ 0 ∧ ∃ k, word data d k = b := by
  simp only [refs, List.mem_filterMap, List.mem_range, named_eq_some]
  constructor
  · rintro ⟨k, -, hw, hb⟩
    exact ⟨hb, k, hw⟩
  · rintro ⟨hb, k, rfl⟩
    exact ⟨k, lt_of_word_ne hb, rfl, hb⟩

theorem word_mem_refs (h : word data d k ≠ 0) : word data d k ∈ refs data d :=
  mem_refs.mpr ⟨h, k, rfl⟩

theorem slot_mem_refs (h : slot data d bn ≠ 0) : slot data d bn ∈ refs data d := word_mem_refs h

theorem addr_mem_refs (hk : k ≤ NDIRECT) (h : d.addrs k ≠ 0) : d.addrs k ∈ refs data d :=
  mem_refs.mpr ⟨h, k, word_of_le hk⟩

theorem zero_notMem_refs : 0 ∉ refs data d := fun h => (mem_refs.mp h).1 rfl

/-- A block is named by one word. -/
theorem word_injective (hn : (refs data d).Nodup) (h : word data d k ≠ 0)
    (he : word data d k' = word data d k) : k' = k := by
  have hk' : k' < nwords := lt_of_word_ne (he.trans_ne h)
  exact Ledger.eq_of_filterMap_nodup hn (List.mem_range.mpr hk') (List.mem_range.mpr (lt_of_word_ne h))
    ((congrArg named he).trans (named_of_ne h)) (named_of_ne h)

/-- The indirect block is not a block of the file. -/
theorem slot_ne_indirect (hn : (refs data d).Nodup) (h : slot data d bn ≠ 0) :
    slot data d bn ≠ d.addrs NDIRECT := fun he => by
  rw [← word_of_le (le_refl NDIRECT)] at he
  exact place_ne_indirect (word_injective hn (he ▸ h) he)

/-- The words depend on the data through the indirect block alone. -/
theorem word_congr (h : d.addrs NDIRECT ≠ 0 → data' (d.addrs NDIRECT) = data (d.addrs NDIRECT)) :
    word data' d = word data d := by
  funext k
  rw [word, word]
  split
  · rfl
  · split
    · rename_i hne
      rw [h hne.1]
    · rfl

/-- …and on the inode through `addrs`. -/
theorem word_of_addrs (h : d'.addrs = d.addrs) : word data d' = word data d := by
  funext k
  rw [word, word, h]

/-- An inode none of whose blocks changes. -/
theorem word_of_same (h : ∀ b ∈ refs data d, data' b = data b) : word data' d = word data d :=
  word_congr fun hne => h _ (addr_mem_refs le_rfl hne)

theorem refs_congr (h : word data' d' = word data d) : refs data' d' = refs data d := by
  rw [refs, refs, h]

theorem slot_congr (h : word data' d' = word data d) : slot data' d' = slot data d := by
  funext bn
  rw [slot, slot, h]

theorem contents_congr (h : word data d' = word data d) : contents data d' = contents data d := by
  funext o
  rw [contents, contents, slot_congr h]

theorem contents_of_same (h : ∀ b ∈ refs data d, data' b = data b) :
    contents data' d = contents data d := by
  funext o
  rw [contents, contents, slot_congr (word_of_same h)]
  split
  · rfl
  · rename_i hne
    rw [h _ (slot_mem_refs hne)]

/-! ## Changes

A fresh block is given to a word of `addrs`, or to a word of the indirect block; neither changes a
byte of the file.  Or the bytes of a block are written. -/

/-- **Word `k` is given the fresh block `b`**, and the blocks of the file keep their bytes. -/
structure Grant (data : Nat → Block) (d : Dinode) (data' : Nat → Block) (d' : Dinode) (k b : Nat) :
    Prop where
  lt : k < nwords
  empty : word data d k = 0
  ne : b ≠ 0
  word : ∀ x, word data' d' x = if x = k then b else word data d x
  zero : data' b = zeroes
  same : ∀ bn, slot data d bn ≠ 0 → data' (slot data d bn) = data (slot data d bn)

theorem Grant.refs (h : Grant data d data' d' k b) : (refs data' d').Perm (b :: refs data d) := by
  refine Ledger.filterMap_perm_cons List.nodup_range (List.mem_range.mpr h.lt) ?_ ?_ fun x _ hx => ?_
  · rw [h.empty, named_zero]
  · rw [h.word, if_pos rfl, named_of_ne h.ne]
  · rw [h.word, if_neg hx]

theorem Grant.slot (h : Grant data d data' d' k b) :
    slot data' d' bn = if place bn = k then b else slot data d bn := h.word _

theorem Grant.contents (h : Grant data d data' d' k b) : contents data' d' = contents data d := by
  funext o
  rw [Fs.contents, Fs.contents, h.slot]
  by_cases hk : place (o / BSIZE) = k
  · have hold : Fs.slot data d (o / BSIZE) = 0 := by rw [Fs.slot, hk, h.empty]
    rw [if_pos hk, if_neg h.ne, h.zero, if_pos hold]
    rfl
  · rw [if_neg hk]
    split
    · rfl
    · rw [h.same _ ‹_›]

/-- A fresh block is none of the file's. -/
theorem update_slot (hb : b ∉ refs data d) (x : Block) (h : slot data d bn ≠ 0) :
    Function.update data b x (slot data d bn) = data (slot data d bn) :=
  Function.update_of_ne (fun he : slot data d bn = b => hb (he ▸ slot_mem_refs h)) _ _

/-- **A word of `addrs` is given a block.** -/
theorem grant_addr (hk : k ≤ NDIRECT) (h₀ : d.addrs k = 0) (hb : b ∉ refs data d) (hb₀ : b ≠ 0) :
    Grant data d (Function.update data b zeroes) (d.setAddr k b) k b where
  lt := by
    rw [nwords]
    omega
  empty := (word_of_le hk).trans h₀
  ne := hb₀
  word x := by
    rw [Fs.word, Fs.word, Dinode.setAddr_addrs]
    by_cases hx : x ≤ NDIRECT
    · rw [if_pos hx, if_pos hx, Function.update_apply]
    · have hxk : x ≠ k := by omega
      rw [if_neg hx, if_neg hx, if_neg hxk]
      by_cases hki : k = NDIRECT
      · subst hki
        rw [Function.update_self, Function.update_self, h₀]
        simp
      · rw [Function.update_of_ne (Ne.symm hki)]
        split
        · rename_i hi
          have hne : d.addrs NDIRECT ≠ b := fun he => hb (he ▸ addr_mem_refs le_rfl hi.1)
          rw [Function.update_of_ne hne]
        · rfl
  zero := Function.update_self _ _ _
  same _ h := update_slot hb _ h

/-- **A word of the indirect block is given a block.** -/
theorem grant_indirect {j : Nat} (hj : j < NINDIRECT) (hi : d.addrs NDIRECT ≠ 0)
    (h₀ : wordAt (data (d.addrs NDIRECT)) j = 0) (hn : (refs data d).Nodup) (hb : b ∉ refs data d)
    (hb₀ : b ≠ 0) (hb' : b < 0x100000000) (hd : data' = Function.update data b zeroes) :
    Grant data d (Function.update data' (d.addrs NDIRECT) (putWord (data' (d.addrs NDIRECT)) j b)) d
      (NDIRECT + 1 + j) b := by
  have hne : d.addrs NDIRECT ≠ b := fun he => hb (he ▸ addr_mem_refs le_rfl hi)
  have hind : data' (d.addrs NDIRECT) = data (d.addrs NDIRECT) := by
    rw [hd, Function.update_of_ne hne]
  have hlt : NDIRECT + 1 + j < nwords := by
    rw [nwords]
    omega
  rw [hind]
  refine ⟨hlt, ?_, hb₀, fun x => ?_, ?_, fun bn h => ?_⟩
  · rw [word, if_neg (by omega), if_pos ⟨hi, hlt⟩, Nat.add_sub_cancel_left]
    exact h₀
  · rw [word, word]
    by_cases hx : x ≤ NDIRECT
    · rw [if_pos hx, if_pos hx, if_neg (by omega)]
    · rw [if_neg hx, if_neg hx]
      by_cases hxw : d.addrs NDIRECT ≠ 0 ∧ x < nwords
      · rw [if_pos hxw, if_pos hxw, Function.update_self]
        by_cases hxj : x = NDIRECT + 1 + j
        · rw [if_pos hxj, hxj, Nat.add_sub_cancel_left, wordAt_putWord_self _ _ hb']
        · rw [if_neg hxj, wordAt_putWord_of_ne _ _ (by omega)]
      · rw [if_neg hxw, if_neg hxw, if_neg]
        rintro rfl
        exact hxw ⟨hi, hlt⟩
  · rw [Function.update_of_ne hne.symm, hd, Function.update_self]
  · rw [Function.update_of_ne (slot_ne_indirect hn h), hd, update_slot hb _ h]

/-- **The bytes of a block are written.** -/
theorem contents_overwrite (hn : (refs data d).Nodup) (h : slot data d bn ≠ 0) {bs : List Nat}
    (ho : o + bs.length ≤ BSIZE) :
    contents (Function.update data (slot data d bn) (overwrite (data (slot data d bn)) o bs)) d
      = overwrite (contents data d) (bn * BSIZE + o) bs := by
  have hne := (slot_ne_indirect hn h).symm
  have hslot : slot (Function.update data (slot data d bn) (overwrite (data (slot data d bn)) o bs)) d
      = slot data d := slot_congr (word_congr fun _ => Function.update_of_ne hne _ _)
  funext y
  rw [contents, hslot, overwrite, contents]
  by_cases hy : y / BSIZE = bn
  · subst hy
    rw [if_neg h, if_neg h, Function.update_self, overwrite]
    have hmod := Nat.div_add_mod' y BSIZE
    by_cases hin : o ≤ y % BSIZE ∧ y % BSIZE < o + bs.length
    · rw [if_pos hin, if_pos (by omega)]
      congr 1
      omega
    · rw [if_neg hin, if_neg (by omega)]
  · have hout : ¬ (bn * BSIZE + o ≤ y ∧ y < bn * BSIZE + o + bs.length) := fun hin => by
      refine hy (Nat.div_eq_of_lt_le ?_ ?_)
      · omega
      · rw [Nat.succ_mul]
        omega
    rw [if_neg hout]
    split
    · rfl
    · rename_i hs
      have hother : slot data d (y / BSIZE) ≠ slot data d bn := fun he =>
        hy (place_injective (word_injective hn h he))
      rw [Function.update_of_ne hother]

end

end Xv6.Fs

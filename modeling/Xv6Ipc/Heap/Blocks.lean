import Xv6Ipc.Machinery.Tiling
import Xv6Ipc.Heap.Umalloc
import Mathlib.Data.List.Chain

/-!
# Heap/Blocks — the heap as a row of blocks

What the allocator keeps, said without pointers: the heap is cut into blocks that follow one another
from its start to its end, each free or in a caller's hands, and no two free ones side by side.

    lo                                                       brk
    │ free │ live │ live │   free    │ live │  free  │ live  │
      p₁                    p₂                  p₃

The ring is then nothing but `base` and the free blocks in this order, and the headers say how long the
blocks are.
-/

namespace Xv6.Heap

open Chain Tiling

/-- Where a program has its static header and where its heap begins: `exec` puts the data of a program
below its heap. -/
structure Site where
  base : Nat
  lo : Nat
  base_pos : 0 < base
  base_below : base + 8 ≤ lo
  lo_lt : lo < 2 ^ 32

/-- A block, its header included: `units` times eight bytes from `addr` on. -/
structure Block where
  addr : Nat
  units : Nat
  free : Bool
  deriving DecidableEq, Repr

/-- Where a block ends. -/
def Block.stop (b : Block) : Nat := b.addr + 8 * b.units

/-- Two blocks that may stand side by side. -/
def Block.Settled (a b : Block) : Prop := ¬ (a.free = true ∧ b.free = true)

/-- The free blocks of a row, by their addresses. -/
def gaps (l : List Block) : List Nat := (l.filter Block.free).map Block.addr

/-- The blocks of a row that callers have. -/
def held (l : List Block) : List Block := l.filter fun b => !b.free

section Rows

variable {l l' : List Block} {b : Block}

@[simp] theorem gaps_nil : gaps [] = [] := rfl

@[simp] theorem gaps_append : gaps (l ++ l') = gaps l ++ gaps l' := by
  simp [gaps]

@[simp] theorem gaps_cons_free (h : b.free = true) : gaps (b :: l) = b.addr :: gaps l := by
  simp [gaps, h]

@[simp] theorem gaps_cons_live (h : b.free = false) : gaps (b :: l) = gaps l := by
  simp [gaps, h]

theorem mem_gaps {a : Nat} : a ∈ gaps l ↔ ∃ b ∈ l, b.free = true ∧ b.addr = a := by
  simp [gaps, and_assoc]

@[simp] theorem held_nil : held [] = [] := rfl

@[simp] theorem held_append : held (l ++ l') = held l ++ held l' := by
  simp [held]

@[simp] theorem held_cons_free (h : b.free = true) : held (b :: l) = held l := by
  simp [held, h]

@[simp] theorem held_cons_live (h : b.free = false) : held (b :: l) = b :: held l := by
  simp [held, h]

theorem mem_held : b ∈ held l ↔ b ∈ l ∧ b.free = false := by
  simp [held]

/-- The ring up to a block has a last header. -/
theorem exists_last (o : Nat) : ∃ us q, o :: gaps l = us ++ [q] := by
  rcases List.eq_nil_or_concat (o :: gaps l) with hnil | ⟨us, q, hq⟩
  · cases hnil
  · exact ⟨us, q, hq.trans List.concat_eq_append⟩

theorem Block.settled_of_live {a b : Block} (h : b.free = false) : a.Settled b :=
  fun hboth => Bool.false_ne_true (h.symm.trans hboth.2)

theorem Block.settled_live {a b : Block} (h : a.free = false) : a.Settled b :=
  fun hboth => Bool.false_ne_true (h.symm.trans hboth.1)

end Rows

/-- A change of memory that leaves a block alone. -/
def Spares (b : Block) (m m' : Bytes) : Prop := ∀ x, b.addr ≤ x → x < b.stop → m' x = m x

theorem Spares.trans {b : Block} {m m' m'' : Bytes} (h : Spares b m m') (h' : Spares b m' m'') :
    Spares b m m'' := fun x hlo hhi => (h' x hlo hhi).trans (h x hlo hhi)

/-- **The row of blocks a heap consists of**, once `freep` is set. -/
structure Laid (S : Site) (h : Arena) (l : List Block) : Prop where
  tiles : Tiles Block.addr Block.stop S.lo l h.brk
  brk_lt : h.brk < 2 ^ 32
  size : ∀ b ∈ l, size h.mem b.addr = b.units
  base : Heap.size h.mem S.base = 0
  settled : l.IsChain Block.Settled
  ring : Seg id (ptr h.mem) S.base (S.base :: gaps l) S.base
  freep : h.freep ∈ S.base :: gaps l

/-! ## Blocks in a row -/

section Tiles

variable {S : Site} {l : List Block} {brk : Nat} {a b : Block}
  (ht : Tiles Block.addr Block.stop S.lo l brk)
include ht

theorem units_pos (hb : b ∈ l) : 0 < b.units := by
  have := ht.pos b hb
  rw [Block.stop] at this
  omega

/-- The headers of two blocks lie apart… -/
theorem apart_of_ne (ha : a ∈ l) (hb : b ∈ l) (hne : a.addr ≠ b.addr) : Apart a.addr b.addr := by
  have hau := units_pos ht ha
  have hbu := units_pos ht hb
  rcases ht.eq_or_apart ha hb with rfl | h | h
  · exact absurd rfl hne
  · exact .inl (by rw [Block.stop] at h; omega)
  · exact .inr (by rw [Block.stop] at h; omega)

/-- …also from the static one. -/
theorem base_apart (hb : b ∈ l) : Apart S.base b.addr :=
  .inl (Nat.le_trans S.base_below (ht.within hb).1)

theorem base_lt (hb : b ∈ l) : S.base < b.addr := by
  have h := Nat.le_trans S.base_below (ht.within hb).1
  omega

/-- **The ring goes up**, from `base` to the last free block. -/
theorem ring_sorted : (S.base :: gaps l).Pairwise (· < ·) := by
  refine .cons (fun a ha => ?_) ?_
  · obtain ⟨b, hb, -, rfl⟩ := mem_gaps.mp ha
    exact base_lt ht hb
  · refine List.pairwise_map.mpr (List.Pairwise.filter _ ?_)
    refine List.Pairwise.imp_of_mem ?_ ht.pairwise
    intro a b ha _ hle
    exact Nat.lt_of_lt_of_le (ht.pos a ha) hle

/-- A header of the ring and that of another block lie apart… -/
theorem ring_apart_block {p : Nat} (hp : p ∈ S.base :: gaps l) (hb : b ∈ l) (hne : p ≠ b.addr) :
    Apart p b.addr := by
  rcases List.mem_cons.mp hp with rfl | hp
  · exact base_apart ht hb
  · obtain ⟨a, ha, -, rfl⟩ := mem_gaps.mp hp
    exact apart_of_ne ht ha hb hne

/-- …so do two of the ring… -/
theorem ring_apart {p q : Nat} (hp : p ∈ S.base :: gaps l) (hq : q ∈ S.base :: gaps l)
    (hne : p ≠ q) : Apart p q := by
  rcases List.mem_cons.mp hq with rfl | hq
  · obtain ⟨a, ha, -, rfl⟩ := mem_gaps.mp (List.mem_of_ne_of_mem hne hp)
    exact (base_apart ht ha).symm
  · obtain ⟨b, hb, -, rfl⟩ := mem_gaps.mp hq
    exact ring_apart_block ht hp hb hne

/-- …and one of the ring and that of a live block. -/
theorem ring_apart_live {p : Nat} (hp : p ∈ S.base :: gaps l) (hb : b ∈ l) (hlive : b.free = false) :
    Apart p b.addr := by
  refine ring_apart_block ht hp hb ?_
  rintro rfl
  obtain ⟨a, ha, hfree, heq⟩ := mem_gaps.mp (List.mem_of_ne_of_mem (base_lt ht hb).ne' hp)
  rcases ht.eq_or_apart ha hb with rfl | h | h
  · exact Bool.false_ne_true (hlive.symm.trans hfree)
  · exact absurd (ht.pos a ha) (by omega)
  · exact absurd (ht.pos b hb) (by omega)

/-! ## What a header's write leaves alone -/

section Spares

variable {m m' : Bytes}

/-- A block is not written to through the header of another… -/
theorem spares_block (ha : a ∈ l) (hb : b ∈ l) (hne : a.addr ≠ b.addr) (hw : Writes a.addr m m') :
    Spares b m m' := by
  intro x hlo hhi
  have hau := units_pos ht ha
  refine hw x ?_
  rcases ht.eq_or_apart ha hb with rfl | h | h
  · exact absurd rfl hne
  · exact .inr (by rw [Block.stop] at h; omega)
  · exact .inl (by omega)

/-- …and a live one not through the ring. -/
theorem spares_ring {p : Nat} (hp : p ∈ S.base :: gaps l) (hb : b ∈ l) (hlive : b.free = false)
    (hw : Writes p m m') : Spares b m m' := by
  have hne := ring_apart_live ht hp hb hlive
  rcases List.mem_cons.mp hp with rfl | hp
  · intro x hlo _
    have hle := Nat.le_trans S.base_below (ht.within hb).1
    exact hw x (.inr (by omega))
  · obtain ⟨a, ha, -, rfl⟩ := mem_gaps.mp hp
    exact spares_block ht ha hb hne.ne hw

end Spares

end Tiles

/-! ## Around one block -/

section Around

variable {S : Site} {l₁ l₂ : List Block} {brk : Nat} {b c : Block} {m m' : Bytes}

section Rest

variable (ht : Tiles Block.addr Block.stop S.lo (l₁ ++ b :: l₂) brk)
include ht

/-- What comes before a block lies below it… -/
theorem lt_of_before (hc : c ∈ l₁) : c.addr < b.addr := by
  have hle := (List.pairwise_append.mp ht.pairwise).2.2 c hc b List.mem_cons_self
  exact Nat.lt_of_lt_of_le (ht.pos c (List.mem_append_left _ hc)) hle

/-- …and what comes behind it above. -/
theorem lt_of_behind (hc : c ∈ l₂) : b.addr < c.addr := by
  have hle := (List.pairwise_cons.mp (List.pairwise_append.mp ht.pairwise).2.1).1 c hc
  exact Nat.lt_of_lt_of_le (ht.pos b List.mem_append_cons_self) hle

/-- The headers of the others lie apart from its own. -/
theorem apart_rest (hc : c ∈ l₁ ++ l₂) : Apart b.addr c.addr := by
  have hmem : c ∈ l₁ ++ b :: l₂ := List.perm_middle.mem_iff.mpr (List.mem_cons_of_mem b hc)
  refine apart_of_ne ht List.mem_append_cons_self hmem ?_
  rcases List.mem_append.mp hc with hc | hc
  · exact (lt_of_before ht hc).ne'
  · exact (lt_of_behind ht hc).ne

end Rest

/-- **One header written**: the sizes are right if the new one is. -/
theorem sizes_of_writes (hapart : ∀ c ∈ l₁ ++ l₂, Apart b.addr c.addr) (hw : Writes b.addr m m')
    (hb : size m' b.addr = b.units) (hrest : ∀ c ∈ l₁ ++ l₂, size m c.addr = c.units) :
    ∀ c ∈ l₁ ++ b :: l₂, size m' c.addr = c.units := by
  intro c hc
  rcases List.mem_cons.mp (List.perm_middle.mem_iff.mp hc) with rfl | hc
  · exact hb
  · exact (hw.size (hapart c hc)).trans (hrest c hc)

end Around

end Xv6.Heap

import Xv6Ipc.Heap.Blocks

/-!
# Heap/Free — a block given back

`free` walks the ring until it stands on the header `q` the block belongs behind.  Whatever `freep` is,
it comes there: past the free blocks above the block to the last one, over to `base`, and up again.

    base ─▸ … ─▸ q ─▸ z ─▸ … ─▸ base          q < bp < z, or z = base
                  ╲ ╱
                   bp

Then the block is joined with the one above it, if that is free, and the one below it, if that is.
-/

namespace Xv6.Heap

open Chain Tiling

/-! ## The walk -/

section Scan

variable {m : Bytes} {bp p q o z f : Nat} {u v : List Nat}

/-- Above the block the walk goes on to the end of the ring. -/
theorem freeScan_above (hseg : Seg id (ptr m) p v z) (hv : ∀ x ∈ v, bp < x)
    (hs : v.Pairwise (· < ·)) (hz : z < bp) (fuel : Nat) :
    freeScan m bp (v.length + fuel) p = freeScan m bp fuel z := by
  induction v generalizing p with
  | nil => rw [Seg.nil_iff.mp hseg, List.length_nil, Nat.zero_add]
  | cons x v ih =>
    obtain ⟨rfl, hrest⟩ := Seg.cons_iff_id.mp hseg
    obtain ⟨hp, hv⟩ := List.forall_mem_cons.mp hv
    obtain ⟨hlt, hs⟩ := List.pairwise_cons.mp hs
    -- the next header is higher still, or it is the end
    have hnext : p < ptr m p ∨ ptr m p = z := by
      cases v with
      | nil => exact .inr (Seg.nil_iff.mp hrest)
      | cons y v => exact .inl ((Seg.cons_iff_id.mp hrest).1 ▸ hlt y List.mem_cons_self)
    have hlen : (p :: v).length + fuel = v.length + fuel + 1 := by
      rw [List.length_cons]
      omega
    rw [hlen, freeScan, if_neg (by omega), if_neg (by omega)]
    exact ih hrest hv hs

/-- Below it the walk stops at the last header. -/
theorem freeScan_below (hseg : Seg id (ptr m) p (u ++ [q]) z) (hu : ∀ x ∈ u ++ [q], x < bp)
    (hs : (u ++ [q]).Pairwise (· < ·)) (hz : bp < z ∨ z ≤ q) (fuel : Nat) :
    freeScan m bp (u.length + (fuel + 1)) p = some q := by
  induction u generalizing p with
  | nil =>
    obtain ⟨rfl, hend⟩ := Seg.cons_iff_id.mp hseg
    have hnext : ptr m p = z := Seg.nil_iff.mp hend
    have hp : p < bp := hu p (List.mem_singleton_self p)
    rw [List.length_nil, Nat.zero_add, freeScan, hnext]
    rcases hz with hz | hz
    · rw [if_pos ⟨hp, hz⟩]
    · rw [if_neg (by omega), if_pos ⟨hz, .inl hp⟩]
  | cons x u ih =>
    rw [List.cons_append] at hseg hu hs
    obtain ⟨rfl, hrest⟩ := Seg.cons_iff_id.mp hseg
    obtain ⟨hp, hu⟩ := List.forall_mem_cons.mp hu
    obtain ⟨hlt, hs⟩ := List.pairwise_cons.mp hs
    have hnext : ptr m p ∈ u ++ [q] := by
      cases u with
      | nil | cons y u => exact (Seg.cons_iff_id.mp hrest).1 ▸ List.mem_cons_self
    have hup := hlt _ hnext
    have hbelow := hu _ hnext
    have hlen : (p :: u).length + (fuel + 1) = u.length + (fuel + 1) + 1 := by
      rw [List.length_cons]
      omega
    rw [hlen, freeScan, if_neg (by omega), if_neg (by omega)]
    exact ih hrest hu hs

/-- **The loop of `free` ends**, at the header the block belongs behind. -/
theorem freeScan_ring (hlow : Seg id (ptr m) o (u ++ [q]) z) (hhigh : Seg id (ptr m) z v o)
    (hs : (u ++ [q] ++ v).Pairwise (· < ·)) (hu : ∀ x ∈ u ++ [q], x < bp) (hv : ∀ x ∈ v, bp < x)
    (hf : f ∈ u ++ [q] ++ v) (fuel : Nat) (hfuel : u.length + v.length + 1 ≤ fuel) :
    freeScan m bp fuel f = some q := by
  obtain ⟨hsu, hsv, -⟩ := List.pairwise_append.mp hs
  -- the ring begins with its lowest header
  have ho : o ∈ u ++ [q] ∧ o ≤ q := by
    cases u with
    | nil =>
      obtain rfl := (Seg.cons_iff_id.mp hlow).1
      exact ⟨List.mem_cons_self, Nat.le_refl _⟩
    | cons x u =>
      obtain rfl := (Seg.cons_iff_id.mp hlow).1
      refine ⟨List.mem_cons_self, Nat.le_of_lt ?_⟩
      exact (List.pairwise_cons.mp hsu).1 q (List.mem_append_cons_self)
  have hz : bp < z ∨ z ≤ q := by
    cases v with
    | nil => exact .inr (Seg.nil_iff.mp hhigh ▸ ho.2)
    | cons y v => exact .inl ((Seg.cons_iff_id.mp hhigh).1 ▸ hv y List.mem_cons_self)
  rcases List.mem_append.mp hf with hf | hf
  · -- from below, straight up
    obtain ⟨s₁, s₂, hsplit⟩ := List.append_of_mem hf
    obtain ⟨t, ht⟩ : ∃ t, f :: s₂ = t ++ [q] := by
      rcases List.eq_nil_or_concat (f :: s₂) with h | ⟨t, c, h⟩
      · cases h
      · rw [List.concat_eq_append] at h
        rw [h, ← List.append_assoc] at hsplit
        exact ⟨t, by rw [h, (List.append_inj' hsplit rfl).2]⟩
    rw [hsplit, ht] at hlow hu hsu
    have hlen : s₁.length + t.length = u.length := by
      have := congrArg List.length (hsplit.trans (congrArg (s₁ ++ ·) ht))
      simp only [List.length_append, List.length_singleton] at this
      omega
    obtain ⟨y, -, htail⟩ := Seg.append_iff.mp hlow
    have hy : y = f := by
      rw [← ht] at htail
      exact (Seg.cons_iff_id.mp htail).1
    subst hy
    obtain ⟨k, rfl⟩ : ∃ k, fuel = t.length + (k + 1) := ⟨fuel - t.length - 1, by omega⟩
    exact freeScan_below htail (fun x hx => hu x (List.mem_append_right s₁ hx))
      (List.pairwise_append.mp hsu).2.1 hz k
  · -- from above, over the end
    obtain ⟨s₁, s₂, rfl⟩ := List.append_of_mem hf
    obtain ⟨y, -, htail⟩ := Seg.append_iff.mp hhigh
    obtain rfl : y = f := (Seg.cons_iff_id.mp htail).1
    simp only [List.length_append, List.length_cons] at hfuel
    obtain ⟨k, rfl⟩ : ∃ k, fuel = (y :: s₂).length + (u.length + (k + 1)) :=
      ⟨fuel - (y :: s₂).length - u.length - 1, by rw [List.length_cons]; omega⟩
    rw [freeScan_above htail (fun x hx => hv x (List.mem_append_right s₁ hx))
      (List.pairwise_append.mp hsv).2.1 (hu o ho.1)]
    exact freeScan_below hlow hu hsu hz k

end Scan

/-! ## The two joins

In between, the block points to what comes behind it but is not pointed to. -/

/-- **A block off the ring**, with what is above it settled. -/
structure Loose (S : Site) (brk : Nat) (m : Bytes) (l₁ : List Block) (b : Block) (l₂ : List Block) :
    Prop where
  tiles : Tiles Block.addr Block.stop S.lo (l₁ ++ b :: l₂) brk
  free : b.free = true
  size : ∀ c ∈ l₁ ++ b :: l₂, size m c.addr = c.units
  base : Heap.size m S.base = 0
  lower : l₁.IsChain Block.Settled
  upper : (b :: l₂).IsChain Block.Settled
  low : ∃ z, Seg id (ptr m) S.base (S.base :: gaps l₁) z
  high : Seg id (ptr m) (ptr m b.addr) (gaps l₂) S.base

section Joins

variable {S : Site} {h : Arena} {m : Bytes} {l₁ l₂ : List Block} {b : Block} {brk q : Nat}
  {us : List Nat}

/-- The ring around a live block. -/
theorem Laid.around (hl : Laid S h (l₁ ++ b :: l₂)) (hb : b.free = false) :
    ∃ z, Seg id (ptr h.mem) S.base (S.base :: gaps l₁) z ∧ Seg id (ptr h.mem) z (gaps l₂) S.base := by
  have hring := hl.ring
  rw [gaps_append, gaps_cons_live hb, ← List.cons_append] at hring
  exact Seg.append_iff.mp hring

/-- What the last header of a segment points to. -/
theorem ptr_last {o z : Nat} (hs : Seg id (ptr m) o (us ++ [q]) z) : ptr m q = z := by
  obtain ⟨y, -, htail⟩ := Seg.append_iff.mp hs
  exact Seg.nil_iff.mp (Seg.cons_iff_id.mp htail).2

/-- The header behind a block whose upper neighbour is not free is not where the block ends. -/
theorem next_ne_stop {z y : Nat} (ht : Tiles Block.addr Block.stop y l₂ brk)
    (hz : Seg id (ptr m) z (gaps l₂) S.base) (hy : S.base < y) (hhead : ∀ c ∈ l₂.head?, c.free = false) :
    z ≠ y := by
  rintro rfl
  cases l₂ with
  | nil => exact absurd (Seg.nil_iff.mp hz) (by omega)
  | cons x l =>
    have hx : x.free = false := hhead x rfl
    obtain ⟨rfl, hpos, hrest⟩ := Tiles.cons_iff.mp ht
    rw [gaps_cons_live hx] at hz
    cases hg : gaps l with
    | nil =>
      rw [hg] at hz
      exact absurd (Seg.nil_iff.mp hz) (by omega)
    | cons c cs =>
      rw [hg] at hz
      obtain ⟨d, hd, -, hdc⟩ := mem_gaps.mp (hg ▸ List.mem_cons_self : c ∈ gaps l)
      have hle := (hrest.within hd).1
      have heq := (Seg.cons_iff_id.mp hz).1
      omega

/-- A live block's header is written, and what is above the block is taken into it. -/
theorem Laid.loose {c : Block} {l : List Block} {m' : Bytes} (hl : Laid S h (l₁ ++ b :: l₂))
    (hb : b.free = false) (hw : Writes b.addr h.mem m') (hc : c.addr = b.addr) (hfree : c.free = true)
    (htiles : Tiles Block.addr Block.stop b.addr (c :: l) h.brk) (hsub : ∀ d ∈ l, d ∈ l₂)
    (hsize : Heap.size m' b.addr = c.units) (hupper : (c :: l).IsChain Block.Settled)
    (hhigh : Seg id (ptr h.mem) (ptr m' b.addr) (gaps l) S.base) : Loose S h.brk m' l₁ c l := by
  obtain ⟨z, hlow, -⟩ := hl.around hb
  obtain ⟨y, hbelow, hrest⟩ := Tiles.append_iff.mp hl.tiles
  obtain rfl := (Tiles.cons_iff.mp hrest).1
  have hbmem : b ∈ l₁ ++ b :: l₂ := List.mem_append_cons_self
  have hmem : ∀ d ∈ l₁ ++ l, d ∈ l₁ ++ l₂ := fun d hd =>
    (List.mem_append.mp hd).elim (List.mem_append_left _) fun hd => List.mem_append_right l₁ (hsub d hd)
  have hold : ∀ d ∈ l₁ ++ l, d ∈ l₁ ++ b :: l₂ := fun d hd =>
    List.perm_middle.mem_iff.mpr (List.mem_cons_of_mem b (hmem d hd))
  have hring : ∀ p ∈ S.base :: gaps (l₁ ++ b :: l₂), ptr m' p = ptr h.mem p := fun p hp =>
    hw.ptr (ring_apart_live hl.tiles hp hbmem hb).symm
  refine
    { tiles := Tiles.append_iff.mpr ⟨b.addr, hbelow, htiles⟩
      free := hfree
      size := sizes_of_writes (fun d hd => hc ▸ apart_rest hl.tiles (hmem d hd)) (hc.symm ▸ hw)
        (hc.symm ▸ hsize) fun d hd => hl.size d (hold d hd)
      base := (hw.size (base_apart hl.tiles hbmem).symm).trans hl.base
      lower := (List.isChain_append.mp hl.settled).1
      upper := hupper
      low := ⟨z, hlow.congr fun p hp => hring p ?_⟩
      high := hc ▸ hhigh.congr fun p hp => hring p ?_ }
  · rw [gaps_append, ← List.cons_append]
    exact List.mem_append_left _ hp
  · obtain ⟨d, hd, hfree, rfl⟩ := mem_gaps.mp hp
    exact List.mem_cons_of_mem _ (mem_gaps.mpr ⟨d, hold d (List.mem_append_right l₁ hd), hfree, rfl⟩)

/-- **The first join**: the block takes in a free one above it, or points past it. -/
theorem joinUpper_loose (hl : Laid S h (l₁ ++ b :: l₂)) (hb : b.free = false)
    (hq : S.base :: gaps l₁ = us ++ [q]) :
    Writes b.addr h.mem (joinUpper h.mem b.addr q) ∧
      ∃ c l, Loose S h.brk (joinUpper h.mem b.addr q) l₁ c l ∧ c.addr = b.addr ∧ b.units ≤ c.units ∧
        held l = held l₂ := by
  obtain ⟨z, hlow, hhigh⟩ := hl.around hb
  have hz : ptr h.mem q = z := ptr_last (hq ▸ hlow)
  obtain ⟨y, hbelow, hrest⟩ := Tiles.append_iff.mp hl.tiles
  obtain ⟨rfl, hpos, habove⟩ := Tiles.cons_iff.mp hrest
  have hbmem : b ∈ l₁ ++ b :: l₂ := List.mem_append_cons_self
  have hsize := hl.size b hbmem
  have hbase := base_lt hl.tiles hbmem
  have hbrk := hl.brk_lt
  have hplus : plus b.addr (Heap.size h.mem b.addr) = b.stop := by
    rw [hsize]
    exact plus_of_lt (Nat.lt_of_le_of_lt habove.le hbrk)
  have hchain := (List.isChain_append.mp hl.settled).2.1
  rw [joinUpper, hplus, hz]
  by_cases hjoin : ∀ c ∈ l₂.head?, c.free = false
  · -- nothing to take in
    rw [if_neg (next_ne_stop habove hhigh (Nat.lt_trans hbase hpos) hjoin).symm]
    refine ⟨writes_setPtr, { b with free := true }, l₂, ?_, rfl, Nat.le_refl _, rfl⟩
    refine hl.loose hb writes_setPtr rfl rfl (Tiles.cons_iff.mpr ⟨rfl, hpos, habove⟩) (fun _ hd => hd)
      ?_ ?_ ?_
    · rw [size_setPtr, hsize]
    · exact List.isChain_cons.mpr
        ⟨fun d hd => Block.settled_of_live (hjoin d hd), (List.isChain_cons.mp hchain).2⟩
    · rw [ptr_setPtr (hz ▸ ptr_lt)]
      exact hhigh
  · push Not at hjoin
    obtain ⟨x, hx, hfree⟩ := hjoin
    obtain ⟨l, rfl⟩ := List.head?_eq_some_iff.mp hx
    obtain ⟨hxb, hxpos, hxl⟩ := Tiles.cons_iff.mp habove
    have hxmem : x ∈ l₁ ++ b :: x :: l :=
      List.mem_append_right l₁ (List.mem_cons_of_mem b List.mem_cons_self)
    have hx : x.free = true := Bool.eq_true_of_not_eq_false hfree
    rw [gaps_cons_free hx] at hhigh
    obtain ⟨rfl, hnext⟩ := Seg.cons_iff_id.mp hhigh
    have hsum : u32 (Heap.size h.mem b.addr + Heap.size h.mem x.addr) = b.units + x.units := by
      have hle := hxl.le
      rw [hsize, hl.size x hxmem, u32]
      simp only [Block.stop] at hle hxb
      omega
    have hqmem : q ∈ S.base :: gaps (l₁ ++ b :: x :: l) := by
      rw [gaps_append, ← List.cons_append, hq]
      exact List.mem_append_left _ (List.mem_append_cons_self)
    have hw₁ : Writes b.addr h.mem (setSize h.mem b.addr (b.units + x.units)) := writes_setSize
    have hqptr := (hw₁.ptr (ring_apart_live hl.tiles hqmem hbmem hb).symm).trans hz
    have hxptr := hw₁.ptr (apart_of_ne hl.tiles hbmem hxmem (by omega))
    rw [if_pos hxb]
    simp only [hsum, hqptr, hxptr]
    refine ⟨hw₁.trans writes_setPtr, ⟨b.addr, b.units + x.units, true⟩, l, ?_, rfl, Nat.le_add_right _ _,
      (held_cons_free hx).symm⟩
    refine hl.loose hb (hw₁.trans writes_setPtr) rfl rfl ?_ (fun _ hd => List.mem_cons_of_mem x hd) ?_ ?_ ?_
    · have hcstop : Block.stop ⟨b.addr, b.units + x.units, true⟩ = x.stop := by
        simp only [Block.stop] at hxb ⊢
        omega
      refine Tiles.cons_iff.mpr ⟨rfl, ?_, hcstop ▸ hxl⟩
      rw [hcstop]
      exact Nat.lt_trans hpos (hxb ▸ hxpos)
    · rw [size_setPtr, size_setSize]
      rw [← hsum]
      exact u32_lt _
    · rw [List.isChain_cons_cons] at hchain
      obtain ⟨hhead, htail⟩ := List.isChain_cons.mp hchain.2
      exact List.isChain_cons.mpr ⟨fun d hd hboth => hhead d hd ⟨hx, hboth.2⟩, htail⟩
    · rw [ptr_setPtr ptr_lt]
      exact hnext

/-- The ring the block goes on. -/
theorem Loose.ring_eq (hl : Loose S brk m l₁ b l₂) (hq : S.base :: gaps l₁ = us ++ [q]) :
    S.base :: gaps (l₁ ++ b :: l₂) = us ++ q :: b.addr :: gaps l₂ := by
  rw [gaps_append, gaps_cons_free hl.free, ← List.cons_append, hq, List.append_assoc,
    List.singleton_append]

theorem Loose.before_mem (hl : Loose S brk m l₁ b l₂) (hq : S.base :: gaps l₁ = us ++ [q]) :
    q ∈ S.base :: gaps (l₁ ++ b :: l₂) :=
  hl.ring_eq hq ▸ List.mem_append_cons_self

/-- The header before the block is not the block's. -/
theorem Loose.before_ne (hl : Loose S brk m l₁ b l₂) (hq : S.base :: gaps l₁ = us ++ [q]) :
    q ≠ b.addr := by
  have hsorted := hl.ring_eq hq ▸ ring_sorted hl.tiles
  have hs := (List.pairwise_append.mp hsorted).2.1
  exact ((List.pairwise_cons.mp hs).1 b.addr List.mem_cons_self).ne

/-- What a write to the header before the block leaves. -/
theorem Loose.keeps {m' : Bytes} (hl : Loose S brk m l₁ b l₂) (hq : S.base :: gaps l₁ = us ++ [q])
    (hw : Writes q m m') :
    (∀ d ∈ l₁ ++ b :: l₂, q ≠ d.addr → Heap.size m' d.addr = d.units) ∧
      (q ≠ S.base → Heap.size m' S.base = 0) ∧
      Seg id (ptr m') S.base us q ∧ Seg id (ptr m') (ptr m b.addr) (gaps l₂) S.base := by
  have hqmem := hl.before_mem hq
  have hring := hl.ring_eq hq
  have hsorted := hring ▸ ring_sorted hl.tiles
  obtain ⟨-, hs, hlt⟩ := List.pairwise_append.mp hsorted
  refine ⟨fun d hd hne => ?_, fun hne => ?_, ?_, ?_⟩
  · rw [hw.size (ring_apart_block hl.tiles hqmem hd hne), hl.size d hd]
  · rw [hw.size (ring_apart hl.tiles hqmem List.mem_cons_self hne), hl.base]
  · obtain ⟨z, hlow⟩ := hl.low
    rw [hq] at hlow
    obtain ⟨y, hus, htail⟩ := Seg.append_iff.mp hlow
    obtain rfl := (Seg.cons_iff_id.mp htail).1
    refine hus.congr fun p hp => hw.ptr (ring_apart hl.tiles hqmem ?_ ?_)
    · rw [hring]
      exact List.mem_append_left _ hp
    · exact (hlt p hp y List.mem_cons_self).ne'
  · refine hl.high.congr fun p hp => hw.ptr (ring_apart hl.tiles hqmem ?_ ?_)
    · rw [hring]
      exact List.mem_append_right us (List.mem_cons_of_mem q (List.mem_cons_of_mem _ hp))
    · exact ((List.pairwise_cons.mp hs).1 p (List.mem_cons_of_mem _ hp)).ne

/-- The header before a block whose lower neighbour is not free is not the neighbour's. -/
theorem Loose.before_far (hl : Loose S brk m l₁ b l₂) (hbrk : brk < 2 ^ 32)
    (hq : S.base :: gaps l₁ = us ++ [q]) (hlast : ∀ c ∈ l₁.getLast?, c.free = false) :
    plus q (Heap.size m q) ≠ b.addr := by
  have hbmem : b ∈ l₁ ++ b :: l₂ := List.mem_append_cons_self
  have hbound := (hl.tiles.within hbmem).2
  have hbpos := hl.tiles.pos b hbmem
  have hqmem : q ∈ S.base :: gaps l₁ := hq ▸ List.mem_append_cons_self
  obtain ⟨y, hbelow, hrest⟩ := Tiles.append_iff.mp hl.tiles
  obtain rfl := (Tiles.cons_iff.mp hrest).1
  rcases List.mem_cons.mp hqmem with rfl | hqmem
  · have hlt := base_lt hl.tiles hbmem
    rw [hl.base, plus_of_lt (by omega)]
    omega
  · obtain ⟨d, hd, hfree, rfl⟩ := mem_gaps.mp hqmem
    rcases List.eq_nil_or_concat l₁ with rfl | ⟨l, y, rfl⟩
    · cases hd
    rw [List.concat_eq_append] at *
    have hy : y.free = false := hlast y (by simp)
    -- the free block is not the last of those below
    have hdl : d ∈ l := by
      rcases List.mem_append.mp hd with hd | hd
      · exact hd
      · rw [List.mem_singleton.mp hd] at hfree
        exact absurd (hy.symm.trans hfree) Bool.false_ne_true
    have hle := (List.pairwise_append.mp hbelow.pairwise).2.2 d hdl y List.mem_cons_self
    have hypos := hbelow.pos y (List.mem_append_cons_self)
    have hystop := (hbelow.within (List.mem_append_cons_self : y ∈ l ++ [y])).2
    rw [hl.size d (List.mem_append_left _ hd)]
    have hlt : d.addr + 8 * d.units < b.addr := Nat.lt_of_le_of_lt hle (Nat.lt_of_lt_of_le hypos hystop)
    rw [plus_of_lt (by omega)]
    omega

/-- **The second join**: the free block below takes the block in, or the header before points to it. -/
theorem joinLower_laid (hl : Loose S brk m l₁ b l₂) (hbrk : brk < 2 ^ 32)
    (hq : S.base :: gaps l₁ = us ++ [q]) :
    Writes q m (joinLower m b.addr q) ∧
      ∃ l, Laid S ⟨joinLower m b.addr q, q, brk⟩ l ∧ held l = held l₁ ++ held l₂ ∧
        ∃ c ∈ l, c.free = true ∧ b.units ≤ c.units := by
  have hbmem : b ∈ l₁ ++ b :: l₂ := List.mem_append_cons_self
  have hbaddr : b.addr < 2 ^ 32 :=
    Nat.lt_trans (Nat.lt_of_lt_of_le (hl.tiles.pos b hbmem) (hl.tiles.within hbmem).2) hbrk
  have hapart := ring_apart_block hl.tiles (hl.before_mem hq) hbmem (hl.before_ne hq)
  rw [joinLower]
  by_cases hjoin : ∀ c ∈ l₁.getLast?, c.free = false
  · -- nothing takes it in
    rw [if_neg (hl.before_far hbrk hq hjoin)]
    have hw : Writes q m (setPtr m q b.addr) := writes_setPtr
    obtain ⟨hsize, hbase, hlow, hhigh⟩ := hl.keeps hq hw
    refine ⟨hw, l₁ ++ b :: l₂, ⟨hl.tiles, hbrk, fun d hd => ?_, ?_, ?_, ?_, hl.before_mem hq⟩, ?_, b, hbmem,
      hl.free, Nat.le_refl _⟩
    · rcases eq_or_ne q d.addr with rfl | hne
      · exact size_setPtr.trans (hl.size d hd)
      · exact hsize d hd hne
    · rcases eq_or_ne q S.base with rfl | hne
      · exact size_setPtr.trans hl.base
      · exact hbase hne
    · exact List.isChain_append.mpr
        ⟨hl.lower, hl.upper, fun c hc _ _ => Block.settled_live (hjoin c hc)⟩
    · rw [hl.ring_eq hq]
      refine Seg.append_iff.mpr ⟨q, hlow, Seg.cons_iff_id.mpr ⟨rfl, ?_⟩⟩
      refine Seg.cons_iff_id.mpr ⟨ptr_setPtr hbaddr, ?_⟩
      change Seg id _ (ptr (setPtr m q b.addr) b.addr) _ _
      rw [hw.ptr hapart]
      exact hhigh
    · rw [held_append, held_cons_free hl.free]
  · push Not at hjoin
    obtain ⟨y, hy, hfree⟩ := hjoin
    obtain ⟨l, rfl⟩ := List.getLast?_eq_some_iff.mp hy
    have hy : y.free = true := Bool.eq_true_of_not_eq_false hfree
    obtain ⟨rfl, rfl⟩ : us = S.base :: gaps l ∧ q = y.addr := by
      rw [gaps_append, gaps_cons_free hy, gaps_nil, ← List.cons_append] at hq
      obtain ⟨hus, hlast⟩ := List.append_inj' hq rfl
      exact ⟨hus.symm, (List.cons.inj hlast).1.symm⟩
    have hymem : y ∈ l ++ [y] ++ b :: l₂ :=
      List.mem_append_left _ (List.mem_append_cons_self)
    obtain ⟨o, hbelow, hrest⟩ := Tiles.append_iff.mp hl.tiles
    obtain ⟨rfl, hpos, habove⟩ := Tiles.cons_iff.mp hrest
    obtain ⟨o, hbelow, hlast⟩ := Tiles.append_iff.mp hbelow
    obtain ⟨rfl, hypos, hend⟩ := Tiles.cons_iff.mp hlast
    have hystop : y.stop = b.addr := Tiles.nil_iff.mp hend
    have hplus : plus y.addr (Heap.size m y.addr) = b.addr := by
      rw [hl.size y hymem, ← hystop]
      exact plus_of_lt (show y.stop < 2 ^ 32 from hystop ▸ hbaddr)
    have hsum : u32 (Heap.size m y.addr + Heap.size m b.addr) = y.units + b.units := by
      have hle := habove.le
      rw [hl.size y hymem, hl.size b hbmem, u32]
      simp only [Block.stop] at hle hystop
      omega
    have hw₁ : Writes y.addr m (setSize m y.addr (y.units + b.units)) := writes_setSize
    rw [if_pos hplus]
    simp only [hsum, hw₁.ptr hapart]
    have hw := hw₁.trans (writes_setPtr (v := ptr m b.addr))
    obtain ⟨hsize, hbase, hlow, hhigh⟩ := hl.keeps hq hw
    have hstop : Block.stop ⟨y.addr, y.units + b.units, true⟩ = b.stop := by
      simp only [Block.stop] at hystop ⊢
      omega
    have htiles : Tiles Block.addr Block.stop S.lo (l ++ ⟨y.addr, y.units + b.units, true⟩ :: l₂) brk := by
      refine Tiles.append_iff.mpr ⟨_, hbelow, Tiles.cons_iff.mpr ⟨rfl, ?_, hstop ▸ habove⟩⟩
      rw [hstop]
      exact Nat.lt_trans hypos (hystop ▸ hpos)
    refine ⟨hw, _, ⟨htiles, hbrk, fun d hd => ?_, ?_, ?_, ?_, ?_⟩, ?_, _, List.mem_append_cons_self, rfl,
      Nat.le_add_left _ _⟩
    · refine sizes_of_writes (fun d hd => apart_rest htiles hd) hw ?_ (fun d hd => hl.size d ?_) d hd
      · refine size_setPtr.trans (size_setSize ?_)
        rw [← hsum]
        exact u32_lt _
      · exact ((List.sublist_append_left l [y]).append (List.sublist_cons_self b l₂)).subset hd
    · exact hbase (base_lt hl.tiles hymem).ne'
    · obtain ⟨hl₁, -, hseam⟩ := List.isChain_append.mp hl.lower
      obtain ⟨hhead, hl₂⟩ := List.isChain_cons.mp hl.upper
      refine List.isChain_append.mpr ⟨hl₁, List.isChain_cons.mpr ⟨?_, hl₂⟩, ?_⟩
      · exact fun d hd hboth => hhead d hd ⟨hl.free, hboth.2⟩
      · rintro c hc d ⟨⟩ hboth
        exact hseam c hc y rfl ⟨hboth.1, hy⟩
    · rw [gaps_append, gaps_cons_free rfl, ← List.cons_append]
      refine Seg.append_iff.mpr ⟨_, hlow, Seg.cons_iff_id.mpr ⟨rfl, ?_⟩⟩
      change Seg id _ (ptr (setPtr _ y.addr (ptr m b.addr)) y.addr) _ _
      rw [ptr_setPtr ptr_lt]
      exact hhigh
    · rw [gaps_append, gaps_cons_free rfl]
      exact List.mem_cons_of_mem _ (List.mem_append_cons_self)
    · rw [held_append, held_append, held_cons_free rfl, held_cons_free hy, held_nil, List.append_nil]

/-! ## `free` -/

/-- **A live block is given back**: the loop ends, the heap is a row of blocks again, and no other live
block is written to. -/
theorem free_spec (hl : Laid S h (l₁ ++ b :: l₂)) (hb : b.free = false) :
    ∃ h', (∀ fuel, (gaps (l₁ ++ b :: l₂)).length + 1 ≤ fuel → free fuel (b.addr + 8) h = some h') ∧
      ∃ l, Laid S h' l ∧ held l = held l₁ ++ held l₂ ∧ h'.brk = h.brk ∧
        (∃ c ∈ l, c.free = true ∧ b.units ≤ c.units) ∧
        ∀ c ∈ held l₁ ++ held l₂, Spares c h.mem h'.mem := by
  obtain ⟨us, q, hq⟩ := exists_last (l := l₁) S.base
  obtain ⟨z, hlow, hhigh⟩ := hl.around hb
  obtain ⟨y, hbelow, hrest⟩ := Tiles.append_iff.mp hl.tiles
  obtain ⟨rfl, hpos, habove⟩ := Tiles.cons_iff.mp hrest
  have hbmem : b ∈ l₁ ++ b :: l₂ := List.mem_append_cons_self
  have hring : S.base :: gaps (l₁ ++ b :: l₂) = us ++ [q] ++ gaps l₂ := by
    rw [gaps_append, gaps_cons_live hb, ← List.cons_append, hq]
  have hqmem : q ∈ S.base :: gaps (l₁ ++ b :: l₂) :=
    hring ▸ List.mem_append_left _ (List.mem_append_cons_self)
  have hlt : ∀ x ∈ us ++ [q], x < b.addr := by
    intro x hx
    rcases List.mem_cons.mp (hq ▸ hx : x ∈ S.base :: gaps l₁) with rfl | hx
    · exact base_lt hl.tiles hbmem
    · obtain ⟨c, hc, -, rfl⟩ := mem_gaps.mp hx
      exact lt_of_before hl.tiles hc
  have hgt : ∀ x ∈ gaps l₂, b.addr < x := by
    intro x hx
    obtain ⟨c, hc, -, rfl⟩ := mem_gaps.mp hx
    exact lt_of_behind hl.tiles hc
  have hbrk := Nat.lt_of_le_of_lt habove.le hl.brk_lt
  have hbp : u32 ((b.addr + 8 : Nat) - 8) = b.addr := by
    rw [u32]
    omega
  obtain ⟨hw₁, c, l₂', hloose, hc, hunits, hheld⟩ := joinUpper_loose hl hb hq
  obtain ⟨hw₂, l, hlaid, hheld', d, hd, hdfree, hdunits⟩ := joinLower_laid hloose hl.brk_lt hq
  rw [hc] at hlaid hw₂
  refine ⟨⟨joinLower (joinUpper h.mem b.addr q) b.addr q, q, h.brk⟩, fun fuel hfuel => ?_, l, hlaid,
    hheld ▸ hheld', rfl, ⟨d, hd, hdfree, Nat.le_trans hunits hdunits⟩, fun e he => ?_⟩
  · have hlen := congrArg List.length hring
    simp only [List.length_cons, List.length_append, List.length_nil] at hlen
    have hscan := freeScan_ring (hq ▸ hlow) hhigh (hring ▸ ring_sorted hl.tiles) hlt hgt
      (hring ▸ hl.freep) fuel (by omega)
    simp only [free, hbp, hscan, Option.map_some]
  · obtain ⟨hrest, hlive⟩ := mem_held.mp (held_append ▸ he)
    have hmem : e ∈ l₁ ++ b :: l₂ := List.perm_middle.mem_iff.mpr (List.mem_cons_of_mem b hrest)
    exact (spares_block hl.tiles hbmem hmem (apart_rest hl.tiles hrest).ne hw₁).trans
      (spares_ring hl.tiles hqmem hmem hlive hw₂)

end Joins

end Xv6.Heap

import Xv6Ipc.Heap.Free

/-!
# Heap/Malloc — a block handed out

`malloc` goes round the ring once, from the header behind `freep` to `freep` itself, and takes the first
block that is large enough.  When there is none it asks for more, gives the new block to `free`, and
goes round again: this time there is one, so a call asks at most once.

    freep ─▸ p ─▸ … ─▸ freep          all too small  ⟹  morecore, and round again

What it takes is the upper end of the block it found, so that a block that is not used up keeps its
header and its place on the ring.
-/

namespace Xv6.Heap

open Chain Tiling

variable {S : Site} {h : Arena} {l l₁ l₂ : List Block} {b c : Block} {n p prevp : Nat}

/-! ## Taking a block -/

/-- **A block used up**: the header before it points past it. -/
theorem carve_exact (hl : Laid S h (l₁ ++ c :: l₂)) (hc : c.free = true)
    (hprev : prevp ∈ S.base :: gaps (l₁ ++ c :: l₂)) (hnext : ptr h.mem prevp = c.addr) :
    Laid S { h with mem := setPtr h.mem prevp (ptr h.mem c.addr), freep := prevp }
      (l₁ ++ { c with free := false } :: l₂) := by
  obtain ⟨us, q, hq⟩ := exists_last (l := l₁) S.base
  have hring : S.base :: gaps (l₁ ++ c :: l₂) = us ++ q :: c.addr :: gaps l₂ := by
    rw [gaps_append, gaps_cons_free hc, ← List.cons_append, hq, List.append_assoc, List.singleton_append]
  have hring' : S.base :: gaps (l₁ ++ { c with free := false } :: l₂) = us ++ q :: gaps l₂ := by
    rw [gaps_append, gaps_cons_live rfl, ← List.cons_append, hq, List.append_assoc,
      List.singleton_append]
  have hsorted := hring ▸ ring_sorted hl.tiles
  have hseg := hring ▸ hl.ring
  obtain ⟨y, hlow, htail⟩ := Seg.append_iff.mp hseg
  obtain ⟨rfl, htail⟩ := Seg.cons_iff_id.mp htail
  obtain ⟨hy, hhigh⟩ := Seg.cons_iff_id.mp htail
  -- only one header points to the block
  obtain rfl : prevp = y :=
    hseg.next_inj (hsorted.imp Nat.ne_of_lt) (hring ▸ hprev)
      (List.mem_append_cons_self) (hnext.trans hy.symm)
  obtain ⟨-, hs, hlt⟩ := List.pairwise_append.mp hsorted
  have hw : Writes prevp h.mem (setPtr h.mem prevp (ptr h.mem c.addr)) := writes_setPtr
  obtain ⟨o, hbelow, hrest⟩ := Tiles.append_iff.mp hl.tiles
  have hsize : ∀ d ∈ l₁ ++ c :: l₂, Heap.size (setPtr h.mem prevp (ptr h.mem c.addr)) d.addr = d.units := by
    intro d hd
    rw [← hl.size d hd]
    rcases eq_or_ne prevp d.addr with rfl | hne
    · exact size_setPtr
    · exact hw.size (ring_apart_block hl.tiles hprev hd hne)
  refine ⟨Tiles.append_iff.mpr ⟨o, hbelow, ?_⟩, hl.brk_lt, fun d hd => ?_, ?_, ?_, ?_, ?_⟩
  · obtain ⟨ho, hpos, habove⟩ := Tiles.cons_iff.mp hrest
    exact Tiles.cons_iff.mpr ⟨ho, hpos, habove⟩
  · rcases List.mem_append.mp hd with hd | hd
    · exact hsize d (List.mem_append_left _ hd)
    rcases List.mem_cons.mp hd with rfl | hd
    · exact hsize c (List.mem_append_cons_self)
    · exact hsize d (List.mem_append_right l₁ (List.mem_cons_of_mem c hd))
  · rcases eq_or_ne prevp S.base with rfl | hne
    · exact size_setPtr.trans hl.base
    · exact (hw.size (ring_apart hl.tiles hprev List.mem_cons_self hne)).trans hl.base
  · obtain ⟨hl₁, hrest, -⟩ := List.isChain_append.mp hl.settled
    refine List.isChain_append.mpr ⟨hl₁, List.isChain_cons.mpr ⟨?_, (List.isChain_cons.mp hrest).2⟩, ?_⟩
    · exact fun d _ => Block.settled_live rfl
    · rintro d _ _ ⟨⟩
      exact Block.settled_of_live rfl
  · rw [hring']
    refine Seg.append_iff.mpr ⟨prevp, hlow.congr fun d hd => ?_, Seg.cons_iff_id.mpr ⟨rfl, ?_⟩⟩
    · refine hw.ptr (ring_apart hl.tiles hprev ?_ (hlt d hd prevp List.mem_cons_self).ne')
      rw [hring]
      exact List.mem_append_left _ hd
    · change Seg id _ (ptr (setPtr h.mem prevp (ptr h.mem c.addr)) prevp) _ _
      rw [ptr_setPtr ptr_lt]
      refine hhigh.congr fun d hd => hw.ptr (ring_apart hl.tiles hprev ?_ ?_)
      · rw [hring]
        exact List.mem_append_right us (List.mem_cons_of_mem _ (List.mem_cons_of_mem _ hd))
      · exact ((List.pairwise_cons.mp hs).1 d (List.mem_cons_of_mem _ hd)).ne
  · rw [hring']
    exact List.mem_append_cons_self

/-- **A block cut in two**: the lower part stays on the ring, the upper part is taken. -/
theorem carve_split (hl : Laid S h (l₁ ++ c :: l₂)) (hc : c.free = true) (hn : 0 < n)
    (hfit : n < c.units) (hprev : prevp ∈ S.base :: gaps (l₁ ++ c :: l₂)) :
    Laid S { h with mem := setSize (setSize h.mem c.addr (c.units - n)) (c.addr + 8 * (c.units - n)) n,
                    freep := prevp }
      (l₁ ++ ⟨c.addr, c.units - n, true⟩ :: ⟨c.addr + 8 * (c.units - n), n, false⟩ :: l₂) := by
  set low : Block := ⟨c.addr, c.units - n, true⟩ with hlow
  set cut : Block := ⟨c.addr + 8 * (c.units - n), n, false⟩ with hcut
  have hcmem : c ∈ l₁ ++ c :: l₂ := List.mem_append_cons_self
  have hring : gaps (l₁ ++ low :: cut :: l₂) = gaps (l₁ ++ c :: l₂) := by
    rw [gaps_append, gaps_append, gaps_cons_free hc, gaps_cons_free rfl, gaps_cons_live rfl]
  have hchmem : c.addr ∈ S.base :: gaps (l₁ ++ c :: l₂) :=
    List.mem_cons_of_mem _ (mem_gaps.mpr ⟨c, hcmem, hc, rfl⟩)
  have hstop : cut.stop = c.stop := by
    simp only [Block.stop, hcut]
    omega
  obtain ⟨o, hbelow, hrest⟩ := Tiles.append_iff.mp hl.tiles
  obtain ⟨rfl, hpos, habove⟩ := Tiles.cons_iff.mp hrest
  have htiles : Tiles Block.addr Block.stop S.lo (l₁ ++ low :: cut :: l₂) h.brk := by
    refine Tiles.append_iff.mpr ⟨_, hbelow, Tiles.cons_iff.mpr ⟨rfl, ?_, ?_⟩⟩
    · simp only [Block.stop, hlow]
      omega
    · refine Tiles.cons_iff.mpr ⟨rfl, ?_, hstop ▸ habove⟩
      simp only [Block.stop, hcut]
      omega
  have hlmem : low ∈ l₁ ++ low :: cut :: l₂ := List.mem_append_cons_self
  have hcutmem : cut ∈ l₁ ++ low :: cut :: l₂ :=
    List.mem_append_right l₁ (List.mem_cons_of_mem low List.mem_cons_self)
  have hw₁ : Writes low.addr h.mem (setSize h.mem c.addr (c.units - n)) := writes_setSize
  have hw₂ : Writes cut.addr (setSize h.mem c.addr (c.units - n))
      (setSize (setSize h.mem c.addr (c.units - n)) cut.addr n) := writes_setSize
  have hunits : c.units < 2 ^ 32 := hl.size c hcmem ▸ size_lt
  have hmiddle : l₁ ++ low :: cut :: l₂ = l₁ ++ [low] ++ cut :: l₂ := by rw [List.append_cons]
  have hsize : ∀ d ∈ l₁ ++ low :: l₂, Heap.size (setSize h.mem c.addr (c.units - n)) d.addr = d.units :=
    sizes_of_writes (fun d hd => (apart_rest hl.tiles hd : Apart c.addr d.addr)) hw₁
      (size_setSize (Nat.lt_of_le_of_lt (Nat.sub_le _ _) hunits))
      fun d hd => hl.size d (List.perm_middle.mem_iff.mpr (List.mem_cons_of_mem c hd))
  refine ⟨htiles, hl.brk_lt, ?_, ?_, ?_, ?_, ?_⟩
  · rw [hmiddle] at htiles ⊢
    refine sizes_of_writes (fun d hd => apart_rest htiles hd) hw₂ (size_setSize (Nat.lt_trans hfit hunits)) ?_
    rwa [List.append_assoc, List.singleton_append]
  · rw [← hl.base]
    exact (hw₂.size (base_apart htiles hcutmem).symm).trans (hw₁.size (base_apart htiles hlmem).symm)
  · obtain ⟨hl₁, hrest, hseam⟩ := List.isChain_append.mp hl.settled
    refine List.isChain_append.mpr ⟨hl₁, ?_, ?_⟩
    · rw [List.isChain_cons_cons]
      refine ⟨Block.settled_of_live rfl, List.isChain_cons.mpr ⟨?_, (List.isChain_cons.mp hrest).2⟩⟩
      exact fun d _ => Block.settled_live rfl
    · rintro d hd e ⟨⟩ hboth
      exact hseam d hd c rfl ⟨hboth.1, hc⟩
  · rw [hring]
    refine hl.ring.congr fun d hd => ?_
    refine (hw₂.ptr (ring_apart_live htiles (hring ▸ hd) hcutmem rfl).symm).trans ?_
    rcases eq_or_ne c.addr d with rfl | hne
    · exact ptr_setSize
    · exact hw₁.ptr (ring_apart hl.tiles hchmem hd hne)
  · rw [hring]
    exact hprev

/-- **A block is taken**: a caller gets one of `n` units, the rest of the heap stays a row of blocks, and
no live block is written to. -/
theorem carve_spec (hl : Laid S h l) (hn : 0 < n) (hprev : prevp ∈ S.base :: gaps l)
    (hp : p ∈ S.base :: gaps l) (hnext : ptr h.mem prevp = p) (hfit : n ≤ Heap.size h.mem p) :
    ∃ b l' h', carve n prevp p h = (b.addr + 8, h') ∧ b.free = false ∧ b.units = n ∧ Laid S h' l' ∧
      (held l').Perm (b :: held l) ∧ ∀ d ∈ held l, Spares d h.mem h'.mem := by
  have hne : p ≠ S.base := by
    rintro rfl
    rw [hl.base] at hfit
    omega
  obtain ⟨c, hc, hfree, rfl⟩ := mem_gaps.mp (List.mem_of_ne_of_mem hne hp)
  have hsize := hl.size c hc
  have hcpos := hl.tiles.pos c hc
  have hbound := Nat.lt_of_le_of_lt (hl.tiles.within hc).2 hl.brk_lt
  rw [Block.stop] at hbound hcpos
  obtain ⟨l₁, l₂, rfl⟩ := List.append_of_mem hc
  rcases Nat.eq_or_lt_of_le hfit with heq | hlt
  · refine ⟨{ c with free := false }, _, _, ?_, rfl, ?_, carve_exact hl hfree hprev hnext, ?_,
      fun d hd => spares_ring hl.tiles hprev (mem_held.mp hd).1 (mem_held.mp hd).2 writes_setPtr⟩
    · rw [carve, if_pos heq.symm, plus_of_lt (by omega)]
    · exact hsize.symm.trans heq.symm
    · rw [held_append, held_append, held_cons_free hfree, held_cons_live rfl]
      exact List.perm_middle
  · rw [hsize] at hlt
    refine ⟨⟨c.addr + 8 * (c.units - n), n, false⟩, _, _, ?_, rfl, rfl, carve_split hl hfree hn hlt hprev, ?_,
      fun d hd => ?_⟩
    · rw [carve, if_neg (by omega)]
      simp only [hsize]
      have hcut : plus c.addr (c.units - n) = c.addr + 8 * (c.units - n) := plus_of_lt (by omega)
      rw [size_setSize (by omega), hcut, plus_of_lt (by omega)]
    · rw [held_append, held_append, held_cons_free hfree, held_cons_free rfl, held_cons_live rfl]
      exact List.perm_middle
    · -- both headers lie in the block that is cut
      obtain ⟨hd, hlive⟩ := mem_held.mp hd
      intro x hlo hhi
      have hout : x < c.addr ∨ c.stop ≤ x := by
        rcases hl.tiles.eq_or_apart hc hd with rfl | hle | hle
        · exact absurd (hlive.symm.trans hfree) Bool.false_ne_true
        · exact .inr (Nat.le_trans hle hlo)
        · exact .inl (Nat.lt_of_lt_of_le hhi hle)
      rw [Block.stop] at hout
      exact (writes_setSize x (by omega)).trans (writes_setSize x (by omega))

/-! ## Going round the ring -/

section Walk

variable {grant : Nat → Int → Bool} {w : List Nat} {y : Nat}

/-- **The loop of `malloc`, once round**: it takes the first block that is large enough, or comes to
`freep` and asks for more. -/
theorem mallocLoop_walk (hseg : Seg id (ptr h.mem) p (w ++ [h.freep]) y) (hprev : ptr h.mem prevp = p)
    (hnot : h.freep ∉ w) :
    (∃ q x, q ∈ prevp :: w ∧ x ∈ w ++ [h.freep] ∧ ptr h.mem q = x ∧ n ≤ Heap.size h.mem x ∧
      ∀ fuel, mallocLoop grant n (w.length + (fuel + 1)) prevp p h = some (carve n q x h)) ∨
    ((∀ x ∈ w ++ [h.freep], Heap.size h.mem x < n) ∧
      ∀ fuel, mallocLoop grant n (w.length + (fuel + 1)) prevp p h = (do
        let (p, h) ← morecore grant fuel n h
        if p = 0 then some (0, h) else mallocLoop grant n fuel p (ptr h.mem p) h)) := by
  induction w generalizing prevp p with
  | nil =>
    obtain ⟨rfl, -⟩ := Seg.cons_iff_id.mp hseg
    rcases Nat.lt_or_ge (Heap.size h.mem h.freep) n with hlt | hge
    · refine .inr ⟨fun x hx => ?_, fun fuel => ?_⟩
      · rwa [List.mem_singleton.mp hx]
      · rw [List.length_nil, Nat.zero_add, mallocLoop, if_neg (Nat.not_le.mpr hlt), if_pos rfl]
    · refine .inl ⟨prevp, h.freep, List.mem_cons_self, List.mem_cons_self, hprev, hge, fun fuel => ?_⟩
      rw [List.length_nil, Nat.zero_add, mallocLoop, if_pos hge]
  | cons x w ih =>
    obtain ⟨rfl, hrest⟩ := Seg.cons_iff_id.mp hseg
    have hlen : ∀ fuel, (p :: w).length + (fuel + 1) = w.length + (fuel + 1) + 1 := fun fuel => by
      rw [List.length_cons]
      omega
    rcases Nat.lt_or_ge (Heap.size h.mem p) n with hlt | hge
    · have hne : p ≠ h.freep := fun heq => hnot (heq ▸ List.mem_cons_self)
      have hstep : ∀ fuel, mallocLoop grant n ((p :: w).length + (fuel + 1)) prevp p h =
          mallocLoop grant n (w.length + (fuel + 1)) p (ptr h.mem p) h := fun fuel => by
        rw [hlen, mallocLoop, if_neg (Nat.not_le.mpr hlt), if_neg hne]
      rcases ih hrest rfl fun hmem => hnot (List.mem_cons_of_mem p hmem) with
        ⟨q, z, hq, hz, hqz, hfit, hrun⟩ | ⟨hsmall, hrun⟩
      · exact .inl ⟨q, z, List.mem_cons_of_mem prevp hq, List.mem_cons_of_mem p hz, hqz, hfit,
          fun fuel => (hstep fuel).trans (hrun fuel)⟩
      · exact .inr ⟨List.forall_mem_cons.mpr ⟨hlt, hsmall⟩, fun fuel => (hstep fuel).trans (hrun fuel)⟩
    · refine .inl ⟨prevp, p, List.mem_cons_self, List.mem_cons_self, hprev, hge, fun fuel => ?_⟩
      rw [hlen, mallocLoop, if_pos hge]

/-- The ring from `freep` on, and back to it. -/
theorem Laid.round (hl : Laid S h l) :
    ∃ w, Seg id (ptr h.mem) (ptr h.mem h.freep) (w ++ [h.freep]) (ptr h.mem h.freep) ∧
      h.freep ∉ w ∧ ∀ x, x ∈ w ++ [h.freep] ↔ x ∈ S.base :: gaps l := by
  obtain ⟨u, v, hring⟩ := List.append_of_mem hl.freep
  have hn : (u ++ h.freep :: v).Nodup := hring ▸ (ring_sorted hl.tiles).imp Nat.ne_of_lt
  refine ⟨v ++ u, ?_, ?_, fun x => ?_⟩
  · rw [List.append_assoc]
    exact (hring ▸ hl.ring).rotate
  · obtain ⟨-, hv, hcross⟩ := List.nodup_append.mp hn
    intro hmem
    rcases List.mem_append.mp hmem with hmem | hmem
    · exact (List.nodup_cons.mp hv).1 hmem
    · exact hcross _ hmem _ List.mem_cons_self rfl
  · rw [hring]
    simp only [List.mem_append, List.mem_cons, List.not_mem_nil, or_false]
    tauto

end Walk

/-! ## More memory -/

/-- The heap grown by a block, still off the ring. -/
theorem Laid.extend {nu : Nat} (hl : Laid S h l) (hnu : 0 < nu) (hroom : h.brk + 8 * nu < 2 ^ 32) :
    Laid S ⟨setSize h.mem h.brk nu, h.freep, h.brk + 8 * nu⟩ (l ++ [⟨h.brk, nu, false⟩]) := by
  set new : Block := ⟨h.brk, nu, false⟩ with hnew
  have htiles : Tiles Block.addr Block.stop S.lo (l ++ [new]) (h.brk + 8 * nu) := by
    refine Tiles.append_iff.mpr ⟨h.brk, hl.tiles, Tiles.cons_iff.mpr ⟨rfl, ?_, Tiles.nil_iff.mpr rfl⟩⟩
    simp only [Block.stop, hnew]
    omega
  have hmem : new ∈ l ++ [new] := List.mem_append_cons_self
  have hgaps : gaps (l ++ [new]) = gaps l := by
    rw [gaps_append, gaps_cons_live rfl, gaps_nil, List.append_nil]
  have hw : Writes new.addr h.mem (setSize h.mem h.brk nu) := writes_setSize
  refine ⟨htiles, hroom, ?_, ?_, ?_, ?_, ?_⟩
  · refine sizes_of_writes (fun d hd => apart_rest htiles hd) hw (size_setSize (by omega)) ?_
    rw [List.append_nil]
    exact hl.size
  · exact (hw.size (base_apart htiles hmem).symm).trans hl.base
  · refine List.isChain_append.mpr ⟨hl.settled, List.isChain_singleton new, ?_⟩
    rintro d _ _ ⟨⟩
    exact Block.settled_of_live rfl
  · rw [hgaps]
    refine hl.ring.congr fun p hp => hw.ptr (ring_apart_live htiles ?_ hmem rfl).symm
    rwa [hgaps]
  · rw [hgaps]
    exact hl.freep

theorem Laid.freep_ne (hl : Laid S h l) : h.freep ≠ 0 := by
  have hpos := S.base_pos
  rcases List.mem_cons.mp hl.freep with heq | hmem
  · omega
  · have hlt := (List.pairwise_cons.mp (ring_sorted hl.tiles)).1 _ hmem
    omega

section More

variable (grant : Nat → Int → Bool)

/-- **`morecore` fails and leaves everything as it was, or there is a free block that is large enough.** -/
theorem morecore_spec (hl : Laid S h l) (hn : 8 * n < 2 ^ 31) :
    (∀ fuel, morecore grant fuel n h = some (0, h)) ∨
    ∃ h' l', (∀ fuel, (gaps l).length + 1 ≤ fuel → morecore grant fuel n h = some (h'.freep, h')) ∧
      Laid S h' l' ∧ held l' = held l ∧ (∃ c ∈ l', c.free = true ∧ n ≤ c.units) ∧
      ∀ d ∈ held l, Spares d h.mem h'.mem := by
  set nu := if n < 4096 then 4096 else n with hnu
  have hbig : 4096 ≤ nu ∧ n ≤ nu ∧ 8 * nu < 2 ^ 31 := by
    rw [hnu]
    split <;> omega
  have hamount : i32 (u32 ((nu : Int) * 8)) = 8 * nu := by
    have : u32 ((nu : Int) * 8) = 8 * nu := by
      rw [u32]
      omega
    rw [this, i32, if_pos (by omega)]
    rfl
  have hmore := sbrk_more grant (n := 8 * nu) (by omega) h
  by_cases hgrant : grant h.brk (8 * nu) = true ∧ (h.brk : Int) + 8 * nu < 2 ^ 32
  · have hroom : h.brk + 8 * nu < 2 ^ 32 := by omega
    have hlaid := hl.extend (by omega) hroom
    obtain ⟨h', hrun, l', hl', hheld, -, ⟨c, hc, hfree, hunits⟩, hspares⟩ := free_spec hlaid rfl
    refine .inr ⟨h', l', fun fuel hfuel => ?_, hl', ?_, ⟨c, hc, hfree, Nat.le_trans hbig.2.1 hunits⟩, ?_⟩
    · have hstop : ((h.brk : Int) + 8 * nu).toNat = h.brk + 8 * nu := by omega
      have hp : plus h.brk 1 = h.brk + 8 := plus_of_lt (by omega)
      rw [gaps_append, gaps_cons_live rfl, gaps_nil, List.append_nil] at hrun
      simp only [morecore, ← hnu, hamount, hmore, if_pos hgrant, hstop, hp]
      rw [if_neg (by omega), hrun fuel hfuel]
      rfl
    · rw [hheld, held_nil, List.append_nil]
    · intro d hd
      refine Spares.trans (fun x _ hx => ?_) (hspares d (List.mem_append_left _ hd))
      have hle := (hl.tiles.within (mem_held.mp hd).1).2
      exact writes_setSize x (.inl (Nat.lt_of_lt_of_le hx hle))
  · refine .inl fun fuel => ?_
    simp only [morecore, ← hnu, hamount, hmore, if_neg hgrant, if_pos]

/-- A block of `n` units handed out, out of a row of blocks. -/
structure Handed (S : Site) (n : Nat) (h : Arena) (l : List Block) (b : Block) (h' : Arena) (l' : List Block) :
    Prop where
  live : b.free = false
  units : b.units = n
  laid : Laid S h' l'
  held : (held l').Perm (b :: Heap.held l)
  spares : ∀ d ∈ Heap.held l, Spares d h.mem h'.mem

/-- A ring with a block that is large enough: the loop takes one in a single round. -/
theorem mallocLoop_found (hl : Laid S h l) (hn : 0 < n) (hc : c ∈ l) (hfree : c.free = true)
    (hfit : n ≤ c.units) :
    ∃ N b h' l', Handed S n h l b h' l' ∧
      ∀ fuel, N ≤ fuel → mallocLoop grant n fuel h.freep (ptr h.mem h.freep) h = some (b.addr + 8, h') := by
  obtain ⟨w, hseg, hnot, hmem⟩ := hl.round
  rcases mallocLoop_walk (n := n) hseg rfl hnot with ⟨q, x, hq, hx, hqx, hbig, hrun⟩ | ⟨hsmall, -⟩
  · have hq : q ∈ w ++ [h.freep] := by
      rcases List.mem_cons.mp hq with rfl | hq
      · exact List.mem_append_cons_self
      · exact List.mem_append_left _ hq
    obtain ⟨b, l', h', hcarve, hlive, hunits, hlaid, hheld, hspares⟩ :=
      carve_spec hl hn ((hmem q).mp hq) ((hmem x).mp hx) hqx hbig
    refine ⟨w.length + 1, b, h', l', ⟨hlive, hunits, hlaid, hheld, hspares⟩, fun fuel hfuel => ?_⟩
    obtain ⟨k, rfl⟩ : ∃ k, fuel = w.length + (k + 1) := ⟨fuel - w.length - 1, by omega⟩
    rw [hrun, hcarve]
  · have hring := (hmem c.addr).mpr (List.mem_cons_of_mem _ (mem_gaps.mpr ⟨c, hc, hfree, rfl⟩))
    have hlt := hsmall c.addr hring
    rw [hl.size c hc] at hlt
    omega

/-- **The loop of `malloc` ends**: with a block handed out, or with 0 and nothing changed. -/
theorem mallocLoop_spec (hl : Laid S h l) (hn : 0 < n) (hlt : 8 * n < 2 ^ 31) :
    ∃ N r h', (∀ fuel, N ≤ fuel → mallocLoop grant n fuel h.freep (ptr h.mem h.freep) h = some (r, h')) ∧
      (r = 0 ∧ h' = h ∨ ∃ b l', r = b.addr + 8 ∧ Handed S n h l b h' l') := by
  by_cases hex : ∃ c ∈ l, c.free = true ∧ n ≤ c.units
  · obtain ⟨c, hc, hfree, hfit⟩ := hex
    obtain ⟨N, b, h', l', hhanded, hrun⟩ := mallocLoop_found grant hl hn hc hfree hfit
    exact ⟨N, b.addr + 8, h', hrun, .inr ⟨b, l', rfl, hhanded⟩⟩
  · obtain ⟨w, hseg, hnot, hmem⟩ := hl.round
    rcases mallocLoop_walk (n := n) hseg rfl hnot with ⟨q, x, -, hx, -, hbig, -⟩ | ⟨-, hround⟩
    · -- `base` is too small, and so is every free block
      exfalso
      rcases List.mem_cons.mp ((hmem x).mp hx) with rfl | hx
      · rw [hl.base] at hbig
        omega
      · obtain ⟨c, hc, hfree, rfl⟩ := mem_gaps.mp hx
        exact hex ⟨c, hc, hfree, hl.size c hc ▸ hbig⟩
    rcases morecore_spec grant hl hlt with
      hfail | ⟨h₁, l₁, hmore, hl₁, hheld, ⟨c, hc, hfree, hfit⟩, hspares⟩
    · refine ⟨w.length + 1, 0, h, fun fuel hfuel => ?_, .inl ⟨rfl, rfl⟩⟩
      obtain ⟨k, rfl⟩ : ∃ k, fuel = w.length + (k + 1) := ⟨fuel - w.length - 1, by omega⟩
      rw [hround, hfail]
      rfl
    · obtain ⟨N, b, h', l', hhanded, hrun⟩ := mallocLoop_found grant hl₁ hn hc hfree hfit
      refine ⟨w.length + 1 + (N + (gaps l).length + 1), b.addr + 8, h', fun fuel hfuel => ?_,
        .inr ⟨b, l', rfl, hhanded.live, hhanded.units, hhanded.laid, hheld ▸ hhanded.held, fun d hd => ?_⟩⟩
      · obtain ⟨k, rfl⟩ : ∃ k, fuel = w.length + (k + 1) := ⟨fuel - w.length - 1, by omega⟩
        rw [hround, hmore k (by omega)]
        change (if h₁.freep = 0 then _ else _) = _
        rw [if_neg hl₁.freep_ne, hrun k (by omega)]
      · exact (hspares d hd).trans (hhanded.spares d (hheld ▸ hd))

/-- The ring before the first call. -/
theorem start_laid (hzero : h.freep = 0) (hbrk : h.brk = S.lo) : Laid S (start S.base h) [] := by
  have hbase : S.base < 2 ^ 32 := by
    have h₁ := S.base_below
    have h₂ := S.lo_lt
    omega
  rw [start, if_pos hzero]
  refine ⟨Tiles.nil_iff.mpr hbrk.symm, hbrk ▸ S.lo_lt, fun _ hd => (nomatch hd), size_setSize (by decide),
    .nil, Seg.cons_iff_id.mpr ⟨rfl, Seg.nil_iff.mpr ?_⟩, List.mem_cons_self⟩
  exact ptr_setSize.trans (ptr_setPtr hbase)

/-- …and afterwards. -/
theorem start_of_laid (hl : Laid S h l) : start S.base h = h := if_neg hl.freep_ne

/-- **`malloc` returns**, with a block that is large enough or with 0 and the heap as it was. -/
theorem malloc_spec {nbytes : Nat} (hl : Laid S (start S.base h) l) (hn : nbytes + 15 < 2 ^ 31) :
    ∃ N r h', (∀ fuel, N ≤ fuel → malloc grant S.base fuel nbytes h = some (r, h')) ∧
      (r = 0 ∧ h' = start S.base h ∨
        ∃ b l', r = b.addr + 8 ∧ nbytes + 8 ≤ 8 * b.units ∧ Handed S b.units (start S.base h) l b h' l') := by
  have hunits : u32 ((nbytes : Int) + 8 - 1) / 8 + 1 = (nbytes + 7) / 8 + 1 := by
    rw [u32]
    omega
  obtain ⟨N, r, h', hrun, hend⟩ :=
    mallocLoop_spec grant (n := (nbytes + 7) / 8 + 1) hl (by omega) (by omega)
  refine ⟨N, r, h', fun fuel hfuel => ?_, hend.imp_right ?_⟩
  · simp only [malloc, hunits]
    exact hrun fuel hfuel
  · rintro ⟨b, l', hr, hhanded⟩
    refine ⟨b, l', hr, ?_, hhanded.units ▸ hhanded⟩
    rw [hhanded.units]
    omega

end More

end Xv6.Heap

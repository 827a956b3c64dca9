import Xv6Ipc.Memory.Mappages

/-!
# Memory/Freevm — giving pages back

`deallocuvm` walks a range of pages, frees the frame behind each present one and clears its entry;
`freevm` does so for everything below `SHAREBASE`, then frees the tables and the directory.  Both
are one `Moves` each:

    dirFrames ++ leavesIn lo hi  ──deallocuvm──▸  dirFrames          owned  ──freevm──▸  []
-/

namespace Xv6

/-- The loop of `deallocuvm`.  Where a whole table is missing it goes on at the next directory
index, `PGADDR(PDX(a) + 1, 0, 0)`. -/
def deallocLoop (L : Linker) (pgdir oldsz : Nat) (m : Mem) (a : Nat) : Except Panic Mem :=
  if a < oldsz then
    match walkpgdir m pgdir a false with
    | (none, _) => deallocLoop L pgdir oldsz m ((a / 0x400000 + 1) * 0x400000)
    | (some (t, i), _) =>
      if Present (m.cell t i) then
        if pteFrame (m.cell t i) = 0 then .error .kfree
        else
          match kfree L m (pteFrame (m.cell t i)) with
          | .error e => .error e
          | .ok m => deallocLoop L pgdir oldsz (m.store t i 0) (a + 4096)
      else deallocLoop L pgdir oldsz m (a + 4096)
  else .ok m
termination_by oldsz - a
decreasing_by all_goals omega

/-- `deallocuvm`: the new size and memory. -/
def deallocuvm (L : Linker) (m : Mem) (pgdir oldsz newsz : Nat) : Except Panic (Nat × Mem) :=
  if oldsz ≤ newsz then .ok (oldsz, m)
  else
    match deallocLoop L pgdir oldsz m (pgRoundUp newsz) with
    | .error e => .error e
    | .ok m => .ok (newsz, m)

/-- The second loop of `freevm`, over the directory indices still to come. -/
def freeTables (L : Linker) (pgdir : Nat) : List Nat → Mem → Except Panic Mem
  | [], m => .ok m
  | i :: l, m =>
    if Present (m.cell pgdir i) then
      match kfree L m (pteFrame (m.cell pgdir i)) with
      | .error e => .error e
      | .ok m => freeTables L pgdir l m
    else freeTables L pgdir l m

/-- `freevm`. -/
def freevm (L : Linker) (m : Mem) (pgdir : Nat) : Except Panic Mem :=
  if pgdir = 0 then .error .freevm
  else
    match deallocuvm L m pgdir SHAREBASE 0 with
    | .error e => .error e
    | .ok (_, m) =>
      match freeTables L pgdir (List.range 1024) m with
      | .error e => .error e
      | .ok m => kfree L { m with vmfreed := pgdir :: m.vmfreed } pgdir

/-! ## The frames behind a range of pages -/

/-- The frames behind the pages `lo, …, hi − 1`. -/
def leavesIn (m : Mem) (d lo hi : Nat) : List Nat :=
  (List.range' lo (hi - lo)).filterMap (leafAt m d)

variable {L : Linker} {m m' : Mem} {d lo hi v : Nat}

theorem leaves_eq_leavesIn (m : Mem) (d : Nat) : leaves m d = leavesIn m d 0 0x40000 := by
  rw [leaves_def, leavesIn, List.range_eq_range']

theorem mem_leavesIn {f : Nat} :
    f ∈ leavesIn m d lo hi ↔ ∃ v, lo ≤ v ∧ v < hi ∧ leafAt m d v = some f := by
  simp only [leavesIn, List.mem_filterMap, List.mem_range'_1]
  refine exists_congr fun v => ⟨fun ⟨⟨h, h'⟩, hf⟩ => ⟨h, by omega, hf⟩, fun ⟨h, h', hf⟩ => ?_⟩
  exact ⟨⟨h, by omega⟩, hf⟩

theorem leavesIn_split {mid : Nat} (h : lo ≤ mid) (h' : mid ≤ hi) :
    leavesIn m d lo hi = leavesIn m d lo mid ++ leavesIn m d mid hi := by
  have hr : List.range' lo (hi - lo)
      = List.range' lo (mid - lo) ++ List.range' mid (hi - mid) := by
    rw [show hi - lo = (mid - lo) + (hi - mid) by omega, ← List.range'_append_1,
      show lo + (mid - lo) = mid by omega]
  rw [leavesIn, hr, List.filterMap_append]
  rfl

theorem leavesIn_eq_nil (h : ∀ v, lo ≤ v → v < hi → ¬ Present (entry m d v)) :
    leavesIn m d lo hi = [] := by
  refine List.eq_nil_iff_forall_not_mem.mpr fun f hf => ?_
  obtain ⟨v, hv, hv', hf⟩ := mem_leavesIn.mp hf
  exact h v hv hv' (leafAt_eq_some.mp hf).1

theorem leavesIn_congr (h : ∀ v, lo ≤ v → v < hi → entry m' d v = entry m d v) :
    leavesIn m' d lo hi = leavesIn m d lo hi := by
  refine List.filterMap_congr fun v hv => leafAt_congr (h v ?_ ?_) <;>
    have := List.mem_range'_1.mp hv <;> omega

theorem leavesIn_cons (h : lo < hi) {f : Nat} (hf : leafAt m d lo = some f) :
    leavesIn m d lo hi = f :: leavesIn m d (lo + 1) hi := by
  rw [leavesIn, leavesIn, show hi - lo = (hi - (lo + 1)) + 1 by omega, List.range'_succ,
    List.filterMap_cons_some hf]

/-- A gap at the bottom of a range contributes nothing. -/
theorem leavesIn_gap {mid : Nat} (hm : lo ≤ mid)
    (hgap : ∀ v, lo ≤ v → v < mid → v < hi → ¬ Present (entry m d v)) :
    leavesIn m d lo hi = leavesIn m d mid hi := by
  by_cases hmid : mid ≤ hi
  · rw [leavesIn_split hm hmid, leavesIn_eq_nil fun v hv hv' => hgap v hv hv' (by omega),
      List.nil_append]
  · rw [leavesIn_eq_nil fun v hv hv' => hgap v hv (by omega) hv',
      leavesIn_eq_nil fun v hv hv' => absurd hv' (by omega)]

theorem length_leavesIn_le (m : Mem) (d lo hi : Nat) : (leavesIn m d lo hi).length ≤ hi - lo :=
  (List.length_filterMap_le _ _).trans_eq List.length_range'

theorem length_leavesIn_eq (h : ∀ v, lo ≤ v → v < hi → Present (entry m d v)) :
    (leavesIn m d lo hi).length = hi - lo := by
  have hall : ∀ v ∈ List.range' lo (hi - lo), (leafAt m d v).isSome = true := fun v hv => by
    have hv := List.mem_range'_1.mp hv
    rw [leafAt, if_pos (h v hv.1 (by omega))]
    rfl
  rw [leavesIn, List.length_filterMap_eq_countP, List.countP_eq_length.mpr hall, List.length_range']

attribute [irreducible] leavesIn

/-! ## `deallocuvm` -/

/-- **The pages `lo, …, hi − 1` have been given back.** -/
structure Dropped (m m' : Mem) (d lo hi : Nat) : Prop where
  moves : m.Moves (dirFrames m d ++ leavesIn m d lo hi) m' (dirFrames m' d)
  tableAt : tableAt m' d = tableAt m d
  entry : ∀ v, entry m' d v
    = if lo ≤ v ∧ v < hi ∧ Present (entry m d v) then 0 else entry m d v
  vmfreed : m'.vmfreed = m.vmfreed

namespace Dropped

/-- Pages that are not there need no work. -/
theorem absent {mid : Nat} (hm : lo ≤ mid)
    (hgap : ∀ v, lo ≤ v → v < mid → v < hi → ¬ Present (Xv6.entry m d v))
    (h : Dropped m m' d mid hi) : Dropped m m' d lo hi where
  moves := by
    rw [leavesIn_gap hm hgap]
    exact h.moves
  tableAt := h.tableAt
  entry v := by
    rw [h.entry]
    by_cases hv : lo ≤ v ∧ v < hi ∧ Present (Xv6.entry m d v)
    · have hmid : mid ≤ v := by
        by_contra hlt
        exact hgap v hv.1 (by omega) hv.2.1 hv.2.2
      rw [if_pos hv, if_pos ⟨hmid, hv.2⟩]
    · rw [if_neg hv, if_neg fun hc => hv ⟨by omega, hc.2⟩]
  vmfreed := h.vmfreed

theorem nil (m : Mem) (d : Nat) (h : hi ≤ lo) : Dropped m m d lo hi where
  moves := by
    rw [leavesIn_eq_nil fun v hv hv' => absurd hv' (by omega), List.append_nil]
    exact Heap.Moves.refl _ _
  tableAt := rfl
  entry v := by rw [if_neg (by omega)]
  vmfreed := rfl

end Dropped

/-- Freeing the frame behind a page and clearing the entry drops that page. -/
theorem Dropped.one {t f : Nat} {m₁ : Mem} (hn : (dirFrames m d ++ leavesIn m d v (v + 1)).Nodup)
    (ht : Xv6.tableAt m d (v / 1024) = some t) (hf : leafAt m d v = some f)
    (hk : kfree L m f = .ok m₁) : Dropped m (m₁.store t (v % 1024) 0) d v (v + 1) := by
  have hleaf : leavesIn m d v (v + 1) = [f] := by
    rw [leavesIn_cons (by omega) hf, leavesIn_eq_nil fun u hu hu' => absurd hu' (by omega)]
  rw [hleaf] at hn
  have hfd : f ∉ dirFrames m d := fun hc =>
    List.disjoint_of_nodup_append hn hc (List.mem_singleton.mpr rfl)
  have hcell : ∀ g ∈ dirFrames m d, m₁.cell g = m.cell g := fun g hg =>
    kfree_cell_of_ne hk (ne_of_mem_of_not_mem hg hfd)
  have hdir : dirFrames m₁ d = dirFrames m d := dirFrames_congr (hcell d (List.mem_cons_self ..))
  have hent : Xv6.entry m₁ d = Xv6.entry m d := entry_congr hcell
  have htab : Xv6.tableAt m₁ d = Xv6.tableAt m d :=
    tableAt_congr (hcell d (List.mem_cons_self ..))
  have hnd : (dirFrames m₁ d).Nodup := by
    rw [hdir]
    exact (List.nodup_append.mp hn).1
  have ht₁ : Xv6.tableAt m₁ d (v / 1024) = some t := by rw [htab, ht]
  obtain ⟨-, hmove, -, hvm⟩ := moves_kfree hk
  have hstep := dirStep_store hnd ht₁ (v % 1024) 0
  refine ⟨?_, ?_, fun u => ?_, hvm⟩
  · rw [hleaf]
    have hfree := hmove.extend_left (dirFrames m d)
    rw [List.append_nil, ← hdir] at hfree
    rw [← hdir]
    exact hfree.trans hstep.moves
  · rw [tableAt_store hnd ht₁, htab]
  · rw [entry_store hnd ht₁, hent, Function.update_apply]
    by_cases hu : u = v
    · subst hu
      rw [if_pos rfl, if_pos ⟨le_rfl, by omega, (leafAt_eq_some.mp hf).1⟩]
    · rw [if_neg hu, if_neg (by omega)]

/-- **Dropping one page and then the pages above it.** -/
theorem Dropped.cons {m'' : Mem} (hlt : v < hi) (h : Dropped m m' d v (v + 1))
    (h' : Dropped m' m'' d (v + 1) hi) : Dropped m m'' d v hi where
  moves := by
    have hrest : leavesIn m' d (v + 1) hi = leavesIn m d (v + 1) hi :=
      leavesIn_congr fun u hu _ => by rw [h.entry, if_neg (by omega)]
    have hmove := h'.moves
    rw [hrest] at hmove
    rw [leavesIn_split (Nat.le_succ v) hlt, ← List.append_assoc]
    exact (h.moves.extend _).trans hmove
  tableAt := h'.tableAt.trans h.tableAt
  entry u := by
    rw [h'.entry, h.entry]
    by_cases hu : v ≤ u ∧ u < v + 1 ∧ Present (Xv6.entry m d u)
    · rw [if_pos hu, if_neg (by simp), if_pos ⟨hu.1, by omega, hu.2.2⟩]
    · rw [if_neg hu]
      by_cases hu' : v + 1 ≤ u ∧ u < hi ∧ Present (Xv6.entry m d u)
      · rw [if_pos hu', if_pos ⟨by omega, hu'.2⟩]
      · rw [if_neg hu', if_neg fun hc => ?_]
        by_cases hlt : v + 1 ≤ u
        · exact hu' ⟨hlt, hc.2⟩
        · exact hu ⟨hc.1, by omega, hc.2.2⟩
  vmfreed := h'.vmfreed.trans h.vmfreed

/-- No frame `kfree` accepts is frame `0`. -/
theorem Linker.Frame.ne_zero {f : Nat} (h : L.Frame f) : f ≠ 0 := by
  rintro rfl
  have h₁ := L.kernlink_lt_data
  have h₂ := L.data_le_kend
  have h₃ := h.1
  rw [KERNLINK] at h₁
  omega

/-- **`deallocuvm`'s loop gives back exactly the present pages of its range.** -/
theorem deallocLoop_spec {oldsz a : Nat} (ha : a % 4096 = 0) (hold : oldsz ≤ 0xF0000000)
    (hn : (m.free ++ (dirFrames m d ++ leavesIn m d (a / 4096) ((oldsz + 4095) / 4096))).Nodup)
    (hL : ∀ f ∈ leavesIn m d (a / 4096) ((oldsz + 4095) / 4096), L.Frame f) :
    ∃ m', deallocLoop L d oldsz m a = .ok m'
      ∧ Dropped m m' d (a / 4096) ((oldsz + 4095) / 4096) := by
  fun_induction deallocLoop L d oldsz m a with
  | case1 m a hlt x hw ih =>
    have hgap : ∀ v, a / 4096 ≤ v → v < (a / 0x400000 + 1) * 0x400000 / 4096 →
        v < (oldsz + 4095) / 4096 → ¬ Present (entry m d v) := by
      intro v hv hv' _
      have hnone := walkpgdir_eq_none (by omega) hw
      rw [show a / 4096 / 1024 = v / 1024 by omega] at hnone
      rw [entry_of_tableAt_none hnone]
      exact not_present_zero
    have hmid : a / 4096 ≤ (a / 0x400000 + 1) * 0x400000 / 4096 := by omega
    rw [leavesIn_gap hmid hgap] at hn hL
    obtain ⟨m', hr, h⟩ := ih (by omega) hn hL
    exact ⟨m', hr, h.absent hmid hgap⟩
  | case2 m a hlt t i x hw hp h0 =>
    obtain ⟨-, -, hcell⟩ := walkpgdir_eq_some (by omega) hw
    rw [hcell] at hp h0
    have hlt' : a / 4096 < (oldsz + 4095) / 4096 := by omega
    have hmem := mem_leavesIn.mpr ⟨a / 4096, le_rfl, hlt', leafAt_eq_some.mpr ⟨hp, h0⟩⟩
    exact absurd rfl (hL 0 hmem).ne_zero
  | case3 m a hlt t i x hw hp h0 e hk =>
    obtain ⟨-, -, hcell⟩ := walkpgdir_eq_some (by omega) hw
    rw [hcell] at hp hk
    have hlt' : a / 4096 < (oldsz + 4095) / 4096 := by omega
    have hmem := mem_leavesIn.mpr ⟨a / 4096, le_rfl, hlt', leafAt_eq_some.mpr ⟨hp, rfl⟩⟩
    rw [kfree_ok (hL _ hmem)] at hk
    simp at hk
  | case4 m a hlt t i x hw hp h0 m₁ hk ih =>
    obtain ⟨ht, rfl, hcell⟩ := walkpgdir_eq_some (by omega) hw
    rw [hcell] at hp hk
    have hnext : (a + 4096) / 4096 = a / 4096 + 1 := by omega
    have hlt' : a / 4096 < (oldsz + 4095) / 4096 := by omega
    rw [leavesIn_split (Nat.le_succ _) hlt'] at hn hL
    rw [← List.append_assoc (dirFrames m d)] at hn
    have hone : Dropped m (m₁.store t (a / 4096 % 1024) 0) d (a / 4096) (a / 4096 + 1) :=
      .one (List.nodup_append.mp (List.nodup_append.mp hn).2.1).1 ht
        (leafAt_eq_some.mpr ⟨hp, rfl⟩) hk
    have hrest : leavesIn (m₁.store t (a / 4096 % 1024) 0) d (a / 4096 + 1) ((oldsz + 4095) / 4096)
        = leavesIn m d (a / 4096 + 1) ((oldsz + 4095) / 4096) :=
      leavesIn_congr fun u hu _ => by rw [hone.entry, if_neg (by omega)]
    rw [hnext, hrest] at ih
    obtain ⟨m', hr, h⟩ := ih (by omega) (hone.moves.frame_nodup hn)
      fun f hf => hL f (List.mem_append_right _ hf)
    exact ⟨m', hr, hone.cons hlt' h⟩
  | case5 m a hlt t i x hw hp ih =>
    obtain ⟨-, -, hcell⟩ := walkpgdir_eq_some (by omega) hw
    rw [hcell] at hp
    have hnext : (a + 4096) / 4096 = a / 4096 + 1 := by omega
    have hgap : ∀ v, a / 4096 ≤ v → v < a / 4096 + 1 → v < (oldsz + 4095) / 4096 →
        ¬ Present (entry m d v) := by
      intro v hv hv' _
      rwa [show v = a / 4096 by omega]
    rw [leavesIn_gap (Nat.le_succ _) hgap] at hn hL
    rw [hnext] at ih
    obtain ⟨m', hr, h⟩ := ih (by omega) hn hL
    exact ⟨m', hr, h.absent (Nat.le_succ _) hgap⟩
  | case6 m a hlt => exact ⟨m, rfl, .nil m d (by omega)⟩

/-- `deallocuvm` asked for nothing. -/
theorem deallocuvm_of_le {oldsz newsz : Nat} (h : oldsz ≤ newsz) :
    deallocuvm L m d oldsz newsz = .ok (oldsz, m) := if_pos h

/-- **`deallocuvm`**: the present pages from the first whole page above `newsz` on are given back. -/
theorem deallocuvm_spec {oldsz newsz : Nat} (hlt : newsz < oldsz) (hold : oldsz ≤ 0xF0000000)
    (hn : (m.free ++ (dirFrames m d
      ++ leavesIn m d ((newsz + 4095) / 4096) ((oldsz + 4095) / 4096))).Nodup)
    (hL : ∀ f ∈ leavesIn m d ((newsz + 4095) / 4096) ((oldsz + 4095) / 4096), L.Frame f) :
    ∃ m', deallocuvm L m d oldsz newsz = .ok (newsz, m')
      ∧ Dropped m m' d ((newsz + 4095) / 4096) ((oldsz + 4095) / 4096) := by
  have hup : pgRoundUp newsz = (newsz + 4095) / 4096 * 4096 := pgRoundUp_eq (by omega)
  have hpage : (newsz + 4095) / 4096 * 4096 / 4096 = (newsz + 4095) / 4096 :=
    Nat.mul_div_cancel _ (by decide)
  rw [← hpage] at hn hL ⊢
  obtain ⟨m', hr, h⟩ := deallocLoop_spec (Nat.mul_mod_left _ _) hold hn hL
  refine ⟨m', ?_, h⟩
  rw [deallocuvm, if_neg (by omega), hup, hr]

/-! ## `freevm` -/

/-- The second loop of `freevm` gives back the tables it comes by. -/
theorem freeTables_spec {l : List Nat} (hl : ∀ i ∈ l, i < 1024)
    (hd : d ∉ l.filterMap (tableAt m d)) (hL : ∀ f ∈ l.filterMap (tableAt m d), L.Frame f) :
    ∃ m', freeTables L d l m = .ok m' ∧ m.Moves (l.filterMap (tableAt m d)) m' []
      ∧ m'.vmfreed = m.vmfreed := by
  induction l generalizing m with
  | nil => exact ⟨m, rfl, Heap.Moves.refl _ _, rfl⟩
  | cons i l ih =>
    have hl' : ∀ j ∈ l, j < 1024 := fun j hj => hl j (List.mem_cons_of_mem _ hj)
    rw [freeTables]
    by_cases hp : Present (m.cell d i)
    · have ht : tableAt m d i = some (pteFrame (m.cell d i)) :=
        if_pos ⟨hl i (List.mem_cons_self ..), hp⟩
      rw [List.filterMap_cons_some ht] at hd hL ⊢
      obtain ⟨hne, hd'⟩ : d ≠ pteFrame (m.cell d i) ∧ d ∉ l.filterMap (tableAt m d) := by
        simpa only [List.mem_cons, not_or] using hd
      obtain ⟨m₁, hk, hmove, hcell, hvm⟩ := kfree_spec m (hL _ (List.mem_cons_self ..))
      have htab : tableAt m₁ d = tableAt m d := tableAt_congr (hcell d hne)
      obtain ⟨m', hr, h, hvm'⟩ := ih hl' (by rwa [htab]) fun f hf =>
        hL f (List.mem_cons_of_mem _ (by rwa [htab] at hf))
      rw [htab] at h
      refine ⟨m', ?_, (hmove.extend _).trans h, hvm'.trans hvm⟩
      rw [if_pos hp, hk]
      exact hr
    · have ht : tableAt m d i = none := if_neg fun hc => hp hc.2
      rw [List.filterMap_cons_none ht] at hd hL ⊢
      rw [if_neg hp]
      exact ih hl' hd hL

/-- **`freevm` gives back everything the directory owns.** -/
theorem freevm_spec (hn : (m.free ++ owned m d).Nodup) (hL : ∀ f ∈ owned m d, L.Frame f) :
    ∃ m', freevm L m d = .ok m' ∧ m.Moves (owned m d) m' [] ∧ m'.vmfreed = d :: m.vmfreed := by
  have hLd : L.Frame d := hL d (List.mem_append_left _ (List.mem_cons_self ..))
  have hrange : leaves m d = leavesIn m d ((0 + 4095) / 4096) ((SHAREBASE + 4095) / 4096) := by
    have hhi : (SHAREBASE + 4095) / 4096 = 0x40000 := by decide
    rw [leaves_eq_leavesIn, hhi]
  rw [owned, hrange] at hn hL ⊢
  have hbase : SHAREBASE ≤ 0xF0000000 := by decide
  obtain ⟨m₁, hr₁, h₁⟩ := deallocuvm_spec (by decide : 0 < SHAREBASE) hbase hn fun f hf =>
    hL f (List.mem_append_right _ hf)
  have hdir : dirFrames m₁ d = dirFrames m d := by
    rw [dirFrames, dirFrames, tables_def, tables_def, h₁.tableAt]
  have hd₁ : d ∉ tables m₁ d := (List.nodup_cons.mp (List.nodup_append.mp (h₁.moves.nodup hn)).2.1).1
  have hL₁ : ∀ f ∈ tables m₁ d, L.Frame f := by
    intro f hf
    refine hL f (List.mem_append_left _ ?_)
    rw [← hdir]
    exact List.mem_cons_of_mem _ hf
  rw [tables_def] at hd₁ hL₁
  obtain ⟨m₂, hr₂, h₂, hvm₂⟩ := freeTables_spec (fun i => List.mem_range.mp) hd₁ hL₁
  rw [← tables_def] at h₂
  obtain ⟨m₃, hk, hmove, -, hvm⟩ := kfree_spec { m₂ with vmfreed := d :: m₂.vmfreed } hLd
  refine ⟨m₃, ?_, h₁.moves.trans ((h₂.extend_left [d]).trans hmove), ?_⟩
  · rw [freevm, if_neg hLd.ne_zero, hr₁]
    simp only [hr₂, hk]
  · rw [hvm, hvm₂, h₁.vmfreed]

end Xv6

import Xv6Ipc.Memory.Copyuvm
import Xv6Ipc.Memory.Transfer

/-!
# Memory/Translate — what a directory translates

The hardware looks an address up in the two levels of a directory and finds a physical address and the
flags of the entry, or nothing:

    a ──entry (a / 4096)──▸ frame, flags        (4096 · frame + a % 4096, flags)

The functions of `vm.c` in these terms: `setupkvm` translates the kernel half as the rows of `kmap` say,
`allocuvm` adds translations to fresh zeroed frames or leaves all of them as they are, and `copyuvm`
translates the pages of a process to fresh frames with the same bytes.
-/

namespace Xv6

/-- The physical address and the flags behind an address. -/
def translate (m : Mem) (d a : Nat) : Option (Nat × Nat) :=
  if Present (entry m d (a / 4096)) then
    some (4096 * pteFrame (entry m d (a / 4096)) + a % 4096, pteFlags (entry m d (a / 4096)))
  else none

variable {L : Linker} {m m' : Mem} {d a v f lo hi perm : Nat} {k : Kmap} {ks : List Kmap}

theorem pteFlags_mkPte (f : Nat) (hperm : perm < 4096) :
    pteFlags (mkPte (4096 * f) perm) = perm ||| PTE_P := by
  have hlt : perm ||| PTE_P < 4096 := Nat.or_lt_two_pow (n := 12) hperm (by decide)
  rw [mkPte_eq f hperm, pteFlags, Nat.mul_add_mod, Nat.mod_eq_of_lt hlt]

theorem translate_of_mkPte (h : entry m d (a / 4096) = mkPte (4096 * f) perm) (hperm : perm < 4096) :
    translate m d a = some (4096 * f + a % 4096, perm ||| PTE_P) := by
  rw [translate, h, if_pos (present_mkPte _ _), pteFrame_mkPte f hperm, pteFlags_mkPte f hperm]

theorem translate_of_not_present (h : ¬ Present (entry m d (a / 4096))) : translate m d a = none :=
  if_neg h

theorem translate_congr (h : entry m' d (a / 4096) = entry m d (a / 4096)) :
    translate m' d a = translate m d a := by
  rw [translate, translate, h]

/-! ## The kernel half -/

/-- The addresses of a row. -/
def Kmap.Contains (k : Kmap) (a : Nat) : Prop := k.virt ≤ a ∧ a < k.virt + k.size

theorem Kmap.WellFormed.contains_iff (h : k.WellFormed) : k.Contains a ↔ k.Covers (a / 4096) := by
  have hvirt := h.virt_mod
  have hsize := h.size_mod
  rw [Contains, Covers, page, count]
  omega

/-- A row that covers a page decides about it. -/
theorem kmapEntry_of_covers (hdisj : ks.Pairwise fun k k' => ∀ v, k.Covers v → ¬ k'.Covers v)
    (hk : k ∈ ks) (hv : k.Covers v) : kmapEntry ks v = some (k.pte v) := by
  induction ks with
  | nil => exact absurd hk List.not_mem_nil
  | cons k' ks ih =>
    obtain ⟨hfirst, hrest⟩ := List.pairwise_cons.mp hdisj
    rcases List.mem_cons.mp hk with rfl | hmem
    · exact kmapEntry_cons_of_covers hv
    · rw [kmapEntry_cons_of_not_covers fun hc => hfirst k hmem v hc hv]
      exact ih hrest hmem

theorem kmap_perm_lt (hk : k ∈ kmap L) : k.perm < 4096 := by
  have hrows : (kmap L).map Kmap.perm = [PTE_W, 0, PTE_W, PTE_W] := rfl
  have hmem := List.mem_map_of_mem (f := Kmap.perm) hk
  rw [hrows] at hmem
  have hall : ∀ perm ∈ [PTE_W, 0, PTE_W, PTE_W], perm < 4096 := by decide
  exact hall _ hmem

/-- An address of a row goes where the row says… -/
theorem NewDir.translate_row (h : NewDir L m m' d) (hk : k ∈ kmap L) (ha : k.Contains a) :
    translate m' d a = some (k.physStart + (a - k.virt), k.perm ||| PTE_P) := by
  have hwf := kmap_wellFormed L k hk
  have hcov := hwf.contains_iff.mp ha
  have hphys := hwf.phys_mod
  have hvirt := hwf.virt_mod
  have haddr : k.physStart + 4096 * (a / 4096 - k.page)
      = 4096 * (k.physStart / 4096 + (a / 4096 - k.page)) := by omega
  have hentry : Xv6.entry m' d (a / 4096)
      = mkPte (4096 * (k.physStart / 4096 + (a / 4096 - k.page))) k.perm := by
    rw [h.entry, kmapEntry_of_covers (kmap_disjoint L) hk hcov, Option.getD_some, Kmap.pte, haddr]
  have hsum : 4096 * (k.physStart / 4096 + (a / 4096 - k.page)) + a % 4096
      = k.physStart + (a - k.virt) := by
    have hpage := hcov.1
    rw [Kmap.page] at hpage ⊢
    omega
  rw [translate_of_mkPte hentry (kmap_perm_lt hk), hsum]

/-- …and any other address nowhere. -/
theorem NewDir.translate_none (h : NewDir L m m' d) (ha : ∀ k ∈ kmap L, ¬ k.Contains a) :
    translate m' d a = none := by
  have hcov : ∀ k ∈ kmap L, ¬ k.Covers (a / 4096) := fun k hk hc =>
    ha k hk ((kmap_wellFormed L k hk).contains_iff.mpr hc)
  refine translate_of_not_present ?_
  rw [h.entry, kmapEntry_eq_none hcov]
  exact not_present_zero

/-- **Every address space has the same kernel half.**  `setupkvm` returns a directory that translates
the kernel half as `kmap` says and nothing else, or restores the free list. -/
theorem setupkvm_kernel_half (hn : m.free.Nodup) (hL : ∀ f ∈ m.free, L.Frame f) :
    (∃ d m', setupkvm L m = .ok (some d, m')
      ∧ (∀ a, KERNBASE ≤ a → a < 0x100000000 →
        (∀ k ∈ kmap L, k.Contains a →
          translate m' d a = some (k.physStart + (a - k.virt), k.perm ||| PTE_P))
        ∧ ((∀ k ∈ kmap L, ¬ k.Contains a) → translate m' d a = none)
        ∧ ¬ User (entry m' d (a / 4096)))
      ∧ ∀ a < KERNBASE, translate m' d a = none)
    ∨ ∃ m', setupkvm L m = .ok (none, m') ∧ m'.free.Perm m.free := by
  rcases setupkvm_cases hn hL with ⟨m', d, hr, hd⟩ | ⟨m', hr, hmove, -⟩
  · refine .inl ⟨d, m', hr, fun a _ _ => ⟨fun k hk ha => hd.translate_row hk ha, hd.translate_none, ?_⟩,
      fun a ha => ?_⟩
    · rw [hd.entry]
      exact not_user_kmapEntry L _
    · rw [KERNBASE] at ha
      refine translate_of_not_present ?_
      rw [hd.entry_user (by omega)]
      exact not_present_zero
  · exact .inr ⟨m', hr, hmove.perm_free.symm⟩

/-- A small kernel, for the examples… -/
def sampleLinker : Linker :=
  ⟨0x80101000, 0x80102000, by decide, by decide, by decide, by decide⟩

/-- …and a memory with a hundred free frames. -/
def sampleMem : Mem := ⟨⟨fun _ _ => 0, List.range' 0x200 100⟩, []⟩

theorem sampleMem_frame : ∀ f ∈ sampleMem.free, sampleLinker.Frame f := by
  intro f hf
  have hf := List.mem_range'_1.mp hf
  simp only [Linker.Frame, sampleLinker, KERNBASE, PHYSTOP]
  omega

theorem setupkvm_kernel_half_sample : sampleMem.free ≠ []
    ∧ setupkvm sampleLinker sampleMem ≠ .error .remap := by
  refine ⟨by decide, fun herr => ?_⟩
  rcases setupkvm_kernel_half List.nodup_range' sampleMem_frame with ⟨d, m', hr, -⟩ | ⟨m', hr, -⟩
  · exact nomatch hr.symm.trans herr
  · exact nomatch hr.symm.trans herr

/-! ## Growing -/

/-- The pages of a grown directory that were not free before are page tables. -/
theorem exists_new_tables (hn : (m.free ++ dirFrames m d).Nodup) {X : List Nat}
    (hm : m.Moves (dirFrames m d) m' (dirFrames m' d ++ X))
    (htable : ∀ i t, tableAt m d i = some t → tableAt m' d i = some t) :
    ∃ T, (m'.free ++ (T ++ X)).Perm m.free ∧ ∀ t ∈ T, t ∈ tables m' d := by
  have hnodup : (dirFrames m d).Nodup := (List.nodup_append.mp hn).2.1
  have hsub : tables m d ⊆ tables m' d := fun t ht => by
    obtain ⟨i, hi⟩ := mem_tables.mp ht
    exact mem_tables.mpr ⟨i, htable i t hi⟩
  obtain ⟨l, hl, hsublist⟩ := (List.nodup_cons.mp hnodup).2.subperm hsub
  obtain ⟨T, hT⟩ := hsublist.exists_perm_append
  have hT : (tables m' d).Perm (tables m d ++ T) := hT.trans (hl.append_right T)
  have hperm : (m.free ++ dirFrames m d).Perm (m'.free ++ (T ++ X) ++ dirFrames m d) := by
    refine hm.perm.trans ?_
    rw [List.append_assoc]
    refine List.Perm.append_left _ ?_
    have hdir : (dirFrames m' d).Perm (dirFrames m d ++ T) := hT.cons d
    refine (hdir.append_right X).trans ?_
    rw [List.append_assoc]
    exact List.perm_append_comm
  exact ⟨T, ((List.perm_append_right_iff _).mp hperm).symm,
    fun t ht => hT.mem_iff.mpr (List.mem_append_right _ ht)⟩

/-- Different pages of a range are backed by different frames. -/
theorem leafAt_inj_in {u : Nat} (hn : (leavesIn m d lo hi).Nodup) (hu : lo ≤ u) (hu' : u < hi) (hv : lo ≤ v)
    (hv' : v < hi) (h : leafAt m d u = some f) (h' : leafAt m d v = some f) : u = v := by
  rw [leavesIn] at hn
  exact Ledger.eq_of_filterMap_nodup hn (List.mem_range'_1.mpr ⟨hu, by omega⟩)
    (List.mem_range'_1.mpr ⟨hv, by omega⟩) h h'

/-- **The pages from `PGROUNDUP(oldsz)` up to `PGROUNDUP(newsz)` are new**: they are backed by distinct
frames that were free, zeroed, and nothing else has changed. -/
structure Extended (m m' : Mem) (d oldsz newsz : Nat) : Prop where
  page : ∃ frame : Nat → Nat,
    (∀ a, pgRoundUp oldsz ≤ a → a < pgRoundUp newsz →
      translate m' d a = some (4096 * frame (a / 4096) + a % 4096, PTE_W ||| PTE_U ||| PTE_P)
      ∧ frame (a / 4096) ∈ m.free ∧ frame (a / 4096) ∉ m'.free
      ∧ m'.cell (frame (a / 4096)) = fun _ => 0)
    ∧ ∀ a b, pgRoundUp oldsz ≤ a → a < pgRoundUp newsz → pgRoundUp oldsz ≤ b → b < pgRoundUp newsz →
      frame (a / 4096) = frame (b / 4096) → a / 4096 = b / 4096
  keep : ∀ a, ¬ (pgRoundUp oldsz ≤ a ∧ a < pgRoundUp newsz) → translate m' d a = translate m d a
  cell : ∀ f, f ∉ m.free → f ∉ dirFrames m d → m'.cell f = m.cell f

/-- **Everything is as it was**, but for page tables that stay. -/
structure RolledBack (m m' : Mem) (d : Nat) : Prop where
  translate : ∀ a, translate m' d a = translate m d a
  free : ∃ T, (m'.free ++ T).Perm m.free ∧ ∀ t ∈ T, t ∈ tables m' d
  nodup : m'.free.Nodup
  cell : ∀ f, f ∉ m.free → f ∉ dirFrames m d → m'.cell f = m.cell f

section Grow

variable {oldsz newsz : Nat} (hn : (m.free ++ dirFrames m d).Nodup)
include hn

theorem RolledBack.refl : RolledBack m m d :=
  ⟨fun _ => rfl, ⟨[], by rw [List.append_nil], nofun⟩, (List.nodup_append.mp hn).1, fun _ _ _ => rfl⟩

theorem Backed.extended (hlo : pgRoundUp oldsz = 4096 * lo) (hhi : pgRoundUp newsz = 4096 * hi)
    (h : Backed m m' d lo hi (fun _ => PTE_W ||| PTE_U) fun _ _ => 0) : Extended m m' d oldsz newsz := by
  have hnodup := h.moves.nodup hn
  rw [← List.append_assoc] at hnodup
  obtain ⟨-, hleaves, hdisj⟩ := List.nodup_append.mp hnodup
  obtain ⟨T, hT, -⟩ := exists_new_tables hn h.moves h.table
  have hmem : ∀ {f}, f ∈ leavesIn m' d lo hi → f ∈ m.free ∧ f ∉ m'.free := fun hf =>
    ⟨hT.mem_iff.mp (List.mem_append_right _ (List.mem_append_right _ hf)),
      fun hfree => hdisj _ (List.mem_append_left _ hfree) _ hf rfl⟩
  have hpage : ∀ v, lo ≤ v → v < hi → Xv6.leafAt m' d v = some (pteFrame (entry m' d v)) := fun v hv hv' => by
    obtain ⟨f, hf, -⟩ := h.mapped v hv hv'
    exact leafAt_eq_some.mpr ⟨by rw [hf]; exact present_mkPte _ _, rfl⟩
  obtain ⟨frame, hframe⟩ : ∃ frame : Nat → Nat, ∀ v, frame v = pteFrame (entry m' d v) :=
    ⟨_, fun _ => rfl⟩
  refine ⟨⟨frame, fun a ha ha' => ?_, fun a b ha ha' hb hb' heq => ?_⟩,
    fun a ha => translate_congr (h.keep _ (by omega)), h.moves.frame⟩
  · obtain ⟨f, hf, hzero⟩ := h.mapped (a / 4096) (by omega) (by omega)
    have hleaf := hmem (mem_leavesIn.mpr ⟨a / 4096, by omega, by omega, hpage _ (by omega) (by omega)⟩)
    have heq : frame (a / 4096) = f := by
      rw [hframe, hf]
      exact pteFrame_mkPte f (by decide)
    rw [← hframe, heq] at hleaf
    rw [heq]
    exact ⟨translate_of_mkPte hf (by decide), hleaf.1, hleaf.2, hzero⟩
  · have hb := hpage (b / 4096) (by omega) (by omega)
    rw [← hframe, ← heq, hframe] at hb
    exact leafAt_inj_in hleaves (by omega) (by omega) (by omega) (by omega)
      (hpage _ (by omega) (by omega)) hb

/-- Growing by nothing. -/
theorem Backed.rolledBack {c : Nat → Nat → Nat} {perm : Nat → Nat} (h : Backed m m' d lo lo perm c) :
    RolledBack m m' d := by
  have hnil : leavesIn m' d lo lo = [] := leavesIn_eq_nil fun v hv hv' => absurd hv' (not_lt.mpr hv)
  obtain ⟨T, hT, htab⟩ := exists_new_tables hn h.moves h.table
  rw [hnil, List.append_nil] at hT
  refine ⟨fun a => translate_congr (h.keep _ (by omega)), ⟨T, hT, htab⟩, ?_, h.moves.frame⟩
  exact (List.nodup_append.mp (h.moves.nodup hn)).1

theorem Undone.rolledBack (h : Undone m m' d lo hi []) (hgap : ∀ v, lo ≤ v → v < hi →
    ¬ Present (entry m d v)) : RolledBack m m' d := by
  obtain ⟨T, hT, htab⟩ := exists_new_tables hn h.moves h.table
  rw [List.append_nil] at hT
  refine ⟨fun a => ?_, ⟨T, hT, htab⟩, (List.nodup_append.mp (h.moves.nodup hn)).1, h.moves.frame⟩
  by_cases ha : lo ≤ a / 4096 ∧ a / 4096 < hi
  · rw [translate_of_not_present (h.gone _ ha.1 ha.2), translate_of_not_present (hgap _ ha.1 ha.2)]
  · exact translate_congr (h.keep _ ha)

variable (newsz) in
/-- **`allocuvm` grows or rolls back.** -/
theorem allocuvm_grows_or_rolls_back (hL : ∀ f ∈ m.free ++ dirFrames m d, L.Frame f)
    (hpages : ∀ v < 0x40000, Present (entry m d v) ↔ v < pgRoundUp oldsz / 4096) :
    ∃ r m', allocuvm L m d oldsz newsz = .ok (r, m') ∧ (r = 0 ∨ r = max oldsz newsz)
      ∧ (r = newsz → oldsz < newsz → Extended m m' d oldsz newsz) ∧ (r = 0 → RolledBack m m' d) := by
  by_cases hshare : SHAREBASE ≤ newsz
  · refine ⟨0, m, if_pos hshare, .inl rfl, fun hzero hlt => ?_, fun _ => .refl hn⟩
    exact absurd hlt (by omega)
  by_cases hle : newsz < oldsz
  · have hr : allocuvm L m d oldsz newsz = .ok (oldsz, m) := by rw [allocuvm, if_neg hshare, if_pos hle]
    exact ⟨oldsz, m, hr, .inr (max_eq_left hle.le).symm, fun _ hlt => absurd hlt (by omega),
      fun _ => .refl hn⟩
  have hlt : newsz < 0x40000000 := not_le.mp hshare
  have hold : pgRoundUp oldsz = 4096 * ((oldsz + 4095) / 4096) := by
    rw [pgRoundUp_eq (by omega), Nat.mul_comm]
  have hnew : pgRoundUp newsz = 4096 * ((newsz + 4095) / 4096) := by
    rw [pgRoundUp_eq (by omega), Nat.mul_comm]
  have hgap : ∀ v, (oldsz + 4095) / 4096 ≤ v → v < (newsz + 4095) / 4096 → ¬ Present (entry m d v) := by
    intro v hv hv' hp
    have := (hpages v (by omega)).mp hp
    omega
  rcases allocuvm_cases hn hL hlt (not_lt.mp hle) hgap with ⟨m', hr, h⟩ | ⟨m', hr, h⟩
  · refine ⟨newsz, m', hr, .inr (max_eq_right (not_lt.mp hle)).symm,
      fun _ _ => h.extended hn hold hnew, fun hzero => ?_⟩
    obtain rfl : oldsz = newsz := by omega
    exact h.rolledBack hn
  · refine ⟨0, m', hr, .inl rfl, fun hzero hlt => ?_, fun _ => h.rolledBack hn hgap⟩
    exact absurd hlt (by omega)

end Grow

/-- A first page for an empty directory. -/
theorem allocuvm_grows_sample : ∃ r m', allocuvm sampleLinker sampleMem 0x1FF 0 4096 = .ok (r, m')
    ∧ (r = 4096 → 0 < 4096 → Extended sampleMem m' 0x1FF 0 4096)
    ∧ (r = 0 → RolledBack sampleMem m' 0x1FF) := by
  have hzero : sampleMem.cell 0x1FF = fun _ => 0 := rfl
  have hdir : dirFrames sampleMem 0x1FF = [0x1FF] := dirFrames_of_zero hzero
  have hn : (sampleMem.free ++ dirFrames sampleMem 0x1FF).Nodup := by
    rw [hdir]
    refine List.nodup_append.mpr ⟨List.nodup_range', List.nodup_singleton _, fun a ha b hb he => ?_⟩
    have ha := List.mem_range'_1.mp ha
    rw [he, List.mem_singleton.mp hb] at ha
    exact absurd ha.1 (by decide)
  have hL : ∀ f ∈ sampleMem.free ++ dirFrames sampleMem 0x1FF, sampleLinker.Frame f := by
    rw [hdir]
    intro f hf
    rcases List.mem_append.mp hf with hf | hf
    · exact sampleMem_frame f hf
    · rw [List.mem_singleton.mp hf]
      decide
  have hpages : ∀ v < 0x40000, Present (entry sampleMem 0x1FF v) ↔ v < pgRoundUp 0 / 4096 := by
    intro v _
    rw [entry_of_tableAt_none (tableAt_of_zero hzero _)]
    exact iff_of_false not_present_zero (Nat.not_lt_zero v)
  obtain ⟨r, m', hr, -, hgrow, hback⟩ := allocuvm_grows_or_rolls_back 4096 hn hL hpages
  exact ⟨r, m', hr, hgrow, hback⟩

/-! ## Copying -/

/-- The byte at a physical address. -/
def Mem.byte (m : Mem) (pa : Nat) : Nat := wordByte (m.cell (pa / 4096) (pa % 4096 / 4)) (pa % 4)

theorem byte_of_cell {g o : Nat} (ho : o < 4096) (h : m'.cell f = m.cell g) :
    m'.byte (4096 * f + o) = m.byte (4096 * g + o) := by
  have hdiv : ∀ f, (4096 * f + o) / 4096 = f := fun f => by omega
  have hmod : ∀ f, (4096 * f + o) % 4096 = o := fun f => by omega
  have hbyte : ∀ f, (4096 * f + o) % 4 = o % 4 := fun f => by omega
  rw [Mem.byte, Mem.byte, hdiv, hdiv, hmod, hmod, hbyte, hbyte, h]

/-- **`d` is an independent copy** of the pages of `s` below `sz`. -/
structure IndependentCopy (m m' : Mem) (s d sz : Nat) : Prop where
  page : ∀ a, a / 4096 < (sz + 4095) / 4096 → ∃ pa pa' flags, translate m s a = some (pa, flags)
    ∧ translate m' d a = some (pa', flags) ∧ m'.byte pa' = m.byte pa
  above : ∀ a, (sz + 4095) / 4096 ≤ a / 4096 → a < KERNBASE → translate m' d a = none
  kernel : ∀ a, KERNBASE ≤ a → ¬ User (entry m' d (a / 4096))
  nodup : (owned m' d).Nodup
  fresh : ∀ f ∈ owned m' d, f ∈ m.free ∧ f ∉ m'.free ∧ f ∉ owned m s
  source : ∀ a, translate m' s a = translate m s a
  cell : ∀ f, f ∉ m.free → m'.cell f = m.cell f

theorem pteFlags_or_present {w : Nat} (h : Present w) : pteFlags w ||| PTE_P = pteFlags w := by
  have hodd : pteFlags w % 2 = 1 := by
    have := present_iff.mp h
    rw [pteFlags]
    omega
  have hsplit : pteFlags w = 2 ^ 1 * (pteFlags w / 2) ||| PTE_P := by
    rw [← Nat.two_pow_add_eq_or_of_lt (by decide), PTE_P]
    omega
  calc pteFlags w ||| PTE_P = 2 ^ 1 * (pteFlags w / 2) ||| PTE_P ||| PTE_P := by rw [← hsplit]
    _ = 2 ^ 1 * (pteFlags w / 2) ||| PTE_P := by rw [Nat.or_assoc, Nat.or_self]
    _ = pteFlags w := hsplit.symm

/-- **`copyuvm` makes an independent copy**, or the free list holds what it held. -/
theorem copyuvm_independent {s sz : Nat} (hn : m.free.Nodup) (hL : ∀ f ∈ m.free, L.Frame f)
    (hs : ∀ f ∈ owned m s, f ∉ m.free)
    (hpages : ∀ v < (sz + 4095) / 4096, Present (entry m s v)) :
    (∃ d m', copyuvm L m s sz = .ok (some d, m') ∧ IndependentCopy m m' s d sz)
      ∨ ∃ m', copyuvm L m s sz = .ok (none, m') ∧ m'.free.Perm m.free := by
  rcases copyuvm_ends hn hL hs sz with ⟨m₀, m', d, hr, hd, hb, hsrc, hle⟩ | ⟨m', hr, hmove, -⟩ |
    ⟨-, v, hv, hp⟩
  · have hcopy := hb.copied hd hsrc hle
    have hnodup := hcopy.moves.nodup (by rwa [List.append_nil])
    have hcell : ∀ f, f ∉ m.free → m'.cell f = m.cell f := fun f hf =>
      hcopy.moves.frame f hf List.not_mem_nil
    refine .inl ⟨d, m', hr, fun a ha => ?_, fun a ha ha' => ?_, fun a ha => ?_,
      (List.nodup_append.mp hnodup).2.1, fun f hf => ?_, fun a => translate_congr ?_, hcell⟩
    · obtain ⟨f, hf, hc⟩ := hcopy.page _ ha
      have hps := hsrc _ ha
      refine ⟨_, 4096 * f + a % 4096, _, if_pos hps, ?_, byte_of_cell (Nat.mod_lt _ (by decide)) hc⟩
      rw [translate_of_mkPte hf (copyPerm_lt m s _), copyPerm, pteFlags_or_present hps]
    · rw [KERNBASE] at ha'
      refine translate_of_not_present ?_
      rw [hcopy.rest _ ha (by omega)]
      exact not_present_zero
    · rw [KERNBASE] at ha
      rw [hb.keep _ (by omega), hd.entry]
      exact not_user_kmapEntry L _
    · have hfree := (hcopy.moves.mem_iff.mp (.inr hf)).resolve_right List.not_mem_nil
      exact ⟨hfree, fun hc => List.disjoint_of_nodup_append hnodup hc hf, fun hc => hs f hc hfree⟩
    · exact congrFun (entry_congr fun f hf => hcell f (hs f (List.mem_append_left _ hf))) _
  · exact .inr ⟨m', hr, hmove.perm_free.symm⟩
  · exact absurd (hpages v hv) hp

/-- The memory of the examples with a directory in frame `0x1FE` that has one page. -/
def sampleDir : Mem :=
  { sampleMem with cell := fun f i => if i ≠ 0 then 0 else if f = 0x1FE then 0x1FF007
      else if f = 0x1FF then 0x1FD007 else 0 }

theorem pteFrame_sampleDir (f i : Nat) : pteFrame (sampleDir.cell f i) < 0x200 := by
  change pteFrame (if i ≠ 0 then 0 else if f = 0x1FE then 0x1FF007
    else if f = 0x1FF then 0x1FD007 else 0) < 0x200
  split
  · decide
  · split
    · decide
    · split <;> decide

/-- Its frames are below the free ones. -/
theorem owned_sampleDir {f : Nat} (hf : f ∈ owned sampleDir 0x1FE) : f < 0x200 := by
  have hentry : ∀ v, pteFrame (entry sampleDir 0x1FE v) < 0x200 := fun v => by
    rw [entry]
    split
    · decide
    · exact pteFrame_sampleDir _ _
  rcases List.mem_append.mp hf with hf | hf
  · rcases List.mem_cons.mp hf with rfl | hf
    · decide
    · obtain ⟨i, hi⟩ := mem_tables.mp hf
      rw [tableAt] at hi
      split at hi
      · rw [← Option.some.inj hi]
        exact pteFrame_sampleDir _ _
      · cases hi
  · obtain ⟨v, -, hv⟩ := mem_leaves.mp hf
    rw [← (leafAt_eq_some.mp hv).2]
    exact hentry v

theorem copyuvm_independent_sample : Present (entry sampleDir 0x1FE 0)
    ∧ ((∃ d m', copyuvm sampleLinker sampleDir 0x1FE 4096 = .ok (some d, m')
        ∧ IndependentCopy sampleDir m' 0x1FE d 4096)
      ∨ ∃ m', copyuvm sampleLinker sampleDir 0x1FE 4096 = .ok (none, m')
        ∧ m'.free.Perm sampleDir.free) := by
  have hpage : Present (entry sampleDir 0x1FE 0) := by decide
  refine ⟨hpage, copyuvm_independent List.nodup_range' sampleMem_frame (fun f hf hfree => ?_)
    fun v hv => ?_⟩
  · have hlt := owned_sampleDir hf
    have hge := (List.mem_range'_1.mp hfree).1
    omega
  · obtain rfl : v = 0 := by omega
    exact hpage

end Xv6

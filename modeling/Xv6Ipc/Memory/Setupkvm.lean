import Xv6Ipc.Machinery.Loops
import Xv6Ipc.Memory.Freevm

/-!
# Memory/Setupkvm — the kernel half of a directory

`setupkvm` maps the four rows of `kmap` into a fresh directory, and gives everything back if memory
runs out on the way.  The rows cover disjoint runs of pages from `0x80000` up

    0x80000 ─ I/O ─ 0x80100 ─ text ─ data ─ data + memory ─ 0x8E000      0xFE000 ─ devices ─ 0x100000

so no page is mapped twice, the user half of the new directory is empty, and 64 tables hang in it.
-/

namespace Xv6

/-- A row of `kmap`. -/
structure Kmap where
  virt : Nat
  physStart : Nat
  physEnd : Nat
  perm : Nat

/-- `k->phys_end - k->phys_start`, in 32 bits. -/
def Kmap.size (k : Kmap) : Nat := (k.physEnd + 0x100000000 - k.physStart) % 0x100000000

/-- The kernel's mappings. -/
def kmap (L : Linker) : List Kmap :=
  [⟨KERNBASE, 0, EXTMEM, PTE_W⟩,
    ⟨KERNLINK, KERNLINK - KERNBASE, L.data - KERNBASE, 0⟩,
    ⟨L.data, L.data - KERNBASE, PHYSTOP, PTE_W⟩,
    ⟨DEVSPACE, DEVSPACE, 0, PTE_W⟩]

/-- The loop of `setupkvm` over the rows still to come; `false` when `mappages` fails. -/
def mapRows (pgdir : Nat) : List Kmap → Mem → Except Panic (Bool × Mem) :=
  Loops.each fun k m => mappages m pgdir k.virt k.size k.physStart k.perm

/-- `setupkvm`. -/
def setupkvm (L : Linker) (m : Mem) : Except Panic (Option Nat × Mem) :=
  match kalloc m with
  | (none, m) => .ok (none, m)
  | (some pgdir, m) =>
    if DEVSPACE < KERNBASE + PHYSTOP then .error .physTop
    else
      match mapRows pgdir (kmap L) (m.fill pgdir fun _ => 0) with
      | .error e => .error e
      | .ok (true, m) => .ok (some pgdir, m)
      | .ok (false, m) =>
        match freevm L m pgdir with
        | .error e => .error e
        | .ok m => .ok (none, m)

/-! ## The rows -/

namespace Kmap

/-- The first page of a row. -/
def page (k : Kmap) : Nat := k.virt / 4096

/-- How many pages a row has. -/
def count (k : Kmap) : Nat := k.size / 4096

/-- The pages of a row. -/
def Covers (k : Kmap) (v : Nat) : Prop := k.page ≤ v ∧ v < k.page + k.count

instance (k : Kmap) (v : Nat) : Decidable (k.Covers v) := inferInstanceAs (Decidable (_ ∧ _))

/-- What a row has to satisfy for `mappages` to walk its pages in order. -/
structure WellFormed (k : Kmap) : Prop where
  virt_mod : k.virt % 4096 = 0
  size_mod : k.size % 4096 = 0
  count_pos : 0 < k.count
  virt_le : k.page + k.count ≤ 0x100000
  phys_mod : k.physStart % 4096 = 0
  phys_le : k.physStart + k.count * 4096 ≤ 0x100000000
  upper : 0x80000 ≤ k.page

/-- The entry a row gives one of its pages. -/
def pte (k : Kmap) (v : Nat) : Nat := mkPte (k.physStart + 4096 * (v - k.page)) k.perm

end Kmap

variable {L : Linker} {m m' : Mem} {d : Nat} {k : Kmap} {ks : List Kmap}

/-- **The rows of `kmap` are page runs above `KERNBASE`.** -/
theorem kmap_wellFormed (L : Linker) : ∀ k ∈ kmap L, k.WellFormed := by
  have h₁ := L.data_aligned
  have h₂ := L.kernlink_lt_data
  have h₃ := L.data_le_kend
  have h₄ := L.kend_lt
  simp only [KERNLINK, KERNBASE, EXTMEM, PHYSTOP] at h₂ h₄
  intro k hk
  simp only [kmap, KERNLINK, KERNBASE, EXTMEM, PHYSTOP, DEVSPACE, List.mem_cons,
    List.not_mem_nil, or_false] at hk
  rcases hk with rfl | rfl | rfl | rfl <;> constructor <;> 
    simp only [Kmap.count, Kmap.size, Kmap.page] <;> omega

/-- **…and they do not meet.** -/
theorem kmap_disjoint (L : Linker) :
    (kmap L).Pairwise fun k k' => ∀ v, k.Covers v → ¬ k'.Covers v := by
  have h₁ := L.data_aligned
  have h₂ := L.kernlink_lt_data
  have h₃ := L.data_le_kend
  have h₄ := L.kend_lt
  simp only [KERNLINK, KERNBASE, EXTMEM, PHYSTOP] at h₂ h₄
  simp only [kmap, KERNLINK, KERNBASE, EXTMEM, PHYSTOP, DEVSPACE, List.pairwise_cons,
    List.mem_cons, List.not_mem_nil, or_false, forall_eq_or_imp, forall_eq, Kmap.Covers, Kmap.page,
    Kmap.count, Kmap.size, List.Pairwise.nil, IsEmpty.forall_iff, implies_true, and_true]
  refine ⟨⟨?_, ?_, ?_⟩, ⟨?_, ?_⟩, ?_⟩ <;> intro v <;> omega

/-! ## Mapping the rows -/

/-- **One row**: its pages are mapped, or memory ran out at one of them. -/
theorem mapRow_cases (hn : (m.free ++ dirFrames m d).Nodup) (hk : k.WellFormed)
    (hfresh : ∀ v, k.Covers v → ¬ Present (entry m d v)) :
    (∃ m', mappages m d k.virt k.size k.physStart k.perm = .ok (true, m')
        ∧ Mapped m m' d k.page k.count k.physStart k.perm) ∨
      ∃ m' n, mappages m d k.virt k.size k.physStart k.perm = .ok (false, m')
        ∧ n < k.count ∧ Mapped m m' d k.page n k.physStart k.perm ∧ m'.free = []
        ∧ tableAt m' d ((k.page + n) / 1024) = none := by
  obtain ⟨hvirt, hsize, hpos, hle, -, hphys, -⟩ := hk
  have hsz : k.size = k.count * 4096 := by
    rw [Kmap.count]
    omega
  have hpage : k.virt = k.page * 4096 := by
    rw [Kmap.page]
    omega
  have hturns : (k.page * 4096 + k.count * 4096 - 1) / 4096 - k.page * 4096 / 4096 = k.count - 1 := by
    omega
  have hstart : k.page * 4096 / 4096 * 4096 = k.page * 4096 := by omega
  have hpages : k.page * 4096 / 4096 = k.page := Nat.mul_div_cancel _ (by decide)
  rw [hsz, hpage, mappages_eq (by omega) (by omega), hturns, hstart]
  rcases mapRange_cases (n := k.count - 1) (a := k.page * 4096) (e := k.pte) hn (Nat.mul_mod_left _ _)
      (by omega) (by omega : k.physStart < 0x100000000) (fun j hj => by
        rw [hpages, Kmap.pte, Nat.add_sub_cancel_left,
          u32_of_lt (by omega : k.physStart + 4096 * j < 0x100000000)]) with
    ⟨m', hr, h⟩ | ⟨m', n, hr, hlt, h, hfree, hnone⟩ | ⟨-, u, hu, hu', hp⟩
  · rw [hpages, Nat.sub_add_cancel hpos] at h
    exact .inl ⟨m', hr, { h with }⟩
  · rw [hpages] at h hnone
    exact .inr ⟨m', n, hr, by omega, { h with }, hfree, hnone⟩
  · rw [hpages] at hu hu'
    exact absurd hp (hfresh u ⟨hu, by omega⟩)

/-- The entry the rows give a page, if one of them covers it. -/
def kmapEntry (ks : List Kmap) (v : Nat) : Option Nat :=
  (ks.find? fun k => k.Covers v).map fun k => k.pte v

theorem kmapEntry_cons_of_covers {v : Nat} (h : k.Covers v) :
    kmapEntry (k :: ks) v = some (k.pte v) := by
  rw [kmapEntry, List.find?_cons_of_pos (by simpa using h)]
  rfl

theorem kmapEntry_cons_of_not_covers {v : Nat} (h : ¬ k.Covers v) :
    kmapEntry (k :: ks) v = kmapEntry ks v := by
  rw [kmapEntry, List.find?_cons_of_neg (by simpa using h), kmapEntry]

theorem kmapEntry_eq_none {v : Nat} (h : ∀ k ∈ ks, ¬ k.Covers v) : kmapEntry ks v = none := by
  rw [kmapEntry, List.find?_eq_none.mpr (by simpa using h)]
  rfl

/-- **What mapping some rows does to a directory, finished or not.** -/
structure RowsStep (m m' : Mem) (d : Nat) (ks : List Kmap) : Prop where
  step : DirStep m m' d
  keep : ∀ v, (∀ k ∈ ks, ¬ k.Covers v) → entry m' d v = entry m d v
  grow : ∀ i, tableAt m' d i ≠ none →
    tableAt m d i ≠ none ∨ ∃ k ∈ ks, ∃ v, k.Covers v ∧ i = v / 1024

/-- Part of a row, then part of the others. -/
theorem RowsStep.cons {m'' : Mem} {n : Nat} (hle : n ≤ k.count)
    (h : Mapped m m' d k.page n k.physStart k.perm) (h' : RowsStep m' m'' d ks) :
    RowsStep m m'' d (k :: ks) where
  step := h.step.trans h'.step
  keep v hv := by
    rw [h'.keep v fun k' hk' => hv k' (List.mem_cons_of_mem _ hk'), h.entry, if_neg]
    rintro ⟨hlo, hhi⟩
    exact hv k (List.mem_cons_self ..) ⟨hlo, by omega⟩
  grow i hi := by
    rcases h'.grow i hi with hi | ⟨k', hk', v, hv, rfl⟩
    · rcases h.grow i hi with hi | ⟨v, hlo, hhi, rfl⟩
      · exact .inl hi
      · exact .inr ⟨k, List.mem_cons_self .., v, ⟨hlo, by omega⟩, rfl⟩
    · exact .inr ⟨k', List.mem_cons_of_mem _ hk', v, hv, rfl⟩

theorem RowsStep.nil (m : Mem) (d : Nat) (ks : List Kmap) : RowsStep m m d ks :=
  ⟨DirStep.refl m d, fun _ _ => rfl, fun _ hi => .inl hi⟩

/-- **All rows**: every covered page is mapped as its row says, or memory ran out at a covered
page. -/
theorem mapRows_cases (hn : (m.free ++ dirFrames m d).Nodup) (hwf : ∀ k ∈ ks, k.WellFormed)
    (hdisj : ks.Pairwise fun k k' => ∀ v, k.Covers v → ¬ k'.Covers v)
    (hfresh : ∀ k ∈ ks, ∀ v, k.Covers v → ¬ Present (entry m d v)) :
    (∃ m', mapRows d ks m = .ok (true, m') ∧ RowsStep m m' d ks
        ∧ ∀ v, entry m' d v = (kmapEntry ks v).getD (entry m d v)) ∨
      ∃ m', mapRows d ks m = .ok (false, m') ∧ RowsStep m m' d ks ∧ m'.free = []
        ∧ ∃ k ∈ ks, ∃ v, k.Covers v ∧ tableAt m' d (v / 1024) = none := by
  induction ks generalizing m with
  | nil => exact .inl ⟨m, rfl, .nil m d [], fun v => rfl⟩
  | cons k ks ih =>
    obtain ⟨hk, hks⟩ := List.forall_mem_cons.mp hwf
    obtain ⟨hdk, hdks⟩ := List.pairwise_cons.mp hdisj
    obtain ⟨hfk, hfks⟩ := List.forall_mem_cons.mp hfresh
    rcases mapRow_cases hn hk hfk with ⟨m₁, hr, h⟩ | ⟨m₁, n, hr, hlt, h, hfree, hnone⟩
    · have hturn : mapRows d (k :: ks) m = mapRows d ks m₁ := Loops.each_cons_true hr
      rw [hturn]
      have hother : ∀ v, ¬ k.Covers v → entry m₁ d v = entry m d v := fun v hv =>
        (h.entry v).trans (if_neg hv)
      have hfresh₁ : ∀ k' ∈ ks, ∀ v, k'.Covers v → ¬ Present (entry m₁ d v) := by
        intro k' hk' v hv
        rw [hother v fun hc => hdk k' hk' v hc hv]
        exact hfks k' hk' v hv
      rcases ih (h.step.nodup hn) hks hdks hfresh₁ with
        ⟨m', hr', h', hent⟩ | ⟨m', hr', h', hfree, k', hk', v, hv, hnone⟩
      · refine .inl ⟨m', hr', RowsStep.cons le_rfl h h', fun v => ?_⟩
        rw [hent]
        by_cases hv : k.Covers v
        · rw [kmapEntry_eq_none fun k' hk' => hdk k' hk' v hv, kmapEntry_cons_of_covers hv]
          exact (h.entry v).trans (if_pos hv)
        · rw [kmapEntry_cons_of_not_covers hv, hother v hv]
      · exact .inr ⟨m', hr', RowsStep.cons le_rfl h h', hfree, k', List.mem_cons_of_mem _ hk', v, hv, hnone⟩
    · exact .inr ⟨m₁, Loops.each_cons_false hr, RowsStep.cons hlt.le h (.nil m₁ d ks), hfree, k, List.mem_cons_self ..,
        k.page + n, ⟨by omega, by omega⟩, hnone⟩

/-! ## `setupkvm` -/

/-- The directory indices of the kernel half. -/
def kernelTables : List Nat := List.range' 512 56 ++ List.range' 1016 8

theorem mem_kernelTables_of_covers {v : Nat} (hk : k ∈ kmap L) (hv : k.Covers v) :
    v / 1024 ∈ kernelTables := by
  have h₂ := L.kernlink_lt_data
  have h₃ := L.data_le_kend
  have h₄ := L.kend_lt
  simp only [KERNLINK, KERNBASE, EXTMEM, PHYSTOP] at h₂ h₄
  simp only [kernelTables, List.mem_append, List.mem_range'_1]
  simp only [kmap, KERNLINK, KERNBASE, EXTMEM, PHYSTOP, DEVSPACE, List.mem_cons,
    List.not_mem_nil, or_false] at hk
  rcases hk with rfl | rfl | rfl | rfl <;>
    simp only [Kmap.Covers, Kmap.count, Kmap.size, Kmap.page] at hv <;> omega

/-- **A directory fresh from `setupkvm`.** -/
structure NewDir (L : Linker) (m m' : Mem) (d : Nat) : Prop where
  moves : m.Moves [] m' (dirFrames m' d)
  entry : ∀ v, entry m' d v = (kmapEntry (kmap L) v).getD 0
  tables : ∀ i, tableAt m' d i ≠ none → i ∈ kernelTables
  vmfreed : m'.vmfreed = m.vmfreed
  taken : d ∈ m.free

/-- Its user half is empty. -/
theorem NewDir.entry_user (h : NewDir L m m' d) {v : Nat} (hv : v < 0x80000) :
    Xv6.entry m' d v = 0 := by
  rw [h.entry, kmapEntry_eq_none fun k hk hc => ?_]
  · rfl
  · have := (kmap_wellFormed L k hk).upper
    have := hc.1
    omega

/-- The kernel's first page is mapped… -/
theorem present_kmapEntry (L : Linker) : Present ((kmapEntry (kmap L) 0x80000).getD 0) := by
  rw [kmap, kmapEntry_cons_of_covers (by decide)]
  exact present_mkPte _ _

/-- …and none of its pages is the user's. -/
theorem not_user_kmapEntry (L : Linker) (v : Nat) :
    ¬ User ((kmapEntry (kmap L) v).getD 0) := by
  rw [kmapEntry]
  cases hfind : (kmap L).find? fun k => decide (k.Covers v) with
  | none => exact not_user_zero
  | some k =>
    have hk : k ∈ kmap L := List.mem_of_find?_eq_some hfind
    have hperm : ¬ User k.perm := by
      have hrows : (kmap L).map Kmap.perm = [PTE_W, 0, PTE_W, PTE_W] := rfl
      have hmem := List.mem_map_of_mem (f := Kmap.perm) hk
      rw [hrows] at hmem
      have hall : ∀ perm ∈ [PTE_W, 0, PTE_W, PTE_W], ¬ User perm := by decide
      exact hall _ hmem
    have hmod := (kmap_wellFormed L k hk).phys_mod
    have haddr : k.physStart + 4096 * (v - k.page)
        = 4096 * (k.physStart / 4096 + (v - k.page)) := by omega
    rw [Option.map_some, Option.getD_some, Kmap.pte, haddr, user_mkPte_iff]
    exact hperm

/-- **What `setupkvm` can do**: build the kernel half, or run out of memory and give back what it
took. -/
theorem setupkvm_cases (hn : m.free.Nodup) (hL : ∀ f ∈ m.free, L.Frame f) :
    (∃ m' d, setupkvm L m = .ok (some d, m') ∧ NewDir L m m' d) ∨
      ∃ m', setupkvm L m = .ok (none, m') ∧ m.Moves [] m' [] ∧ m.free.length ≤ 64
        ∧ (m'.vmfreed = m.vmfreed ∨ ∃ d ∈ m.free, m'.vmfreed = d :: m.vmfreed) := by
  rw [setupkvm]
  rcases kalloc_cases m with ⟨hfree, hk⟩ | ⟨d, fs, hfree, hk⟩
  · exact .inr ⟨m, by rw [hk], Heap.Moves.refl _ _, by simp [hfree], .inl rfl⟩
  · have htop : ¬ DEVSPACE < KERNBASE + PHYSTOP := by decide
    obtain ⟨hpop, htaken, -, -⟩ := moves_kalloc hk
    set m₀ : Mem := { m with free := fs }.fill d fun _ => 0 with hm₀
    have hzero : m₀.cell d = fun _ => 0 := Mem.fill_cell_self _ _ _
    have hfill : Mem.Moves { m with free := fs } [d] m₀ [d] :=
      Mem.moves_fill _ (List.mem_singleton.mpr rfl) _
    have h₀ : m.Moves [] m₀ (dirFrames m₀ d) := by
      rw [dirFrames_of_zero hzero]
      exact hpop.trans hfill
    have hn₀ : (m₀.free ++ dirFrames m₀ d).Nodup := h₀.nodup (by simpa using hn)
    have hent₀ : ∀ v, entry m₀ d v = 0 := fun v =>
      entry_of_tableAt_none (tableAt_of_zero hzero _)
    have hfresh : ∀ k ∈ kmap L, ∀ v, k.Covers v → ¬ Present (entry m₀ d v) := fun k _ v _ => by
      rw [hent₀]
      exact not_present_zero
    have htabs : ∀ m', RowsStep m₀ m' d (kmap L) → ∀ i, tableAt m' d i ≠ none →
        i ∈ kernelTables := by
      intro m' h i hi
      rcases h.grow i hi with hi | ⟨k, hk, v, hv, rfl⟩
      · exact absurd (tableAt_of_zero hzero i) hi
      · exact mem_kernelTables_of_covers hk hv
    simp only [hk, if_neg htop]
    rw [← hm₀]
    rcases mapRows_cases hn₀ (kmap_wellFormed L) (kmap_disjoint L) hfresh with
      ⟨m₁, hr, h, hent⟩ | ⟨m₁, hr, h, hout, k, hk, v, hv, hnone⟩
    · refine .inl ⟨m₁, d, by rw [hr], h₀.trans h.step.moves, fun v => ?_, htabs m₁ h,
        h.step.vmfreed, htaken⟩
      rw [hent, hent₀]
    · have hmove : m.Moves [] m₁ (dirFrames m₁ d) := h₀.trans h.step.moves
      have hleaf : leaves m₁ d = [] := by
        rw [leaves_eq_leavesIn]
        refine leavesIn_eq_nil fun v _ hv => ?_
        rw [h.keep v fun k hk hc => ?_, hent₀]
        · exact not_present_zero
        · have := (kmap_wellFormed L k hk).upper
          have := hc.1
          omega
      have hown : owned m₁ d = dirFrames m₁ d := by rw [owned, hleaf, List.append_nil]
      have hlen : m.free.length ≤ 64 := by
        have hmem := mem_kernelTables_of_covers hk hv
        have htab := length_tables_le (S := kernelTables.erase (v / 1024)) fun i hi =>
          (List.mem_erase_of_ne (by rintro rfl; exact hi hnone)).mpr (htabs m₁ h i hi)
        rw [List.length_erase_of_mem hmem] at htab
        have hcount := hmove.length
        have hkt : kernelTables.length = 64 := by decide
        rw [hout, dirFrames, List.length_cons] at hcount
        simp only [List.length_nil] at hcount
        omega
      have hL₁ : ∀ f ∈ owned m₁ d, L.Frame f := by
        intro f hf
        rw [hown] at hf
        rcases hmove.mem_iff.mp (.inr hf) with hf | hf
        · exact hL f hf
        · simp at hf
      have hn₁ : (m₁.free ++ owned m₁ d).Nodup := by
        rw [hown]
        exact hmove.nodup (by simpa using hn)
      obtain ⟨m₂, hr₂, h₂, hvm⟩ := freevm_spec hn₁ hL₁
      rw [hown] at h₂
      refine .inr ⟨m₂, by rw [hr]; simp only [hr₂], hmove.trans h₂, hlen, .inr ⟨d, htaken, ?_⟩⟩
      rw [hvm, h.step.vmfreed]
      rfl

end Xv6

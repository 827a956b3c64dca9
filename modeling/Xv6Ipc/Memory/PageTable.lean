import Mathlib.Data.List.Perm.Subperm
import Xv6Ipc.Memory.Kalloc

/-!
# Memory/PageTable — what a page directory means

A directory is a frame of 1024 words naming table frames, a table a frame of 1024 words naming the
frames pages are backed by.  `entry m d` reads the two levels at once, a missing table reading as
zeroes, so that `walkpgdir` adding a table changes no entry:

    page v ──tableAt (v / 1024)──▸ table t ──v % 1024──▸ entry

`dirFrames` are the frames the structure itself occupies and `leaves` the frames it backs user
memory with; `owned` is both.
-/

namespace Xv6

open Function

/-- `walkpgdir`: the table frame and index holding the entry of `va`, allocating the table if asked
to. -/
def walkpgdir (m : Mem) (pgdir va : Nat) (alloc : Bool) : Option (Nat × Nat) × Mem :=
  let pde := m.cell pgdir (pdx va)
  if Present pde then (some (pteFrame pde, ptx va), m)
  else if alloc = false then (none, m)
  else
    match kalloc m with
    | (none, m) => (none, m)
    | (some pgtab, m) =>
      (some (pgtab, ptx va),
        (m.fill pgtab fun _ => 0).store pgdir (pdx va) (mkPte (4096 * pgtab) (PTE_W ||| PTE_U)))

/-! ## Reading a directory -/

/-- The table at a directory index. -/
def tableAt (m : Mem) (d i : Nat) : Option Nat :=
  if i < 1024 ∧ Present (m.cell d i) then some (pteFrame (m.cell d i)) else none

/-- The entry of a page; zero where there is no table. -/
def entry (m : Mem) (d v : Nat) : Nat :=
  match tableAt m d (v / 1024) with
  | none => 0
  | some t => m.cell t (v % 1024)

/-- The frame backing a page. -/
def leafAt (m : Mem) (d v : Nat) : Option Nat :=
  if Present (entry m d v) then some (pteFrame (entry m d v)) else none

/-- The page tables of a directory. -/
def tables (m : Mem) (d : Nat) : List Nat := (List.range 1024).filterMap (tableAt m d)

/-- The directory and its tables. -/
def dirFrames (m : Mem) (d : Nat) : List Nat := d :: tables m d

/-- The frames backing user memory: every page below `SHAREBASE`. -/
def leaves (m : Mem) (d : Nat) : List Nat := (List.range 0x40000).filterMap (leafAt m d)

/-- Everything `freevm` gives back. -/
def owned (m : Mem) (d : Nat) : List Nat := dirFrames m d ++ leaves m d

variable {m m' : Mem} {d i t v : Nat}

theorem tables_def (m : Mem) (d : Nat) :
    tables m d = (List.range 1024).filterMap (tableAt m d) := rfl

theorem leaves_def (m : Mem) (d : Nat) :
    leaves m d = (List.range 0x40000).filterMap (leafAt m d) := rfl

theorem mem_tables : t ∈ tables m d ↔ ∃ i, tableAt m d i = some t := by
  rw [tables, List.mem_filterMap]
  refine ⟨fun ⟨i, _, h⟩ => ⟨i, h⟩, fun ⟨i, h⟩ => ⟨i, ?_, h⟩⟩
  rw [tableAt] at h
  split at h
  · rename_i hi
    exact List.mem_range.mpr hi.1
  · simp at h

theorem tableAt_lt (h : tableAt m d i = some t) : i < 1024 := by
  rw [tableAt] at h
  split at h
  · rename_i hi
    exact hi.1
  · simp at h

theorem entry_of_tableAt_none (h : tableAt m d (v / 1024) = none) : entry m d v = 0 := by
  rw [entry, h]

theorem mem_leaves {f : Nat} : f ∈ leaves m d ↔ ∃ v < 0x40000, leafAt m d v = some f := by
  simp only [leaves, List.mem_filterMap, List.mem_range]

theorem leafAt_eq_some {f : Nat} :
    leafAt m d v = some f ↔ Present (entry m d v) ∧ pteFrame (entry m d v) = f := by
  rw [leafAt]
  split <;> simp_all

/-- Different indices name different tables. -/
theorem tableAt_inj {j : Nat} (hn : (tables m d).Nodup) (hi : tableAt m d i = some t)
    (hj : tableAt m d j = some t) : i = j :=
  Ledger.eq_of_filterMap_nodup hn (List.mem_range.mpr (tableAt_lt hi))
    (List.mem_range.mpr (tableAt_lt hj)) hi hj

/-- Different pages of user memory are backed by different frames. -/
theorem leafAt_inj {u f : Nat} (hn : (leaves m d).Nodup) (hv : v < 0x40000) (hu : u < 0x40000)
    (h : leafAt m d v = some f) (h' : leafAt m d u = some f) : v = u :=
  Ledger.eq_of_filterMap_nodup hn (List.mem_range.mpr hv) (List.mem_range.mpr hu) h h'

/-- The directory indices with a table. -/
def tableIndices (m : Mem) (d : Nat) : List Nat :=
  (List.range 1024).filter fun i => (tableAt m d i).isSome

theorem mem_tableIndices : i ∈ tableIndices m d ↔ tableAt m d i ≠ none := by
  rw [tableIndices, List.mem_filter, Option.isSome_iff_ne_none, List.mem_range]
  refine ⟨fun h => h.2, fun h => ⟨?_, h⟩⟩
  obtain ⟨t, ht⟩ := Option.ne_none_iff_exists'.mp h
  exact tableAt_lt ht

theorem length_tableIndices (m : Mem) (d : Nat) :
    (tableIndices m d).length = (tables m d).length := by
  rw [tables_def, List.length_filterMap_eq_countP, List.countP_eq_length_filter, tableIndices]

/-- A directory has no more tables than it has places for them. -/
theorem length_tables_le {S : List Nat} (h : ∀ i, tableAt m d i ≠ none → i ∈ S) :
    (tables m d).length ≤ S.length := by
  rw [← length_tableIndices]
  exact (List.Nodup.subperm (List.nodup_range.filter _) fun i hi =>
    h i (mem_tableIndices.mp hi)).length_le

/-- A zeroed frame is an empty directory. -/
theorem tableAt_of_zero (h : m.cell d = fun _ => 0) (i : Nat) : tableAt m d i = none :=
  if_neg fun hc => by simp [h] at hc

theorem dirFrames_of_zero (h : m.cell d = fun _ => 0) : dirFrames m d = [d] := by
  have htab : tables m d = [] := List.eq_nil_iff_forall_not_mem.mpr fun t ht => by
    obtain ⟨i, hi⟩ := mem_tables.mp ht
    simp [tableAt_of_zero h i] at hi
  rw [dirFrames, htab]

theorem ne_of_mem_tables (hn : (dirFrames m d).Nodup) (ht : t ∈ tables m d) : t ≠ d := by
  rintro rfl
  exact (List.nodup_cons.mp hn).1 ht

/-! ## What a directory depends on -/

theorem tableAt_congr (h : m'.cell d = m.cell d) : tableAt m' d = tableAt m d := by
  funext i
  rw [tableAt, tableAt, h]

theorem tables_congr (h : m'.cell d = m.cell d) : tables m' d = tables m d := by
  rw [tables, tables, tableAt_congr h]

/-- **A directory is read off its own frames.** -/
theorem entry_congr (h : ∀ f ∈ dirFrames m d, m'.cell f = m.cell f) : entry m' d = entry m d := by
  have hd : m'.cell d = m.cell d := h d (List.mem_cons_self ..)
  funext v
  rw [entry, entry, tableAt_congr hd]
  cases ht : tableAt m d (v / 1024) with
  | none => rfl
  | some t => exact congrFun (h t (List.mem_cons_of_mem _ (mem_tables.mpr ⟨_, ht⟩))) _

theorem dirFrames_congr (h : m'.cell d = m.cell d) : dirFrames m' d = dirFrames m d := by
  rw [dirFrames, dirFrames, tables_congr h]

theorem leafAt_congr (h : entry m' d v = entry m d v) : leafAt m' d v = leafAt m d v := by
  rw [leafAt, leafAt, h]

theorem leaves_congr (h : ∀ v < 0x40000, entry m' d v = entry m d v) :
    leaves m' d = leaves m d :=
  List.filterMap_congr fun v hv => leafAt_congr (h v (List.mem_range.mp hv))

theorem owned_congr (h : ∀ f ∈ dirFrames m d, m'.cell f = m.cell f) :
    owned m' d = owned m d := by
  rw [owned, owned, dirFrames_congr (h d (List.mem_cons_self ..)),
    leaves_congr fun v _ => congrFun (entry_congr h) v]

/-- The memory's free list and history are no part of a directory. -/
theorem entry_of_cell (h : m'.cell = m.cell) (d : Nat) : entry m' d = entry m d :=
  entry_congr fun f _ => congrFun h f

/-! ## Storing an entry -/

/-- A store into a table is a store of one entry. -/
theorem tableAt_store (hn : (dirFrames m d).Nodup) (ht : tableAt m d i = some t) (j w : Nat) :
    tableAt (m.store t j w) d = tableAt m d :=
  tableAt_congr (m.store_cell_of_ne j w (ne_of_mem_tables hn (mem_tables.mpr ⟨i, ht⟩)).symm)

theorem entry_store (hn : (dirFrames m d).Nodup) (ht : tableAt m d (v / 1024) = some t) (w : Nat) :
    entry (m.store t (v % 1024) w) d = update (entry m d) v w := by
  funext u
  rw [entry, tableAt_store hn ht, update_apply]
  split
  · rename_i hnone
    have hne : u ≠ v := fun he => by rw [he, ht] at hnone; simp at hnone
    rw [if_neg hne, entry, hnone]
  · rename_i t' ht'
    rw [entry, ht']
    by_cases htt : t' = t
    · subst htt
      have hi := tableAt_inj (List.nodup_cons.mp hn).2 ht' ht
      rw [Mem.store_cell_self, update_apply]
      congr 1
      simp only [eq_iff_iff]
      omega
    · have hne : u ≠ v := fun he => htt (Option.some.inj (ht'.symm.trans (he ▸ ht)))
      rw [if_neg hne, m.store_cell_of_ne _ _ htt]

/-- The entry a table position holds. -/
theorem cell_of_tableAt (ht : tableAt m d (v / 1024) = some t) :
    m.cell t (v % 1024) = entry m d v := by rw [entry, ht]

/-! ## Adding a table -/

section AddTable

variable {f : Nat}

/-- `walkpgdir`'s two stores: a zeroed frame, hung into the directory. -/
def addTable (m : Mem) (d i f : Nat) : Mem :=
  (m.fill f fun _ => 0).store d i (mkPte (4096 * f) (PTE_W ||| PTE_U))

theorem tableAt_addTable (hi : i < 1024) (hfd : f ≠ d) :
    tableAt (addTable m d i f) d = update (tableAt m d) i (some f) := by
  funext k
  rw [tableAt, addTable, Mem.store_cell_self, Mem.fill_cell_of_ne _ _ hfd.symm]
  by_cases hk : k = i
  · subst hk
    rw [update_self, update_self, if_pos ⟨hi, present_mkPte _ _⟩,
      pteFrame_mkPte f (by decide)]
  · rw [update_of_ne hk, update_of_ne hk, tableAt]

theorem entry_addTable (hn : (dirFrames m d).Nodup) (hi : i < 1024) (hf : f ∉ dirFrames m d)
    (hnone : tableAt m d i = none) : entry (addTable m d i f) d = entry m d := by
  obtain ⟨hfd, hft⟩ : f ≠ d ∧ f ∉ tables m d := by simpa [dirFrames] using hf
  funext v
  rw [entry, tableAt_addTable hi hfd, update_apply]
  by_cases hv : v / 1024 = i
  · rw [if_pos hv, entry, hv, hnone]
    change (addTable m d i f).cell f (v % 1024) = 0
    rw [addTable, Mem.store_cell_of_ne _ _ _ hfd, Mem.fill_cell_self]
  · rw [if_neg hv, entry]
    cases ht : tableAt m d (v / 1024) with
    | none => rfl
    | some t =>
      have htm : t ∈ tables m d := mem_tables.mpr ⟨_, ht⟩
      have htf : t ≠ f := by rintro rfl; exact hft htm
      have htd : t ≠ d := ne_of_mem_tables hn htm
      change (addTable m d i f).cell t (v % 1024) = m.cell t (v % 1024)
      rw [addTable, Mem.store_cell_of_ne _ _ _ htd, Mem.fill_cell_of_ne _ _ htf]

/-- The new table joins the directory's frames. -/
theorem dirFrames_addTable (hi : i < 1024) (hfd : f ≠ d) (hnone : tableAt m d i = none) :
    (dirFrames (addTable m d i f) d).Perm (f :: dirFrames m d) := by
  have ht := tableAt_addTable (m := m) hi hfd
  have hp : (tables (addTable m d i f) d).Perm (f :: tables m d) := by
    refine Ledger.filterMap_perm_cons List.nodup_range (List.mem_range.mpr hi) hnone ?_ ?_
    · rw [ht, update_self]
    · intro x _ hx
      rw [ht, update_of_ne hx]
  exact (hp.cons d).trans (List.Perm.swap f d _)

end AddTable

/-! ## `walkpgdir` -/

/-- **A step on a directory**: only its own frames and free ones are involved, and tables are only
added. -/
structure DirStep (m m' : Mem) (d : Nat) : Prop where
  moves : m.Moves (dirFrames m d) m' (dirFrames m' d)
  tableAt : ∀ i t, tableAt m d i = some t → tableAt m' d i = some t
  vmfreed : m'.vmfreed = m.vmfreed

theorem DirStep.refl (m : Mem) (d : Nat) : DirStep m m d :=
  ⟨Heap.Moves.refl _ _, fun _ _ h => h, rfl⟩

theorem DirStep.trans {m'' : Mem} (h : DirStep m m' d) (h' : DirStep m' m'' d) :
    DirStep m m'' d :=
  ⟨h.moves.trans h'.moves, fun i t ht => h'.tableAt i t (h.tableAt i t ht),
    h'.vmfreed.trans h.vmfreed⟩

theorem DirStep.nodup (h : DirStep m m' d) (hn : (m.free ++ dirFrames m d).Nodup) :
    (m'.free ++ dirFrames m' d).Nodup := h.moves.nodup hn

/-- Storing an entry of an existing table is a step on the directory. -/
theorem dirStep_store (hn : (dirFrames m d).Nodup) (ht : tableAt m d i = some t) (j w : Nat) :
    DirStep m (m.store t j w) d := by
  have htab := tableAt_store hn ht j w
  have hdir : dirFrames (m.store t j w) d = dirFrames m d := by
    rw [dirFrames, dirFrames, tables, tables, htab]
  refine ⟨?_, fun i t h => htab ▸ h, rfl⟩
  rw [hdir]
  exact m.moves_store (List.mem_cons_of_mem _ (mem_tables.mpr ⟨i, ht⟩)) j w

/-- A lookup without allocation reads the directory. -/
theorem walkpgdir_false (m : Mem) (d va : Nat) :
    walkpgdir m d va false = ((tableAt m d (pdx va)).map fun t => (t, ptx va), m) := by
  rw [walkpgdir, tableAt]
  by_cases h : Present (m.cell d (pdx va))
  · rw [if_pos h, if_pos ⟨pdx_lt va, h⟩]
    rfl
  · rw [if_neg h, if_pos rfl, if_neg fun hc => h hc.2]
    rfl

theorem walkpgdir_eq_none {a : Nat} {m' : Mem} (ha : a < 0x100000000)
    (h : walkpgdir m d a false = (none, m')) : tableAt m d (a / 4096 / 1024) = none := by
  rw [walkpgdir_false, pdx_eq a ha, Prod.mk.injEq, Option.map_eq_none_iff] at h
  exact h.1

/-- The position a lookup finds holds the entry of the page. -/
theorem walkpgdir_eq_some {a : Nat} {m' : Mem} (ha : a < 0x100000000)
    (h : walkpgdir m d a false = (some (t, i), m')) :
    tableAt m d (a / 4096 / 1024) = some t ∧ i = a / 4096 % 1024
      ∧ m.cell t i = entry m d (a / 4096) := by
  rw [walkpgdir_false, pdx_eq a ha, Prod.mk.injEq, Option.map_eq_some_iff] at h
  obtain ⟨⟨t', ht, he⟩, -⟩ := h
  obtain ⟨rfl, rfl⟩ := Prod.mk.inj he
  exact ⟨ht, rfl, cell_of_tableAt ht⟩

/-- **What a `walkpgdir` without allocation can do**: find no table, or the entry of the page. -/
theorem walkpgdir_cases {a : Nat} (ha : a < 0x100000000) :
    (walkpgdir m d a false = (none, m) ∧ tableAt m d (a / 4096 / 1024) = none) ∨
      ∃ t, walkpgdir m d a false = (some (t, a / 4096 % 1024), m)
        ∧ tableAt m d (a / 4096 / 1024) = some t
        ∧ m.cell t (a / 4096 % 1024) = entry m d (a / 4096) := by
  rw [walkpgdir_false, pdx_eq a ha]
  cases ht : tableAt m d (a / 4096 / 1024) with
  | none => exact .inl ⟨rfl, rfl⟩
  | some t => exact .inr ⟨t, rfl, rfl, cell_of_tableAt ht⟩

/-- …a page that is there has one. -/
theorem walkpgdir_present {a : Nat} (ha : a < 0x100000000) (hp : Present (entry m d (a / 4096))) :
    ∃ t, walkpgdir m d a false = (some (t, a / 4096 % 1024), m)
      ∧ tableAt m d (a / 4096 / 1024) = some t
      ∧ m.cell t (a / 4096 % 1024) = entry m d (a / 4096) := by
  refine (walkpgdir_cases ha).resolve_left fun h => ?_
  rw [entry_of_tableAt_none h.2] at hp
  exact not_present_zero hp

/-- **What an allocating `walkpgdir` can do**: find or add the table without changing an entry, or
run out of memory. -/
theorem walkpgdir_true_cases (va : Nat) (hn : (m.free ++ dirFrames m d).Nodup) :
    (∃ m' t, walkpgdir m d va true = (some (t, ptx va), m') ∧ DirStep m m' d
        ∧ entry m' d = entry m d
        ∧ tableAt m' d = update (tableAt m d) (pdx va) (some t)) ∨
      (walkpgdir m d va true = (none, m) ∧ m.free = [] ∧ tableAt m d (pdx va) = none) := by
  rw [walkpgdir]
  by_cases h : Present (m.cell d (pdx va))
  · have ht : tableAt m d (pdx va) = some (pteFrame (m.cell d (pdx va))) := by
      rw [tableAt, if_pos ⟨pdx_lt va, h⟩]
    refine .inl ⟨m, _, if_pos h, DirStep.refl m d, rfl, ?_⟩
    rw [← ht, update_eq_self]
  · have hnone : tableAt m d (pdx va) = none := if_neg fun hc => h hc.2
    rw [if_neg h, if_neg (by simp)]
    rcases kalloc_cases m with ⟨hfree, hk⟩ | ⟨f, fs, hfree, hk⟩
    · exact .inr ⟨by rw [hk], hfree, hnone⟩
    · have hmem : f ∈ m.free := by rw [hfree]; exact List.mem_cons_self ..
      have hf : f ∉ dirFrames m d := fun hc => List.disjoint_of_nodup_append hn hmem hc
      have hfd : f ≠ d := fun he => hf (he ▸ List.mem_cons_self ..)
      have hnd : (dirFrames m d).Nodup := (List.nodup_append.mp hn).2.1
      refine .inl ⟨addTable { m with free := fs } d (pdx va) f, f, by rw [hk]; rfl, ⟨?_, ?_, rfl⟩,
        entry_addTable (m := { m with free := fs }) hnd (pdx_lt va) hf hnone,
        tableAt_addTable (m := { m with free := fs }) (pdx_lt va) hfd⟩
      · have hpop : m.Moves (dirFrames m d) { m with free := fs } (f :: dirFrames m d) :=
          (m.toHeap.moves_pop hfree).extend (dirFrames m d)
        have hfill := Mem.moves_fill { m with free := fs } (A := f :: dirFrames m d)
          (List.mem_cons_self ..) fun _ => 0
        have hstore := Mem.moves_store ({ m with free := fs }.fill f fun _ => 0)
          (A := f :: dirFrames m d) (f := d)
          (List.mem_cons_of_mem _ (List.mem_cons_self ..)) (pdx va)
          (mkPte (4096 * f) (PTE_W ||| PTE_U))
        exact ((hpop.trans hfill).trans hstore).congr (List.Perm.refl _)
          (dirFrames_addTable (m := { m with free := fs }) (pdx_lt va) hfd hnone).symm
      · intro i t ht
        rw [tableAt_addTable (m := { m with free := fs }) (pdx_lt va) hfd, update_of_ne]
        · exact ht
        · rintro rfl
          rw [hnone] at ht
          simp at ht

attribute [irreducible] tables leaves tableIndices

end Xv6

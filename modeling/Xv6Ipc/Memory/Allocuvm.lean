import Xv6Ipc.Machinery.Loops
import Xv6Ipc.Memory.Freevm

/-!
# Memory/Allocuvm — backing pages with fresh frames

`allocuvm` and `copyuvm` take a frame, write it and map it, page by page.  `Backed` is what a run of
such turns amounts to:

    dirFrames  ──▸  dirFrames' ++ leavesIn lo hi

A turn can fail for want of the frame or of a page table; then `allocuvm` gives its pages back and
the directory holds what it held, save for tables it grew on the way.
-/

namespace Xv6

open Function

/-- The pages a loop `for(; a < b; a += PGSIZE)` starting at the aligned address `a` comes by. -/
def pagesBetween (a b : Nat) : List Nat := List.range' (a / 4096) ((b + 4095) / 4096 - a / 4096)

/-- One turn of the loop of `allocuvm`, at page `v`; on failure it gives the new pages back and
stops. -/
def allocPage (L : Linker) (pgdir oldsz newsz v : Nat) (m : Mem) : Except Panic (Bool × Mem) :=
  match kalloc m with
  | (none, m) =>
    match deallocuvm L m pgdir newsz oldsz with
    | .error e => .error e
    | .ok (_, m) => .ok (false, m)
  | (some mem, m) =>
    match mappages (m.fill mem fun _ => 0) pgdir (v * 4096) 4096 (4096 * mem) (PTE_W ||| PTE_U) with
    | .error e => .error e
    | .ok (true, m) => .ok (true, m)
    | .ok (false, m) =>
      match deallocuvm L m pgdir newsz oldsz with
      | .error e => .error e
      | .ok (_, m) =>
        match kfree L m mem with
        | .error e => .error e
        | .ok m => .ok (false, m)

/-- `allocuvm`: the new size, `0` on failure. -/
def allocuvm (L : Linker) (m : Mem) (pgdir oldsz newsz : Nat) : Except Panic (Nat × Mem) :=
  if SHAREBASE ≤ newsz then .ok (0, m)
  else if newsz < oldsz then .ok (oldsz, m)
  else
    match Loops.each (allocPage L pgdir oldsz newsz) (pagesBetween (pgRoundUp oldsz) newsz) m with
    | .error e => .error e
    | .ok (true, m) => .ok (newsz, m)
    | .ok (false, m) => .ok (0, m)

variable {L : Linker} {m m' m'' : Mem} {d lo mid hi v f : Nat} {perm : Nat → Nat}
  {c : Nat → Nat → Nat}

/-! ## A run of backed pages -/

/-- **The pages `lo, …, hi − 1` are backed by fresh frames** with contents `c` and permissions
`perm`. -/
structure Backed (m m' : Mem) (d lo hi : Nat) (perm : Nat → Nat) (c : Nat → Nat → Nat) : Prop where
  moves : m.Moves (dirFrames m d) m' (dirFrames m' d ++ leavesIn m' d lo hi)
  mapped : ∀ v, lo ≤ v → v < hi → ∃ f, entry m' d v = mkPte (4096 * f) (perm v) ∧ m'.cell f = c v
  keep : ∀ v, ¬ (lo ≤ v ∧ v < hi) → entry m' d v = entry m d v
  table : ∀ i t, tableAt m d i = some t → tableAt m' d i = some t
  grow : ∀ i, tableAt m' d i ≠ none →
    tableAt m d i ≠ none ∨ ∃ v, lo ≤ v ∧ v < hi ∧ i = v / 1024
  vmfreed : m'.vmfreed = m.vmfreed

namespace Backed

theorem nil (m : Mem) (d lo : Nat) (perm : Nat → Nat) (c : Nat → Nat → Nat) :
    Backed m m d lo lo perm c where
  moves := by
    rw [leavesIn_eq_nil fun v hv hv' => absurd hv' (by omega), List.append_nil]
    exact Heap.Moves.refl _ _
  mapped v hv hv' := absurd hv' (by omega)
  keep _ _ := rfl
  table _ _ h := h
  grow i hi := .inl hi
  vmfreed := rfl

/-- **Two runs of pages, one after the other.** -/
theorem append (hn : (m.free ++ dirFrames m d).Nodup) (hperm : ∀ v, perm v < 4096)
    (hlo : lo ≤ mid) (hhi : mid ≤ hi) (h : Backed m m' d lo mid perm c)
    (h' : Backed m' m'' d mid hi perm c) : Backed m m'' d lo hi perm c where
  moves := by
    have hlow : leavesIn m'' d lo mid = leavesIn m' d lo mid :=
      leavesIn_congr fun v _ hv => h'.keep v (by omega)
    rw [leavesIn_split hlo hhi, hlow]
    refine (h.moves.trans (h'.moves.extend _)).congr (List.Perm.refl _) ?_
    rw [List.append_assoc]
    exact List.perm_append_comm.append_left _
  mapped v hv hv' := by
    by_cases hmid : mid ≤ v
    · exact h'.mapped v hmid hv'
    · obtain ⟨f, hf, hc⟩ := h.mapped v hv (by omega)
      have hleaf : f ∈ leavesIn m' d lo mid := by
        refine mem_leavesIn.mpr ⟨v, hv, by omega, leafAt_eq_some.mpr ?_⟩
        rw [hf]
        exact ⟨present_mkPte _ _, pteFrame_mkPte f (hperm v)⟩
      refine ⟨f, ?_, ?_⟩
      · rw [h'.keep v (by omega), hf]
      · rw [h'.moves.cell_of_bystander (h.moves.nodup hn) hleaf, hc]
  keep v hv := by rw [h'.keep v (by omega), h.keep v (by omega)]
  table i t ht := h'.table i t (h.table i t ht)
  grow i hi := by
    rcases h'.grow i hi with hi | ⟨v, hv, hv', rfl⟩
    · rcases h.grow i hi with hi | ⟨v, hv, hv', rfl⟩
      · exact .inl hi
      · exact .inr ⟨v, hv, by omega, rfl⟩
    · exact .inr ⟨v, by omega, hv', rfl⟩
  vmfreed := h'.vmfreed.trans h.vmfreed

theorem nodup (h : Backed m m' d lo hi perm c) (hn : (m.free ++ dirFrames m d).Nodup) :
    (m'.free ++ dirFrames m' d).Nodup := by
  have := h.moves.nodup hn
  rw [← List.append_assoc] at this
  exact (List.nodup_append.mp this).1

end Backed

/-! ## One turn -/

/-- **Taking a frame, writing it and mapping it**: there is no frame, there is no table for it, or
the page is backed. -/
theorem kalloc_map_cases (hn : (m.free ++ dirFrames m d).Nodup) (hv : v < 0x80000)
    (hp : ¬ Present (entry m d v)) (perm : Nat → Nat) (hperm : perm v < 4096)
    (c : Nat → Nat → Nat) :
    (kalloc m = (none, m) ∧ m.free = []) ∨
      ∃ f m₁, kalloc m = (some f, m₁) ∧ f ∈ m.free ∧
        ((∃ m', mappages (m₁.fill f (c v)) d (v * 4096) 4096 (4096 * f) (perm v) = .ok (true, m')
            ∧ Backed m m' d v (v + 1) perm c ∧ entry m' d v = mkPte (4096 * f) (perm v)) ∨
          ∃ m', mappages (m₁.fill f (c v)) d (v * 4096) 4096 (4096 * f) (perm v) = .ok (false, m')
            ∧ m.Moves (dirFrames m d) m' (dirFrames m' d ++ [f]) ∧ entry m' d = entry m d
            ∧ tableAt m' d = tableAt m d ∧ m'.vmfreed = m.vmfreed ∧ m'.free = []
            ∧ tableAt m d (v / 1024) = none) := by
  rcases kalloc_cases m with ⟨hfree, hk⟩ | ⟨f, fs, hfree, hk⟩
  · exact .inl ⟨hk, hfree⟩
  obtain ⟨hpop, hf, hcell₁, hvm₁⟩ := moves_kalloc hk
  refine .inr ⟨f, _, hk, hf, ?_⟩
  set m₁ : Mem := { m with free := fs }
  set m₂ : Mem := m₁.fill f (c v)
  have hfd : f ∉ dirFrames m d := fun hc => List.disjoint_of_nodup_append hn hf hc
  have hcell : ∀ g ∈ dirFrames m d, m₂.cell g = m.cell g := fun g hg => by
    rw [Mem.fill_cell_of_ne _ _ (ne_of_mem_of_not_mem hg hfd), hcell₁]
  have hdir : dirFrames m₂ d = dirFrames m d := dirFrames_congr (hcell d (List.mem_cons_self ..))
  have hent : entry m₂ d = entry m d := entry_congr hcell
  have htab : tableAt m₂ d = tableAt m d := tableAt_congr (hcell d (List.mem_cons_self ..))
  have hmove : m.Moves (dirFrames m d) m₂ (dirFrames m₂ d ++ [f]) := by
    rw [hdir]
    have hpop' := hpop.extend_left (dirFrames m d)
    rw [List.append_nil] at hpop'
    exact hpop'.trans (m₁.moves_fill (by simp) _)
  have hn₂ : (m₂.free ++ (dirFrames m₂ d ++ [f])).Nodup := hmove.nodup hn
  have hn₂' : (m₂.free ++ dirFrames m₂ d).Nodup := by
    rw [← List.append_assoc] at hn₂
    exact (List.nodup_append.mp hn₂).1
  have hpage : v * 4096 / 4096 = v := Nat.mul_div_cancel _ (by decide)
  rw [mappages_page (Nat.mul_mod_left _ _) (by omega)]
  have hcases := mapPage_cases hn₂' (by omega : v * 4096 < 0x100000000) (4096 * f) (perm v)
  rw [hpage, hent, htab] at hcases
  rcases hcases with ⟨m', t, hr, hstep, -, hent', htab'⟩ | ⟨hr, hout, hnone⟩ | ⟨-, hp'⟩
  · have hleaf : leafAt m' d v = some f := by
      rw [leafAt_eq_some, hent', update_self]
      exact ⟨present_mkPte _ _, pteFrame_mkPte f hperm⟩
    have hleaves : leavesIn m' d v (v + 1) = [f] := by
      rw [leavesIn_cons (Nat.lt_succ_self v) hleaf,
        leavesIn_eq_nil fun u hu hu' => absurd hu' (by omega)]
    refine .inl ⟨m', hr, ⟨?_, fun u hu hu' => ⟨f, ?_, ?_⟩, fun u hu => ?_, fun i t ht => ?_,
      fun i hi => ?_, ?_⟩, by rw [hent', update_self]⟩
    · rw [hleaves]
      exact hmove.trans (hstep.moves.extend [f])
    · obtain rfl : u = v := by omega
      rw [hent', update_self]
    · obtain rfl : u = v := by omega
      rw [hstep.moves.cell_of_bystander hn₂ (List.mem_singleton.mpr rfl)]
      exact Mem.fill_cell_self _ _ _
    · rw [hent', update_of_ne (by omega)]
    · exact hstep.tableAt i t (by rw [htab, ht])
    · rw [htab', update_apply] at hi
      by_cases hiv : i = v / 1024
      · exact .inr ⟨v, le_rfl, Nat.lt_succ_self v, hiv⟩
      · rw [if_neg hiv] at hi
        exact .inl hi
    · exact hstep.vmfreed
  · exact .inr ⟨m₂, hr, hmove, hent, htab, rfl, hout, hnone⟩
  · exact absurd hp' hp

/-- Giving back a frame that is held besides the directory leaves the directory alone. -/
theorem kfree_beside (hn : (m.free ++ (dirFrames m d ++ [f])).Nodup) (hf : L.Frame f) :
    ∃ m', kfree L m f = .ok m' ∧ m.Moves (dirFrames m d ++ [f]) m' (dirFrames m' d)
      ∧ entry m' d = entry m d ∧ tableAt m' d = tableAt m d ∧ m'.vmfreed = m.vmfreed := by
  obtain ⟨m', hk, hmove, hcell, hvm⟩ := kfree_spec m hf
  have hfd : f ∉ dirFrames m d := fun hc =>
    List.disjoint_of_nodup_append (List.nodup_append.mp hn).2.1 hc (List.mem_singleton.mpr rfl)
  have hcell' : ∀ g ∈ dirFrames m d, m'.cell g = m.cell g := fun g hg =>
    hcell g (ne_of_mem_of_not_mem hg hfd)
  refine ⟨m', hk, ?_, entry_congr hcell', tableAt_congr (hcell' d (List.mem_cons_self ..)), hvm⟩
  rw [dirFrames_congr (hcell' d (List.mem_cons_self ..))]
  have := hmove.extend_left (dirFrames m d)
  rwa [List.append_nil] at this

/-! ## `allocuvm` -/

/-- **The loop is stuck**: part of a range is backed, a further `X` is held, and memory is out.
`short` says by how much it fell short of the pages and the tables for them. -/
structure Stuck (m m' : Mem) (d lo hi : Nat) (X : List Nat) : Prop where
  moves : m.Moves (dirFrames m d) m' (dirFrames m' d ++ leavesIn m' d lo hi ++ X)
  keep : ∀ v, ¬ (lo ≤ v ∧ v < hi) → entry m' d v = entry m d v
  table : ∀ i t, tableAt m d i = some t → tableAt m' d i = some t
  grow : ∀ i, tableAt m' d i ≠ none →
    tableAt m d i ≠ none ∨ ∃ v, lo ≤ v ∧ v < hi ∧ i = v / 1024
  vmfreed : m'.vmfreed = m.vmfreed
  short : ∀ S : List Nat, (∀ i, tableAt m d i ≠ none → i ∈ S) →
    (∀ v, lo ≤ v → v < hi → v / 1024 ∈ S) →
      m.free.length + (dirFrames m d).length ≤ S.length + (hi - lo)

/-- **…and its pages are given back.**  Tables may stay behind. -/
structure Undone (m m' : Mem) (d lo hi : Nat) (X : List Nat) : Prop where
  moves : m.Moves (dirFrames m d) m' (dirFrames m' d ++ X)
  gone : ∀ v, lo ≤ v → v < hi → ¬ Present (entry m' d v)
  keep : ∀ v, ¬ (lo ≤ v ∧ v < hi) → entry m' d v = entry m d v
  table : ∀ i t, tableAt m d i = some t → tableAt m' d i = some t
  grow : ∀ i, tableAt m' d i ≠ none →
    tableAt m d i ≠ none ∨ ∃ v, lo ≤ v ∧ v < hi ∧ i = v / 1024
  vmfreed : m'.vmfreed = m.vmfreed
  short : ∀ S : List Nat, (∀ i, tableAt m d i ≠ none → i ∈ S) →
    (∀ v, lo ≤ v → v < hi → v / 1024 ∈ S) →
      m.free.length + (dirFrames m d).length ≤ S.length + (hi - lo)

/-- The pages of a range that are not reached yet hold nothing. -/
theorem Backed.leavesIn_eq (hb : Backed m m' d lo v perm c) (hlo : lo ≤ v) (hv : v ≤ hi)
    (hfresh : ∀ u, lo ≤ u → u < hi → ¬ Present (entry m d u)) :
    leavesIn m' d lo hi = leavesIn m' d lo v := by
  have hrest : leavesIn m' d v hi = [] := leavesIn_eq_nil fun u hu hu' => by
    rw [hb.keep u (by omega)]
    exact hfresh u (by omega) hu'
  rw [leavesIn_split hlo hv, hrest, List.append_nil]

/-- No frame is left for page `v`. -/
theorem Backed.stuck_frame (hb : Backed m m' d lo v perm c) (hlo : lo ≤ v) (hv : v < hi)
    (hfresh : ∀ u, lo ≤ u → u < hi → ¬ Present (entry m d u)) (hout : m'.free = []) :
    Stuck m m' d lo hi [] where
  moves := by
    rw [hb.leavesIn_eq hlo hv.le hfresh, List.append_nil]
    exact hb.moves
  keep u hu := hb.keep u (by omega)
  table := hb.table
  grow i hi := by
    rcases hb.grow i hi with hi | ⟨u, hu, hu', rfl⟩
    · exact .inl hi
    · exact .inr ⟨u, hu, by omega, rfl⟩
  vmfreed := hb.vmfreed
  short S hS hS' := by
    have htab : (tables m' d).length ≤ S.length := length_tables_le fun i hi => by
      rcases hb.grow i hi with hi | ⟨u, hu, hu', rfl⟩
      · exact hS i hi
      · exact hS' u hu (by omega)
    have hlen := hb.moves.length
    have hleaf := length_leavesIn_le m' d lo v
    have hdir : (dirFrames m' d).length = (tables m' d).length + 1 := List.length_cons
    rw [hout, List.length_append, List.length_nil] at hlen
    omega

/-- No table is left for page `v`, whose frame `f` is already taken. -/
theorem Backed.stuck_table {m₁ : Mem} (hb : Backed m m₁ d lo v perm c) (hlo : lo ≤ v) (hv : v < hi)
    (hfresh : ∀ u, lo ≤ u → u < hi → ¬ Present (entry m d u))
    (hmove : m₁.Moves (dirFrames m₁ d) m' (dirFrames m' d ++ [f])) (hent : entry m' d = entry m₁ d)
    (htab : tableAt m' d = tableAt m₁ d) (hvm : m'.vmfreed = m₁.vmfreed) (hout : m'.free = [])
    (hnone : tableAt m₁ d (v / 1024) = none) : Stuck m m' d lo hi [f] := by
  have hleaves : leavesIn m' d lo hi = leavesIn m₁ d lo v := by
    rw [leavesIn_congr fun u _ _ => congrFun hent u, hb.leavesIn_eq hlo hv.le hfresh]
  have hmoves : m.Moves (dirFrames m d) m' (dirFrames m' d ++ leavesIn m' d lo hi ++ [f]) := by
    rw [hleaves]
    refine (hb.moves.trans (hmove.extend _)).congr (List.Perm.refl _) ?_
    rw [List.append_assoc, List.append_assoc]
    exact List.perm_append_comm.append_left _
  refine ⟨hmoves, fun u hu => ?_, fun i t ht => ?_, fun i hi => ?_, hvm.trans hb.vmfreed,
    fun S hS hS' => ?_⟩
  · rw [hent]
    exact hb.keep u (by omega)
  · rw [htab]
    exact hb.table i t ht
  · rw [htab] at hi
    rcases hb.grow i hi with hi | ⟨u, hu, hu', rfl⟩
    · exact .inl hi
    · exact .inr ⟨u, hu, by omega, rfl⟩
  · have hmem : v / 1024 ∈ S := hS' v hlo hv
    have htabs : (tables m' d).length ≤ (S.erase (v / 1024)).length :=
      length_tables_le fun i hi => by
        rw [htab] at hi
        refine (List.mem_erase_of_ne (by rintro rfl; exact hi hnone)).mpr ?_
        rcases hb.grow i hi with hi | ⟨u, hu, hu', rfl⟩
        · exact hS i hi
        · exact hS' u hu (by omega)
    have hlen := hmoves.length
    have hleaf := length_leavesIn_le m₁ d lo v
    have hdir : (dirFrames m' d).length = (tables m' d).length + 1 := List.length_cons
    have hpos : 0 < S.length := List.length_pos_of_mem hmem
    rw [List.length_erase_of_mem hmem] at htabs
    rw [hout, hleaves, List.length_append, List.length_append, List.length_nil,
      List.length_singleton] at hlen
    omega

/-- Dropping the range. -/
theorem Stuck.drop {X : List Nat} (h : Stuck m m' d lo hi X) (h' : Dropped m' m'' d lo hi) :
    Undone m m'' d lo hi X where
  moves := h.moves.trans (h'.moves.extend X)
  gone v hv hv' := by
    rw [h'.entry]
    by_cases hp : Present (entry m' d v)
    · rw [if_pos ⟨hv, hv', hp⟩]
      exact not_present_zero
    · rwa [if_neg fun hc => hp hc.2.2]
  keep v hv := by rw [h'.entry, if_neg fun hc => hv ⟨hc.1, hc.2.1⟩, h.keep v hv]
  table i t ht := by
    rw [h'.tableAt]
    exact h.table i t ht
  grow i hi := by
    rw [h'.tableAt] at hi
    exact h.grow i hi
  vmfreed := h'.vmfreed.trans h.vmfreed
  short := h.short

/-- Giving back the odd frame. -/
theorem Undone.kfree (hn : (m.free ++ dirFrames m d).Nodup) (h : Undone m m' d lo hi [f])
    (hf : L.Frame f) : ∃ m'', kfree L m' f = .ok m'' ∧ Undone m m'' d lo hi [] := by
  obtain ⟨m'', hk, hmove, hent, htab, hvm⟩ := kfree_beside (h.moves.nodup hn) hf
  refine ⟨m'', hk, ?_, fun v hv hv' => ?_, fun v hv => ?_, fun i t ht => ?_, fun i hi => ?_,
    hvm.trans h.vmfreed, h.short⟩
  · rw [List.append_nil]
    exact h.moves.trans hmove
  · rw [hent]
    exact h.gone v hv hv'
  · rw [hent]
    exact h.keep v hv
  · rw [htab]
    exact h.table i t ht
  · rw [htab] at hi
    exact h.grow i hi

section Loop

variable {oldsz newsz : Nat} (hn : (m.free ++ dirFrames m d).Nodup)
  (hL : ∀ g ∈ m.free ++ dirFrames m d, L.Frame g) (hnew : newsz < SHAREBASE)
include hn hL hnew

section Turn

variable (hlo : lo = (oldsz + 4095) / 4096) (hhi : hi = (newsz + 4095) / 4096)
include hlo hhi

/-- A stuck loop can always clean up. -/
theorem Stuck.deallocuvm {X : List Nat} (hlt : oldsz < newsz) (h : Stuck m m' d lo hi X) :
    ∃ m'', deallocuvm L m' d newsz oldsz = .ok (oldsz, m'') ∧ Undone m m'' d lo hi X := by
  subst hlo hhi
  have hsmall : newsz ≤ 0xF0000000 := by
    rw [SHAREBASE] at hnew
    omega
  have hn' := h.moves.nodup hn
  rw [← List.append_assoc] at hn'
  obtain ⟨m'', hr, hd⟩ := deallocuvm_spec hlt hsmall (List.nodup_append.mp hn').1 fun g hg => by
    refine hL g (List.mem_append.mpr (h.moves.mem_iff.mp (.inr ?_)))
    exact List.mem_append_left _ (List.mem_append_right _ hg)
  exact ⟨m'', hr, h.drop hd⟩

/-- **One turn of `allocuvm`'s loop**: one more page is backed, or all of them are given back. -/
theorem allocPage_ends {m₁ : Mem} (hfresh : ∀ u, lo ≤ u → u < hi → ¬ Present (entry m d u))
    (hb : Backed m m₁ d lo v (fun _ => PTE_W ||| PTE_U) fun _ _ => 0) (hle : lo ≤ v) (hv : v < hi) :
    Loops.Ends (Backed m · d lo (v + 1) (fun _ => PTE_W ||| PTE_U) fun _ _ => 0) (Undone m · d lo hi [])
      (fun _ => False) (allocPage L d oldsz newsz v m₁) := by
  have hlt : oldsz < newsz := by omega
  have hv' : v < 0x80000 := by
    rw [SHAREBASE] at hnew
    omega
  have hp : ¬ Present (entry m₁ d v) := by
    rw [hb.keep v (by omega)]
    exact hfresh v hle hv
  rw [allocPage]
  rcases kalloc_map_cases (hb.nodup hn) hv' hp (fun _ => PTE_W ||| PTE_U) (by decide)
      (fun _ _ => 0) with
    ⟨hk, hout⟩ | ⟨f, m₂, hk, hf, ⟨m₃, hr, hone, -⟩ | ⟨m₃, hr, hmove, hent, htab, hvm, hout, hnone⟩⟩
  · obtain ⟨m', hr, h⟩ := (hb.stuck_frame hle hv hfresh hout).deallocuvm hn hL hnew hlo hhi hlt
    simp only [hk, hr]
    exact h
  · simp only [hk, hr]
    exact hb.append hn (fun _ => by decide) hle (Nat.le_succ v) hone
  · have hstuck := hb.stuck_table hle hv hfresh hmove hent htab hvm hout hnone
    obtain ⟨m₄, hr', h⟩ := hstuck.deallocuvm hn hL hnew hlo hhi hlt
    have hLf : L.Frame f := hL f (List.mem_append.mpr (hb.moves.mem_iff.mp (.inl hf)))
    obtain ⟨m', hk', h'⟩ := h.kfree hn hLf
    simp only [hk, hr, hr', hk']
    exact h'

end Turn

/-- **`allocuvm`** of a larger size: the pages are backed with zeroes, or memory is short and the
directory keeps its pages. -/
theorem allocuvm_cases (hle : oldsz ≤ newsz)
    (hfresh : ∀ u, (oldsz + 4095) / 4096 ≤ u → u < (newsz + 4095) / 4096 →
      ¬ Present (entry m d u)) :
    (∃ m', allocuvm L m d oldsz newsz = .ok (newsz, m')
        ∧ Backed m m' d ((oldsz + 4095) / 4096) ((newsz + 4095) / 4096)
          (fun _ => PTE_W ||| PTE_U) fun _ _ => 0) ∨
      ∃ m', allocuvm L m d oldsz newsz = .ok (0, m')
        ∧ Undone m m' d ((oldsz + 4095) / 4096) ((newsz + 4095) / 4096) [] := by
  have hup : pgRoundUp oldsz = (oldsz + 4095) / 4096 * 4096 := pgRoundUp_eq (by
    rw [SHAREBASE] at hnew
    omega)
  have hpages : pagesBetween (pgRoundUp oldsz) newsz = List.range' ((oldsz + 4095) / 4096)
      ((newsz + 4095) / 4096 - (oldsz + 4095) / 4096) := by
    rw [pagesBetween, hup, Nat.mul_div_cancel _ (by decide)]
  rw [allocuvm, if_neg (by omega), if_neg (by omega), hpages]
  have hloop := (Loops.each_range (f := allocPage L d oldsz newsz) (J := (Undone m · d _ _ []))
    (n := (newsz + 4095) / 4096 - (oldsz + 4095) / 4096) (E := fun _ => False) (.nil m d _ _ _)
    fun v m₁ hv hv' hb => allocPage_ends hn hL hnew rfl rfl hfresh hb hv (by omega)).cases
  rw [Nat.add_sub_cancel' (by omega)] at hloop
  rcases hloop with ⟨m', hr, h⟩ | ⟨m', hr, h⟩ | ⟨-, -, h⟩
  · exact .inl ⟨m', by rw [hr], h⟩
  · exact .inr ⟨m', by rw [hr], h⟩
  · exact h.elim

end Loop

end Xv6

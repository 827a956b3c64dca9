import Xv6Ipc.Process.Lookup

/-!
# Process/Layout — where a child finds its parent's regions

`linkphysaddr` lays the regions out one after the other, each rounded up to whole pages:

    SHAREBASE ── s₀ ──┬── s₁ ──┬── s₂ ──┬── …                 regionStart rs i
                      │        │        │
    parent    memstart₀   memstart₁  memstart₂                at the same offset in the page

`mappa2va` tests a bound that is four times too strict — its cursor is a `uint *` — but a region that
passes it has room.
-/

namespace Xv6

/-- **The address of region `i`**: the regions before it, in whole pages from `SHAREBASE` on. -/
def regionStart (rs : List Shared) (i : Nat) : Nat :=
  SHAREBASE + ((rs.take i).map fun s => pgRoundUp (u32 s.sz.val)).sum

/-- How many pages lie before region `i`. -/
def pagesBefore (rs : List Shared) (i : Nat) : Nat := ((rs.take i).map Shared.pages).sum

/-- The page tables the pages from `SHAREBASE` to page `hi` still need. -/
def missing (m : Mem) (d hi : Nat) : List Nat :=
  (List.range' 256 ((hi + 1023) / 1024 - 256)).filter fun i => (tableAt m d i).isNone

/-- **The regions `rs` of the parent `p` lie one after the other in the child's directory `d`.** -/
structure LaidOut (m m' : Mem) (d p : Nat) (rs rest l' : List Shared) : Prop where
  linked : ∀ i s j, rs[i]? = some s → j < pgRoundUp (u32 s.sz.val) / 4096 →
    entry m' d (regionStart rs i / 4096 + j)
      = mkPte (4096 * pteFrame (entry m p (srcPage s.memstart j))) (PTE_U ||| PTE_W)
  moved : ∀ i (s : Shared), rs[i]? = some s →
    l'[i]? = some { s with memstart := regionStart rs i + s.memstart % 4096 }
  ended : l'.drop rs.length = rest
  next : ∀ i s, rs[i]? = some s → regionStart rs (i + 1) = regionStart rs i + pgRoundUp (u32 s.sz.val)
  disjoint : ∀ i j s, rs[i]? = some s → i < j →
    regionStart rs i + pgRoundUp (u32 s.sz.val) ≤ regionStart rs j
  below : ∀ i, regionStart rs i ≤ KERNBASE
  bare : ∀ v, 0x40000 ≤ v → v < 0x80000 →
    (∀ i s, rs[i]? = some s → ¬ (regionStart rs i ≤ 4096 * v
      ∧ 4096 * v < regionStart rs i + pgRoundUp (u32 s.sz.val))) → ¬ Present (entry m' d v)
  outside : ∀ v, v < 0x40000 ∨ 0x80000 ≤ v → entry m' d v = entry m d v
  parent : ∀ f ∈ dirFrames m p, m'.cell f = m.cell f

variable {m m' : Mem} {d p w v i j : Nat} {rs rest : List Shared} {s : Shared}

/-! ## Sums -/

theorem regionStart_eq (rs : List Shared) (i : Nat) :
    regionStart rs i = 4096 * (0x40000 + pagesBefore rs i) := by
  have hsum : ∀ l : List Shared, (l.map fun s => pgRoundUp (u32 s.sz.val)).sum
      = 4096 * (l.map Shared.pages).sum := fun l => by
    induction l with
    | nil => rfl
    | cons s l ih =>
      have := s.pages_mul
      simp only [List.map_cons, List.sum_cons, ih]
      omega
  rw [regionStart, hsum, pagesBefore, SHAREBASE]
  omega

theorem regionStart_div (rs : List Shared) (i : Nat) :
    regionStart rs i / 4096 = 0x40000 + pagesBefore rs i := by
  rw [regionStart_eq, Nat.mul_div_cancel_left _ (by decide)]

theorem pagesBefore_succ (h : rs[i]? = some s) :
    pagesBefore rs (i + 1) = pagesBefore rs i + s.pages := by
  rw [pagesBefore, pagesBefore, List.take_add_one, h]
  simp

theorem pagesBefore_cons_succ (s : Shared) (rs : List Shared) (i : Nat) :
    pagesBefore (s :: rs) (i + 1) = s.pages + pagesBefore rs i := by simp [pagesBefore]

theorem pagesBefore_mono (rs : List Shared) (h : i ≤ j) : pagesBefore rs i ≤ pagesBefore rs j := by
  obtain ⟨k, rfl⟩ := Nat.exists_eq_add_of_le h
  rw [pagesBefore, pagesBefore, List.take_add, List.map_append, List.sum_append]
  exact Nat.le_add_right _ _

/-! ## The table, region by region -/

section Regions

variable (hsz : ∀ s ∈ rs, s.sz ≠ 0)
include hsz

theorem linkSource_at (h : rs[i]? = some s) (hj : j < s.pages) :
    linkSource (rs ++ rest) w (w + pagesBefore rs i + j) = some (srcPage s.memstart j) := by
  induction rs generalizing w i with
  | nil => simp at h
  | cons t rs ih =>
    obtain ⟨ht, hrs⟩ := List.forall_mem_cons.mp hsz
    rw [List.cons_append, linkSource, if_neg ht]
    cases i with
    | zero =>
      obtain rfl : t = s := by simpa using h
      have hzero : w + pagesBefore (t :: rs) 0 + j = w + j := rfl
      rw [hzero, if_pos (by omega), Nat.add_sub_cancel_left]
    | succ i =>
      rw [pagesBefore_cons_succ, if_neg (by omega)]
      have := ih hrs (w := w + t.pages) (by simpa using h)
      rwa [Nat.add_assoc w] at this

theorem linkSource_none (hrest : ∀ s ∈ rest, s.sz = 0)
    (h : ∀ i s, rs[i]? = some s →
      ¬ (w + pagesBefore rs i ≤ v ∧ v < w + pagesBefore rs i + s.pages)) :
    linkSource (rs ++ rest) w v = none := by
  induction rs generalizing w with
  | nil =>
    cases rest with
    | nil => rfl
    | cons e rest => exact if_pos (hrest e (List.mem_cons_self ..))
  | cons t rs ih =>
    obtain ⟨ht, hrs⟩ := List.forall_mem_cons.mp hsz
    have hfirst := h 0 t rfl
    have hzero : w + pagesBefore (t :: rs) 0 = w := rfl
    rw [hzero] at hfirst
    rw [List.cons_append, linkSource, if_neg ht, if_neg hfirst]
    refine ih hrs fun i s hi => ?_
    have := h (i + 1) s (by simpa using hi)
    rwa [pagesBefore_cons_succ, ← Nat.add_assoc w] at this

theorem relocate_at (h : rs[i]? = some s) :
    (relocate (rs ++ rest) w)[i]? = some (s.moveTo (w + pagesBefore rs i)) := by
  induction rs generalizing w i with
  | nil => simp at h
  | cons t rs ih =>
    obtain ⟨ht, hrs⟩ := List.forall_mem_cons.mp hsz
    rw [List.cons_append, relocate, if_neg ht]
    cases i with
    | zero =>
      obtain rfl : t = s := by simpa using h
      rfl
    | succ i =>
      rw [pagesBefore_cons_succ, ← Nat.add_assoc w]
      exact ih hrs (by simpa using h)

theorem relocate_drop (hrest : ∀ s ∈ rest, s.sz = 0) :
    (relocate (rs ++ rest) w).drop rs.length = rest := by
  induction rs generalizing w with
  | nil =>
    cases rest with
    | nil => rfl
    | cons e rest =>
      rw [List.nil_append, relocate, if_pos (hrest e (List.mem_cons_self ..))]
      rfl
  | cons t rs ih =>
    obtain ⟨ht, hrs⟩ := List.forall_mem_cons.mp hsz
    rw [List.cons_append, relocate, if_neg ht]
    exact ih hrs

theorem span_append (hrest : ∀ s ∈ rest, s.sz = 0) : span (rs ++ rest) = pagesBefore rs rs.length := by
  induction rs with
  | nil =>
    cases rest with
    | nil => rfl
    | cons e rest => exact if_pos (hrest e (List.mem_cons_self ..))
  | cons t rs ih =>
    obtain ⟨ht, hrs⟩ := List.forall_mem_cons.mp hsz
    rw [List.cons_append, span_cons ht, ih hrs, List.length_cons, pagesBefore_cons_succ]

end Regions

/-! ## Regions that pass the test of `mappa2va` -/

theorem CInt.u32_of_pos {x : CInt} (h : 0 < x.val) : u32 x.val = x.val.toNat ∧ u32 x.val < 0x80000000 := by
  have := x.lt_max
  rw [u32]
  omega

/-- A region that passes has room below `KERNBASE`. -/
theorem Shared.room (hsz : 0 < s.sz.val) (hfit : 4096 * w + 4 * u32 s.sz.val < KERNBASE) :
    w + s.pages ≤ 0x80000 := by
  have hlt := (CInt.u32_of_pos hsz).2
  rw [KERNBASE] at hfit
  rw [Shared.pages, pgRoundUp]
  omega

/-- **Regions that pass, in pages the parent has, can be linked.** -/
theorem linkable_of_fit {e : Nat → Nat} (hne : rest ≠ []) (hrest : ∀ s ∈ rest, s.sz = 0)
    (hsz : ∀ s ∈ rs, 0 < s.sz.val)
    (hfit : ∀ i s, rs[i]? = some s → 4096 * (w + pagesBefore rs i) + 4 * u32 s.sz.val < KERNBASE)
    (hpres : ∀ s ∈ rs, ∀ j < s.pages, Present (e (srcPage s.memstart j))) :
    Linkable e (rs ++ rest) w := by
  induction rs generalizing w with
  | nil =>
    cases rest with
    | nil => exact absurd rfl hne
    | cons t rest => exact fun hc => absurd (hrest t (List.mem_cons_self ..)) hc
  | cons s rs ih =>
    obtain ⟨hs, hrs⟩ := List.forall_mem_cons.mp hsz
    obtain ⟨hps, hprs⟩ := List.forall_mem_cons.mp hpres
    have hfirst : 4096 * w + 4 * u32 s.sz.val < KERNBASE := hfit 0 s rfl
    refine fun _ => ⟨?_, s.room hs hfirst, hps, ih hrs (fun i t hi => ?_) hprs⟩
    · rw [KERNBASE] at hfirst ⊢
      rw [u32]
      omega
    · have := hfit (i + 1) t (by simpa using hi)
      rwa [pagesBefore_cons_succ, ← Nat.add_assoc w] at this

/-- **A frame for each missing table is enough.** -/
theorem enough_of_missing {hi : Nat} (hmem : (missing m d hi).length ≤ m.free.length) :
    Enough m d 0x40000 hi := by
  intro m' hstep hgrow v hv hv' hnone hout
  have hmiss : v / 1024 ∈ missing m d hi := by
    refine List.mem_filter.mpr ⟨List.mem_range'_1.mpr ⟨by omega, by omega⟩, ?_⟩
    cases ht : tableAt m d (v / 1024) with
    | none => rfl
    | some t => exact absurd (hstep.tableAt _ t ht) (by rw [hnone]; exact nofun)
  have htab : (tables m' d).length
      ≤ (tableIndices m d ++ (missing m d hi).erase (v / 1024)).length :=
    length_tables_le fun k hk => by
      rw [List.mem_append, mem_tableIndices]
      by_cases ht : tableAt m d k = none
      · obtain ⟨u, hu, hu', rfl⟩ := (hgrow k hk).resolve_left (not_not.mpr ht)
        refine .inr ((List.mem_erase_of_ne ?_).mpr (List.mem_filter.mpr
          ⟨List.mem_range'_1.mpr ⟨by omega, by omega⟩, by rw [ht]; rfl⟩))
        intro he
        rw [he] at hk
        exact hk hnone
      · exact .inl ht
  have hlen := hstep.moves.length
  have hpos := List.length_pos_of_mem hmiss
  rw [List.length_append, length_tableIndices, List.length_erase_of_mem hmiss] at htab
  rw [hout, dirFrames, dirFrames, List.length_cons, List.length_cons, List.length_nil] at hlen
  omega

/-- **The layout of linked regions**: at most nine of them, each of positive size and passing the
test of `mappa2va`, in pages that the parent has, with a frame for each page table. -/
theorem linked_layout (L : Linker) (rs rest : List Shared) (hsite : LinkSite m d p 0x40000)
    (htable : (rs ++ rest).length = MAXSHARED) (hnine : rs.length ≤ 9)
    (hsz : ∀ s ∈ rs, 0 < s.sz.val) (hrest : ∀ s ∈ rest, s.sz = 0)
    (hfit : ∀ i s, rs[i]? = some s → regionStart rs i + 4 * s.sz.val < (KERNBASE : Int))
    (hpres : ∀ s ∈ rs, ∀ j < pgRoundUp (u32 s.sz.val) / 4096, Present (entry m p (srcPage s.memstart j)))
    (hmem : (missing m d (regionStart rs rs.length / 4096)).length ≤ m.free.length) :
    ∃ m' l', linkphysaddr L m d 1 p (rs ++ rest) = .ok (1, m', l') ∧ LaidOut m m' d p rs rest l' := by
  have hne : rest ≠ [] := by
    rintro rfl
    rw [List.append_nil, MAXSHARED] at htable
    omega
  have hsz' : ∀ s ∈ rs, s.sz ≠ 0 := fun s hs hz => by
    have := hsz s hs
    rw [hz] at this
    exact absurd this (by decide)
  have hfit' : ∀ i s, rs[i]? = some s →
      4096 * (0x40000 + pagesBefore rs i) + 4 * u32 s.sz.val < KERNBASE := fun i s hi => by
    have hpass := hfit i s hi
    have hpos := hsz s (List.mem_of_getElem? hi)
    have hu := (CInt.u32_of_pos hpos).1
    rw [regionStart_eq] at hpass
    omega
  have hlink := linkable_of_fit (e := entry m p) hne hrest hsz hfit' hpres
  rw [regionStart_div, ← span_append hsz' hrest] at hmem
  obtain ⟨m', hr, hstep, hent⟩ :=
    linkFrom_of_enough L 6 (enough_of_missing hmem) hsite hlink
  have hsource : ∀ v, (∀ i s, rs[i]? = some s → ¬ (regionStart rs i ≤ 4096 * v
      ∧ 4096 * v < regionStart rs i + pgRoundUp (u32 s.sz.val))) → entry m' d v = entry m d v := by
    intro v hout
    rw [hent, linkedEntry, linkSource_none hsz' hrest fun i s hi hc => hout i s hi ?_]
    have hpages := s.pages_mul
    rw [regionStart_eq]
    omega
  have hend : ∀ i s, rs[i]? = some s →
      regionStart rs (i + 1) = regionStart rs i + pgRoundUp (u32 s.sz.val) := fun i s hi => by
    have hpages := s.pages_mul
    rw [regionStart_eq, regionStart_eq, pagesBefore_succ hi]
    omega
  have hmono : ∀ i j, i ≤ j → regionStart rs i ≤ regionStart rs j := fun i j hij => by
    have := pagesBefore_mono rs hij
    rw [regionStart_eq, regionStart_eq]
    omega
  have hbelow : ∀ i, regionStart rs i ≤ KERNBASE := fun i => by
    have hall : pagesBefore rs i ≤ pagesBefore rs rs.length := by
      by_cases hi : i ≤ rs.length
      · exact pagesBefore_mono rs hi
      · rw [pagesBefore, pagesBefore, List.take_of_length_le (by omega), List.take_length]
    have hle := hlink.span_le (by decide)
    rw [span_append hsz' hrest] at hle
    rw [regionStart_eq, KERNBASE]
    omega
  refine ⟨m', _, hr, fun i s j hi hj => ?_, fun i s hi => ?_, relocate_drop hsz' hrest, hend,
    fun i j s hi hij => ?_, hbelow, fun v hv hv' hout => ?_, fun v hv => ?_, fun f hf => ?_⟩
  · rw [hent, regionStart_div, linkedEntry, linkSource_at hsz' hi hj]
    rfl
  · rw [relocate_at hsz' hi, Shared.moveTo, regionStart_eq]
    rfl
  · rw [← hend i s hi]
    exact hmono _ _ hij
  · rw [hsource v hout]
    exact hsite.fresh v hv hv'
  · refine hsource v fun i s hi hc => ?_
    have hlow := hmono 0 i (Nat.zero_le i)
    have hhigh := hbelow (i + 1)
    rw [hend i s hi] at hhigh
    change SHAREBASE ≤ _ at hlow
    rw [SHAREBASE] at hlow
    rw [KERNBASE] at hhigh
    omega
  · exact hstep.step.moves.frame f (hsite.apart.disjoint f hf).1 (hsite.apart.disjoint f hf).2

/-- Four bytes of a process. -/
def fourBytes : Shared := ⟨cstr "x", 16, .four⟩

/-- They are linked into a directory fresh from `setupkvm`. -/
theorem linked_layout_boot : ∃ k m d m' l', Boot bareLinker k
    ∧ setupkvm bareLinker k.mem = .ok (some d, m)
    ∧ linkphysaddr bareLinker m d 1 (k.proc k.initproc).pgdir ([fourBytes] ++ List.replicate 9 .zero)
      = .ok (1, m', l')
    ∧ LaidOut m m' d (k.proc k.initproc).pgdir [fourBytes] (List.replicate 9 .zero) l' := by
  obtain ⟨k, f, d₀, hboot, hsolo, hb⟩ := exists_solo
  have hl := hsolo.runs.live
  have hn := hsolo.core.free_nodup
  rcases setupkvm_cases hn hsolo.core.free_frame with ⟨m, d, hr, hd⟩ | ⟨m, -, -, hshort, -⟩
  case inr =>
    have := hsolo.room
    omega
  have hheld : ∀ f ∈ dirFrames k.mem (k.proc k.initproc).pgdir, f ∉ k.mem.free := fun f hf =>
    hsolo.core.not_free (mem_hold_of_owned hl (List.mem_append_left _ hf))
  have hnull : (k.proc k.initproc).pgdir ≠ 0 := Linker.Frame.ne_zero (hsolo.core.owned_frame hl _
    (List.mem_append_right _ (List.mem_append_left _ (List.mem_cons_self ..))))
  have hpage : ∀ s ∈ [fourBytes], ∀ j < pgRoundUp (u32 s.sz.val) / 4096,
      Present (entry m (k.proc k.initproc).pgdir (srcPage s.memstart j)) := fun s hs j hj => by
    obtain rfl := List.mem_singleton.mp hs
    obtain rfl : j = 0 := Nat.lt_one_iff.mp hj
    rw [(hd.image.apart hnull hheld).2]
    refine hsolo.low _ hl 0 ?_
    rw [Proc.pages, hb.first]
    change 0 < (4096 + 4095) / 4096
    decide
  have hmem : (missing m d (regionStart [fourBytes] 1 / 4096)).length ≤ m.free.length := by
    have hlen := hd.image.length_le (hd.tablesUpTo _)
    have hroom := hsolo.room
    have hone : (regionStart [fourBytes] 1 / 4096 + 1023) / 1024 - 256 = 1 := by decide
    rw [imageFrames] at hlen
    rw [missing, hone]
    refine (List.length_filter_le _ _).trans ?_
    rw [List.length_range']
    omega
  have hfit : ∀ i s, [fourBytes][i]? = some s →
      regionStart [fourBytes] i + 4 * s.sz.val < (KERNBASE : Int) := fun i s hi => by
    obtain rfl : i = 0 := by simpa using (List.getElem?_eq_some_iff.mp hi).1
    obtain rfl : fourBytes = s := Option.some.inj hi
    decide
  obtain ⟨m', l', hlink, hout⟩ := linked_layout bareLinker [fourBytes] (List.replicate 9 .zero)
    (hd.image.linkSite hn hnull hheld) rfl (by decide) (by decide)
    (fun s hs => by rw [List.eq_of_mem_replicate hs]; rfl) hfit hpage hmem
  exact ⟨k, m, d, m', l', hboot, hr, hlink, hout⟩

end Xv6

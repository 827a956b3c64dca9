import Xv6Ipc.Sharing.Link

/-!
# Sharing/Table — linking a whole table of regions

`linkphysaddr` gives each region of the table the next `PGROUNDUP(sz) / PGSIZE` pages from
`SHAREBASE` up:

    w ──pages s₀──▸ w₁ ──pages s₁──▸ w₂ ──▸ …          linkSource: child page ↦ parent page

When every region can be linked (`Linkable`) that is all it does.  A region that cannot is passed
over with `-1` added to the cursor, and from then on no page offset is right any more.
-/

namespace Xv6

namespace Shared

/-- How many pages `mappa2va` gives a region. -/
def pages (s : Shared) : Nat := pgRoundUp (u32 s.sz.val) / 4096

/-- The region, once its first page lies at page `w`. -/
def moveTo (s : Shared) (w : Nat) : Shared := { s with memstart := 4096 * w + pteFlags s.memstart }

/-- The entry marked as free. -/
def clear (s : Shared) : Shared := { s with sz := 0 }

theorem pages_mul (s : Shared) : s.pages * 4096 = pgRoundUp (u32 s.sz.val) := by
  have := pgRoundUp_mod (u32 s.sz.val)
  rw [pages]
  omega

theorem pgRoundUp_lt (x : Nat) : pgRoundUp x < 0x100000000 := by
  rw [pgRoundUp]
  omega

end Shared

/-- The regions of a table: the entries before the first of size zero. -/
def regions (l : List Shared) : List Shared := l.takeWhile fun s => s.sz ≠ 0

theorem regions_cons {s : Shared} {rest : List Shared} (hs : s.sz ≠ 0) :
    regions (s :: rest) = s :: regions rest := by simp [regions, hs]

/-- The table once its regions lie at the pages from `w` on. -/
def relocate : List Shared → Nat → List Shared
  | [], _ => []
  | s :: rest, w => if s.sz = 0 then s :: rest else s.moveTo w :: relocate rest (w + s.pages)

/-- The parent's page that backs a page of the child, when the regions lie at the pages from `w`
on. -/
def linkSource : List Shared → Nat → Nat → Option Nat
  | [], _, _ => none
  | s :: rest, w, v =>
    if s.sz = 0 then none
    else if w ≤ v ∧ v < w + s.pages then some (srcPage s.memstart (v - w))
    else linkSource rest (w + s.pages) v

/-- **Every region can be linked**, the first at page `w`: its size passes `mappa2va`'s test, there
is room below `KERNBASE`, and the parent, with entries `e`, has its pages.  A table without an
entry of size zero has no end for the loop to find. -/
def Linkable (e : Nat → Nat) : List Shared → Nat → Prop
  | [], _ => False
  | s :: rest, w => s.sz ≠ 0 → u32 ((4096 * w : Nat) + 4 * u32 s.sz.val) < KERNBASE
      ∧ w + s.pages ≤ 0x80000 ∧ (∀ j < s.pages, Present (e (srcPage s.memstart j)))
      ∧ Linkable e rest (w + s.pages)

/-- The entries of the child after linking. -/
def linkedEntry (e e' : Nat → Nat) (perm : Nat) (l : List Shared) (w v : Nat) : Nat :=
  match linkSource l w v with
  | some u => mkPte (4096 * pteFrame (e u)) perm
  | none => e' v

variable {L : Linker} {m m₀ m' m'' : Mem} {d p w v n perm : Nat} {l rest : List Shared} {s : Shared}

theorem linkSource_of_lt (h : v < w) : linkSource l w v = none := by
  induction l generalizing w with
  | nil => rfl
  | cons s rest ih =>
    rw [linkSource, if_neg (by omega : ¬ (w ≤ v ∧ v < w + s.pages)), ih (by omega), ite_self]

/-! ## Memory for the tables -/

/-- **A step that adds tables below `KERNBASE` only for the shared area.** -/
structure LinkStep (m m' : Mem) (d : Nat) : Prop where
  step : DirStep m m' d
  grow : ∀ i, tableAt m' d i ≠ none → tableAt m d i ≠ none ∨ (256 ≤ i ∧ i < 512)

theorem LinkStep.refl (m : Mem) (d : Nat) : LinkStep m m d := ⟨DirStep.refl m d, fun _ h => .inl h⟩

theorem LinkStep.trans (h : LinkStep m m' d) (h' : LinkStep m' m'' d) : LinkStep m m'' d :=
  ⟨h.step.trans h'.step, fun i hi => (h'.grow i hi).elim (h.grow i) .inr⟩

theorem Linked.linkStep {src : Nat → Nat} (h : Linked m m' d p w n src perm) (hw : 0x40000 ≤ w)
    (hn : w + n ≤ 0x80000) : LinkStep m m' d :=
  ⟨h.step, fun i hi => (h.grow i hi).imp_right fun ⟨v, hv, hv', he⟩ => by omega⟩

/-- With a frame free for each table of the shared area, no table is missing when memory is out. -/
theorem LinkStep.free_ne_nil {i : Nat} (h : LinkStep m m' d) (hmem : 256 ≤ m.free.length)
    (hi : 256 ≤ i) (hi' : i < 512) (hnone : tableAt m' d i = none) : m'.free ≠ [] := by
  intro hout
  have htab : (tables m' d).length
      ≤ (tableIndices m d ++ (List.range' 256 256).erase i).length :=
    length_tables_le fun k hk => by
      rw [List.mem_append, mem_tableIndices]
      refine (h.grow k hk).imp_right fun hk' => ?_
      refine (List.mem_erase_of_ne ?_).mpr (List.mem_range'_1.mpr hk')
      rintro rfl
      exact hk hnone
  have hlen := h.step.moves.length
  have hmem' : i ∈ List.range' 256 256 := List.mem_range'_1.mpr ⟨hi, hi'⟩
  rw [List.length_append, length_tableIndices, List.length_erase_of_mem hmem',
    List.length_range'] at htab
  rw [hout, dirFrames, dirFrames, List.length_cons, List.length_cons, List.length_nil] at hlen
  omega

/-! ## A table that can be linked -/

/-- What `linkphysaddr` finds: a child's directory with the kernel half in place and the pages from
`w` on empty, a parent's directory apart from it, and memory for the tables. -/
structure LinkSite (m : Mem) (d p w : Nat) : Prop where
  nodup : (m.free ++ dirFrames m d).Nodup
  apart : Apart m p d
  kernel : Present (entry m d 0x80000)
  fresh : ∀ v, w ≤ v → v < 0x80000 → ¬ Present (entry m d v)
  base : 0x40000 ≤ w
  room : w ≤ 0x80000

/-- The site after a run of linked pages. -/
theorem LinkSite.linked {src : Nat → Nat} (h : LinkSite m d p w) (hl : Linked m m' d p w n src perm)
    (hn : w + n ≤ 0x80000) : LinkSite m' d p (w + n) where
  nodup := hl.step.nodup h.nodup
  apart := (hl.step.apart h.apart).1
  kernel := by
    rw [hl.entry, if_neg (by omega)]
    exact h.kernel
  fresh v hv hv' := by
    rw [hl.entry, if_neg (by omega)]
    exact h.fresh v (by have := h.base; omega) hv'
  base := by have := h.base; omega
  room := hn

/-- The cursor of a site is page-aligned. -/
theorem LinkSite.pgRoundUp_eq (h : LinkSite m d p w) : pgRoundUp (4096 * w) = w * 4096 := by
  have := h.room
  rw [pgRoundUp_of_mod (by omega) (by omega)]
  omega

/-- The cursor after a linked region. -/
theorem LinkSite.next (hroom : w + s.pages ≤ 0x80000) :
    u32 ((4096 * w : Nat) + u32 (i32 (pgRoundUp (u32 s.sz.val)))) = 4096 * (w + s.pages) := by
  have hpages := s.pages_mul
  rw [u32_i32 (Shared.pgRoundUp_lt _), ← hpages, u32]
  omega

theorem LinkSite.moveTo_eq (h : LinkSite m d p w) (s : Shared) :
    { s with memstart := u32 ((4096 * w : Nat) + pteFlags s.memstart) } = s.moveTo w := by
  have hroom := h.room
  have hflags : pteFlags s.memstart < 4096 := Nat.mod_lt _ (by decide)
  have : u32 ((4096 * w : Nat) + pteFlags s.memstart) = 4096 * w + pteFlags s.memstart := by
    rw [u32]
    omega
  rw [this, Shared.moveTo]

/-- One turn of `linkphysaddr` that links its region. -/
theorem LinkSite.linkFrom_cons (h : LinkSite m d p w) (hs : s.sz ≠ 0)
    (hroom : w + s.pages ≤ 0x80000)
    (hr : mappa2va L m d p (u32 s.sz.val) s.memstart (4096 * w) perm
      = .ok (i32 (pgRoundUp (u32 s.sz.val)), m')) :
    linkFrom L d p perm (s :: rest) (4096 * w) m
      = (linkFrom L d p perm rest (4096 * (w + s.pages)) m').map
        fun x => (x.1, x.2.1, s.moveTo w :: x.2.2) := by
  have hdead : ¬ (u32 (i32 (pgRoundUp (u32 s.sz.val))) : Int) < 0 := by omega
  rw [linkFrom, if_neg hs, hr]
  simp only [if_neg hdead, LinkSite.next hroom, h.moveTo_eq]
  cases linkFrom L d p perm rest (4096 * (w + s.pages)) m' <;> rfl

/-- The entries after one more region. -/
theorem linkedEntry_cons {e e' e'' : Nat → Nat} (hs : s.sz ≠ 0)
    (he : ∀ v, e'' v = if w ≤ v ∧ v < w + s.pages
      then mkPte (4096 * pteFrame (e (srcPage s.memstart (v - w)))) perm else e' v) :
    linkedEntry e e'' perm rest (w + s.pages) = linkedEntry e e' perm (s :: rest) w := by
  funext v
  rw [linkedEntry, linkedEntry, linkSource, if_neg hs]
  by_cases hv : w ≤ v ∧ v < w + s.pages
  · rw [linkSource_of_lt hv.2, if_pos hv, he, if_pos hv]
  · rw [if_neg hv, he, if_neg hv]

/-- One turn of `linkphysaddr` that comes to the end of the table. -/
theorem linkFrom_ok {va : Nat} {r : Int} {l' : List Shared} (hs : s.sz ≠ 0)
    (h : linkFrom L d p perm (s :: rest) va m = .ok (r, m', l')) :
    ∃ x m₁ rest', mappa2va L m d p (u32 s.sz.val) s.memstart va perm = .ok (x, m₁)
      ∧ linkFrom L d p perm rest (u32 (va + u32 x)) m₁ = .ok (r, m', rest')
      ∧ l' = { s with memstart := u32 (va + pteFlags s.memstart) } :: rest' := by
  rw [linkFrom, if_neg hs] at h
  cases hmap : mappa2va L m d p (u32 s.sz.val) s.memstart va perm with
  | error e =>
    rw [hmap] at h
    simp at h
  | ok x =>
    obtain ⟨x, m₁⟩ := x
    rw [hmap] at h
    simp only [if_neg (by omega : ¬ (u32 x : Int) < 0)] at h
    cases hrest : linkFrom L d p perm rest (u32 (va + u32 x)) m₁ with
    | error e =>
      rw [hrest] at h
      simp at h
    | ok y =>
      obtain ⟨r', m'', rest'⟩ := y
      rw [hrest] at h
      obtain ⟨rfl, hy⟩ := Prod.mk.inj (Except.ok.inj h)
      obtain ⟨rfl, rfl⟩ := Prod.mk.inj hy
      exact ⟨x, m₁, rest', rfl, hrest, rfl⟩

/-- Linking moves regions; their names and sizes stay. -/
theorem linkFrom_shape {va : Nat} {r : Int} {l' : List Shared}
    (h : linkFrom L d p perm l va m = .ok (r, m', l')) :
    l'.map (fun s => (s.name, s.sz)) = l.map fun s => (s.name, s.sz) := by
  induction l generalizing va m l' with
  | nil => simp [linkFrom] at h
  | cons s rest ih =>
    by_cases hs : s.sz = 0
    · rw [linkFrom, if_pos hs] at h
      obtain ⟨-, hx⟩ := Prod.mk.inj (Except.ok.inj h)
      obtain ⟨-, rfl⟩ := Prod.mk.inj hx
      rfl
    · obtain ⟨x, m₁, rest', -, hrest, rfl⟩ := linkFrom_ok hs h
      rw [List.map_cons, List.map_cons, ih hrest]

/-! ## Memory for one table

How much memory a table of regions takes depends on where its pages lie; what the loop needs is that
the next page table can be had. -/

/-- How many pages the regions of a table take. -/
def span : List Shared → Nat
  | [] => 0
  | s :: rest => if s.sz = 0 then 0 else s.pages + span rest

theorem span_cons (hs : s.sz ≠ 0) : span (s :: rest) = s.pages + span rest := if_neg hs

/-- **Memory is enough for the pages `lo, …, hi − 1`**: when tables have been added for some of them
and the table of another is missing, a frame is free. -/
def Enough (m : Mem) (d lo hi : Nat) : Prop :=
  ∀ m', DirStep m m' d →
    (∀ i, tableAt m' d i ≠ none → tableAt m d i ≠ none ∨ ∃ v, lo ≤ v ∧ v < hi ∧ i = v / 1024) →
    ∀ v, lo ≤ v → v < hi → tableAt m' d (v / 1024) = none → m'.free ≠ []

theorem Enough.mono {lo hi hi' : Nat} (h : Enough m d lo hi') (hle : hi ≤ hi') : Enough m d lo hi :=
  fun m' hstep hgrow v hv hv' => h m' hstep
    (fun i hi => (hgrow i hi).imp_right fun ⟨u, hu, hu', he⟩ => ⟨u, hu, hu'.trans_le hle, he⟩) v hv
    (hv'.trans_le hle)

/-- What is left is enough for the rest. -/
theorem Enough.linked {src : Nat → Nat} {hi : Nat} (h : Enough m d w hi)
    (hl : Linked m m' d p w n src perm) (hn : w + n ≤ hi) : Enough m' d (w + n) hi := by
  intro m'' hstep hgrow v hv
  refine h m'' (hl.step.trans hstep) (fun i hi => ?_) v (by omega)
  rcases hgrow i hi with hi | ⟨u, hu, hu', he⟩
  · exact (hl.grow i hi).imp_right fun ⟨u, hu, hu', he⟩ => ⟨u, hu, by omega, he⟩
  · exact .inr ⟨u, by omega, hu', he⟩

theorem LinkStep.enough {hi : Nat} (h : LinkStep m₀ m d) (hmem : 256 ≤ m₀.free.length)
    (hw : 0x40000 ≤ w) (hhi : hi ≤ 0x80000) : Enough m d w hi := by
  intro m' hstep hgrow v hv hv' hnone
  have hgrow' : LinkStep m m' d := ⟨hstep, fun i hi => (hgrow i hi).imp_right fun ⟨u, _, _, he⟩ => by omega⟩
  exact (h.trans hgrow').free_ne_nil hmem (by omega) (by omega) hnone

/-- **One region of a table that can be linked.** -/
theorem LinkSite.link_region (L : Linker) (perm : Nat) (h : LinkSite m d p w)
    (hen : Enough m d w (w + s.pages)) (hcheck : u32 ((4096 * w : Nat) + 4 * u32 s.sz.val) < KERNBASE)
    (hroom : w + s.pages ≤ 0x80000) (hpres : ∀ j < s.pages, Present (entry m p (srcPage s.memstart j))) :
    ∃ m', mappa2va L m d p (u32 s.sz.val) s.memstart (4096 * w) perm
        = .ok (i32 (pgRoundUp (u32 s.sz.val)), m')
      ∧ Linked m m' d p w s.pages (srcPage s.memstart) perm := by
  rcases mappa2va_cases L (u32 s.sz.val) s.memstart perm h.nodup h.apart h.kernel h.pgRoundUp_eq h.room
    with ⟨-, hno⟩ | ⟨-, ⟨m', hr, hl, -⟩ | ⟨m', k, -, hk, -, hno⟩ | ⟨-, k, hk, -, htaken⟩
      | ⟨⟨m', k, hk, hl, -, hout, hnone⟩, -⟩⟩
  · exact absurd hcheck (not_lt.mpr hno)
  · exact ⟨m', hr, hl⟩
  · exact absurd (hpres k hk) hno
  · rw [← Shared.pages] at hk
    exact absurd htaken (h.fresh (w + k) (by omega) (by omega))
  · rw [← Shared.pages] at hk
    refine absurd hout (hen m' hl.step (fun i hi => ?_) (w + k) (by omega) (by omega) hnone)
    exact (hl.grow i hi).imp_right fun ⟨v, hv, hv', he⟩ => ⟨v, hv, by omega, he⟩

/-- **Linking a linkable table**: every region moves to its pages, and exactly those pages are
linked. -/
theorem linkFrom_of_enough (L : Linker) (perm : Nat) (hen : Enough m d w (w + span l))
    (hsite : LinkSite m d p w) (hl : Linkable (entry m p) l w) :
    ∃ m', linkFrom L d p perm l (4096 * w) m = .ok (1, m', relocate l w) ∧ LinkStep m m' d
      ∧ entry m' d = linkedEntry (entry m p) (entry m d) perm l w := by
  induction l generalizing m w with
  | nil => exact hl.elim
  | cons s rest ih =>
    by_cases hs : s.sz = 0
    · refine ⟨m, ?_, .refl m d, ?_⟩
      · rw [linkFrom, if_pos hs, relocate, if_pos hs]
      · funext v
        rw [linkedEntry, linkSource, if_pos hs]
    obtain ⟨hcheck, hroom, hpres, hrest⟩ := hl hs
    rw [span_cons hs, ← Nat.add_assoc] at hen
    obtain ⟨m₁, hr, hlink⟩ :=
      hsite.link_region L perm (hen.mono (Nat.le_add_right _ _)) hcheck hroom hpres
    have hparent : entry m₁ p = entry m p := (hlink.step.apart hsite.apart).2
    have hstep := hlink.linkStep hsite.base hroom
    rw [← hparent] at hrest
    obtain ⟨m', hr', h', hent⟩ := ih (hen.linked hlink (by omega)) (hsite.linked hlink hroom) hrest
    refine ⟨m', ?_, hstep.trans h', ?_⟩
    · rw [hsite.linkFrom_cons hs hroom hr, hr', relocate, if_neg hs]
      rfl
    · rw [hent, hparent, linkedEntry_cons hs hlink.entry]

theorem Linkable.span_le {e : Nat → Nat} (h : Linkable e l w) (hw : w ≤ 0x80000) :
    w + span l ≤ 0x80000 := by
  induction l generalizing w with
  | nil => exact h.elim
  | cons s rest ih =>
    by_cases hs : s.sz = 0
    · rw [span, if_pos hs]
      exact hw
    · obtain ⟨-, hroom, -, hrest⟩ := h hs
      rw [span_cons hs, ← Nat.add_assoc]
      exact ih hrest hroom

end Xv6

import Xv6Ipc.Exec.Image
import Xv6Ipc.Memory.Translate
import Xv6Ipc.Sharing.Table

/-!
# Sharing/Built — the directories the kernel builds, and `freevm` of one

A directory comes from `setupkvm` or `copyuvm`, is resized by `allocuvm` and `deallocuvm`, and gets pages
of a parent linked in from `SHAREBASE` on:

    0 ─ own pages ─ sz ─ gap ─ SHAREBASE ─ linked pages ─ KERNBASE ─ kernel

Below `SHAREBASE` its frames are its own.  Those it links are not, and `freevm` leaves them alone.
-/

namespace Xv6

variable {L : Linker} {m m₀ m₁ m' : Mem} {d p s w n j va sz newsz perm memstart r : Nat}

/-! ## A successful `linkphysaddr` -/

/-- A `mappa2va` that does not answer `-1` has linked its region. -/
theorem mappa2va_linked {r : Int} (hn : (m.free ++ dirFrames m d).Nodup) (ha : Apart m p d)
    (hk : Present (entry m d 0x80000)) (hva : pgRoundUp va = w * 4096) (hw : w ≤ 0x80000)
    (hr : mappa2va L m d p sz memstart va perm = .ok (r, m')) (hne : r ≠ -1) :
    r = i32 (pgRoundUp sz) ∧ Linked m m' d p w (pgRoundUp sz / 4096) (srcPage memstart) perm
      ∧ w + pgRoundUp sz / 4096 ≤ 0x80000 := by
  rcases mappa2va_cases L sz memstart perm hn ha hk hva hw with
    ⟨hr', -⟩ | ⟨-, ⟨m₁, hr', hl⟩ | ⟨m₁, k, hr', -⟩ | ⟨hr', -⟩ | ⟨-, hfail⟩⟩
  · exact absurd (Prod.mk.inj (Except.ok.inj (hr'.symm.trans hr))).1.symm hne
  · obtain ⟨rfl, rfl⟩ := Prod.mk.inj (Except.ok.inj (hr'.symm.trans hr))
    exact ⟨rfl, hl⟩
  · exact absurd (Prod.mk.inj (Except.ok.inj (hr'.symm.trans hr))).1.symm hne
  · exact nomatch hr'.symm.trans hr
  · exact absurd (hfail r m' hr) hne

/-- **A run of `linkphysaddr` in which every `mappa2va` succeeds**, from cursor `va` on. -/
inductive LinksAll (L : Linker) (d p perm : Nat) : List Shared → Nat → Mem → Mem → Prop
  | done {s : Shared} {rest : List Shared} {va : Nat} {m : Mem} (hs : s.sz = 0) :
    LinksAll L d p perm (s :: rest) va m m
  | link {s : Shared} {rest : List Shared} {va : Nat} {r : Int} {m m₁ m' : Mem} (hs : s.sz ≠ 0)
    (hr : mappa2va L m d p (u32 s.sz.val) s.memstart va perm = .ok (r, m₁)) (hne : r ≠ -1)
    (hrest : LinksAll L d p perm rest (u32 (va + u32 r)) m₁ m') : LinksAll L d p perm (s :: rest) va m m'

/-- **It changes entries from `SHAREBASE` up to `KERNBASE` only.** -/
theorem LinksAll.spec {l : List Shared} (h : LinksAll L d p perm l va m m')
    (hn : (m.free ++ dirFrames m d).Nodup) (ha : Apart m p d) (hk : Present (entry m d 0x80000))
    (hva : va = 4096 * w) (hbase : 0x40000 ≤ w) (hw : w ≤ 0x80000) :
    DirStep m m' d ∧ ∀ v, v < 0x40000 ∨ 0x80000 ≤ v → entry m' d v = entry m d v := by
  induction h generalizing w with
  | done hs => exact ⟨.refl _ _, fun _ _ => rfl⟩
  | @link s rest va r m m₁ m' hs hr hne hrest ih =>
    have hround : pgRoundUp va = w * 4096 := by
      rw [hva, pgRoundUp_of_mod (by omega) (by omega), Nat.mul_comm]
    obtain ⟨rfl, hlinked, hroom⟩ := mappa2va_linked hn ha hk hround hw hr hne
    have hkeep : ∀ v, v < 0x40000 ∨ 0x80000 ≤ v → entry m₁ d v = entry m d v := fun v hv => by
      rw [hlinked.entry, if_neg (by omega)]
    have hnext : u32 (va + u32 (i32 (pgRoundUp (u32 s.sz.val)))) = 4096 * (w + s.pages) := by
      rw [hva]
      exact LinkSite.next hroom
    rw [hnext] at ih
    obtain ⟨hstep, hentry⟩ := ih (hlinked.step.nodup hn) (hlinked.step.apart ha).1
      (by rw [hkeep _ (.inr le_rfl)]; exact hk) rfl (by omega) hroom
    exact ⟨hlinked.step.trans hstep, fun v hv => (hentry v hv).trans (hkeep v hv)⟩

/-! ## The directories -/

/-- **A directory of the kernel**, with the size of its image.  Others may do what they like, as long as
they take no frame of it and leave the directory and its tables alone; the user may write its pages. -/
inductive Built (L : Linker) : Mem → Nat → Nat → Prop
  | setupkvm {m m' : Mem} {d : Nat} (hn : m.free.Nodup) (hL : ∀ f ∈ m.free, L.Frame f)
    (hr : setupkvm L m = .ok (some d, m')) : Built L m' d 0
  | copyuvm {m m' : Mem} {s d sz : Nat} (hn : m.free.Nodup) (hL : ∀ f ∈ m.free, L.Frame f)
    (hs : ∀ f ∈ owned m s, f ∉ m.free) (hr : copyuvm L m s sz = .ok (some d, m')) : Built L m' d sz
  | allocuvm {m m' : Mem} {d sz newsz r : Nat} (h : Built L m d sz)
    (hr : allocuvm L m d sz newsz = .ok (r, m')) : Built L m' d (if r = 0 then sz else r)
  | deallocuvm {m m' : Mem} {d sz newsz r : Nat} (h : Built L m d sz)
    (hr : deallocuvm L m d sz newsz = .ok (r, m')) : Built L m' d r
  | clearpteu {m m' : Mem} {d sz v : Nat} (h : Built L m d sz) (hv : v < 0x40000)
    (hp : Present (entry m d v)) (hr : clearpteu m d (v * 4096) = .ok m') : Built L m' d sz
  | linkphysaddr {m m' : Mem} {d p perm sz : Nat} {shared : List Shared} (h : Built L m d sz)
    (ha : Apart m p d) (hr : LinksAll L d p perm shared SHAREBASE m m') : Built L m' d sz
  | elsewhere {m m' : Mem} {d sz : Nat} (h : Built L m d sz) (hn : m'.free.Nodup)
    (hL : ∀ f ∈ m'.free, L.Frame f) (hfree : ∀ f ∈ owned m d, f ∉ m'.free)
    (hcell : ∀ f ∈ dirFrames m d, m'.cell f = m.cell f) : Built L m' d sz

/-- What they have in common. -/
structure Own (L : Linker) (m : Mem) (d sz : Nat) : Prop where
  nodup : (m.free ++ owned m d).Nodup
  frame : ∀ f ∈ m.free ++ owned m d, L.Frame f
  gap : Gap m d ((sz + 4095) / 4096)
  size : (sz + 4095) / 4096 ≤ 0x40000
  kernel : Present (entry m d 0x80000)

namespace Own

variable (h : Own L m d sz)
include h

/-- A step of the directory's own. -/
theorem moves (hm : m.Moves (owned m d) m' (owned m' d)) (hgap : Gap m' d ((newsz + 4095) / 4096))
    (hsize : (newsz + 4095) / 4096 ≤ 0x40000) (hk : entry m' d 0x80000 = entry m d 0x80000) :
    Own L m' d newsz where
  nodup := hm.nodup h.nodup
  frame f hf := h.frame f (hm.perm.mem_iff.mpr hf)
  gap := hgap
  size := hsize
  kernel := by
    rw [hk]
    exact h.kernel

theorem allocuvm (hr : allocuvm L m d sz newsz = .ok (r, m')) :
    Own L m' d (if r = 0 then sz else r) := by
  have hsize := h.size
  rcases allocuvm_spec newsz h.nodup h.frame h.gap with ⟨m₁, hr₁, hnew, hg⟩ | ⟨m₁, hr₁, hs, -⟩
  · obtain ⟨rfl, rfl⟩ := Prod.mk.inj (Except.ok.inj (hr₁.symm.trans hr))
    have hmono : (sz + 4095) / 4096 ≤ (max sz newsz + 4095) / 4096 := by omega
    have hmax : (max sz newsz + 4095) / 4096 ≤ 0x40000 := by
      rw [SHAREBASE] at hnew
      omega
    have hown : Own L m₁ d (max sz newsz) :=
      h.moves hg.moves (hg.gap h.gap hmono) hmax (hg.keep _ (by omega))
    split
    · rename_i hzero
      obtain rfl : sz = 0 := by omega
      rwa [hzero] at hown
    · exact hown
  · obtain ⟨rfl, rfl⟩ := Prod.mk.inj (Except.ok.inj (hr₁.symm.trans hr))
    rw [if_pos rfl]
    refine h.moves hs.moves (fun v hv hv' hp => ?_) hsize (hs.upper _ (by decide))
    exact h.gap v hv hv' ((hs.present_iff v).mp hp)

theorem deallocuvm (hr : deallocuvm L m d sz newsz = .ok (r, m')) : Own L m' d r := by
  have hsize := h.size
  by_cases hle : sz ≤ newsz
  · rw [deallocuvm_of_le hle] at hr
    obtain ⟨rfl, rfl⟩ := Prod.mk.inj (Except.ok.inj hr)
    exact h
  · have hlo : (newsz + 4095) / 4096 ≤ (sz + 4095) / 4096 := by omega
    have hleaves : owned m d = dirFrames m d ++ (leavesIn m d 0 ((newsz + 4095) / 4096)
        ++ leavesIn m d ((newsz + 4095) / 4096) ((sz + 4095) / 4096)) := by
      rw [owned, h.gap.leaves_eq hsize, leavesIn_split (Nat.zero_le _) hlo]
    have hsub : (dirFrames m d ++ leavesIn m d ((newsz + 4095) / 4096) ((sz + 4095) / 4096)).Sublist
        (owned m d) := by
      rw [hleaves]
      exact (List.sublist_append_right _ _).append_left _
    obtain ⟨m₁, hr₁, hd⟩ := deallocuvm_spec (not_le.mp hle) (by omega)
      (h.nodup.sublist (hsub.append_left _)) fun f hf => by
        refine h.frame f (List.mem_append_right _ (hsub.subset ?_))
        exact List.mem_append_right _ hf
    obtain ⟨rfl, rfl⟩ := Prod.mk.inj (Except.ok.inj (hr₁.symm.trans hr))
    refine h.moves (hd.owned_moves hlo hsize h.gap) (hd.gap h.gap) (hlo.trans hsize) ?_
    rw [hd.entry, if_neg (by omega)]

theorem clearpteu {v : Nat} (hv : v < 0x40000) (hp : Present (entry m d v))
    (hr : clearpteu m d (v * 4096) = .ok m') : Own L m' d sz := by
  obtain ⟨m₁, hr₁, hmove, hent, -⟩ := clearpteu_spec (List.nodup_append.mp h.nodup).2.1 hv hp
  obtain rfl := Except.ok.inj (hr₁.symm.trans hr)
  have hkeep : ∀ u, u ≠ v → entry m₁ d u = entry m d u := fun u hu => by
    rw [hent, Function.update_of_ne hu]
  refine h.moves hmove (fun u hu hu' => ?_) h.size (hkeep _ (by omega))
  by_cases he : u = v
  · exact absurd (he ▸ hp) (h.gap u hu hu')
  · rw [hkeep u he]
    exact h.gap u hu hu'

theorem linkphysaddr {shared : List Shared} (ha : Apart m p d)
    (hr : LinksAll L d p perm shared SHAREBASE m m') : Own L m' d sz := by
  have hn : (m.free ++ dirFrames m d).Nodup := by
    have hn := h.nodup
    rw [owned, ← List.append_assoc] at hn
    exact (List.nodup_append.mp hn).1
  obtain ⟨hstep, hkeep⟩ := hr.spec (w := 0x40000) hn ha h.kernel rfl le_rfl (by decide)
  have hlow : ∀ v < 0x40000, entry m' d v = entry m d v := fun v hv => hkeep v (.inl hv)
  refine h.moves ?_ (fun v hv hv' => ?_) h.size (hkeep _ (.inr le_rfl))
  · rw [owned, owned, leaves_congr hlow]
    exact hstep.moves.extend _
  · rw [hlow v hv']
    exact h.gap v hv hv'

theorem elsewhere (hn : m'.free.Nodup) (hL : ∀ f ∈ m'.free, L.Frame f)
    (hfree : ∀ f ∈ owned m d, f ∉ m'.free) (hcell : ∀ f ∈ dirFrames m d, m'.cell f = m.cell f) :
    Own L m' d sz := by
  have hentry := entry_congr hcell
  have howned := owned_congr hcell
  refine ⟨?_, ?_, ?_, h.size, ?_⟩
  · rw [howned]
    refine List.nodup_append.mpr ⟨hn, (List.nodup_append.mp h.nodup).2.1, fun f hf g hg he => ?_⟩
    exact hfree g hg (he ▸ hf)
  · rw [howned]
    intro f hf
    exact (List.mem_append.mp hf).elim (hL f) fun hf => h.frame f (List.mem_append_right _ hf)
  · rw [Gap, hentry]
    exact h.gap
  · rw [hentry]
    exact h.kernel

end Own

/-- **Every directory of the kernel owns what it maps below `SHAREBASE`.** -/
theorem Built.own (h : Built L m d sz) : Own L m d sz := by
  induction h with
  | @setupkvm m m' d hn hL hr =>
    rcases setupkvm_cases hn hL with ⟨m₁, d₁, hr₁, hd⟩ | ⟨m₁, hr₁, -⟩
    · obtain ⟨hd₁, rfl⟩ := Prod.mk.inj (Except.ok.inj (hr₁.symm.trans hr))
      obtain rfl := Option.some.inj hd₁
      have him := hd.image
      refine ⟨him.nodup hn, him.frame hL, him.gap, by decide, ?_⟩
      rw [hd.entry]
      exact present_kmapEntry L
    · exact nomatch hr₁.symm.trans hr
  | @copyuvm m m' s d sz hn hL hs hr =>
    rcases copyuvm_ends hn hL hs sz with ⟨m₀, m₁, d₁, hr₁, hd, hb, hsrc, hle⟩ | ⟨m₁, hr₁, -⟩ | ⟨hr₁, -⟩
    · obtain ⟨hd₁, rfl⟩ := Prod.mk.inj (Except.ok.inj (hr₁.symm.trans hr))
      obtain rfl := Option.some.inj hd₁
      have hcopy := hb.copied hd hsrc hle
      refine ⟨hcopy.moves.nodup (by rwa [List.append_nil]), fun f hf => ?_, fun v hv hv' => ?_, hle, ?_⟩
      · have hmem := hcopy.moves.perm.mem_iff.mpr hf
        rw [List.append_nil] at hmem
        exact hL f hmem
      · rw [hcopy.rest v hv (by omega)]
        exact not_present_zero
      · rw [hb.keep _ (by omega), hd.entry]
        exact present_kmapEntry L
    · exact nomatch hr₁.symm.trans hr
    · exact nomatch hr₁.symm.trans hr
  | allocuvm _ hr ih => exact ih.allocuvm hr
  | deallocuvm _ hr ih => exact ih.deallocuvm hr
  | clearpteu _ hv hp hr ih => exact ih.clearpteu hv hp hr
  | linkphysaddr _ ha hr ih => exact ih.linkphysaddr ha hr
  | elsewhere _ hn hL hfree hcell ih => exact ih.elsewhere hn hL hfree hcell

/-! ## Giving one up -/

/-- **`freevm` frees a directory's own memory and nothing shared**: each frame mapped below `SHAREBASE`,
each table and the directory come to the free list once, and no other frame does. -/
theorem freevm_own_only (h : Built L m d sz) : ∃ m', freevm L m d = .ok m'
    ∧ m'.free.Perm (m.free ++ (d :: tables m d ++ leaves m d)) ∧ m'.free.Nodup
    ∧ (∀ f, f ∉ d :: tables m d → (∀ v < 0x40000, leafAt m d v ≠ some f) →
      (f ∈ m'.free ↔ f ∈ m.free) ∧ (f ∉ m.free → m'.cell f = m.cell f))
    ∧ (∀ p, (∀ f ∈ owned m p, f ∉ m.free ∧ f ∉ owned m d) → ∀ f ∈ owned m p, f ∉ m'.free)
    ∧ ∀ f, ¬ L.Frame f → f ∉ m'.free := by
  have hown := h.own
  obtain ⟨m', hr, hmove, -⟩ := freevm_spec hown.nodup fun f hf =>
    hown.frame f (List.mem_append_right _ hf)
  have hperm : m'.free.Perm (m.free ++ owned m d) := by
    have hperm := hmove.perm
    rw [List.append_nil] at hperm
    exact hperm.symm
  have hmem : ∀ f, f ∈ m'.free ↔ f ∈ m.free ∨ f ∈ owned m d := fun f =>
    hperm.mem_iff.trans List.mem_append
  refine ⟨m', hr, hperm, hperm.nodup_iff.mpr hown.nodup, fun f hdir hleaf => ?_, fun p hp f hf => ?_,
    fun f hf hmem' => ?_⟩
  · have hnot : f ∉ owned m d := fun hf => by
      rcases List.mem_append.mp hf with hf | hf
      · exact hdir hf
      · obtain ⟨v, hv, hv'⟩ := mem_leaves.mp hf
        exact hleaf v hv hv'
    exact ⟨(hmem f).trans (or_iff_left hnot), fun hfree => hmove.frame f hfree hnot⟩
  · rw [hmem]
    exact not_or.mpr (hp f hf)
  · exact hf (hown.frame f (List.mem_append.mpr ((hmem f).mp hmem')))

/-- A directory fresh from `setupkvm`, given up again. -/
theorem freevm_own_only_sample : ∃ m d m', Built sampleLinker m d 0 ∧ freevm sampleLinker m d = .ok m'
    ∧ m'.free.Perm (m.free ++ (d :: tables m d ++ leaves m d)) ∧ m'.free.Nodup := by
  rcases setupkvm_cases List.nodup_range' sampleMem_frame with ⟨m, d, hr, -⟩ | ⟨m, -, -, hlen, -⟩
  · have hbuilt : Built sampleLinker m d 0 := .setupkvm List.nodup_range' sampleMem_frame hr
    obtain ⟨m', hfree, hperm, hnodup, -⟩ := freevm_own_only hbuilt
    exact ⟨m, d, m', hbuilt, hfree, hperm, hnodup⟩
  · exact absurd hlen (by decide)

end Xv6

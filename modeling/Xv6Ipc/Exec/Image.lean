import Xv6Ipc.Memory.Copyuvm
import Xv6Ipc.Memory.Resize
import Xv6Ipc.Memory.Transfer

/-!
# Exec/Image — a process image under construction

`exec` builds the new image next to the old one.  At every point before it commits, everything the
new directory owns was free when the call began, so that giving it all back puts memory where it was:

    free  ──setupkvm, allocuvm, loaduvm, …──▸  Image  ──freevm──▸  free

`Image m₀ m d sz up` is that point: the pages below `sz` exist, those up to `SHAREBASE` do not, and
from there on the entries are `up`.
-/

namespace Xv6

variable {L : Linker} {m₀ m m' : Mem} {d sz : Nat} {up : Nat → Nat}

/-- **An image under construction** since memory was `m₀`. -/
structure Image (m₀ m : Mem) (d sz : Nat) (up : Nat → Nat) : Prop where
  moves : m₀.Moves [] m (owned m d)
  low : ∀ v, v < (sz + 4095) / 4096 → Present (entry m d v)
  gap : Gap m d ((sz + 4095) / 4096)
  upper : ∀ v, 0x40000 ≤ v → entry m d v = up v
  size : sz ≤ SHAREBASE
  vmfreed : m.vmfreed = m₀.vmfreed
  taken : d ∈ m₀.free

/-- The entries `setupkvm` gives. -/
def kernelEntry (L : Linker) (v : Nat) : Nat := (kmapEntry (kmap L) v).getD 0

/-- Below the kernel's pages there are none… -/
theorem kernelEntry_of_lt {v : Nat} (hv : v < 0x80000) : kernelEntry L v = 0 := by
  rw [kernelEntry, kmapEntry_eq_none fun k hk hc => ?_]
  · rfl
  · have := (kmap_wellFormed L k hk).upper
    have := hc.1
    omega

/-- …and no page of the kernel is the user's. -/
theorem not_user_kernelEntry (L : Linker) (v : Nat) : ¬ User (kernelEntry L v) :=
  not_user_kmapEntry L v

/-- The directory indices that hold a table: those of the kernel half, of linked regions and of the
first `n` pages. -/
def TablesUpTo (m : Mem) (d n : Nat) : Prop :=
  ∀ i, tableAt m d i ≠ none → i ∈ kernelTables ++ List.range' 256 256 ++ List.range (n / 1024 + 1)

theorem tablesUpTo_mono {n n' : Nat} (hle : n ≤ n') (h : TablesUpTo m d n) : TablesUpTo m d n' :=
  fun i hi => by
    rcases List.mem_append.mp (h i hi) with hi | hi
    · exact List.mem_append_left _ hi
    · refine List.mem_append_right _ (List.mem_range.mpr ?_)
      have := List.mem_range.mp hi
      omega

theorem NewDir.image (h : NewDir L m₀ m d) : Image m₀ m d 0 (kernelEntry L) := by
  have hgap : Gap m d 0 := fun v _ hv => by
    rw [h.entry_user (by omega)]
    exact not_present_zero
  refine ⟨?_, fun v hv => absurd hv (by omega), hgap, fun v _ => h.entry v, by decide, h.vmfreed,
    h.taken⟩
  rw [owned, leaves_eq_leavesIn, leavesIn_eq_nil hgap, List.append_nil]
  exact h.moves

theorem NewDir.tablesUpTo (h : NewDir L m₀ m d) (n : Nat) : TablesUpTo m d n := fun i hi =>
  List.mem_append_left _ (List.mem_append_left _ (h.tables i hi))

namespace Image

section Valid

variable (hn : m₀.free.Nodup) (h : Image m₀ m d sz up)
include hn h

theorem nodup : (m.free ++ owned m d).Nodup := h.moves.nodup (by rwa [List.append_nil])

theorem owned_nodup : (owned m d).Nodup := (List.nodup_append.mp (h.nodup hn)).2.1

end Valid

theorem frame (hL : ∀ f ∈ m₀.free, L.Frame f) (h : Image m₀ m d sz up) :
    ∀ f ∈ m.free ++ owned m d, L.Frame f := fun f hf => by
  rcases h.moves.mem_iff.mp (List.mem_append.mp hf) with hf | hf
  · exact hL f hf
  · simp at hf

/-- Frames held by anyone else are not part of the image. -/
theorem cell_of_held (h : Image m₀ m d sz up) {f : Nat} (hf : f ∉ m₀.free) :
    m.cell f = m₀.cell f := h.moves.frame f hf (by simp)

/-! ## Its operations -/

/-- **Giving up**: `freevm` puts everything back. -/
theorem freevm (hn : m₀.free.Nodup) (hL : ∀ f ∈ m₀.free, L.Frame f) (h : Image m₀ m d sz up) :
    ∃ m', Xv6.freevm L m d = .ok m' ∧ m₀.Moves [] m' [] ∧ m'.vmfreed = d :: m₀.vmfreed := by
  obtain ⟨m', hr, hmove, hvm⟩ := freevm_spec (h.nodup hn)
    fun f hf => h.frame hL f (List.mem_append_right _ hf)
  exact ⟨m', hr, h.moves.trans hmove, by rw [hvm, h.vmfreed]⟩

/-- Bytes written to its pages. -/
theorem scribbled (hn : m₀.free.Nodup) (h : Image m₀ m d sz up) (hs : Scribbled m m' d) :
    Image m₀ m' d sz up := by
  have hent := hs.entry_eq (h.owned_nodup hn)
  refine ⟨h.moves.trans (hs.moves (h.owned_nodup hn)), ?_, ?_, ?_, h.size,
    hs.vmfreed.trans h.vmfreed, h.taken⟩
  · rw [hent]
    exact h.low
  · rw [Gap, hent]
    exact h.gap
  · rw [hent]
    exact h.upper

/-- Entries from `SHAREBASE` on set. -/
theorem dirStep (h : Image m₀ m d sz up) (hs : DirStep m m' d)
    (hkeep : ∀ v, v < 0x40000 → entry m' d v = entry m d v) :
    Image m₀ m' d sz (entry m' d) := by
  have hpages : (sz + 4095) / 4096 ≤ 0x40000 := by
    have := h.size
    rw [SHAREBASE] at this
    omega
  refine ⟨?_, fun v hv => ?_, fun v hv hv' => ?_, fun _ _ => rfl, h.size,
    hs.vmfreed.trans h.vmfreed, h.taken⟩
  · refine h.moves.trans ?_
    rw [owned, owned, leaves_congr hkeep]
    exact hs.moves.extend _
  · rw [hkeep v (by omega)]
    exact h.low v hv
  · rw [hkeep v hv']
    exact h.gap v hv hv'

/-- **`allocuvm`** of an image: it grows, or keeps its size. -/
theorem allocuvm (hn : m₀.free.Nodup) (hL : ∀ f ∈ m₀.free, L.Frame f) (h : Image m₀ m d sz up)
    (newsz : Nat) :
    (∃ m', Xv6.allocuvm L m d sz newsz = .ok (max sz newsz, m') ∧ newsz < SHAREBASE
        ∧ Image m₀ m' d (max sz newsz) up
        ∧ Grown m m' d ((sz + 4095) / 4096) ((max sz newsz + 4095) / 4096)) ∨
      ∃ m', Xv6.allocuvm L m d sz newsz = .ok (0, m') ∧ Image m₀ m' d sz up
        ∧ (SHAREBASE ≤ newsz ∨ Short m d ((sz + 4095) / 4096) ((newsz + 4095) / 4096)) := by
  have hsize := h.size
  rcases allocuvm_spec newsz (h.nodup hn) (h.frame hL) h.gap with
    ⟨m', hr, hnew, hg⟩ | ⟨m', hr, hs, hwhy⟩
  · have hmax : max sz newsz ≤ SHAREBASE := max_le hsize hnew.le
    have hmono : (sz + 4095) / 4096 ≤ (max sz newsz + 4095) / 4096 :=
      Nat.div_le_div_right (Nat.add_le_add_right (le_max_left _ _) _)
    refine .inl ⟨m', hr, hnew, ⟨h.moves.trans hg.moves, fun v hv => ?_, hg.gap h.gap hmono,
      fun v hv => ?_, hmax, hg.vmfreed.trans h.vmfreed, h.taken⟩, hg⟩
    · by_cases hold : v < (sz + 4095) / 4096
      · rw [hg.keep v (by omega)]
        exact h.low v hold
      · obtain ⟨f, hf⟩ := hg.page v (not_lt.mp hold) hv
        rw [hf]
        exact present_mkPte _ _
    · rw [SHAREBASE] at hmax
      rw [hg.keep v (by omega)]
      exact h.upper v hv
  · refine .inr ⟨m', hr, ⟨h.moves.trans hs.moves, fun v hv => ?_, fun v hv hv' => ?_,
      fun v hv => ?_, hsize, hs.vmfreed.trans h.vmfreed, h.taken⟩, hwhy⟩
    · exact (hs.present_iff v).mpr (h.low v hv)
    · exact fun hc => h.gap v hv hv' ((hs.present_iff v).mp hc)
    · rw [hs.upper v hv]
      exact h.upper v hv

/-- **`clearpteu`** of one of its pages. -/
theorem clearpteu (hn : m₀.free.Nodup) (h : Image m₀ m d sz up) {v : Nat}
    (hv : v < (sz + 4095) / 4096) :
    ∃ m', Xv6.clearpteu m d (v * 4096) = .ok m' ∧ Image m₀ m' d sz up
      ∧ tableAt m' d = tableAt m d ∧ ∀ u, u ≠ v → entry m' d u = entry m d u := by
  have hpages : (sz + 4095) / 4096 ≤ 0x40000 := by
    have := h.size
    rw [SHAREBASE] at this
    omega
  obtain ⟨m', hr, hmove, hent, htab, hvm⟩ :=
    clearpteu_spec (h.owned_nodup hn) (by omega) (h.low v hv)
  have hpres : ∀ u, Present (entry m' d u) ↔ Present (entry m d u) := by
    intro u
    rw [hent, Function.update_apply]
    split
    · rename_i he
      rw [he, present_clearUser]
    · rfl
  have hkeep : ∀ u, u ≠ v → entry m' d u = entry m d u := fun u hu => by
    rw [hent, Function.update_of_ne hu]
  refine ⟨m', hr, ⟨h.moves.trans hmove, fun u hu => (hpres u).mpr (h.low u hu),
    fun u hu hu' hc => h.gap u hu hu' ((hpres u).mp hc), fun u hu => ?_, h.size,
    hvm.trans h.vmfreed, h.taken⟩, htab, hkeep⟩
  rw [hkeep u (by omega)]
  exact h.upper u hu

/-- **How much memory an image can have taken.** -/
theorem length_le (h : Image m₀ m d sz up) (ht : TablesUpTo m d ((sz + 4095) / 4096)) :
    m₀.free.length ≤ m.free.length + (256 + imageFrames ((sz + 4095) / 4096) + 1) := by
  have hpages : (sz + 4095) / 4096 ≤ 0x40000 := by
    have := h.size
    rw [SHAREBASE] at this
    omega
  have htab := length_tables_le ht
  have hleaf := length_leavesIn_le m d 0 ((sz + 4095) / 4096)
  have hlen := h.moves.length
  have hkt : kernelTables.length = 64 := by decide
  rw [owned, h.gap.leaves_eq hpages, dirFrames, List.length_append, List.length_cons] at hlen
  simp only [List.length_append, List.length_range', List.length_range, hkt, List.length_nil]
    at htab hlen
  rw [imageFrames]
  omega

end Image

end Xv6

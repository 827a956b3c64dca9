import Xv6Ipc.Memory.Allocuvm
import Xv6Ipc.Memory.Setupkvm

/-!
# Memory/Copyuvm — a child's copy of its parent's pages

`copyuvm` builds a directory whose pages below `sz` are backed by fresh frames holding what the
parent's pages hold:

    parent: page v ─▸ frame f        child: page v ─▸ fresh frame f'        f' = f, word for word

The parent's own frames are never free, so nothing the copy does on the way changes them.
-/

namespace Xv6

/-- One turn of the loop of `copyuvm`, at page `v`; `false` stands for `goto bad`. -/
def copyPage (L : Linker) (pgdir d v : Nat) (m : Mem) : Except Panic (Bool × Mem) :=
  match walkpgdir m pgdir (v * 4096) false with
  | (none, _) => .error .copyuvm
  | (some (t, i), m) =>
    let pte := m.cell t i
    if ¬ Present pte then .error .copyuvm
    else
      match kalloc m with
      | (none, m) => .ok (false, m)
      | (some mem, m) =>
        match mappages (m.fill mem (m.cell (pteFrame pte))) d (v * 4096) 4096 (4096 * mem)
            (pteFlags pte) with
        | .error e => .error e
        | .ok (true, m) => .ok (true, m)
        | .ok (false, m) =>
          match kfree L m mem with
          | .error e => .error e
          | .ok m => .ok (false, m)

/-- `copyuvm`. -/
def copyuvm (L : Linker) (m : Mem) (pgdir sz : Nat) : Except Panic (Option Nat × Mem) :=
  match setupkvm L m with
  | .error e => .error e
  | .ok (none, m) => .ok (none, m)
  | .ok (some d, m) =>
    match Loops.each (copyPage L pgdir d) (pagesBetween 0 sz) m with
    | .error e => .error e
    | .ok (true, m) => .ok (some d, m)
    | .ok (false, m) =>
      match freevm L m d with
      | .error e => .error e
      | .ok m => .ok (none, m)

variable {L : Linker} {m m₀ m₁ m' : Mem} {s d v n : Nat}

/-- The permissions and contents a copy of `s` gives its pages. -/
def copyPerm (m : Mem) (s v : Nat) : Nat := pteFlags (entry m s v)

@[inherit_doc copyPerm] def copyCell (m : Mem) (s v : Nat) : Nat → Nat :=
  m.cell (pteFrame (entry m s v))

theorem copyPerm_lt (m : Mem) (s v : Nat) : copyPerm m s v < 4096 := Nat.mod_lt _ (by decide)

/-- **A finished copy** of the first `n` pages of `s`. -/
structure Copied (m m' : Mem) (s d n : Nat) : Prop where
  moves : m.Moves [] m' (owned m' d)
  page : ∀ v, v < n → ∃ f, entry m' d v = mkPte (4096 * f) (copyPerm m s v)
    ∧ m'.cell f = copyCell m s v
  rest : ∀ v, n ≤ v → v < 0x80000 → entry m' d v = 0
  source : ∀ v, v < n → Present (entry m s v)
  vmfreed : m'.vmfreed = m.vmfreed
  taken : d ∈ m.free

/-- How many frames a directory with `n` pages from page `0` on may need besides its own: the
tables of the two halves, and the pages. -/
def imageFrames (n : Nat) : Nat := 64 + (n / 1024 + 1) + n

/-! ## The loop -/

/-- An unfinished copy, of `v` pages… -/
def Copying (m m₀ m' : Mem) (s d v : Nat) : Prop :=
  Backed m₀ m' d 0 v (copyPerm m s) (copyCell m s) ∧ ∀ u < v, Present (entry m s u)

/-- …one that memory does not suffice for… -/
def Starved (m m' : Mem) (d n : Nat) : Prop :=
  m.Moves [] m' (owned m' d) ∧ m'.vmfreed = m.vmfreed ∧ m.free.length ≤ imageFrames n

/-- …and one of a page that is not there. -/
def Lacking (m : Mem) (s n : Nat) (e : Panic) : Prop := e = .copyuvm ∧ ∃ u < n, ¬ Present (entry m s u)

section Loop

variable {hi : Nat} (hd : NewDir L m m₀ d)
include hd

/-- A copy of `hi` pages that gets stuck started with too little memory. -/
theorem short_of_stuck {X : List Nat} (h : Stuck m₀ m₁ d 0 hi X) :
    m.free.length ≤ imageFrames hi := by
  have hshort := h.short (kernelTables ++ List.range (hi / 1024 + 1))
    (fun i hi' => List.mem_append_left _ (hd.tables i hi'))
    fun v _ hv => List.mem_append_right _ (List.mem_range.mpr (by omega))
  have hlen := hd.moves.length
  have hkt : kernelTables.length = 64 := by decide
  rw [List.length_append, List.length_range, hkt] at hshort
  rw [imageFrames]
  simp only [List.length_nil] at hlen
  omega

/-- What the unfinished copy holds came off the free list. -/
theorem moves_of_backed (hb : Backed m₀ m₁ d 0 v (copyPerm m s) (copyCell m s)) :
    m.Moves [] m₁ (dirFrames m₁ d ++ leavesIn m₁ d 0 v) := hd.moves.trans hb.moves

/-- Everything the unfinished copy holds below `SHAREBASE` is in the pages it has done. -/
theorem owned_of_backed (hb : Backed m₀ m₁ d 0 v (copyPerm m s) (copyCell m s))
    (hv : v ≤ 0x40000) : owned m₁ d = dirFrames m₁ d ++ leavesIn m₁ d 0 v := by
  have hfresh : ∀ u, 0 ≤ u → u < 0x40000 → ¬ Present (entry m₀ d u) := fun u _ hu => by
    rw [hd.entry_user (by omega)]
    exact not_present_zero
  rw [owned, leaves_eq_leavesIn, hb.leavesIn_eq (Nat.zero_le v) hv hfresh]

variable (hn : m.free.Nodup) (hL : ∀ f ∈ m.free, L.Frame f) (hs : ∀ f ∈ owned m s, f ∉ m.free)
include hn hL hs

/-- **One turn of `copyuvm`'s loop**: one more page is copied, memory is out and nothing but whole
pages is held, or the parent's page is missing. -/
theorem copyPage_ends (h : Copying m m₀ m₁ s d v) (hv : v < hi) (hhi : hi ≤ 0x40000) :
    Loops.Ends (Copying m m₀ · s d (v + 1)) (Starved m · d hi) (Lacking m s hi) (copyPage L s d v m₁) := by
  obtain ⟨hb, hsrcs⟩ := h
  have hn₀ : (m₀.free ++ dirFrames m₀ d).Nodup := hd.moves.nodup (by simpa using hn)
  have hmove := moves_of_backed hd hb
  have hcell : ∀ f ∈ owned m s, m₁.cell f = m.cell f := fun f hf =>
    hmove.frame f (hs f hf) (by simp)
  have hent : entry m₁ s = entry m s := entry_congr fun f hf => hcell f (List.mem_append_left _ hf)
  have hown := owned_of_backed hd hb (hv.le.trans hhi)
  have hfresh : ∀ u, 0 ≤ u → u < hi → ¬ Present (entry m₀ d u) := fun u _ hu => by
    rw [hd.entry_user (by omega)]
    exact not_present_zero
  have hp : ¬ Present (entry m₁ d v) := by
    rw [hb.keep v (by omega), hd.entry_user (by omega)]
    exact not_present_zero
  rw [copyPage]
  have hpage : v * 4096 / 4096 = v := Nat.mul_div_cancel _ (by decide)
  obtain ⟨hw, hnone⟩ | ⟨t, hw, -, hti⟩ := walkpgdir_cases (m := m₁) (d := s) (a := v * 4096) (by omega)
  · rw [hpage] at hnone
    rw [hw]
    refine ⟨rfl, v, hv, ?_⟩
    rw [← hent, entry_of_tableAt_none hnone]
    exact not_present_zero
  · rw [hpage, hent] at hti
    simp only [hw, hpage, hti]
    by_cases hps : Present (entry m s v)
    case neg =>
      rw [if_pos hps]
      exact ⟨rfl, v, hv, hps⟩
    have hsrc : m₁.cell (pteFrame (entry m s v)) = copyCell m s v :=
      hcell _ (List.mem_append_right _
        (mem_leaves.mpr ⟨v, by omega, leafAt_eq_some.mpr ⟨hps, rfl⟩⟩))
    rw [if_neg (not_not.mpr hps)]
    rcases kalloc_map_cases (hb.nodup hn₀) (by omega) hp (copyPerm m s) (copyPerm_lt m s v)
        (copyCell m s) with
      ⟨hk, hout⟩ | ⟨f, m₂, hk, hf, ⟨m₃, hr, hone, -⟩ |
        ⟨m₃, hr, hmove', hent', htab, hvm, hout, hnone⟩⟩
    · rw [hk]
      exact ⟨hown ▸ hmove, hb.vmfreed.trans hd.vmfreed,
        short_of_stuck hd (hb.stuck_frame (Nat.zero_le v) hv hfresh hout)⟩
    · have hsrc₂ : m₂.cell (pteFrame (entry m s v)) = copyCell m s v := by
        rw [(moves_kalloc hk).2.2.1, hsrc]
      rw [copyPerm] at hr
      simp only [hk, hsrc₂, hr]
      refine ⟨hb.append hn₀ (copyPerm_lt m s) (Nat.zero_le v) (Nat.le_succ v) hone, fun u hu => ?_⟩
      rcases Nat.lt_succ_iff_lt_or_eq.mp hu with hu | rfl
      · exact hsrcs u hu
      · exact hps
    · have hsrc₂ : m₂.cell (pteFrame (entry m s v)) = copyCell m s v := by
        rw [(moves_kalloc hk).2.2.1, hsrc]
      have hleaves : leaves m₃ d = leavesIn m₁ d 0 v := by
        rw [leaves_congr fun u _ => congrFun hent' u]
        exact List.append_cancel_left hown
      have hmove₃ : m.Moves [] m₃ (dirFrames m₃ d ++ [f] ++ leaves m₃ d) := by
        rw [hleaves]
        exact hmove.trans (hmove'.extend _)
      have hn₃ : (m₃.free ++ (dirFrames m₃ d ++ [f])).Nodup := by
        have := hmove₃.nodup (by simpa using hn)
        rw [← List.append_assoc] at this
        exact (List.nodup_append.mp this).1
      have hLf : L.Frame f := by
        rcases hmove.mem_iff.mp (.inl hf) with hf | hf
        · exact hL f hf
        · simp at hf
      obtain ⟨m₄, hk', hfree, hent₄, -, hvm₄⟩ := kfree_beside hn₃ hLf
      rw [copyPerm] at hr
      simp only [hk, hsrc₂, hr, hk']
      refine ⟨?_, ?_, short_of_stuck hd
        (hb.stuck_table (Nat.zero_le v) hv hfresh hmove' hent' htab hvm hout hnone)⟩
      · rw [owned, leaves_congr fun u _ => congrFun hent₄ u]
        exact hmove₃.trans (hfree.extend _)
      · rw [hvm₄, hvm, hb.vmfreed, hd.vmfreed]

/-- **`copyuvm`'s loop.** -/
theorem copyPages_ends (hhi : hi ≤ 0x40000) :
    Loops.Ends (Copying m m₀ · s d hi) (Starved m · d hi) (Lacking m s hi)
      (Loops.each (copyPage L s d) (List.range' 0 hi) m₀) := by
  have hnil : Copying m m₀ m₀ s d 0 := ⟨.nil m₀ d 0 _ _, fun _ hu => absurd hu (Nat.not_lt_zero _)⟩
  have hloop := Loops.each_range (I := fun v m' => Copying m m₀ m' s d v) (n := hi) hnil
    fun v m₁ _ hv h => copyPage_ends hd hn hL hs h (by omega : v < hi) hhi
  rwa [Nat.zero_add] at hloop

end Loop

/-! ## `copyuvm` -/

/-- No copy has more pages than there are frames below `PHYSTOP`. -/
theorem pages_le_of_backed (hd : NewDir L m m₀ d) (hn : m.free.Nodup) (hL : ∀ f ∈ m.free, L.Frame f)
    (hb : Backed m₀ m₁ d 0 v (copyPerm m s) (copyCell m s)) : v ≤ 0xE000 := by
  have hmove := moves_of_backed hd hb
  have hnodup := hmove.nodup (by rwa [List.append_nil])
  rw [← List.append_assoc] at hnodup
  have hlen : (leavesIn m₁ d 0 v).length = v := by
    refine (length_leavesIn_eq fun u hu hu' => ?_).trans (Nat.sub_zero v)
    obtain ⟨f, hf, -⟩ := hb.mapped u hu hu'
    rw [hf]
    exact present_mkPte _ _
  have hsub : leavesIn m₁ d 0 v ⊆ List.range 0xE000 := fun f hf => by
    have hfree := (hmove.mem_iff.mp (.inr (List.mem_append_right _ hf))).resolve_right List.not_mem_nil
    have hlt := (hL f hfree).2
    rw [PHYSTOP] at hlt
    exact List.mem_range.mpr (by omega)
  have hle := ((List.nodup_append.mp hnodup).2.1.subperm hsub).length_le
  rwa [hlen, List.length_range] at hle

theorem imageFrames_mono {n' : Nat} (h : n ≤ n') : imageFrames n ≤ imageFrames n' := by
  rw [imageFrames, imageFrames]
  omega

/-- The whole loop, for any number of pages: memory is out before it comes to `SHAREBASE`. -/
theorem copyLoop_ends (hd : NewDir L m m₀ d) (hn : m.free.Nodup) (hL : ∀ f ∈ m.free, L.Frame f)
    (hs : ∀ f ∈ owned m s, f ∉ m.free) (n : Nat) :
    Loops.Ends (fun m' => Copying m m₀ m' s d n ∧ n ≤ 0x40000) (Starved m · d n) (Lacking m s n)
      (Loops.each (copyPage L s d) (List.range' 0 n) m₀) := by
  by_cases hle : n ≤ 0x40000
  · obtain ⟨m', hr, h⟩ | ⟨m', hr, h⟩ | ⟨e, hr, h⟩ := (copyPages_ends hd hn hL hs hle).cases <;> rw [hr]
    · exact ⟨h, hle⟩
    · exact h
    · exact h
  · have hsplit : List.range' 0 n = List.range' 0 0x40000 ++ List.range' 0x40000 (n - 0x40000) := by
      have happend := List.range'_append_1 (s := 0) (m := 0x40000) (n := n - 0x40000)
      rw [Nat.zero_add, Nat.add_sub_cancel' (by omega)] at happend
      exact happend.symm
    rw [hsplit, Loops.each_append]
    obtain ⟨m', -, h⟩ | ⟨m', hr, hmove, hvm, hlen⟩ | ⟨e, hr, he, u, hu, hp⟩ :=
      (copyPages_ends hd hn hL hs (le_refl 0x40000)).cases
    · exact absurd (pages_le_of_backed hd hn hL h.1) (by decide)
    · rw [hr]
      exact ⟨hmove, hvm, hlen.trans (imageFrames_mono (by omega))⟩
    · rw [hr]
      exact ⟨he, u, by omega, hp⟩

/-- **What `copyuvm` can do**: copy every page into a fresh directory, run out of memory and give back
what it took, or panic at a page the parent does not have. -/
theorem copyuvm_ends (hn : m.free.Nodup) (hL : ∀ f ∈ m.free, L.Frame f)
    (hs : ∀ f ∈ owned m s, f ∉ m.free) (sz : Nat) :
    (∃ m₀ m' d, copyuvm L m s sz = .ok (some d, m') ∧ NewDir L m m₀ d
        ∧ Backed m₀ m' d 0 ((sz + 4095) / 4096) (copyPerm m s) (copyCell m s)
        ∧ (∀ v < (sz + 4095) / 4096, Present (entry m s v)) ∧ (sz + 4095) / 4096 ≤ 0x40000) ∨
      (∃ m', copyuvm L m s sz = .ok (none, m') ∧ m.Moves [] m' []
        ∧ m.free.length ≤ imageFrames ((sz + 4095) / 4096)
        ∧ (m'.vmfreed = m.vmfreed ∨ ∃ d ∈ m.free, m'.vmfreed = d :: m.vmfreed)) ∨
      (copyuvm L m s sz = .error .copyuvm
        ∧ ∃ v < (sz + 4095) / 4096, ¬ Present (entry m s v)) := by
  rw [copyuvm]
  rcases setupkvm_cases hn hL with ⟨m₀, d, hr₀, hd⟩ | ⟨m', hr, hmove, hlen, hvm⟩
  case inr =>
    refine .inr (.inl ⟨m', by rw [hr], hmove, hlen.trans ?_, hvm⟩)
    rw [imageFrames]
    omega
  have hpages : pagesBetween 0 sz = List.range' 0 ((sz + 4095) / 4096) := rfl
  simp only [hr₀, hpages]
  obtain ⟨m', hr, ⟨hb, hsrc⟩, hle⟩ | ⟨m₁, hr, hmove, hvm, hlen⟩ | ⟨e, hr, rfl, v, hv, hp⟩ :=
    (copyLoop_ends hd hn hL hs ((sz + 4095) / 4096)).cases
  · exact .inl ⟨m₀, m', d, by rw [hr], hd, hb, hsrc, hle⟩
  · have hL₁ : ∀ f ∈ owned m₁ d, L.Frame f := fun f hf => by
      rcases hmove.mem_iff.mp (.inr hf) with hf | hf
      · exact hL f hf
      · simp at hf
    obtain ⟨m', hr', hmove', hvm'⟩ := freevm_spec (hmove.nodup (by simpa using hn)) hL₁
    refine .inr (.inl ⟨m', by rw [hr]; simp only [hr'], hmove.trans hmove', hlen,
      .inr ⟨d, hd.taken, ?_⟩⟩)
    rw [hvm', hvm]
  · exact .inr (.inr ⟨by rw [hr], v, hv, hp⟩)

/-- A directory built page by page, as a finished copy. -/
theorem Backed.copied (hd : NewDir L m m₀ d)
    (hb : Backed m₀ m' d 0 n (copyPerm m s) (copyCell m s)) (hsrc : ∀ v < n, Present (entry m s v))
    (hle : n ≤ 0x40000) : Copied m m' s d n where
  moves := by
    rw [owned_of_backed hd hb hle]
    exact moves_of_backed hd hb
  page v hv := hb.mapped v (Nat.zero_le v) hv
  rest v hv hv' := by rw [hb.keep v (by omega), hd.entry_user hv']
  source := hsrc
  vmfreed := hb.vmfreed.trans hd.vmfreed
  taken := hd.taken

/-- The same in terms of the copy. -/
theorem copyuvm_cases (hn : m.free.Nodup) (hL : ∀ f ∈ m.free, L.Frame f)
    (hs : ∀ f ∈ owned m s, f ∉ m.free) (sz : Nat) :
    (∃ m' d, copyuvm L m s sz = .ok (some d, m') ∧ Copied m m' s d ((sz + 4095) / 4096)) ∨
      (∃ m', copyuvm L m s sz = .ok (none, m') ∧ m.Moves [] m' []
        ∧ m.free.length ≤ imageFrames ((sz + 4095) / 4096)
        ∧ (m'.vmfreed = m.vmfreed ∨ ∃ d ∈ m.free, m'.vmfreed = d :: m.vmfreed)) ∨
      (copyuvm L m s sz = .error .copyuvm
        ∧ ∃ v < (sz + 4095) / 4096, ¬ Present (entry m s v)) := by
  rcases copyuvm_ends hn hL hs sz with ⟨m₀, m', d, hr, hd, hb, hsrc, hle⟩ | hrest
  · exact .inl ⟨m', d, hr, hb.copied hd hsrc hle⟩
  · exact .inr hrest

end Xv6

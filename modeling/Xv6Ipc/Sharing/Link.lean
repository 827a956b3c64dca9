import Xv6Ipc.Machinery.Loops
import Xv6Ipc.Memory.Freevm

/-!
# Sharing/Link — mapping a parent's pages into a child's directory

`linkphysaddr` goes through a process's `shared` table and has `mappa2va` map each region, page by
page, at a cursor `va` that starts at `SHAREBASE`:

    parent  page src j ─▸ frame ◂─ page w + j  child            j < PGROUNDUP(sz) / PGSIZE

A failing `mappa2va` answers `-1`, which `linkphysaddr` stores in an unsigned variable: the test
`< 0` never holds, and the cursor moves back by one.
-/

namespace Xv6

/-- `struct shared`. -/
structure Shared where
  name : List Nat
  memstart : Nat
  sz : CInt
  deriving DecidableEq, Repr

/-- One turn of the loop of `mappa2va`, with `X = 4096 * j`; `false` stands for `return -1`.
`va + sz` is pointer arithmetic on `uint *`, hence the factor four.  The first process was never
forked and has a null `parentpgdir`, which `walkpgdir` reads through. -/
def linkPage (L : Linker) (pgdir parentpgdir memstart va sz perm j : Nat) (m : Mem) :
    Except Panic (Bool × Mem) :=
  if parentpgdir = 0 then .error .nullDeref
  else
    match walkpgdir m parentpgdir (u32 (memstart + 4096 * j)) false with
    | (none, m) => .ok (false, m)
    | (some (t, i), m) =>
      let pte := m.cell t i
      if ¬ Present pte then .ok (false, m)
      else
        match mappages m pgdir (u32 (pgRoundUp va + 4096 * j)) 4096 (4096 * pteFrame pte) perm with
        | .error e => .error e
        | .ok (true, m) => .ok (true, m)
        | .ok (false, m) =>
          match deallocuvm L m pgdir (u32 (va + 4 * sz)) va with
          | .error e => .error e
          | .ok (_, m) => .ok (false, m)

/-- `mappa2va`. -/
def mappa2va (L : Linker) (m : Mem) (pgdir parentpgdir sz memstart va perm : Nat) :
    Except Panic (Int × Mem) :=
  if KERNBASE ≤ u32 (va + 4 * sz) then .ok (-1, m)
  else
    match Loops.each (linkPage L pgdir parentpgdir memstart va (pgRoundUp sz) perm)
        (List.range (pgRoundUp sz / 4096)) m with
    | .error e => .error e
    | .ok (true, m) => .ok (i32 (pgRoundUp sz), m)
    | .ok (false, m) => .ok (-1, m)

/-- The loop of `linkphysaddr` over the entries still to come.  It has no bound of its own: past
the last entry it reads beyond the table. -/
def linkFrom (L : Linker) (pgdir parentpgdir perm : Nat) :
    List Shared → Nat → Mem → Except Panic (Int × Mem × List Shared)
  | [], _, _ => .error .sharedIndex
  | s :: rest, va, m =>
    if s.sz = 0 then .ok (1, m, s :: rest)
    else
      match mappa2va L m pgdir parentpgdir (u32 s.sz.val) s.memstart va perm with
      | .error e => .error e
      | .ok (r, m) =>
        if (u32 r : Int) < 0 then
          match freevm L m pgdir with
          | .error e => .error e
          | .ok m => .ok (-1, m, s :: rest)
        else
          match linkFrom L pgdir parentpgdir perm rest (u32 (va + u32 r)) m with
          | .error e => .error e
          | .ok (r, m, rest) =>
            .ok (r, m, { s with memstart := u32 (va + pteFlags s.memstart) } :: rest)

/-- `linkphysaddr`, for the process with the given `parentpgdir` and `shared`. -/
def linkphysaddr (L : Linker) (m : Mem) (pgdir : Nat) (Wbit : Int) (parentpgdir : Nat)
    (shared : List Shared) : Except Panic (Int × Mem × List Shared) :=
  linkFrom L pgdir parentpgdir (if Wbit ≠ 0 then 6 else 4) shared SHAREBASE m

variable {L : Linker} {m m' m'' : Mem} {d p w v n k perm : Nat} {src : Nat → Nat}

/-! ## A run of linked pages -/

/-- There is a parent's directory, and it lies apart from the free list and from the child's. -/
structure Apart (m : Mem) (p d : Nat) : Prop where
  ne_null : p ≠ 0
  disjoint : ∀ f ∈ dirFrames m p, f ∉ m.free ∧ f ∉ dirFrames m d

/-- A step on the child's directory does not touch the parent's. -/
theorem DirStep.apart (h : DirStep m m' d) (ha : Apart m p d) :
    Apart m' p d ∧ entry m' p = entry m p := by
  have hcell : ∀ f ∈ dirFrames m p, m'.cell f = m.cell f := fun f hf =>
    h.moves.frame f (ha.disjoint f hf).1 (ha.disjoint f hf).2
  refine ⟨⟨ha.ne_null, fun f hf => ?_⟩, entry_congr hcell⟩
  rw [dirFrames_congr (hcell p (List.mem_cons_self ..))] at hf
  rw [← not_or, h.moves.mem_iff, not_or]
  exact ha.disjoint f hf

/-- **The pages `w, …, w + n − 1` of the child are backed by the frames behind the pages `src j` of
the parent.** -/
structure Linked (m m' : Mem) (d p w n : Nat) (src : Nat → Nat) (perm : Nat) : Prop where
  step : DirStep m m' d
  fresh : ∀ v, w ≤ v → v < w + n → ¬ Present (entry m d v)
  source : ∀ j, j < n → Present (entry m p (src j))
  entry : ∀ v, entry m' d v = if w ≤ v ∧ v < w + n
    then mkPte (4096 * pteFrame (entry m p (src (v - w)))) perm else entry m d v
  grow : ∀ i, tableAt m' d i ≠ none →
    tableAt m d i ≠ none ∨ ∃ v, w ≤ v ∧ v < w + n ∧ i = v / 1024

namespace Linked

theorem zero (m : Mem) (d p w : Nat) (src : Nat → Nat) (perm : Nat) : Linked m m d p w 0 src perm :=
  { Entered.zero m d w _ with source := fun _ h => absurd h (Nat.not_lt_zero _) }

/-- **One more page.** -/
theorem snoc (h : Linked m m' d p w n src perm) (hp : Present (Xv6.entry m p (src n)))
    (hone : Entered m' m'' d (w + n) 1
      fun v => mkPte (4096 * pteFrame (Xv6.entry m p (src (v - w)))) perm) :
    Linked m m'' d p w (n + 1) src perm :=
  { Entered.append ⟨h.step, h.fresh, h.entry, h.grow⟩ hone with
    source := Nat.forall_lt_succ_right.mpr ⟨h.source, hp⟩ }

end Linked

/-! ## `mappa2va` -/

/-- The parent's page behind turn `j` of a region starting at `memstart`. -/
def srcPage (memstart j : Nat) : Nat := u32 (memstart + 4096 * j) / 4096

/-- Memory is out at one of the pages, which has no table yet. -/
def OutOfMemory (m : Mem) (d p w n memstart perm : Nat) : Prop :=
  ∃ m' k, k < n ∧ Linked m m' d p w k (srcPage memstart) perm ∧ w + k < 0x80000 ∧ m'.free = []
    ∧ tableAt m' d ((w + k) / 1024) = none

/-- **One turn of `mappa2va`**, below the kernel's first page: a page is linked, the parent's page is
missing, the child's page is taken, or memory is out. -/
theorem linkPage_ends {m₀ : Mem} {memstart va sz j : Nat} (hn : (m₀.free ++ dirFrames m₀ d).Nodup)
    (ha : Apart m₀ p d) (hk : Present (entry m₀ d 0x80000)) (hva : pgRoundUp va = w * 4096) (hj : j < n)
    (h : Linked m₀ m d p w j (srcPage memstart) perm ∧ w + j ≤ 0x80000) :
    Loops.Ends (fun m' => Linked m₀ m' d p w (j + 1) (srcPage memstart) perm ∧ w + (j + 1) ≤ 0x80000)
      (fun m' => (∃ k < n, Linked m₀ m' d p w k (srcPage memstart) perm
        ∧ ¬ Present (entry m₀ p (srcPage memstart k))) ∨ OutOfMemory m₀ d p w n memstart perm)
      (fun e => (e = .remap ∧ ∃ k < n, Present (entry m₀ p (srcPage memstart k))
        ∧ Present (entry m₀ d (w + k))) ∨ OutOfMemory m₀ d p w n memstart perm)
      (linkPage L d p memstart va sz perm j m) := by
  obtain ⟨h, hw⟩ := h
  have hp : entry m p = entry m₀ p := (h.step.apart ha).2
  have hd : entry m d (w + j) = entry m₀ d (w + j) := by rw [h.entry, if_neg (by omega)]
  have hsrc : u32 (memstart + 4096 * j) < 0x100000000 := u32_lt _
  rw [linkPage, if_neg ha.ne_null]
  obtain ⟨hwalk, hnone⟩ | ⟨t, hwalk, -, hti⟩ := walkpgdir_cases (m := m) (d := p) hsrc
  · rw [hwalk]
    refine .inl ⟨j, hj, h, ?_⟩
    rw [← hp, srcPage, entry_of_tableAt_none hnone]
    exact not_present_zero
  · rw [← srcPage] at hti hwalk
    rw [hp] at hti
    simp only [hwalk, hti]
    by_cases hpres : Present (entry m₀ p (srcPage memstart j))
    case neg =>
      rw [if_pos hpres]
      exact .inl ⟨j, hj, h, hpres⟩
    have htarget : u32 (pgRoundUp va + 4096 * j) = (w + j) * 4096 := by
      rw [hva, u32]
      omega
    have hpage : (w + j) * 4096 / 4096 = w + j := Nat.mul_div_cancel _ (by decide)
    have hlt : (w + j) * 4096 < 0x100000000 := by omega
    rw [if_neg (not_not.mpr hpres), htarget, mappages_page (Nat.mul_mod_left _ _) hlt]
    have hcases := mapPage_cases (h.step.nodup hn) hlt
      (4096 * pteFrame (entry m₀ p (srcPage memstart j))) perm
    rw [hpage] at hcases
    -- the kernel's first page is there, and so is its table
    have hroom : ¬ Present (entry m d (w + j)) → w + j < 0x80000 := fun hfresh =>
      lt_of_le_of_ne hw fun he => hfresh (by rw [hd, he]; exact hk)
    rcases hcases with ⟨m', t, hr, hstep, hfresh, hent, htab⟩ | ⟨hr, hout, hnone⟩ | ⟨hr, htaken⟩
    · rw [hr]
      refine ⟨h.snoc hpres (.one hstep hfresh ?_ htab), hroom hfresh⟩
      rwa [Nat.add_sub_cancel_left]
    · have hstarved : OutOfMemory m₀ d p w n memstart perm :=
        ⟨m, j, hj, h, hroom (by rw [entry_of_tableAt_none hnone]; exact not_present_zero), hout, hnone⟩
      rw [hr]
      dsimp only
      cases deallocuvm L m d (u32 (va + 4 * sz)) va with
      | error | ok => exact .inr hstarved
    · rw [hr]
      exact .inl ⟨rfl, j, hj, hpres, hd ▸ htaken⟩

/-- **How `mappa2va` ends**: refused by its first test, all pages linked, stopped at a page the
parent does not have, a panic at a page the child already has, or out of memory. -/
theorem mappa2va_cases (L : Linker) (sz memstart perm : Nat) {va : Nat}
    (hn : (m.free ++ dirFrames m d).Nodup) (ha : Apart m p d) (hk : Present (entry m d 0x80000))
    (hva : pgRoundUp va = w * 4096) (hw : w ≤ 0x80000) :
    (mappa2va L m d p sz memstart va perm = .ok (-1, m) ∧ KERNBASE ≤ u32 (va + 4 * sz)) ∨
      (u32 (va + 4 * sz) < KERNBASE ∧
        ((∃ m', mappa2va L m d p sz memstart va perm = .ok (i32 (pgRoundUp sz), m')
            ∧ Linked m m' d p w (pgRoundUp sz / 4096) (srcPage memstart) perm
            ∧ w + pgRoundUp sz / 4096 ≤ 0x80000) ∨
          (∃ m' k, mappa2va L m d p sz memstart va perm = .ok (-1, m') ∧ k < pgRoundUp sz / 4096
            ∧ Linked m m' d p w k (srcPage memstart) perm
            ∧ ¬ Present (entry m p (srcPage memstart k))) ∨
          (mappa2va L m d p sz memstart va perm = .error .remap ∧ ∃ k < pgRoundUp sz / 4096,
            Present (entry m p (srcPage memstart k)) ∧ Present (entry m d (w + k))) ∨
          (OutOfMemory m d p w (pgRoundUp sz / 4096) memstart perm
            ∧ ∀ r m', mappa2va L m d p sz memstart va perm = .ok (r, m') → r = -1))) := by
  rw [mappa2va]
  by_cases hcheck : KERNBASE ≤ u32 (va + 4 * sz)
  · exact .inl ⟨if_pos hcheck, hcheck⟩
  rw [if_neg hcheck, List.range_eq_range']
  refine .inr ⟨not_le.mp hcheck, ?_⟩
  have hloop := (Loops.each_range (f := linkPage L d p memstart va (pgRoundUp sz) perm)
    (I := fun j m' => Linked m m' d p w j (srcPage memstart) perm ∧ w + j ≤ 0x80000)
    (n := pgRoundUp sz / 4096) ⟨.zero m d p w _ perm, hw⟩
    fun j m' _ hj => linkPage_ends hn ha hk hva (by omega : j < pgRoundUp sz / 4096)).cases
  rw [Nat.zero_add] at hloop
  rcases hloop with ⟨m', hr, h⟩ | ⟨m', hr, ⟨k, h⟩ | h⟩ | ⟨e, hr, ⟨rfl, h⟩ | h⟩ <;> rw [hr]
  · exact .inl ⟨m', rfl, h⟩
  · exact .inr (.inl ⟨m', k, rfl, h⟩)
  · exact .inr (.inr (.inr ⟨h, fun r m' hok => (Prod.mk.inj (Except.ok.inj hok)).1.symm⟩))
  · exact .inr (.inr (.inl ⟨rfl, h⟩))
  · exact .inr (.inr (.inr ⟨h, nofun⟩))

end Xv6

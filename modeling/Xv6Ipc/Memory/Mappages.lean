import Xv6Ipc.Memory.PageTable

/-!
# Memory/Mappages — mapping a run of pages

`mappages` maps pages one after another until it reaches `last`.  `Mapped m m' d v n pa perm` says
what `n` turns of that loop amount to: the pages `v, …, v + n − 1` were unmapped and are now backed
by consecutive frames from `pa`, tables were added for nothing else, and the rest of the directory
is as it was.  The loop stops in one of three ways (`mapRange_cases`): all pages done, out of memory
after a proper prefix, or at a page that was already there.
-/

namespace Xv6

open Function

/-- One turn of the loop of `mappages`. -/
def mapPage (m : Mem) (pgdir a pa perm : Nat) : Except Panic (Bool × Mem) :=
  match walkpgdir m pgdir a true with
  | (none, m) => .ok (false, m)
  | (some (t, i), m) =>
    if Present (m.cell t i) then .error .remap
    else .ok (true, m.store t i (mkPte pa perm))

/-- The loop of `mappages`, `for(;;)` until `a == last`.  There are `0x100000` pages, so that many
turns are enough for any `last`. -/
def mapLoop (pgdir perm last : Nat) : Nat → Mem → Nat → Nat → Except Panic (Bool × Mem)
  | 0, m, _, _ => .ok (true, m)
  | turns + 1, m, a, pa =>
    match mapPage m pgdir a pa perm with
    | .ok (true, m) =>
      if a = last then .ok (true, m)
      else mapLoop pgdir perm last turns m (u32 (a + 4096)) (u32 (pa + 4096))
    | r => r

/-- `mappages`; `false` is its `-1`. -/
def mappages (m : Mem) (pgdir va size pa perm : Nat) : Except Panic (Bool × Mem) :=
  mapLoop pgdir perm (pgRoundDown (u32 (va + size - 1))) 0x100000 m (pgRoundDown va) pa

/-- The loop with `n` pages still to come after this one. -/
def mapRange (pgdir perm : Nat) : Nat → Mem → Nat → Nat → Except Panic (Bool × Mem)
  | 0, m, a, pa => mapPage m pgdir a pa perm
  | n + 1, m, a, pa =>
    match mapPage m pgdir a pa perm with
    | .ok (true, m) => mapRange pgdir perm n m (u32 (a + 4096)) (u32 (pa + 4096))
    | r => r

variable {m m' m'' : Mem} {d v n k pa perm : Nat}

/-! ## One page -/

/-- **What one turn can do.** -/
theorem mapPage_cases (hn : (m.free ++ dirFrames m d).Nodup) {a : Nat} (ha : a < 0x100000000)
    (pa perm : Nat) :
    (∃ m' t, mapPage m d a pa perm = .ok (true, m') ∧ DirStep m m' d
        ∧ ¬ Present (entry m d (a / 4096))
        ∧ entry m' d = update (entry m d) (a / 4096) (mkPte pa perm)
        ∧ tableAt m' d = update (tableAt m d) (a / 4096 / 1024) (some t)) ∨
      (mapPage m d a pa perm = .ok (false, m) ∧ m.free = []
        ∧ tableAt m d (a / 4096 / 1024) = none) ∨
      (mapPage m d a pa perm = .error .remap ∧ Present (entry m d (a / 4096))) := by
  rw [mapPage]
  have hpdx := pdx_eq a ha
  rcases walkpgdir_true_cases a hn with ⟨m₁, t, hw, hstep, hentry, htab⟩ | ⟨hw, hfree, hnone⟩
  · have hn₁ : (dirFrames m₁ d).Nodup := (List.nodup_append.mp (hstep.nodup hn)).2.1
    have ht : tableAt m₁ d (a / 4096 / 1024) = some t := by
      rw [htab, hpdx, update_self]
    have hcell : m₁.cell t (ptx a) = entry m d (a / 4096) := by
      rw [← hentry, ptx_eq, cell_of_tableAt ht]
    rw [hw]
    change (_ ∨ _ ∨ _)
    by_cases hp : Present (entry m d (a / 4096))
    · exact .inr (.inr ⟨if_pos (hcell ▸ hp), hp⟩)
    · refine .inl ⟨_, t, if_neg (hcell ▸ hp), hstep.trans (dirStep_store hn₁ ht _ _), hp, ?_, ?_⟩
      · rw [ptx_eq, entry_store hn₁ ht, hentry]
      · rw [tableAt_store hn₁ ht, htab, hpdx]
  · rw [hw]
    exact .inr (.inl ⟨rfl, hfree, hpdx ▸ hnone⟩)

/-! ## A run of pages -/

/-- **The pages `v, …, v + n − 1` have been given entries**, page `u` the entry `e u`. -/
structure Entered (m m' : Mem) (d v n : Nat) (e : Nat → Nat) : Prop where
  step : DirStep m m' d
  fresh : ∀ u, v ≤ u → u < v + n → ¬ Present (entry m d u)
  entry : ∀ u, entry m' d u = if v ≤ u ∧ u < v + n then e u else entry m d u
  grow : ∀ i, tableAt m' d i ≠ none →
    tableAt m d i ≠ none ∨ ∃ u, v ≤ u ∧ u < v + n ∧ i = u / 1024

namespace Entered

variable {e : Nat → Nat}

theorem zero (m : Mem) (d v : Nat) (e : Nat → Nat) : Entered m m d v 0 e where
  step := DirStep.refl m d
  fresh u h h' := absurd h' (by omega)
  entry u := by rw [if_neg (by omega)]
  grow i h := .inl h

theorem one {t : Nat} (hstep : DirStep m m' d) (hp : ¬ Present (Xv6.entry m d v))
    (hentry : Xv6.entry m' d = update (Xv6.entry m d) v (e v))
    (htab : tableAt m' d = update (tableAt m d) (v / 1024) (some t)) : Entered m m' d v 1 e where
  step := hstep
  fresh u h h' := by
    obtain rfl : u = v := by omega
    exact hp
  entry u := by
    rw [hentry, update_apply]
    by_cases hu : u = v
    · rw [if_pos hu, if_pos (by omega), hu]
    · rw [if_neg hu, if_neg (by omega)]
  grow i h := by
    by_cases hi : i = v / 1024
    · exact .inr ⟨v, le_rfl, by omega, hi⟩
    · rw [htab, update_of_ne hi] at h
      exact .inl h

/-- **Two runs of pages, one after the other.** -/
theorem append (h : Entered m m' d v k e) (h' : Entered m' m'' d (v + k) n e) : Entered m m'' d v (k + n) e where
  step := h.step.trans h'.step
  fresh u hu hu' := by
    by_cases hk : u < v + k
    · exact h.fresh u hu hk
    · have := h'.fresh u (by omega) (by omega)
      rwa [h.entry, if_neg (by omega)] at this
  entry u := by
    rw [h'.entry, h.entry]
    by_cases hk : v + k ≤ u ∧ u < v + k + n
    · rw [if_pos hk, if_pos (by omega)]
    · rw [if_neg hk]
      by_cases hu : v ≤ u ∧ u < v + k
      · rw [if_pos hu, if_pos (by omega)]
      · rw [if_neg hu, if_neg (by omega)]
  grow i hi := by
    rcases h'.grow i hi with hi | ⟨u, hu, hu', rfl⟩
    · rcases h.grow i hi with hi | ⟨u, hu, hu', rfl⟩
      · exact .inl hi
      · exact .inr ⟨u, hu, by omega, rfl⟩
    · exact .inr ⟨u, by omega, by omega, rfl⟩

end Entered

/-- **The pages `v, …, v + n − 1` have been mapped to the frames from `pa` on.** -/
structure Mapped (m m' : Mem) (d v n pa perm : Nat) : Prop where
  step : DirStep m m' d
  fresh : ∀ u, v ≤ u → u < v + n → ¬ Present (entry m d u)
  entry : ∀ u, entry m' d u
    = if v ≤ u ∧ u < v + n then mkPte (pa + 4096 * (u - v)) perm else entry m d u
  grow : ∀ i, tableAt m' d i ≠ none →
    tableAt m d i ≠ none ∨ ∃ u, v ≤ u ∧ u < v + n ∧ i = u / 1024

/-- **How the loop of `mappages` ends.**  The frame may pass the end of the address space. -/
theorem mapRange_cases (hn : (m.free ++ dirFrames m d).Nodup) {a : Nat} (ha : a % 4096 = 0)
    (hlast : a + n * 4096 < 0x100000000) (hpa : pa < 0x100000000) {e : Nat → Nat}
    (he : ∀ j ≤ n, e (a / 4096 + j) = mkPte (u32 (pa + 4096 * j : Nat)) perm) :
    (∃ m', mapRange d perm n m a pa = .ok (true, m') ∧ Entered m m' d (a / 4096) (n + 1) e) ∨
      (∃ m' k, mapRange d perm n m a pa = .ok (false, m') ∧ k ≤ n ∧ Entered m m' d (a / 4096) k e
        ∧ m'.free = [] ∧ tableAt m' d ((a / 4096 + k) / 1024) = none) ∨
      (mapRange d perm n m a pa = .error .remap
        ∧ ∃ u, a / 4096 ≤ u ∧ u ≤ a / 4096 + n ∧ Present (entry m d u)) := by
  induction n generalizing m a pa with
  | zero =>
    have hfirst : e (a / 4096) = mkPte (u32 pa) perm := he 0 le_rfl
    rcases mapPage_cases hn (by omega : a < 0x100000000) pa perm with
      ⟨m', t, hr, hstep, hp, hentry, htab⟩ | ⟨hr, hfree, hnone⟩ | ⟨hr, hp⟩
    · rw [← u32_of_lt hpa, ← hfirst] at hentry
      exact .inl ⟨m', hr, .one hstep hp hentry htab⟩
    · exact .inr (.inl ⟨m, 0, hr, le_rfl, .zero .., hfree, hnone⟩)
    · exact .inr (.inr ⟨hr, a / 4096, le_rfl, by omega, hp⟩)
  | succ n ih =>
    have hfirst : e (a / 4096) = mkPte (u32 pa) perm := he 0 (Nat.zero_le _)
    rw [mapRange]
    rcases mapPage_cases hn (by omega : a < 0x100000000) pa perm with
      ⟨m₁, t, hr, hstep, hp, hentry, htab⟩ | ⟨hr, hfree, hnone⟩ | ⟨hr, hp⟩
    · rw [← u32_of_lt hpa, ← hfirst] at hentry
      have hone : Entered m m₁ d (a / 4096) 1 e := .one hstep hp hentry htab
      have hpage : (a + 4096) / 4096 = a / 4096 + 1 := by omega
      rw [hr]
      have hua : u32 (a + 4096) = a + 4096 := u32_of_lt (by omega : a + 4096 < 0x100000000)
      simp only [hua]
      have he' : ∀ j ≤ n, e ((a + 4096) / 4096 + j)
          = mkPte (u32 (u32 (pa + 4096) + 4096 * j : Nat)) perm := fun j hj => by
        have hwrap : u32 (pa + 4096 * (j + 1) : Nat) = u32 (u32 (pa + 4096) + 4096 * j : Nat) := by
          simp only [u32]
          omega
        rw [hpage, Nat.add_assoc, Nat.add_comm 1, he (j + 1) (by omega), hwrap]
      rcases ih (hstep.nodup hn) (a := a + 4096) (by omega) (by omega) (u32_lt _) he' with
        ⟨m', hr', h'⟩ | ⟨m', k, hr', hk, h', hfree, hnone⟩ | ⟨hr', u, hu, hu', hp'⟩
      · rw [hpage] at h'
        refine .inl ⟨m', hr', ?_⟩
        rw [Nat.add_comm (n + 1) 1]
        exact hone.append h'
      · rw [hpage] at h' hnone
        refine .inr (.inl ⟨m', 1 + k, hr', by omega, hone.append h', hfree, ?_⟩)
        rwa [← Nat.add_assoc]
      · refine .inr (.inr ⟨hr', u, by omega, by omega, ?_⟩)
        rwa [hone.entry, if_neg (by omega)] at hp'
    · exact .inr (.inl ⟨m, 0, by rw [hr], by omega, .zero .., hfree, hnone⟩)
    · exact .inr (.inr ⟨by rw [hr], a / 4096, le_rfl, by omega, hp⟩)

/-! ## `mappages` -/

/-- The loop reaches a `last` that lies `n` pages ahead after `n` more turns. -/
theorem mapLoop_eq_mapRange {turns a last : Nat} (hturns : n < turns) (hlast : last = a + n * 4096)
    (hlt : last < 0x100000000) :
    mapLoop d perm last turns m a pa = mapRange d perm n m a pa := by
  induction n generalizing turns m a pa with
  | zero =>
    obtain ⟨turns, rfl⟩ := Nat.exists_eq_succ_of_ne_zero (by omega : turns ≠ 0)
    obtain rfl : a = last := by omega
    rw [mapLoop, mapRange]
    rcases mapPage m d a pa perm with e | ⟨_ | _, m'⟩
    · rfl
    · rfl
    · exact if_pos rfl
  | succ n ih =>
    obtain ⟨turns, rfl⟩ := Nat.exists_eq_succ_of_ne_zero (by omega : turns ≠ 0)
    have hua : u32 (a + 4096) = a + 4096 := u32_of_lt (by omega : a + 4096 < 0x100000000)
    rw [mapLoop, mapRange]
    rcases mapPage m d a pa perm with e | ⟨_ | _, m'⟩
    · rfl
    · rfl
    · refine (if_neg (by omega)).trans ?_
      rw [hua]
      exact ih (by omega) (by omega)

/-- For a range that does not wrap, `mappages` walks its pages in order. -/
theorem mappages_eq {va size : Nat} (hs : 0 < size) (hva : va + size - 1 < 0x100000000) :
    mappages m d va size pa perm
      = mapRange d perm ((va + size - 1) / 4096 - va / 4096) m (va / 4096 * 4096) pa := by
  have hlast : u32 (va + size - 1) = va + size - 1 := by
    rw [u32]
    omega
  rw [mappages, pgRoundDown, pgRoundDown, hlast]
  exact mapLoop_eq_mapRange (by omega) (by omega) (by omega)

/-- **`mappages` is exact.**  Where no page of the range is mapped, it maps all of them, the `k`-th to
`pa + k * 4096`, or memory runs out after a proper prefix; and nothing else changes. -/
theorem mappages_exact {va size : Nat} (hn : (m.free ++ dirFrames m d).Nodup) (hs : 0 < size)
    (hva : va + size - 1 < 0x100000000) (hpa : pa < 0x100000000)
    (hfresh : ∀ u, va / 4096 ≤ u → u ≤ (va + size - 1) / 4096 → ¬ Present (entry m d u)) :
    (∃ m', mappages m d va size pa perm = .ok (true, m')
      ∧ Entered m m' d (va / 4096) ((va + size - 1) / 4096 - va / 4096 + 1)
        fun u => mkPte (u32 (pa + 4096 * (u - va / 4096) : Nat)) perm)
    ∨ ∃ m' k, mappages m d va size pa perm = .ok (false, m') ∧ m'.free = []
      ∧ k < (va + size - 1) / 4096 - va / 4096 + 1
      ∧ Entered m m' d (va / 4096) k fun u => mkPte (u32 (pa + 4096 * (u - va / 4096) : Nat)) perm := by
  have hpage : va / 4096 * 4096 / 4096 = va / 4096 := Nat.mul_div_cancel _ (by decide)
  have hlast : va / 4096 * 4096 + ((va + size - 1) / 4096 - va / 4096) * 4096 < 0x100000000 := by omega
  rw [mappages_eq hs hva]
  rcases mapRange_cases (a := va / 4096 * 4096) hn (Nat.mul_mod_left _ _) hlast hpa
      (e := fun u => mkPte (u32 (pa + 4096 * (u - va / 4096) : Nat)) perm)
      (fun j _ => by rw [hpage, Nat.add_sub_cancel_left]) with
    ⟨m', hr, h⟩ | ⟨m', k, hr, hk, h, hfree, -⟩ | ⟨-, u, hu, hu', hp⟩
  · rw [hpage] at h
    exact .inl ⟨m', hr, h⟩
  · rw [hpage] at h
    exact .inr ⟨m', k, hr, hfree, Nat.lt_succ_of_le hk, h⟩
  · exact absurd hp (hfresh u (by omega) (by omega))

/-- In an empty directory, with one frame left for a table, the last page of the address space. -/
theorem mappages_exact_top : ∃ m : Mem, m.free = [2] ∧ ∃ ok m',
    mappages m 1 0xFFFFF000 4096 0xFFFFFFFF PTE_W = .ok (ok, m') :=
  have hzero : (⟨⟨fun _ _ => 0, [2]⟩, []⟩ : Mem).cell 1 = fun _ => 0 := rfl
  ⟨⟨⟨fun _ _ => 0, [2]⟩, []⟩, rfl,
    (mappages_exact (by rw [dirFrames_of_zero hzero]; decide) (by decide) (by decide) (by decide)
      fun u _ _ => by rw [entry_of_tableAt_none (tableAt_of_zero hzero _)]; exact not_present_zero).elim
    (fun ⟨m', hr, _⟩ => ⟨true, m', hr⟩) fun ⟨m', _, hr, _⟩ => ⟨false, m', hr⟩⟩

/-- One page. -/
theorem mappages_page {a : Nat} (ha : a % 4096 = 0) (hlt : a < 0x100000000) :
    mappages m d a 4096 pa perm = mapPage m d a pa perm := by
  rw [mappages_eq (by omega) (by omega), show (a + 4096 - 1) / 4096 - a / 4096 = 0 by omega,
    show a / 4096 * 4096 = a by omega]
  rfl

end Xv6

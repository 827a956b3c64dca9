import Xv6Ipc.Memory.Allocuvm

/-!
# Memory/Transfer — bytes into user pages

`loaduvm` reads a file into pages that exist, `copyout` writes to pages that are the user's, and
`clearpteu` takes a page away from the user.  The first two write bytes of words,

    frame ──k / 4──▸ word ──k % 4──▸ byte

and only in frames that back user memory: `Scribbled` says so, and a scribbled directory maps what it
mapped.
-/

namespace Xv6

/-! ## Bytes of words -/

/-- Byte `k` of a word, the lowest first. -/
def wordByte (w k : Nat) : Nat := w / 256 ^ k % 256

/-- The word with byte `k` replaced. -/
def setByte (w k b : Nat) : Nat := w - wordByte w k * 256 ^ k + b * 256 ^ k

/-- The four bytes of a word. -/
def wordBytes (w : Nat) : List Nat := (List.range 4).map (wordByte w)

/-- Byte `k` of a list of bytes. -/
def byteAt (bs : List Nat) (k : Nat) : Nat := bs.getD k 0 % 256

/-- The word at offset `k` of a list of bytes. -/
def le32 (bs : List Nat) (k : Nat) : Nat :=
  byteAt bs k + 256 * byteAt bs (k + 1) + 65536 * byteAt bs (k + 2) + 16777216 * byteAt bs (k + 3)

theorem le32_lt (bs : List Nat) (k : Nat) : le32 bs k < 0x100000000 := by
  have hbyte : ∀ k, byteAt bs k < 256 := fun k => Nat.mod_lt _ (by decide)
  have h₀ := hbyte k
  have h₁ := hbyte (k + 1)
  have h₂ := hbyte (k + 2)
  have h₃ := hbyte (k + 3)
  rw [le32]
  omega

namespace Mem

/-- Store a byte of a frame. -/
def putByte (m : Mem) (f k b : Nat) : Mem :=
  m.store f (k / 4) (setByte (m.cell f (k / 4)) (k % 4) b)

/-- `memmove` into a frame, from byte `k` on. -/
def putBytes (m : Mem) (f k : Nat) : List Nat → Mem
  | [] => m
  | b :: bs => (m.putByte f k b).putBytes f (k + 1) bs

theorem putBytes_spec (m : Mem) (f k : Nat) (bs : List Nat) :
    (m.putBytes f k bs).free = m.free ∧ (m.putBytes f k bs).vmfreed = m.vmfreed
      ∧ ∀ g, g ≠ f → (m.putBytes f k bs).cell g = m.cell g := by
  induction bs generalizing m k with
  | nil => exact ⟨rfl, rfl, fun _ _ => rfl⟩
  | cons b bs ih =>
    obtain ⟨hfree, hvm, hcell⟩ := ih (m.putByte f k b) (k + 1)
    refine ⟨hfree, hvm, fun g hg => ?_⟩
    rw [putBytes, hcell g hg]
    exact m.store_cell_of_ne _ _ hg

end Mem

/-! ## `loaduvm`, `clearpteu`, `copyout` -/

/-- `readi` of a regular file: what the file has of the `n` bytes asked for. -/
def readi (file : List Nat) (off n : Nat) : Option (List Nat) :=
  if file.length < off ∨ 0x100000000 ≤ off + n then none else some ((file.drop off).take n)

/-- One turn of the loop of `loaduvm`; `false` stands for `return -1`. -/
def loadPage (pgdir addr : Nat) (file : List Nat) (offset sz i : Nat) (m : Mem) :
    Except Panic (Bool × Mem) :=
  match walkpgdir m pgdir (u32 (addr + i)) false with
  | (none, _) => .error .loaduvm
  | (some (t, k), m) =>
    let n := min (sz - i) 4096
    match readi file (u32 (offset + i)) n with
    | none => .ok (false, m)
    | some bs => .ok (bs.length = n, m.putBytes (pteFrame (m.cell t k)) 0 bs)

/-- `loaduvm`. -/
def loaduvm (m : Mem) (pgdir addr : Nat) (file : List Nat) (offset sz : Nat) :
    Except Panic (Bool × Mem) :=
  if addr % 4096 ≠ 0 then .error .loaduvm
  else Loops.each (fun j => loadPage pgdir addr file offset sz (4096 * j)) (pagesBetween 0 sz) m

/-- `*pte & ~PTE_U`. -/
def clearUser (w : Nat) : Nat := w - (w &&& PTE_U)

/-- `clearpteu`. -/
def clearpteu (m : Mem) (pgdir uva : Nat) : Except Panic Mem :=
  match walkpgdir m pgdir uva false with
  | (none, _) => .error .clearpteu
  | (some (t, k), m) => .ok (m.store t k (clearUser (m.cell t k)))

/-- `uva2ka`: the frame behind a user page.  It reads the entry without looking whether there is a
table for it. -/
def uva2ka (m : Mem) (pgdir uva : Nat) : Except Panic (Option Nat) :=
  match walkpgdir m pgdir uva false with
  | (none, _) => .error .nullDeref
  | (some (t, k), m) =>
    let pte := m.cell t k
    if ¬ Present pte then .ok none
    else if ¬ User pte then .ok none
    else .ok (some (pteFrame pte))

/-- `copyout`; `false` stands for `return -1`. -/
def copyout (m : Mem) (pgdir va : Nat) : List Nat → Except Panic (Bool × Mem)
  | [] => .ok (true, m)
  | b :: p =>
    let va0 := pgRoundDown va
    match uva2ka m pgdir va0 with
    | .error e => .error e
    | .ok none => .ok (false, m)
    | .ok (some pa0) =>
      let n := min (4096 - (va - va0)) (b :: p).length
      copyout (m.putBytes pa0 (va - va0) ((b :: p).take n)) pgdir (u32 (va0 + 4096))
        ((b :: p).drop n)
termination_by p => p.length
decreasing_by
  have hlt : va - pgRoundDown va < 4096 := by
    rw [pgRoundDown]
    omega
  rw [List.length_drop, List.length_cons]
  omega

variable {m m' m'' : Mem} {d v : Nat}

/-! ## Scribbling -/

/-- **Only the contents of user pages change.** -/
structure Scribbled (m m' : Mem) (d : Nat) : Prop where
  free : m'.free = m.free
  vmfreed : m'.vmfreed = m.vmfreed
  cell : ∀ f, f ∉ leaves m d → m'.cell f = m.cell f

namespace Scribbled

theorem refl (m : Mem) (d : Nat) : Scribbled m m d := ⟨rfl, rfl, fun _ _ => rfl⟩

section Directory

variable (h : Scribbled m m' d) (hn : (owned m d).Nodup)
include h hn

theorem cell_of_dir {f : Nat} (hf : f ∈ dirFrames m d) : m'.cell f = m.cell f :=
  h.cell f fun hc => List.disjoint_of_nodup_append hn hf hc

/-- The directory maps what it mapped… -/
theorem entry_eq : entry m' d = entry m d := entry_congr fun _ => h.cell_of_dir hn

theorem tableAt_eq : tableAt m' d = tableAt m d :=
  tableAt_congr (h.cell_of_dir hn (List.mem_cons_self ..))

/-- …and holds what it held. -/
theorem owned_eq : owned m' d = owned m d := owned_congr fun _ => h.cell_of_dir hn

theorem leaves_eq : leaves m' d = leaves m d := leaves_congr fun v _ => congrFun (h.entry_eq hn) v

theorem moves : m.Moves (owned m d) m' (owned m' d) where
  perm := by rw [h.owned_eq hn, h.free]
  frame f _ hf := h.cell f fun hc => hf (List.mem_append_right _ hc)

theorem trans (h' : Scribbled m' m'' d) : Scribbled m m'' d where
  free := h'.free.trans h.free
  vmfreed := h'.vmfreed.trans h.vmfreed
  cell f hf := by
    rw [h'.cell f (by rwa [h.leaves_eq hn]), h.cell f hf]

end Directory

/-- Bytes put into a page below `SHAREBASE`. -/
theorem putBytes (hv : v < 0x40000) (hp : Present (entry m d v)) (k : Nat) (bs : List Nat) :
    Scribbled m (m.putBytes (pteFrame (entry m d v)) k bs) d := by
  obtain ⟨hfree, hvm, hcell⟩ := m.putBytes_spec (pteFrame (entry m d v)) k bs
  have hleaf : pteFrame (entry m d v) ∈ leaves m d :=
    mem_leaves.mpr ⟨v, hv, leafAt_eq_some.mpr ⟨hp, rfl⟩⟩
  exact ⟨hfree, hvm, fun f hf => hcell f (ne_of_mem_of_not_mem hleaf hf).symm⟩

end Scribbled

/-! ## What the transfers do -/

/-- **`loaduvm`** into pages that exist ends one way or the other, and only scribbles. -/
theorem loaduvm_spec {addr sz : Nat} (hn : (owned m d).Nodup) (file : List Nat) (offset : Nat)
    (haddr : addr % 4096 = 0) (hle : addr + sz ≤ SHAREBASE)
    (hp : ∀ v, v < (addr + sz + 4095) / 4096 → Present (entry m d v)) :
    ∃ b m', loaduvm m d addr file offset sz = .ok (b, m') ∧ Scribbled m m' d := by
  rw [SHAREBASE] at hle
  have hturn : ∀ j ∈ pagesBetween 0 sz, ∀ m', Scribbled m m' d →
      Loops.Ends (Scribbled m · d) (Scribbled m · d) (fun _ => False)
        (loadPage d addr file offset sz (4096 * j) m') := by
    intro j hj m₁ h
    have hj' : j < (sz + 4095) / 4096 := by simpa [pagesBetween] using hj
    have hva : u32 (addr + (4096 * j : Nat)) = addr + 4096 * j := u32_of_lt (by omega)
    have hpage : (addr + 4096 * j) / 4096 = addr / 4096 + j := by omega
    have hpres : Present (entry m₁ d (addr / 4096 + j)) := by
      rw [h.entry_eq hn]
      exact hp _ (by omega)
    obtain ⟨t, hw, -, hcell⟩ := walkpgdir_present (a := addr + 4096 * j) (by omega) (by rwa [hpage])
    rw [hpage] at hcell
    rw [loadPage, hva, hw]
    simp only [hpage, hcell]
    cases readi file (u32 (offset + (4096 * j : Nat))) (min (sz - 4096 * j) 4096) with
    | none => exact h
    | some bs =>
      have h' := h.trans hn (.putBytes (by omega) hpres 0 bs)
      simp only
      generalize decide (bs.length = min (sz - 4096 * j) 4096) = full
      cases full
      all_goals exact h'
  rw [loaduvm, if_neg (not_not.mpr haddr)]
  obtain ⟨m', hr, h⟩ | ⟨m', hr, h⟩ | ⟨e, -, he⟩ :=
    (Loops.each_rule (I := (Scribbled m · d)) (.refl m d) hturn).cases
  · exact ⟨true, m', hr, h⟩
  · exact ⟨false, m', hr, h⟩
  · exact absurd he id

/-- **One turn of `copyout`**: there is no table, the page is not the user's, or it gets its part of the
bytes. -/
theorem copyout_turn {va : Nat} (b : Nat) (p : List Nat) (hva : va < 0x100000000) :
    (copyout m d va (b :: p) = .error .nullDeref ∧ tableAt m d (va / 4096 / 1024) = none) ∨
      (copyout m d va (b :: p) = .ok (false, m) ∧ tableAt m d (va / 4096 / 1024) ≠ none
        ∧ ¬ (Present (entry m d (va / 4096)) ∧ User (entry m d (va / 4096)))) ∨
      (Present (entry m d (va / 4096)) ∧ User (entry m d (va / 4096))
        ∧ ∃ n, n = min (4096 - va % 4096) (b :: p).length ∧ copyout m d va (b :: p)
          = copyout (m.putBytes (pteFrame (entry m d (va / 4096))) (va % 4096) ((b :: p).take n)) d
            (u32 ((va / 4096 * 4096 : Nat) + 4096)) ((b :: p).drop n)) := by
  have hround : pgRoundDown va = va / 4096 * 4096 := rfl
  have hpage : va / 4096 * 4096 / 4096 = va / 4096 := Nat.mul_div_cancel _ (by decide)
  have hoff : va - va / 4096 * 4096 = va % 4096 := by omega
  rw [copyout, hround, uva2ka]
  obtain ⟨hw, hnone⟩ | ⟨t, hw, ht, hcell⟩ := walkpgdir_cases (m := m) (d := d)
    (by omega : va / 4096 * 4096 < 0x100000000)
  · rw [hpage] at hnone
    exact .inl ⟨by rw [hw], hnone⟩
  · rw [hpage] at ht hcell
    simp only [hw, hpage, hcell, hoff]
    have htable : tableAt m d (va / 4096 / 1024) ≠ none := by
      rw [ht]
      exact Option.some_ne_none t
    by_cases hp : Present (entry m d (va / 4096))
    case neg => exact .inr (.inl ⟨by rw [if_pos hp], htable, fun hc => hp hc.1⟩)
    by_cases hu : User (entry m d (va / 4096))
    case neg => exact .inr (.inl ⟨by rw [if_neg (not_not.mpr hp), if_pos hu], htable, fun hc => hu hc.2⟩)
    refine .inr (.inr ⟨hp, hu, _, rfl, ?_⟩)
    rw [if_neg (not_not.mpr hp), if_neg (not_not.mpr hu)]

/-- **`copyout`** within one page of the user's. -/
theorem copyout_page (va : Nat) (p : List Nat) (hva : va < SHAREBASE)
    (hlen : va % 4096 + p.length ≤ 4096) (hp : Present (entry m d (va / 4096)))
    (hu : User (entry m d (va / 4096))) :
    ∃ m', copyout m d va p = .ok (true, m') ∧ Scribbled m m' d := by
  rw [SHAREBASE] at hva
  cases p with
  | nil => exact ⟨m, by rw [copyout], .refl m d⟩
  | cons b p =>
    obtain ⟨-, hnone⟩ | ⟨-, -, hno⟩ | ⟨-, -, n, hn, hr⟩ :=
      copyout_turn (m := m) (d := d) b p (by omega : va < 0x100000000)
    · rw [entry_of_tableAt_none hnone] at hp
      exact absurd hp not_present_zero
    · exact absurd ⟨hp, hu⟩ hno
    · have hall : n = (b :: p).length := by omega
      refine ⟨_, ?_, .putBytes (by omega) hp (va % 4096) (b :: p)⟩
      rw [hr, hall, List.take_length, List.drop_length, copyout]

/-! ## `clearpteu` -/

theorem clearUser_add (w : Nat) : clearUser w = w ∨ clearUser w + 4 = w ∧ 4 ≤ w % 8 := by
  have hand : w &&& PTE_U = (w.testBit 2).toNat * 2 ^ 2 := Nat.and_two_pow w 2
  have hbit : w.testBit 2 = decide (w / 4 % 2 = 1) := by
    rw [Nat.testBit_eq_decide_div_mod_eq]
  rw [clearUser, hand, hbit]
  by_cases h : w / 4 % 2 = 1
  · rw [decide_eq_true h]
    simp only [Bool.toNat_true]
    omega
  · rw [decide_eq_false h]
    exact .inl rfl

theorem present_clearUser {w : Nat} : Present (clearUser w) ↔ Present w := by
  rw [present_iff, present_iff]
  have := clearUser_add w
  omega

theorem pteFrame_clearUser (w : Nat) : pteFrame (clearUser w) = pteFrame w := by
  rw [pteFrame, pteFrame]
  have := clearUser_add w
  omega

theorem not_user_clearUser (w : Nat) : ¬ User (clearUser w) := by
  have hand : w &&& PTE_U = (w.testBit 2).toNat * 2 ^ 2 := Nat.and_two_pow w 2
  rw [user_iff, clearUser, hand, Nat.testBit_eq_decide_div_mod_eq, Nat.testBit_eq_decide_div_mod_eq,
    decide_eq_true_eq]
  by_cases h : w / 2 ^ 2 % 2 = 1
  · rw [decide_eq_true h, Bool.toNat_true]
    omega
  · rw [decide_eq_false h, Bool.toNat_false]
    omega

/-- **`clearpteu`** of a page of the image changes its flags only. -/
theorem clearpteu_spec (hn : (owned m d).Nodup) (hv : v < 0x40000)
    (hp : Present (entry m d v)) :
    ∃ m', clearpteu m d (v * 4096) = .ok m' ∧ m.Moves (owned m d) m' (owned m' d)
      ∧ entry m' d = Function.update (entry m d) v (clearUser (entry m d v))
      ∧ tableAt m' d = tableAt m d ∧ m'.vmfreed = m.vmfreed := by
  have hdir : (dirFrames m d).Nodup := (List.nodup_append.mp hn).1
  have hpage : v * 4096 / 4096 = v := Nat.mul_div_cancel _ (by decide)
  obtain ⟨t, hw, ht, hcell⟩ := walkpgdir_present (a := v * 4096) (by omega) (by rwa [hpage])
  rw [hpage] at ht hcell
  have hstep := dirStep_store hdir ht (v % 1024) (clearUser (entry m d v))
  have hent := entry_store hdir ht (clearUser (entry m d v))
  have hleaf : ∀ u, leafAt (m.store t (v % 1024) (clearUser (entry m d v))) d u = leafAt m d u := by
    intro u
    rw [leafAt, leafAt, hent, Function.update_apply]
    by_cases hu : u = v
    · subst hu
      rw [if_pos rfl, if_pos hp, if_pos (present_clearUser.mpr hp), pteFrame_clearUser]
    · rw [if_neg hu]
  have hleaves : leaves (m.store t (v % 1024) (clearUser (entry m d v))) d = leaves m d := by
    rw [leaves_def, leaves_def]
    exact List.filterMap_congr fun u _ => hleaf u
  rw [clearpteu, hw]
  simp only [hpage, hcell]
  refine ⟨_, rfl, ?_, hent, tableAt_store hdir ht _ _, rfl⟩
  rw [owned, owned, hleaves]
  exact hstep.moves.extend _

end Xv6

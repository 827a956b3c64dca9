import Xv6Ipc.Process.Lookup

/-!
# Process/Register — which regions `share_mem` takes

`share_mem` has `argptr` check that *four* bytes at the address belong to the process.  The size comes
as a number of its own and nobody looks at it:

    0 ──────── vamem ─┬──┬───────────── sz
                      └──┘ checked
                      └───────────── size ─────────────┘ stored

So a region of no bytes, of fewer than none or of more than there are is registered like any other —
and an entry of size zero is a free one.
-/

namespace Xv6

/-- **A real region**: it has bytes, and the last of them lies below `sz`. -/
def Proc.Real (p : Proc) (a : ShareArgs) : Prop := 0 < a.sz.val ∧ a.vamem + a.sz.val ≤ p.sz

instance (p : Proc) (a : ShareArgs) : Decidable (p.Real a) := inferInstanceAs (Decidable (_ ∧ _))

/-- **`share_mem` takes real regions only.**  An answer of `0` to `9` means that the region is real,
that its pages are there and that its entry is taken, so the same name a second time gets `-2`;
anything else gets `-1` and leaves the process as it is. -/
structure TakesReal (k : Kernel) (c : Slot) (a : ShareArgs) : Prop where
  real : ∀ r k', sysShareMem k c (some a) = (r, k') → 0 ≤ r → r ≤ 9 → (k.proc c).Real a
  mapped : ∀ r k', sysShareMem k c (some a) = (r, k') → 0 ≤ r → r ≤ 9 →
    ∀ x, a.vamem ≤ x → x < a.vamem + a.sz.val → Present (entry k.mem (k.proc c).pgdir (x / 4096))
  taken : ∀ r k', sysShareMem k c (some a) = (r, k') → 0 ≤ r → r ≤ 9 →
    ∃ s, (k'.proc c).shared[r.toNat]? = some s ∧ s.sz ≠ 0
      ∧ ∀ b : ShareArgs, b.name = a.name → (k'.proc c).Within b.vamem →
        (sysShareMem k' c (some b)).1 = -2
  refused : ¬ (k.proc c).Real a → sysShareMem k c (some a) = (-1, k)

variable {k : Kernel} {c : Slot} {a : ShareArgs} {name : List Nat} {vamem i : Nat} {sz : CInt}
  {l : List Shared} {s : Shared}

/-! ## The loop -/

/-- The loop of `share_mem` does not answer `-1`. -/
theorem registerFrom_ne (name : List Nat) (vamem : Nat) (sz : CInt) (i : Nat) (l : List Shared) :
    (registerFrom name vamem sz i l).1 ≠ -1 := by
  induction l generalizing i with
  | nil => rintro ⟨⟩
  | cons s l ih =>
    rw [registerFrom]
    split
    · exact fun h => absurd h (by change ¬ (i : Int) = -1; omega)
    · split
      · rintro ⟨⟩
      · exact ih (i + 1)

/-- It stops at a region of the same name, if it gets there. -/
theorem registerFrom_of_name (hs : s ∈ regions l) (hname : strncmp name s.name SHAREDNAME = 0) :
    (registerFrom name vamem sz i l).1 = -2 := by
  induction l generalizing i with
  | nil => exact absurd hs List.not_mem_nil
  | cons t l ih =>
    have ht : t.sz ≠ 0 := fun ht => by simp [regions, ht] at hs
    rw [regions_cons ht] at hs
    rw [registerFrom, if_neg ht]
    by_cases hc : strncmp name t.name SHAREDNAME = 0
    · rw [if_pos hc]
    · rw [if_neg hc]
      refine ih ((List.mem_cons.mp hs).resolve_left fun he => hc ?_)
      rw [← he]
      exact hname

/-- An entry that is written with a size is a region. -/
theorem mem_regions_set (hs : s.sz ≠ 0) (hlt : (regions l).length < l.length) :
    s ∈ regions (l.set (regions l).length s) := by
  obtain ⟨t, rest, hrest⟩ : ∃ t rest, l.drop (regions l).length = t :: rest :=
    List.exists_cons_of_ne_nil (by simpa using hlt)
  have hset : l.set (regions l).length s = regions l ++ s :: rest := by
    nth_rewrite 1 [← regions_append_drop l, hrest]
    rw [List.set_append_right _ _ le_rfl, Nat.sub_self, List.set_cons_zero]
  rw [hset, regions, List.takeWhile_append_of_pos (by simpa using fun t => sz_of_mem_regions)]
  simp [hs]

/-! ## The call -/

/-- A pointer that passes the check. -/
theorem sysShareMem_of_within (hin : (k.proc c).Within a.vamem) :
    sysShareMem k c (some a) = ((registerFrom a.name a.vamem a.sz 0 (k.proc c).shared).1, k.setProc c
      { k.proc c with shared := (registerFrom a.name a.vamem a.sz 0 (k.proc c).shared).2 }) :=
  if_neg (not_not.mpr hin)

/-- …and one that does not. -/
theorem sysShareMem_of_not_within (hin : ¬ (k.proc c).Within a.vamem) :
    sysShareMem k c (some a) = (-1, k) := if_pos hin

/-- **A region of some size that was taken** is there, and its name is used up. -/
theorem sysShareMem_taken {k' : Kernel} {r : Int} (hsz : a.sz ≠ 0) (hr : 0 ≤ r)
    (h : sysShareMem k c (some a) = (r, k')) :
    ∃ s, (k'.proc c).shared[r.toNat]? = some s ∧ s.sz ≠ 0
      ∧ ∀ b : ShareArgs, b.name = a.name → (k'.proc c).Within b.vamem →
        (sysShareMem k' c (some b)).1 = -2 := by
  by_cases hin : (k.proc c).Within a.vamem
  case neg =>
    rw [sysShareMem_of_not_within hin] at h
    exact absurd hr ((Prod.mk.inj h).1 ▸ by decide)
  rw [sysShareMem_of_within hin] at h
  obtain ⟨rfl, rfl⟩ := Prod.mk.inj h
  rcases registerFrom_cases a.name a.vamem a.sz 0 (k.proc c).shared with
    ⟨hneg, -⟩ | ⟨hret, hlt, hset, -⟩
  · exact absurd hr (Int.not_le.mpr hneg)
  rw [Nat.zero_add] at hret
  refine ⟨⟨strncpy a.name SHAREDNAME, a.vamem, a.sz⟩, ?_, hsz, fun b hname hb => ?_⟩
  · rw [hret, Kernel.setProc_proc_self, hset, Int.toNat_natCast]
    exact List.getElem?_set_self hlt
  · rw [sysShareMem_of_within hb, Kernel.setProc_proc_self, hset]
    refine registerFrom_of_name (mem_regions_set hsz hlt) ?_
    rw [hname, strncmp_comm, strncmp_strncpy, strncmp_eq_zero_iff]

/-- **`share_mem` takes real regions only** exactly where the check of four bytes decides: the region
is real, or `argptr` refuses it. -/
theorem share_mem_takes_real_iff (k : Kernel) (c : Slot) (a : ShareArgs)
    (hlow : ∀ v, v < (k.proc c).pages → Present (entry k.mem (k.proc c).pgdir v)) :
    TakesReal k c a ↔ (k.proc c).Real a ∨ ¬ (k.proc c).Within a.vamem := by
  refine ⟨fun h => ?_, fun h => ?_⟩
  · by_contra hc
    obtain ⟨hreal, hin⟩ := not_or.mp hc
    have hr := h.refused hreal
    rw [sysShareMem_of_within (not_not.mp hin)] at hr
    exact registerFrom_ne _ _ _ _ _ (Prod.mk.inj hr).1
  by_cases hin : (k.proc c).Within a.vamem
  · have hreal : (k.proc c).Real a := h.resolve_right (not_not.mpr hin)
    have hsz : a.sz ≠ 0 := fun hz => by
      have := hreal.1
      rw [hz] at this
      exact absurd this (by decide)
    refine ⟨fun _ _ _ _ _ => hreal, fun _ _ _ _ _ x hx hx' => hlow _ ?_,
      fun r k' hr hpos _ => sysShareMem_taken hsz hpos hr, fun hno => absurd hreal hno⟩
    have hend := hreal.2
    rw [Proc.pages]
    omega
  · have hr := sysShareMem_of_not_within hin
    have hnone : ∀ r k', sysShareMem k c (some a) = (r, k') → ¬ 0 ≤ r := fun r k' hr' hpos => by
      rw [hr] at hr'
      exact absurd hpos ((Prod.mk.inj hr').1 ▸ by decide)
    exact ⟨fun r k' hr' hpos => absurd hpos (hnone r k' hr'),
      fun r k' hr' hpos => absurd hpos (hnone r k' hr'),
      fun r k' hr' hpos => absurd hpos (hnone r k' hr'), fun _ => hr⟩

/-- The first process registers four of its bytes. -/
theorem share_mem_takes_real_iff_boot : ∃ k, Boot bareLinker k ∧ (k.proc k.initproc).Real regionX
    ∧ TakesReal k k.initproc regionX := by
  obtain ⟨k, f, d, hboot, hb⟩ := exists_boot 0xDC00 (by decide) (by decide)
  have hsz : (k.proc k.initproc).sz = 4096 := by rw [hb.first]; rfl
  have hreal : (k.proc k.initproc).Real regionX := by
    rw [Proc.Real, hsz]
    decide
  exact ⟨k, hboot, hreal, (share_mem_takes_real_iff k k.initproc regionX
    (hboot.filled.low _ hb.runs.live)).mpr (.inl hreal)⟩

/-- **A region of no bytes** is taken — twice, since its entry is still a free one. -/
theorem share_mem_takes_nothing : ∃ k k', Boot bareLinker k
    ∧ sysShareMem k k.initproc (some ⟨cstr "x", 0, 0⟩) = (0, k')
    ∧ (sysShareMem k' k.initproc (some ⟨cstr "x", 0, 0⟩)).1 = 0
    ∧ ¬ TakesReal k k.initproc ⟨cstr "x", 0, 0⟩ := by
  obtain ⟨k, f, d, hboot, hb⟩ := exists_boot 0xDC00 (by decide) (by decide)
  have hsz : (k.proc k.initproc).sz = 4096 := by rw [hb.first]; rfl
  have hin : (k.proc k.initproc).Within 0 := Proc.within_of_le (by rw [hsz]; decide)
  have hshared : (k.proc k.initproc).shared = Proc.zero.shared := by rw [hb.first]; rfl
  have hr : sysShareMem k k.initproc (some ⟨cstr "x", 0, 0⟩) = (0, k.setProc k.initproc
      { k.proc k.initproc with
        shared := (registerFrom (cstr "x") 0 0 0 Proc.zero.shared).2 }) := by
    rw [sysShareMem_of_within hin, hshared]
    rfl
  refine ⟨k, _, hboot, hr, ?_, fun h => ?_⟩
  · rw [sysShareMem_of_within (by rw [Kernel.setProc_proc_self]; exact hin), Kernel.setProc_proc_self]
    rfl
  · exact absurd (h.real _ _ hr Int.le_rfl (by decide)).1 (by decide)

end Xv6

import Xv6Ipc.Sharing.Table

/-!
# Sharing/Reach — what linking can map at all

A region that cannot be linked is passed over, and its pages may be linked in part.  Whatever happens
on the way, a page of the shared area that is mapped when `linkphysaddr` comes back

    child page v ─▸ frame ◂─ page srcPage memstart j of the parent,   j < pages of a region

is backed by a page the parent has and a region of the table names.
-/

namespace Xv6

/-- Page `v` is backed by a page that a region of the table names in the parent. -/
def LinkedFrom (e e' : Nat → Nat) (perm : Nat) (l : List Shared) (v : Nat) : Prop :=
  ∃ s ∈ regions l, ∃ j < s.pages, Present (e (srcPage s.memstart j))
    ∧ e' v = mkPte (4096 * pteFrame (e (srcPage s.memstart j))) perm

variable {L : Linker} {m m₀ m' : Mem} {d p w va perm : Nat} {l l' rest : List Shared} {s : Shared}

/-- The pages linked for the first region, followed by those for the others. -/
theorem LinkedFrom.cons {e e' : Nat → Nat} {v : Nat} (hs : s.sz ≠ 0)
    (h : LinkedFrom e e' perm rest v) : LinkedFrom e e' perm (s :: rest) v := by
  obtain ⟨s', hs', h⟩ := h
  refine ⟨s', ?_, h⟩
  rw [regions_cons hs]
  exact List.mem_cons_of_mem _ hs'

/-- Linked pages stay below the kernel's. -/
theorem Linked.le_kernel {n : Nat} {src : Nat → Nat} (h : Linked m m' d p w n src perm)
    (hk : Present (Xv6.entry m d 0x80000)) (hw : w ≤ 0x80000) : w + n ≤ 0x80000 := by
  by_contra hlt
  exact h.fresh 0x80000 hw (by omega) hk

/-- Without a parent's directory, a region is linked only if it has no pages. -/
theorem mappa2va_null {r : Int}
    (hok : mappa2va L m d 0 (u32 s.sz.val) s.memstart va perm = .ok (r, m')) :
    m' = m ∧ (r = -1 ∨ r = i32 (pgRoundUp (u32 s.sz.val)) ∧ s.pages = 0) := by
  rw [mappa2va] at hok
  split at hok
  · obtain ⟨rfl, rfl⟩ := Prod.mk.inj (Except.ok.inj hok)
    exact ⟨rfl, .inl rfl⟩
  · rw [← Shared.pages] at hok
    cases hp : s.pages with
    | zero =>
      rw [hp, List.range_zero, Loops.each_nil] at hok
      obtain ⟨rfl, rfl⟩ := Prod.mk.inj (Except.ok.inj hok)
      exact ⟨rfl, .inr ⟨rfl, rfl⟩⟩
    | succ n =>
      have herr : linkPage L d 0 s.memstart va (pgRoundUp (u32 s.sz.val)) perm 0 m
          = .error .nullDeref := if_pos rfl
      rw [hp, List.range_succ_eq_map, Loops.each_cons_error herr] at hok
      simp at hok

/-- **One region, however it ends**, with memory enough for the tables: some pages are linked from
the cursor on, all of them if the answer is not `-1`. -/
theorem mappa2va_ok {r : Int} (hmem : 256 ≤ m₀.free.length) (h₀ : LinkStep m₀ m d)
    (hn : (m.free ++ dirFrames m d).Nodup) (ha : p ≠ 0 → Apart m p d)
    (hk : Present (entry m d 0x80000))
    (hva : pgRoundUp va = w * 4096) (hw : 0x40000 ≤ w) (hw' : w ≤ 0x80000)
    (hok : mappa2va L m d p (u32 s.sz.val) s.memstart va perm = .ok (r, m')) :
    ∃ n ≤ s.pages, Linked m m' d p w n (srcPage s.memstart) perm ∧ w + n ≤ 0x80000
      ∧ (r = -1 ∨ r = i32 (pgRoundUp (u32 s.sz.val)) ∧ n = s.pages) ∧ entry m' p = entry m p
      ∧ (p = 0 → n = 0) := by
  have hzero := Linked.zero m d p w (srcPage s.memstart) perm
  by_cases hnull : p = 0
  · subst hnull
    obtain ⟨rfl, hr⟩ := mappa2va_null hok
    exact ⟨0, Nat.zero_le _, hzero, hw', hr.imp_right (And.imp_right Eq.symm), rfl, fun _ => rfl⟩
  rcases mappa2va_cases L (u32 s.sz.val) s.memstart perm hn (ha hnull) hk hva hw' with
    ⟨hr, -⟩ | ⟨-, ⟨m₁, hr, hl, hroom⟩ | ⟨m₁, k, hr, hlt, hl, -⟩ | ⟨hr, -⟩
      | ⟨⟨m₁, k, -, hl, hlt, hout, hnone⟩, -⟩⟩
  · rw [hr] at hok
    obtain ⟨rfl, rfl⟩ := Prod.mk.inj (Except.ok.inj hok)
    exact ⟨0, Nat.zero_le _, hzero, hw', .inl rfl, rfl, fun _ => rfl⟩
  · rw [hr] at hok
    obtain ⟨rfl, rfl⟩ := Prod.mk.inj (Except.ok.inj hok)
    exact ⟨s.pages, le_rfl, hl, hroom, .inr ⟨rfl, rfl⟩, (hl.step.apart (ha hnull)).2, (absurd · hnull)⟩
  · rw [hr] at hok
    obtain ⟨rfl, rfl⟩ := Prod.mk.inj (Except.ok.inj hok)
    exact ⟨k, hlt.le, hl, hl.le_kernel hk hw', .inl rfl, (hl.step.apart (ha hnull)).2,
      (absurd · hnull)⟩
  · rw [hr] at hok
    simp at hok
  · have hstep := h₀.trans (hl.linkStep hw hlt.le)
    exact absurd hout (hstep.free_ne_nil hmem (by omega) (by omega) hnone)

/-- **Whatever a table, `linkphysaddr` adds only pages its regions name in the parent**, given
memory for the tables. -/
theorem linkFrom_reach {r : Int} (hmem : 256 ≤ m₀.free.length) (h₀ : LinkStep m₀ m d)
    (hn : (m.free ++ dirFrames m d).Nodup) (ha : p ≠ 0 → Apart m p d)
    (hk : Present (entry m d 0x80000)) (hw : 0x40000 ≤ w) (hw' : w ≤ 0x80000) (hva : va ≤ 4096 * w)
    (hback : 4096 * w + l.length < va + 4096)
    (hok : linkFrom L d p perm l va m = .ok (r, m', l')) :
    LinkStep m m' d ∧ ∀ v, entry m' d v = entry m d v
      ∨ p ≠ 0 ∧ 0x40000 ≤ v ∧ v < 0x80000 ∧ LinkedFrom (entry m p) (entry m' d) perm l v := by
  induction l generalizing m w va l' with
  | nil => simp [linkFrom] at hok
  | cons s rest ih =>
    by_cases hs : s.sz = 0
    · rw [linkFrom, if_pos hs] at hok
      obtain ⟨-, hx⟩ := Prod.mk.inj (Except.ok.inj hok)
      obtain ⟨rfl, -⟩ := Prod.mk.inj hx
      exact ⟨.refl m d, fun v => .inl rfl⟩
    obtain ⟨x, m₁, rest', hmap, hrest, -⟩ := linkFrom_ok hs hok
    rw [List.length_cons] at hback
    have hround : pgRoundUp va = w * 4096 := by
      rw [pgRoundUp]
      omega
    obtain ⟨n, hle, hl, hroom, hx, hparent, hzero⟩ := mappa2va_ok hmem h₀ hn ha hk hround hw hw' hmap
    have hstep := hl.linkStep hw hroom
    have ha₁ : p ≠ 0 → Apart m₁ p d := fun hp => (hl.step.apart (ha hp)).1
    have hk₁ : Present (entry m₁ d 0x80000) := by
      rw [hl.entry, if_neg (by omega)]
      exact hk
    have hminus : u32 (-1) = 0xFFFFFFFF := by decide
    have hnext : LinkStep m₁ m' d ∧ ∀ v, entry m' d v = entry m₁ d v
        ∨ p ≠ 0 ∧ 0x40000 ≤ v ∧ v < 0x80000 ∧ LinkedFrom (entry m₁ p) (entry m' d) perm rest v := by
      rcases hx with rfl | ⟨rfl, rfl⟩
      · have hcur : u32 (va + u32 (-1)) = va - 1 := by
          rw [hminus, u32]
          omega
        rw [hcur] at hrest
        exact ih (h₀.trans hstep) (hl.step.nodup hn) ha₁ hk₁ hw hw' (by omega)
          (by omega) hrest
      · have hpages := s.pages_mul
        have hcur : u32 (va + u32 (i32 (pgRoundUp (u32 s.sz.val)))) = va + s.pages * 4096 := by
          rw [u32_i32 (Shared.pgRoundUp_lt _), ← hpages, u32]
          omega
        rw [hcur] at hrest
        exact ih (h₀.trans hstep) (hl.step.nodup hn) ha₁ hk₁ (by omega) hroom
          (by omega) (by omega) hrest
    refine ⟨hstep.trans hnext.1, fun v => ?_⟩
    rcases hnext.2 v with hv | ⟨hp, hv, hv', hfrom⟩
    · by_cases hin : w ≤ v ∧ v < w + n
      · refine .inr ⟨fun hp => ?_, by omega, by omega, s, ?_, v - w, by omega, hl.source _ (by omega), ?_⟩
        · have := hzero hp
          omega
        · rw [regions_cons hs]
          exact List.mem_cons_self ..
        · rw [hv, hl.entry, if_pos hin]
      · refine .inl ?_
        rw [hv, hl.entry, if_neg hin]
    · rw [hparent] at hfrom
      exact .inr ⟨hp, hv, hv', hfrom.cons hs⟩

end Xv6

import Xv6Ipc.Process.Calls

/-!
# Process/Sbrk — moving the end of a process

`sbrk` hands a new end to `allocuvm` or `deallocuvm` and takes a size of zero for failure:

    sz + n < 0     nothing happens: the new end, in 32 bits, lies above the old one
    sz + n = 0     every page is given back, the answer is 0, and the process keeps its size
    sz + n > 0     the end moves, or memory is short and stays as it was

-/

namespace Xv6

variable {L : Linker} {k k' : Kernel} {c : Slot} {n : CInt}

/-- **Every way `sbrk` can return**: `allocuvm` or `deallocuvm` comes to a size, and the process gets
it unless it is zero. -/
theorem sysSbrk_inv {n : CInt} {r : Int} (h : sysSbrk L k c n = .ok (r, k')) :
    (n.val = 0 ∧ k' = k) ∨ ∃ sz m,
      ((0 < n.val ∧ allocuvm L k.mem (k.proc c).pgdir (k.proc c).sz (u32 ((k.proc c).sz + n.val))
          = .ok (sz, m)) ∨
        (n.val < 0 ∧ deallocuvm L k.mem (k.proc c).pgdir (k.proc c).sz
          (u32 ((k.proc c).sz + n.val)) = .ok (sz, m)))
      ∧ k' = { k with mem := m }.setProc c
        { k.proc c with sz := if sz = 0 then (k.proc c).sz else sz } := by
  rw [sysSbrk] at h
  split at h
  · simp at h
  rename_i r₁ k₁ hg
  obtain ⟨-, rfl⟩ := Prod.mk.inj (Except.ok.inj h)
  rw [growproc] at hg
  split at hg
  · simp at hg
  rename_i sz m hres
  have hstay : ∀ m : Mem, { k with mem := m } = { k with mem := m }.setProc c (k.proc c) := fun m => by
    simp only [Kernel.setProc, Function.update_eq_self]
  have hmoved : n.val ≠ 0 → k₁ = { k with mem := m }.setProc c
      { k.proc c with sz := if sz = 0 then (k.proc c).sz else sz } := fun hn => by
    by_cases hsz : sz = 0
    · rw [if_pos ⟨hn, hsz⟩] at hg
      obtain ⟨-, rfl⟩ := Prod.mk.inj (Except.ok.inj hg)
      rw [if_pos hsz]
      exact hstay m
    · rw [if_neg fun hc => hsz hc.2] at hg
      split at hg
      · simp at hg
      · obtain ⟨-, rfl⟩ := Prod.mk.inj (Except.ok.inj hg)
        rw [if_neg hsz]
  rcases Int.lt_trichotomy n.val 0 with hneg | hzero | hpos
  · rw [if_neg (Int.lt_asymm hneg), if_pos hneg] at hres
    exact .inr ⟨sz, m, .inr ⟨hneg, hres⟩, hmoved (Int.ne_of_lt hneg)⟩
  · rw [hzero, if_neg (Int.lt_irrefl 0), if_neg (Int.lt_irrefl 0)] at hres
    obtain ⟨rfl, rfl⟩ := Prod.mk.inj (Except.ok.inj hres)
    rw [if_neg fun hc => hc.1 hzero] at hg
    split at hg
    · simp at hg
    · obtain ⟨-, rfl⟩ := Prod.mk.inj (Except.ok.inj hg)
      exact .inl ⟨hzero, (hstay k.mem).symm⟩
  · rw [if_pos hpos] at hres
    exact .inr ⟨sz, m, .inl ⟨hpos, hres⟩, hmoved (Int.ne_of_gt hpos)⟩

/-- **The call that gives back every page**: its new end is zero, which `growproc` reads as failure. -/
def Proc.Emptying (p : Proc) (n : CInt) : Prop := n.val < 0 ∧ p.sz + n.val = 0

instance (p : Proc) (n : CInt) : Decidable (p.Emptying n) := inferInstanceAs (Decidable (_ ∧ _))

/-- How many pages a process keeps. -/
def Proc.kept (p : Proc) (n : CInt) : Nat :=
  if n.val < 0 ∧ 0 ≤ p.sz + n.val then ((p.sz + n.val).toNat + 4095) / 4096 else p.pages

/-- **What `sbrk` does to the caller.** -/
structure Resized (k k' : Kernel) (c : Slot) (n : CInt) : Prop where
  same : k' = { k with mem := k'.mem }.setProc c { k.proc c with sz := (k'.proc c).sz }
  size : (k'.proc c).sz < SHAREBASE
  ended : Ended k.mem k'.mem (k.proc c).pgdir (k.proc c).pages ((k.proc c).kept n)
    (if (k.proc c).Emptying n then 0 else (k'.proc c).pages)
  emptied : (k.proc c).Emptying n → (k'.proc c).sz = (k.proc c).sz

/-- A new end for an image that has been moved there. -/
theorem Resized.of_ended {m : Mem} {sz : Nat} (hsz : sz < SHAREBASE)
    (hend : Ended k.mem m (k.proc c).pgdir (k.proc c).pages ((k.proc c).kept n)
      (if (k.proc c).Emptying n then 0 else (sz + 4095) / 4096))
    (hemp : (k.proc c).Emptying n → sz = (k.proc c).sz) :
    Resized k ({ k with mem := m }.setProc c { k.proc c with sz := sz }) c n := by
  refine ⟨?_, ?_, ?_, ?_⟩
  · rw [Kernel.setProc_proc_self, Kernel.setProc_mem]
  all_goals rw [Kernel.setProc_proc_self]
  · exact hsz
  · exact hend
  · exact hemp

theorem Proc.kept_of_nonneg (p : Proc) (hn : 0 ≤ n.val) : p.kept n = p.pages :=
  if_neg fun hc => Int.not_lt.mpr hn hc.1

theorem Proc.not_emptying_of_nonneg (p : Proc) (hn : 0 ≤ n.val) : ¬ p.Emptying n := fun hc =>
  Int.not_lt.mpr hn hc.1

section Ends

variable {m : Mem} {sz : Nat} (h : Core L k) (hl : (k.proc c).Live)
include h hl

/-- Growing. -/
theorem Resized.of_allocuvm (hn : 0 < n.val) (hr : allocuvm L k.mem (k.proc c).pgdir (k.proc c).sz
      (u32 ((k.proc c).sz + n.val)) = .ok (sz, m)) :
    Resized k ({ k with mem := m }.setProc c
      { k.proc c with sz := if sz = 0 then (k.proc c).sz else sz }) c n := by
  have hsize := h.size c hl
  have hgap := h.gap c hl
  have hkept := (k.proc c).kept_of_nonneg (Int.le_of_lt hn)
  have hnot := (k.proc c).not_emptying_of_nonneg (Int.le_of_lt hn)
  have hnew : (k.proc c).sz < u32 ((k.proc c).sz + n.val) := by
    have := n.lt_max
    rw [SHAREBASE] at hsize
    rw [u32]
    omega
  rcases allocuvm_spec (u32 ((k.proc c).sz + n.val)) (h.free_owned_nodup hl) (h.owned_frame hl) hgap
    with ⟨m', hr', hlt, hg⟩ | ⟨m', hr', hs, -⟩
  · rw [Nat.max_eq_right hnew.le] at hr' hg
    obtain ⟨rfl, rfl⟩ := Prod.mk.inj (Except.ok.inj (hr.symm.trans hr'))
    rw [if_neg (Nat.ne_of_gt (Nat.zero_lt_of_lt hnew))]
    refine .of_ended hlt ?_ fun hc => absurd hc hnot
    rw [if_neg hnot, hkept]
    refine hg.ended hgap (Nat.div_le_div_right (Nat.add_le_add_right hnew.le _)) ?_
    rw [SHAREBASE] at hlt
    omega
  · obtain ⟨rfl, rfl⟩ := Prod.mk.inj (Except.ok.inj (hr.symm.trans hr'))
    rw [if_pos rfl]
    refine .of_ended hsize ?_ fun hc => absurd hc hnot
    rw [if_neg hnot, hkept]
    exact hs.ended hgap

/-- Giving back the pages from a new end on. -/
theorem Core.deallocuvm {new : Nat} (hlt : new < (k.proc c).sz) :
    ∃ m', Xv6.deallocuvm L k.mem (k.proc c).pgdir (k.proc c).sz new = .ok (new, m')
      ∧ Ended k.mem m' (k.proc c).pgdir (k.proc c).pages ((new + 4095) / 4096)
        ((new + 4095) / 4096) := by
  have hsize := h.size c hl
  have hgap := h.gap c hl
  rw [SHAREBASE] at hsize
  have hpages : (new + 4095) / 4096 ≤ (k.proc c).pages :=
    Nat.div_le_div_right (Nat.add_le_add_right hlt.le _)
  have hpages' : (k.proc c).pages ≤ 0x40000 := by
    rw [Proc.pages]
    omega
  have hsub : (leavesIn k.mem (k.proc c).pgdir ((new + 4095) / 4096) (k.proc c).pages).Sublist
      (leaves k.mem (k.proc c).pgdir) := by
    rw [Gap.leaves_eq hgap hpages', leavesIn_split (Nat.zero_le _) hpages]
    exact List.sublist_append_right _ _
  obtain ⟨m', hr, hd⟩ := deallocuvm_spec hlt (by omega)
    ((h.free_owned_nodup hl).sublist ((hsub.append_left _).append_left _))
    fun f hf => h.owned_frame hl f (List.mem_append_right _
      (List.mem_append_right _ (hsub.subset hf)))
  exact ⟨m', hr, hd.ended hgap hpages hpages'⟩

/-- Shrinking. -/
theorem Resized.of_deallocuvm (hn : n.val < 0) (hr : deallocuvm L k.mem (k.proc c).pgdir
      (k.proc c).sz (u32 ((k.proc c).sz + n.val)) = .ok (sz, m)) :
    Resized k ({ k with mem := m }.setProc c
      { k.proc c with sz := if sz = 0 then (k.proc c).sz else sz }) c n := by
  have hsize := h.size c hl
  have hgap := h.gap c hl
  have hmin := n.min_le
  rw [SHAREBASE] at hsize
  by_cases hneg : (k.proc c).sz + n.val < 0
  · -- the new end wraps around to one above the old
    have hbig : (k.proc c).sz ≤ u32 ((k.proc c).sz + n.val) := by
      rw [u32]
      omega
    have hnot : ¬ (k.proc c).Emptying n := fun hc => by
      have := hc.2
      omega
    have hkept : (k.proc c).kept n = (k.proc c).pages := if_neg fun hc => by omega
    rw [deallocuvm_of_le hbig] at hr
    obtain ⟨rfl, rfl⟩ := Prod.mk.inj (Except.ok.inj hr)
    rw [ite_self]
    refine .of_ended (h.size c hl) ?_ fun _ => rfl
    rw [if_neg hnot, hkept]
    exact .refl hgap
  · obtain ⟨new, hnew⟩ : ∃ new : Nat, (k.proc c).sz + n.val = new :=
      Int.eq_ofNat_of_zero_le (Int.not_lt.mp hneg)
    have hlt : new < (k.proc c).sz := by omega
    have hu : u32 ((k.proc c).sz + n.val) = new := by
      rw [hnew]
      exact u32_of_lt (by omega)
    have hkept : (k.proc c).kept n = (new + 4095) / 4096 := by
      rw [Proc.kept, if_pos ⟨hn, Int.not_lt.mp hneg⟩, hnew, Int.toNat_natCast]
    rw [hu] at hr
    obtain ⟨m', hr', hend⟩ := h.deallocuvm hl hlt
    obtain ⟨rfl, rfl⟩ := Prod.mk.inj (Except.ok.inj (hr.symm.trans hr'))
    by_cases hzero : sz = 0
    · have hemp : (k.proc c).Emptying n := ⟨hn, by omega⟩
      rw [if_pos hzero]
      refine .of_ended (h.size c hl) ?_ fun _ => rfl
      rw [if_pos hemp, hkept]
      rw [hzero] at hend ⊢
      exact hend
    · have hnot : ¬ (k.proc c).Emptying n := fun hc => by
        have := hc.2
        omega
      rw [if_neg hzero]
      refine .of_ended (hlt.trans (h.size c hl)) ?_ fun hc => absurd hc hnot
      rw [if_neg hnot, hkept]
      exact hend

/-- **What `sbrk` can do.** -/
theorem sysSbrk_spec {r : Int} (hok : sysSbrk L k c n = .ok (r, k')) : Resized k k' c n := by
  rcases sysSbrk_inv hok with ⟨hn, rfl⟩ | ⟨sz, m, ⟨hn, hr⟩ | ⟨hn, hr⟩, rfl⟩
  · have hzero : 0 ≤ n.val := Int.le_of_eq hn.symm
    have hnot := (k'.proc c).not_emptying_of_nonneg hzero
    refine ⟨(Kernel.setProc_proc k' c).symm, h.size c hl, ?_, fun hc => absurd hc hnot⟩
    rw [if_neg hnot, Proc.kept_of_nonneg _ hzero]
    exact .refl (h.gap c hl)
  · exact .of_allocuvm h hl hn hr
  · exact .of_deallocuvm h hl hn hr

/-- The call that gives back every page answers `-1`. -/
theorem sysSbrk_emptying (hemp : (k.proc c).Emptying n) : ∃ k', sysSbrk L k c n = .ok (-1, k') := by
  obtain ⟨hneg, hsum⟩ := hemp
  obtain ⟨m, hr, -⟩ := h.deallocuvm hl (by omega : 0 < (k.proc c).sz)
  have hgrow : growproc L k c n = .ok (-1, { k with mem := m }) := by
    have hzero : u32 0 = 0 := rfl
    rw [growproc]
    simp only [hsum, if_neg (Int.lt_asymm hneg), if_pos hneg, hzero, hr]
    exact if_pos ⟨Int.ne_of_lt hneg, trivial⟩
  rw [sysSbrk, hgrow]
  exact ⟨_, rfl⟩

end Ends

namespace Resized

variable (hr : Resized k k' c n)
include hr

theorem other {s : Slot} (hne : s ≠ c) : k'.proc s = k.proc s := by
  rw [hr.same, Kernel.setProc_proc_of_ne _ _ _ hne]

/-- The process has a new size and nothing else. -/
theorem own : k'.proc c = { k.proc c with sz := (k'.proc c).sz } := by
  rw [hr.same, Kernel.setProc_proc_self]

theorem pgdir : (k'.proc c).pgdir = (k.proc c).pgdir := by rw [hr.own]

theorem live : (k'.proc c).Live ↔ (k.proc c).Live := by rw [hr.own, Proc.Live, Proc.Live]

theorem gap : Gap k'.mem (k'.proc c).pgdir (k'.proc c).pages := by
  rw [hr.pgdir]
  refine hr.ended.gap.mono ?_
  split
  · exact Nat.zero_le _
  · exact le_rfl

theorem trade (h : Core L k) (hl : (k.proc c).Live) : Trade k k' c [] := by
  refine ⟨?_, fun s hs => .of_eq (hr.other hs), fun _ => hr.size, fun _ => hr.gap, ?_⟩
  · rw [hold_of_live hl, hold_of_live (hr.live.mpr hl), List.append_nil, hr.own]
    exact hr.ended.moves.extend_left [(k.proc c).kstack]
  · rw [hr.own]
    exact h.table c

end Resized

end Xv6

import Xv6Ipc.Process.Solo

/-!
# Process/Growproc — what `growproc` answers and what it has done

`growproc` adds a signed `n` to an unsigned `sz` and hands the sum to one of two functions that use
`0` for failure:

    n > 0    allocuvm(sz, sz + n)      0: no room, nothing changed        -1
    n < 0    deallocuvm(sz, sz + n)    sz + n < 0 is a large number,      0, and nothing was done
                                       sz + n = 0 is a size and 0 too     -1, and every page is gone

The answer is right for every `n` that leaves the process at least one byte.
-/

namespace Xv6

/-- **A process with its memory in order**: its frames are its own, it has the pages below `sz` and
none from there to `SHAREBASE`, and there is a kernel stack. -/
structure InOrder (L : Linker) (k : Kernel) (c : Slot) : Prop where
  nodup : (k.mem.free ++ owned k.mem (k.proc c).pgdir).Nodup
  frame : ∀ f ∈ k.mem.free ++ owned k.mem (k.proc c).pgdir, L.Frame f
  size : (k.proc c).sz < SHAREBASE
  low : ∀ v, v < (k.proc c).pages → Present (entry k.mem (k.proc c).pgdir v)
  gap : Gap k.mem (k.proc c).pgdir (k.proc c).pages
  kstack : (k.proc c).kstack ≠ 0

/-- A page is where it was, with what was in it. -/
def SamePage (m m' : Mem) (d v : Nat) : Prop :=
  entry m' d v = entry m d v ∧ m'.cell (pteFrame (entry m d v)) = m.cell (pteFrame (entry m d v))

/-- **What an answer of `0` promises**: the size is `sz + n`, exactly the pages below it are mapped,
those that were there before have kept their contents, and the others are zero. -/
structure Moved (k k' : Kernel) (c : Slot) (n : CInt) : Prop where
  size : ((k'.proc c).sz : Int) = (k.proc c).sz + n.val
  below : (k'.proc c).sz < SHAREBASE
  mapped : ∀ v, v < 0x40000 → (Present (entry k'.mem (k.proc c).pgdir v) ↔ v < (k'.proc c).pages)
  kept : ∀ v, v < (k.proc c).pages → v < (k'.proc c).pages →
    SamePage k.mem k'.mem (k.proc c).pgdir v
  zero : ∀ v, (k.proc c).pages ≤ v → v < (k'.proc c).pages →
    k'.mem.cell (pteFrame (entry k'.mem (k.proc c).pgdir v)) = fun _ => 0

/-- **What an answer of `-1` promises**: below `SHAREBASE` everything is as it was. -/
structure Stayed (k k' : Kernel) (c : Slot) : Prop where
  size : (k'.proc c).sz = (k.proc c).sz
  mapped : ∀ v, v < 0x40000 →
    (Present (entry k'.mem (k.proc c).pgdir v) ↔ Present (entry k.mem (k.proc c).pgdir v))
  kept : ∀ v, v < 0x40000 → Present (entry k.mem (k.proc c).pgdir v) →
    SamePage k.mem k'.mem (k.proc c).pgdir v

/-- **`growproc` does what it answers.** -/
def GrowsAsTold (L : Linker) (k : Kernel) (c : Slot) (n : CInt) : Prop :=
  ∃ r k', growproc L k c n = .ok (r, k') ∧ (r = 0 ∧ Moved k k' c n ∨ r = -1 ∧ Stayed k k' c)

/-- The call would leave the process with no byte, or with fewer. -/
def Proc.Overdrawn (p : Proc) (n : CInt) : Prop := n.val < 0 ∧ 0 < p.sz ∧ p.sz + n.val ≤ 0

instance (p : Proc) (n : CInt) : Decidable (p.Overdrawn n) :=
  inferInstanceAs (Decidable (_ ∧ _ ∧ _))

variable {L : Linker} {k k' : Kernel} {c : Slot} {n : CInt} {m m' : Mem} {d lo hi v : Nat}

/-! ## Pages that nobody writes -/

theorem SamePage.refl (m : Mem) (d v : Nat) : SamePage m m d v := ⟨rfl, rfl⟩

/-- The frame behind a page is not free, and is no directory. -/
theorem pteFrame_apart (hn : (m.free ++ owned m d).Nodup) (hv : v < 0x40000)
    (hp : Present (entry m d v)) :
    pteFrame (entry m d v) ∉ m.free ∧ pteFrame (entry m d v) ∉ dirFrames m d := by
  have hleaf : pteFrame (entry m d v) ∈ leaves m d := mem_leaves.mpr ⟨v, hv, leafAt_eq_some.mpr ⟨hp, rfl⟩⟩
  rw [owned, ← List.append_assoc] at hn
  have hd := List.disjoint_of_nodup_append hn
  exact ⟨fun hc => hd (List.mem_append_left _ hc) hleaf, fun hc => hd (List.mem_append_right _ hc) hleaf⟩

theorem Backed.samePage {perm : Nat → Nat} {x : Nat → Nat → Nat} (h : Backed m m' d lo hi perm x)
    (hn : (m.free ++ owned m d).Nodup) (hv : v < 0x40000) (hp : Present (entry m d v))
    (hout : ¬ (lo ≤ v ∧ v < hi)) : SamePage m m' d v :=
  have hapart := pteFrame_apart hn hv hp
  ⟨h.keep v hout, h.moves.frame _ hapart.1 hapart.2⟩

theorem Undone.samePage (h : Undone m m' d lo hi []) (hn : (m.free ++ owned m d).Nodup)
    (hv : v < 0x40000) (hp : Present (entry m d v)) (hout : ¬ (lo ≤ v ∧ v < hi)) :
    SamePage m m' d v :=
  have hapart := pteFrame_apart hn hv hp
  ⟨h.keep v hout, h.moves.frame _ hapart.1 hapart.2⟩

theorem Dropped.samePage (h : Dropped m m' d lo hi) (hn : (m.free ++ owned m d).Nodup)
    (hv : v < 0x40000) (hhi : hi ≤ 0x40000) (hp : Present (Xv6.entry m d v))
    (hout : ¬ (lo ≤ v ∧ v < hi)) : SamePage m m' d v := by
  have hapart := pteFrame_apart hn hv hp
  refine ⟨by rw [h.entry, if_neg fun hc => hout ⟨hc.1, hc.2.1⟩], h.moves.frame _ hapart.1 fun hc => ?_⟩
  -- no two pages of an image have one frame
  rcases List.mem_append.mp hc with hc | hc
  · exact hapart.2 hc
  obtain ⟨u, hu, hu', hleaf⟩ := mem_leavesIn.mp hc
  have hnl : (leaves m d).Nodup := (List.nodup_append.mp (List.nodup_append.mp hn).2.1).2.1
  obtain rfl := leafAt_inj hnl hv (hu'.trans_le hhi) (leafAt_eq_some.mpr ⟨hp, rfl⟩) hleaf
  exact hout ⟨hu, hu'⟩

/-! ## The two ways to end -/

/-- Nothing was done. -/
theorem Stayed.refl (k : Kernel) (c : Slot) : Stayed k k c :=
  ⟨rfl, fun _ _ => Iff.rfl, fun v _ _ => .refl _ _ v⟩

namespace InOrder

variable (h : InOrder L k c)
include h

theorem pages_le : (k.proc c).pages ≤ 0x40000 := by
  have := h.size
  rw [SHAREBASE] at this
  rw [Proc.pages]
  omega

theorem present_iff (hv : v < 0x40000) :
    Present (entry k.mem (k.proc c).pgdir v) ↔ v < (k.proc c).pages :=
  ⟨fun hp => not_le.mp fun hle => h.gap v hle hv hp, h.low v⟩

theorem switchuvm_ok (sz : Nat) : switchuvm { k.proc c with sz := sz } = .ok () := by
  have hpgdir : (k.proc c).pgdir ≠ 0 := Linker.Frame.ne_zero (h.frame _
    (List.mem_append_right _ (List.mem_append_left _ (List.mem_cons_self ..))))
  rw [switchuvm, if_neg h.kstack, if_neg hpgdir]

/-- `growproc`, from where the new size is known. -/
theorem growproc_eq {sz : Nat}
    (hres : (if 0 < n.val then allocuvm L k.mem (k.proc c).pgdir (k.proc c).sz (u32 ((k.proc c).sz + n.val))
      else if n.val < 0 then
        deallocuvm L k.mem (k.proc c).pgdir (k.proc c).sz (u32 ((k.proc c).sz + n.val))
      else .ok ((k.proc c).sz, k.mem)) = .ok (sz, m)) :
    growproc L k c n = if n.val ≠ 0 ∧ sz = 0 then .ok (-1, { k with mem := m })
      else .ok (0, { k with mem := m }.setProc c { k.proc c with sz := sz }) := by
  rw [growproc]
  simp only [hres, h.switchuvm_ok]

/-- Nothing was asked for. -/
theorem moved_zero (hn : n.val = 0) (hk : k' = k.setProc c (k.proc c)) : Moved k k' c n := by
  rw [Kernel.setProc_proc] at hk
  subst hk
  refine ⟨by rw [hn, Int.add_zero], h.size, fun v => h.present_iff, fun v _ _ => .refl _ _ v,
    fun v hv hv' => absurd hv' (not_lt.mpr hv)⟩

/-- **Pages have been added.** -/
theorem moved_up {new : Nat} (hnew : (new : Int) = (k.proc c).sz + n.val) (hle : (k.proc c).sz ≤ new)
    (hlt : new < SHAREBASE) (hb : Backed k.mem m (k.proc c).pgdir (k.proc c).pages ((new + 4095) / 4096)
      (fun _ => PTE_W ||| PTE_U) fun _ _ => 0) :
    Moved k ({ k with mem := m }.setProc c { k.proc c with sz := new }) c n := by
  have hpages : (k.proc c).pages ≤ (new + 4095) / 4096 :=
    Nat.div_le_div_right (Nat.add_le_add_right hle _)
  refine ⟨?_, ?_, fun v hv => ?_, fun v hv _ => ?_, fun v hv hv' => ?_⟩
  all_goals simp only [Kernel.setProc_proc_self, Kernel.setProc_mem, Proc.pages]
  · exact hnew
  · exact hlt
  · by_cases hold : v < (k.proc c).pages
    · rw [hb.keep v (by omega)]
      exact iff_of_true (h.low v hold) (by omega)
    · by_cases hin : v < (new + 4095) / 4096
      · obtain ⟨f, hf, -⟩ := hb.mapped v (not_lt.mp hold) hin
        rw [hf]
        exact iff_of_true (present_mkPte _ _) hin
      · rw [hb.keep v (by omega)]
        exact iff_of_false (h.gap v (not_lt.mp hold) hv) hin
  · exact hb.samePage h.nodup (hv.trans_le h.pages_le) (h.low v hv) (by omega)
  · rw [Kernel.setProc_proc_self] at hv'
    obtain ⟨f, hf, hc⟩ := hb.mapped v hv hv'
    rw [hf, pteFrame_mkPte f (by decide), hc]

/-- **Pages have been given back.** -/
theorem moved_down {new : Nat} (hnew : (new : Int) = (k.proc c).sz + n.val)
    (hlt : new < (k.proc c).sz)
    (hd : Dropped k.mem m (k.proc c).pgdir ((new + 4095) / 4096) (k.proc c).pages) :
    Moved k ({ k with mem := m }.setProc c { k.proc c with sz := new }) c n := by
  have hpages : (new + 4095) / 4096 ≤ (k.proc c).pages :=
    Nat.div_le_div_right (Nat.add_le_add_right hlt.le _)
  refine ⟨?_, ?_, fun v hv => ?_, fun v hv hv' => ?_, fun v hv hv' => ?_⟩
  all_goals simp only [Kernel.setProc_proc_self, Kernel.setProc_mem, Proc.pages] at *
  · exact hnew
  · exact hlt.trans h.size
  · by_cases hin : v < (new + 4095) / 4096
    · rw [hd.entry, if_neg (by omega)]
      exact iff_of_true (h.low v (by rw [Proc.pages]; omega)) hin
    · exact iff_of_false (hd.gap h.gap v (not_lt.mp hin) hv) hin
  · have hold : v < (k.proc c).pages := by rw [Proc.pages]; omega
    exact hd.samePage h.nodup (hold.trans_le h.pages_le) h.pages_le (h.low v hold) (by omega)
  · omega

/-- **Memory was short.** -/
theorem stayed_undone {new : Nat}
    (hu : Undone k.mem m (k.proc c).pgdir (k.proc c).pages ((new + 4095) / 4096) []) :
    Stayed k { k with mem := m } c := by
  have hsame : ∀ v, v < 0x40000 → Present (entry k.mem (k.proc c).pgdir v) →
      SamePage k.mem m (k.proc c).pgdir v := fun v hv hp =>
    hu.samePage h.nodup hv hp (by have := (h.present_iff hv).mp hp; omega)
  refine ⟨rfl, fun v hv => ?_, hsame⟩
  change Present (entry m _ v) ↔ _
  by_cases hp : Present (entry k.mem (k.proc c).pgdir v)
  · rw [(hsame v hv hp).1]
  · refine iff_of_false (fun hc => ?_) hp
    by_cases hin : (k.proc c).pages ≤ v ∧ v < (new + 4095) / 4096
    · exact hu.gone v hin.1 hin.2 hc
    · rw [hu.keep v hin] at hc
      exact hp hc

/-! ## `growproc` -/

/-- Growing. -/
theorem grows_up (hn : 0 < n.val) : GrowsAsTold L k c n := by
  have hsize := h.size
  rw [SHAREBASE] at hsize
  have hmax := n.lt_max
  obtain ⟨new, hnew⟩ : ∃ new : Nat, (k.proc c).sz + n.val = new := Int.eq_ofNat_of_zero_le (by omega)
  have hu : u32 ((k.proc c).sz + n.val) = new := by
    rw [hnew]
    exact u32_of_lt (by omega)
  by_cases hbig : SHAREBASE ≤ new
  · have hres : allocuvm L k.mem (k.proc c).pgdir (k.proc c).sz new = .ok (0, k.mem) := if_pos hbig
    refine ⟨-1, k, ?_, .inr ⟨rfl, .refl k c⟩⟩
    rw [h.growproc_eq ((if_pos hn).trans (by rw [hu, hres])), if_pos ⟨Int.ne_of_gt hn, rfl⟩]
  have hdir := h.nodup
  have hframe := h.frame
  rw [owned, ← List.append_assoc] at hdir hframe
  have hpages : (new + 4095) / 4096 ≤ 0x40000 := by
    rw [SHAREBASE] at hbig
    omega
  rcases allocuvm_cases (List.nodup_append.mp hdir).1
      (fun g hg => hframe g (List.mem_append_left _ hg)) (not_le.mp hbig)
      (by omega : (k.proc c).sz ≤ new) (fun v hv hv' => h.gap v hv (by omega)) with
    ⟨m, hr, hb⟩ | ⟨m, hr, hun⟩
  · refine ⟨0, _, ?_, .inl ⟨rfl, h.moved_up hnew.symm (by omega) (not_le.mp hbig) hb⟩⟩
    rw [h.growproc_eq ((if_pos hn).trans (by rw [hu, hr])), if_neg fun hc => by omega]
  · refine ⟨-1, _, ?_, .inr ⟨rfl, h.stayed_undone hun⟩⟩
    rw [h.growproc_eq ((if_pos hn).trans (by rw [hu, hr])), if_pos ⟨Int.ne_of_gt hn, rfl⟩]

/-- What `deallocuvm` does for a smaller size. -/
theorem growproc_down {new : Nat} (hn : n.val < 0) (hnew : (k.proc c).sz + n.val = new) :
    ∃ m, Dropped k.mem m (k.proc c).pgdir ((new + 4095) / 4096) (k.proc c).pages
      ∧ growproc L k c n = if new = 0 then .ok (-1, { k with mem := m })
        else .ok (0, { k with mem := m }.setProc c { k.proc c with sz := new }) := by
  have hsize := h.size
  have hlt : new < (k.proc c).sz := by omega
  rw [SHAREBASE] at hsize
  have hu : u32 ((k.proc c).sz + n.val) = new := by
    rw [hnew]
    exact u32_of_lt (by omega)
  have hpages : (new + 4095) / 4096 ≤ (k.proc c).pages :=
    Nat.div_le_div_right (Nat.add_le_add_right hlt.le _)
  have hsub : (leavesIn k.mem (k.proc c).pgdir ((new + 4095) / 4096) (k.proc c).pages).Sublist
      (leaves k.mem (k.proc c).pgdir) := by
    rw [h.gap.leaves_eq h.pages_le, leavesIn_split (Nat.zero_le _) hpages]
    exact List.sublist_append_right _ _
  obtain ⟨m, hr, hd⟩ := deallocuvm_spec hlt (by omega)
    (h.nodup.sublist ((hsub.append_left _).append_left _))
    fun f hf => h.frame f (List.mem_append_right _ (List.mem_append_right _ (hsub.subset hf)))
  refine ⟨m, hd, ?_⟩
  rw [h.growproc_eq ((if_neg (Int.lt_asymm hn)).trans ((if_pos hn).trans (by rw [hu, hr])))]
  simp only [ne_eq, Int.ne_of_lt hn, not_false_eq_true, true_and]

/-- A sum below zero is a large number to `deallocuvm`, which then does nothing. -/
theorem growproc_wrap (hneg : (k.proc c).sz + n.val < 0) :
    growproc L k c n = if (k.proc c).sz = 0 then .ok (-1, k) else .ok (0, k) := by
  have hsize := h.size
  have hmin := n.min_le
  have hn : n.val < 0 := by omega
  rw [SHAREBASE] at hsize
  have hbig : (k.proc c).sz ≤ u32 ((k.proc c).sz + n.val) := by
    rw [u32]
    omega
  rw [h.growproc_eq ((if_neg (Int.lt_asymm hn)).trans ((if_pos hn).trans (deallocuvm_of_le hbig)))]
  simp only [ne_eq, Int.ne_of_lt hn, not_false_eq_true, true_and]
  exact ite_congr rfl (fun _ => rfl) fun _ =>
    congrArg (fun k' => Except.ok (0, k')) (Kernel.setProc_proc k c)

/-- Shrinking to a byte or more. -/
theorem grows_down (hn : n.val < 0) (hok : ¬ (k.proc c).Overdrawn n) : GrowsAsTold L k c n := by
  by_cases hneg : (k.proc c).sz + n.val < 0
  · have hzero : (k.proc c).sz = 0 := by
      by_contra hne
      exact hok ⟨hn, Nat.pos_of_ne_zero hne, Int.le_of_lt hneg⟩
    refine ⟨-1, k, ?_, .inr ⟨rfl, .refl k c⟩⟩
    rw [h.growproc_wrap hneg, if_pos hzero]
  · obtain ⟨new, hnew⟩ : ∃ new : Nat, (k.proc c).sz + n.val = new :=
      Int.eq_ofNat_of_zero_le (Int.not_lt.mp hneg)
    have hpos : new ≠ 0 := by
      rintro rfl
      exact hok ⟨hn, by omega, Int.le_of_eq hnew⟩
    obtain ⟨m, hd, hgrow⟩ := h.growproc_down hn hnew
    exact ⟨0, _, by rw [hgrow, if_neg hpos], .inl ⟨rfl, h.moved_down hnew.symm (by omega) hd⟩⟩

/-- **…and to less than a byte**: either the answer is `0` and the size is what it was, or the answer
is `-1` and page `0` is gone. -/
theorem not_grows (hover : (k.proc c).Overdrawn n) : ¬ GrowsAsTold L k c n := by
  rintro ⟨r, k', hr, hans⟩
  obtain ⟨hn, hpos, hle⟩ := hover
  rcases Int.lt_or_eq_of_le hle with hneg | hzero
  · rw [h.growproc_wrap hneg, if_neg (Nat.ne_of_gt hpos)] at hr
    obtain ⟨rfl, rfl⟩ := Prod.mk.inj (Except.ok.inj hr)
    rcases hans with ⟨-, hmoved⟩ | ⟨hno, -⟩
    · have := hmoved.size
      omega
    · exact absurd hno (by decide)
  · obtain ⟨m, hd, hgrow⟩ := h.growproc_down hn (hzero : _ = ((0 : Nat) : Int))
    rw [hgrow, if_pos rfl] at hr
    obtain ⟨rfl, rfl⟩ := Prod.mk.inj (Except.ok.inj hr)
    rcases hans with ⟨hno, -⟩ | ⟨-, hstay⟩
    · exact absurd hno (by decide)
    · have hp := (hstay.mapped 0 (by decide)).mpr (h.low 0 (by rw [Proc.pages]; omega))
      exact hd.gap h.gap 0 (by decide) (by decide) hp

/-- A call that leaves the process with a byte, or finds it with none. -/
theorem grows (hok : ¬ (k.proc c).Overdrawn n) : GrowsAsTold L k c n := by
  rcases Int.lt_trichotomy n.val 0 with hn | hn | hn
  · exact h.grows_down hn hok
  · have hnot : ¬ 0 < n.val ∧ ¬ n.val < 0 := by omega
    refine ⟨0, _, ?_, .inl ⟨rfl, h.moved_zero hn rfl⟩⟩
    rw [h.growproc_eq ((if_neg hnot.1).trans (if_neg hnot.2)), if_neg fun hc => hc.1 hn]
  · exact h.grows_up hn

/-- **`growproc` does what it answers** exactly if the process is left with a byte, or had none. -/
theorem grows_as_told_iff : GrowsAsTold L k c n ↔ ¬ (k.proc c).Overdrawn n :=
  ⟨fun htold hover => h.not_grows hover htold, h.grows⟩

end InOrder

/-! ## The first process -/

/-- The books put every process in order. -/
theorem Core.inOrder (h : Core L k) (hl : (k.proc c).Live)
    (hlow : ∀ v, v < (k.proc c).pages → Present (entry k.mem (k.proc c).pgdir v)) : InOrder L k c where
  nodup := h.free_owned_nodup hl
  frame := h.owned_frame hl
  size := h.size c hl
  low := hlow
  gap := h.gap c hl
  kstack := Linker.Frame.ne_zero (h.hold_frame (by rw [hold_of_live hl]; exact List.mem_cons_self ..))

theorem Boot.inOrder (hboot : Boot L k) (hruns : (k.proc k.initproc).Runs) : InOrder L k k.initproc :=
  hboot.filled.core.inOrder hruns.live (hboot.filled.low _ hruns.live)

/-- The first process asks for a page. -/
theorem grows_as_told_boot : ∃ k, Boot bareLinker k ∧ InOrder bareLinker k k.initproc
    ∧ GrowsAsTold bareLinker k k.initproc ⟨4096, by decide, by decide⟩ := by
  obtain ⟨k, f, d, hboot, hb⟩ := exists_boot 0xDC00 (by decide) (by decide)
  have hin := hboot.inOrder hb.runs
  exact ⟨k, hboot, hin, hin.grows_as_told_iff.mpr fun hc => absurd hc.1 (by decide)⟩

/-- Seven pages more than the first process has. -/
def sbrkPages : CInt := ⟨-0x8000, by decide, by decide⟩

/-- **Two answers that are wrong**: the first process asks to give back eight pages and is told that
it has, with its one page still there; it asks to give back the one and is told that it has not, with
the page gone. -/
theorem growproc_mistold : ∃ k, Boot bareLinker k ∧ InOrder bareLinker k k.initproc
    ∧ (k.proc k.initproc).sz = 4096
    ∧ growproc bareLinker k k.initproc sbrkPages = .ok (0, k)
    ∧ ¬ GrowsAsTold bareLinker k k.initproc sbrkPages
    ∧ (∃ k', growproc bareLinker k k.initproc sbrkPage = .ok (-1, k')
      ∧ ¬ Present (entry k'.mem (k.proc k.initproc).pgdir 0))
    ∧ ¬ GrowsAsTold bareLinker k k.initproc sbrkPage := by
  obtain ⟨k, f, d, hboot, hb⟩ := exists_boot 0xDC00 (by decide) (by decide)
  have hin := hboot.inOrder hb.runs
  have hsz : (k.proc k.initproc).sz = 4096 := by rw [hb.first]; rfl
  have hover : ∀ n : CInt, n.val ≤ -4096 → (k.proc k.initproc).Overdrawn n := fun n hn => by
    rw [Proc.Overdrawn, hsz]
    omega
  refine ⟨k, hboot, hin, hsz, ?_, fun h => ?_, ?_, fun h => ?_⟩
  · rw [hin.growproc_wrap (by rw [hsz]; decide), if_neg (by rw [hsz]; decide)]
  · exact hin.not_grows (hover _ (by decide)) h
  · have hnone : ((k.proc k.initproc).sz : Int) + sbrkPage.val = (0 : Nat) := by
      rw [hsz]
      decide
    obtain ⟨m, hd, hgrow⟩ := hin.growproc_down (by decide) hnone
    exact ⟨_, hgrow, hd.gap hin.gap 0 (by decide) (by decide)⟩
  · exact hin.not_grows (hover _ (by decide)) h

end Xv6
